import Xv6.Fs.Format
import Xv6.Lib.Run

/-!
# Blocks and inodes (`kernel/fs.c`)

The disk is what the buffer cache shows of it: `bread` gives the data of a block, and a change to a
buffer is seen by the next `bread`.  `Store.logged` lists the block numbers that `log_write` got.

An inode in memory has the fields of the one on disk.  `block` numbers are numbers: the `int` that
`balloc` counts with does not overflow on disks of less than `2 ^ 31` blocks.

A copy from or to the user stops at the first byte that is not accessible, as `copyin` and `copyout` do;
`acc i` says that the byte `i` of the user buffer is.  In a kernel buffer all bytes are.
-/

namespace Fs
open Bytes Run

structure Store where
  block : Nat → Buf
  logged : List Nat

/-- the data of a buffer changes -/
def Store.modify (s : Store) (b : Nat) (data : Buf) : Store :=
  { s with block := Function.update s.block b data }

def Store.logWrite (s : Store) (b : Nat) : Store := { s with logged := b :: s.logged }

/-- the data of a buffer changes, and `log_write` gets it -/
def Store.write (s : Store) (b : Nat) (data : Buf) : Store := (s.modify b data).logWrite b

section
variable (sb : Superblock)

def BBLOCK (b : Nat) : Nat := b / BPB + sb.bmapstart.toNat

def IBLOCK (i : Nat) : Nat := i / IPB + sb.inodestart.toNat

/-! ## blocks -/

def bzero (s : Store) (bno : Nat) : Store := s.write bno fun _ => 0

/-- the inner loop of `balloc`, with `n` turns left -/
def freeBit (buf : Buf) (b : Nat) : (n bi : Nat) → Option Nat
  | 0, _ => none
  | n + 1, bi =>
    if b + bi < sb.size.toNat then
      if bit buf bi = false then some bi else freeBit buf b n (bi + 1)
    else none

/-- the outer loop, with at most `n` turns left -/
def ballocLoop (s : Store) : (n b : Nat) → Nat × Store
  | 0, _ => (0, s)
  | n + 1, b =>
    if b < sb.size.toNat then
      match freeBit sb (s.block (BBLOCK sb b)) b BPB 0 with
      | some bi =>
        (b + bi, bzero (s.write (BBLOCK sb b) (setBit (s.block (BBLOCK sb b)) bi)) (b + bi))
      | none => ballocLoop s n (b + BPB)
    else (0, s)

/-- a zeroed block, or 0 -/
def balloc (s : Store) : Nat × Store := ballocLoop sb s (sb.size.toNat / BPB + 1) 0

def bfree (s : Store) (b : Nat) : Outcome Store :=
  if bit (s.block (BBLOCK sb b)) (b % BPB) = false then .panic "freeing free block"
  else .next (s.write (BBLOCK sb b) (clearBit (s.block (BBLOCK sb b)) (b % BPB)))

/-! ## inodes -/

/-- the inode `inum` on disk -/
def inodeAt (s : Store) (inum : Nat) : Dinode := Dinode.get (s.block (IBLOCK sb inum)) (64 * (inum % IPB))

def iupdate (s : Store) (inum : Nat) (ip : Dinode) : Store :=
  s.write (IBLOCK sb inum) (ip.put (s.block (IBLOCK sb inum)) (64 * (inum % IPB)))

/-- the loop of `ialloc`, with `n` turns left -/
def iallocLoop (s : Store) (type : BitVec 16) : (n inum : Nat) → Option Nat × Store
  | 0, _ => (none, s)
  | n + 1, inum =>
    if inum < sb.ninodes.toNat then
      if (inodeAt sb s inum).type = 0 then
        (some inum, iupdate sb s inum { Dinode.zero with type := type })
      else iallocLoop s type n (inum + 1)
    else (none, s)

def ialloc (s : Store) (type : BitVec 16) : Option Nat × Store := iallocLoop sb s type sb.ninodes.toNat 1

/-! ## inode content -/

/-- the number of the indirect block, which is allocated if there is none -/
def bmapTable (s : Store) (ip : Dinode) : Nat × Dinode × Store :=
  if ip.table = 0 then
    let (addr, s) := balloc sb s
    (addr, if addr = 0 then ip else ip.setAddr (Fin.last NDIRECT) (.ofNat 32 addr), s)
  else (ip.table.toNat, ip, s)

def bmap (s : Store) (ip : Dinode) (bn : Nat) : Outcome (Nat × Dinode × Store) :=
  if h : bn < NDIRECT then
    let i : Fin NDIRECT := ⟨bn, h⟩
    if ip.addrs i.castSucc = 0 then
      let (addr, s) := balloc sb s
      .next (addr, if addr = 0 then ip else ip.setAddr i.castSucc (.ofNat 32 addr), s)
    else .next ((ip.addrs i.castSucc).toNat, ip, s)
  else if bn - NDIRECT < NINDIRECT then
    let (table, ip, s) := bmapTable sb s ip
    if table = 0 then .next (0, ip, s)
    else
      let a := get32 (s.block table) (4 * (bn - NDIRECT))
      if a = 0 then
        let (addr, s) := balloc sb s
        if addr = 0 then .next (0, ip, s)
        else .next (addr, ip, s.write table (set32 (s.block table) (4 * (bn - NDIRECT)) (.ofNat 32 addr)))
      else .next (a.toNat, ip, s)
  else .panic "bmap: out of range"

/-- the first loop of `itrunc` -/
def freeDirect (s : Store) (ip : Dinode) : List (Fin NDIRECT) → Outcome (Dinode × Store)
  | [] => .next (ip, s)
  | i :: l =>
    if ip.addrs i.castSucc = 0 then freeDirect s ip l
    else do
      let s ← bfree sb s (ip.addrs i.castSucc).toNat
      freeDirect s (ip.setAddr i.castSucc 0) l

/-- the second loop of `itrunc` -/
def freeEntries (s : Store) (table : Nat) : List (Fin NINDIRECT) → Outcome Store
  | [] => .next s
  | j :: l =>
    if get32 (s.block table) (4 * j) = 0 then freeEntries s table l
    else do
      let s ← bfree sb s (get32 (s.block table) (4 * j)).toNat
      freeEntries s table l

def itrunc (s : Store) (inum : Nat) (ip : Dinode) : Outcome (Dinode × Store) := do
  let (ip, s) ← freeDirect sb s ip (List.finRange NDIRECT)
  let (ip, s) ←
    if ip.table = 0 then Outcome.next (ip, s)
    else do
      let s ← freeEntries sb s ip.table.toNat (List.finRange NINDIRECT)
      let s ← bfree sb s ip.table.toNat
      Outcome.next (ip.setAddr (Fin.last NDIRECT) 0, s)
  let ip := { ip with size := 0 }
  Outcome.next (ip, iupdate sb s inum ip)

end

/-! ## reading and writing -/

/-- how many of the `m` bytes from `i` on a copy transfers -/
def upto (acc : Nat → Bool) : (i m : Nat) → Nat
  | _, 0 => 0
  | i, m + 1 => if acc i then upto acc (i + 1) m + 1 else 0

/-- the bytes up to the end of the block, at most `n` -/
def chunk (off n : Nat) : Nat := min n (BSIZE - off % BSIZE)

section
variable (sb : Superblock)

/-- the loop of `readi`, with at most `k` turns left -/
def readLoop (acc : Nat → Bool) :
    (k : Nat) → Store → Dinode → (dst : Buf) → (off n tot : Nat) → Outcome (Int × Buf × Dinode × Store)
  | 0, s, ip, dst, _, _, tot => .next (tot, dst, ip, s)
  | k + 1, s, ip, dst, off, n, tot =>
    if tot < n then do
      let (addr, ip, s) ← bmap sb s ip (off / BSIZE)
      if addr = 0 then .next ((tot : Int), dst, ip, s)
      else
        let m := chunk off (n - tot)
        let c := upto acc tot m
        let dst := splice dst tot c fun i => s.block addr (off % BSIZE + i)
        if c < m then .next (-1, dst, ip, s)
        else readLoop acc k s ip dst (off + m) n (tot + m)
    else .next (tot, dst, ip, s)

/-- what is returned, and the bytes at `dst` -/
def readi (s : Store) (ip : Dinode) (acc : Nat → Bool) (dst : Buf) (off n : BitVec 32) :
    Outcome (Int × Buf × Dinode × Store) :=
  if off > ip.size ∨ off + n < off then .next (0, dst, ip, s)
  else
    let n := if off + n > ip.size then ip.size - off else n
    readLoop sb acc n.toNat s ip dst off.toNat n.toNat 0

/-- the loop of `writei`, with at most `k` turns left; the result is `tot` and `off` -/
def writeLoop (acc : Nat → Bool) (src : Buf) :
    (k : Nat) → Store → Dinode → (off n tot : Nat) → Outcome (Nat × Nat × Dinode × Store)
  | 0, s, ip, off, _, tot => .next (tot, off, ip, s)
  | k + 1, s, ip, off, n, tot =>
    if tot < n then do
      let (addr, ip, s) ← bmap sb s ip (off / BSIZE)
      if addr = 0 then .next (tot, off, ip, s)
      else
        let m := chunk off (n - tot)
        let c := upto acc tot m
        let s := s.modify addr (splice (s.block addr) (off % BSIZE) c fun i => src (tot + i))
        if c < m then .next (tot, off, ip, s)
        else writeLoop acc src k (s.logWrite addr) ip (off + m) n (tot + m)
    else .next (tot, off, ip, s)

def writei (s : Store) (inum : Nat) (ip : Dinode) (acc : Nat → Bool) (src : Buf) (off n : BitVec 32) :
    Outcome (Int × Dinode × Store) :=
  if off > ip.size ∨ off + n < off then .next (-1, ip, s)
  else if off.toNat + n.toNat > MAXFILE * BSIZE then .next (-1, ip, s)
  else do
    let (tot, off, ip, s) ← writeLoop sb acc src n.toNat s ip off.toNat n.toNat 0
    let ip := if off > ip.size.toNat then { ip with size := .ofNat 32 off } else ip
    Outcome.next ((tot : Int), ip, iupdate sb s inum ip)

end

end Fs
