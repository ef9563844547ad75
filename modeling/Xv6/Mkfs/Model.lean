import Xv6.Fs.Format

/-!
# Building the initial file system (`mkfs/mkfs.c`)

The image file is an array of `length` sectors.  A read behind the end of the file ends in `die`, as
does a file that cannot be opened; a false `assert` ends the program too.  `lseek` gets
`sec * BSIZE`, a `uint`.

The arguments are the files behind the name of the image.  What `read` returns of a file is a list of
pieces, each of one up to `BSIZE` bytes, until it returns `0` or `-1`.  The counters `freeinode` and
`freeblock` are numbers: a block that `freeblock` names is read at once, and an inode that
`freeinode` names is written at once, so both stop far below `2 ^ 32`.
-/

namespace Mkfs
open Bytes Fs

def NINODES : Nat := 200
def nbitmap : Nat := FSSIZE / (BSIZE * 8) + 1
def ninodeblocks : Nat := NINODES / IPB + 1
def nlog : Nat := LOGSIZE

/-- number of meta blocks -/
def nmeta : Nat := 2 + nlog + ninodeblocks + nbitmap

def nblocks : Nat := FSSIZE - nmeta

def sb : Superblock where
  magic := FSMAGIC
  size := .ofNat 32 FSSIZE
  nblocks := .ofNat 32 nblocks
  ninodes := .ofNat 32 NINODES
  nlog := .ofNat 32 nlog
  logstart := 2
  inodestart := .ofNat 32 (2 + nlog)
  bmapstart := .ofNat 32 (2 + nlog + ninodeblocks)

inductive Stop where
  | die (s : String)
  | open (path : List Byte)
  | assert (e : String)

structure State where
  length : Nat
  sector : Nat → Buf
  freeinode : Nat
  freeblock : Nat

def assert (e : String) (c : Prop) [Decidable c] : Except Stop Unit :=
  if c then .ok () else .error (.assert e)

/-! ## sectors and inodes -/

/-- the sector at the offset `sec * BSIZE` -/
def place (sec : Nat) : Nat := sec * BSIZE % 2 ^ 32 / BSIZE

def wsect (s : State) (sec : Nat) (buf : Buf) : State :=
  { s with
    length := max s.length (place sec + 1)
    sector := Function.update s.sector (place sec) buf }

def rsect (s : State) (sec : Nat) : Except Stop Buf :=
  if place sec < s.length then .ok (s.sector (place sec)) else .error (.die "read")

/-- `IBLOCK(inum, sb)` -/
def iblock (inum : Nat) : Nat := inum / IPB + sb.inodestart.toNat

def winode (s : State) (inum : Nat) (din : Dinode) : Except Stop State := do
  let buf ← rsect s (iblock inum)
  return wsect s (iblock inum) (din.put buf (64 * (inum % IPB)))

def rinode (s : State) (inum : Nat) : Except Stop Dinode := do
  let buf ← rsect s (iblock inum)
  return Dinode.get buf (64 * (inum % IPB))

def ialloc (s : State) (type : BitVec 16) : Except Stop (Nat × State) := do
  let inum := s.freeinode
  let s ← winode { s with freeinode := s.freeinode + 1 } inum
    { Dinode.zero with type := type, nlink := 1 }
  return (inum, s)

/-- the bitmap with the first blocks marked -/
def bitmap : Nat → Buf
  | 0 => fun _ => 0
  | i + 1 => setBit (bitmap i) i

def balloc (s : State) (used : Nat) : Except Stop State := do
  assert "used < BSIZE*8" (used < BSIZE * 8)
  return wsect s sb.bmapstart.toNat (bitmap used)

/-! ## appending to a file -/

/-- `xint(freeblock++)` is stored in `din.addrs[i]` -/
def takeAddr (s : State) (din : Dinode) (i : Fin (NDIRECT + 1)) : Dinode × State :=
  (din.setAddr i (.ofNat 32 s.freeblock), { s with freeblock := s.freeblock + 1 })

/-- the block `x` of the file block `fbn`, allocated if it is not there -/
def blockOf (s : State) (din : Dinode) (fbn : Nat) : Except Stop (Nat × Dinode × State) :=
  if h : fbn < NDIRECT then
    let i : Fin (NDIRECT + 1) := ⟨fbn, Nat.lt_succ_of_lt h⟩
    let r := if din.addrs i = 0 then takeAddr s din i else (din, s)
    .ok ((r.1.addrs i).toNat, r)
  else do
    let r := if din.table = 0 then takeAddr s din (Fin.last NDIRECT) else (din, s)
    let indirect ← rsect r.2 r.1.table.toNat
    let o := 4 * (fbn - NDIRECT)
    if get32 indirect o = 0 then
      let indirect' := set32 indirect o (.ofNat 32 r.2.freeblock)
      let s' := wsect { r.2 with freeblock := r.2.freeblock + 1 } r.1.table.toNat indirect'
      .ok ((get32 indirect' o).toNat, r.1, s')
    else
      .ok ((get32 indirect o).toNat, r)

/-- the bytes at `p` -/
def ofList (p : List Byte) : Buf := fun i => p.getD i 0

/-- the loop of `iappend`; `n` bounds the number of its turns -/
def iappendLoop : Nat → State → Dinode → Nat → List Byte → Except Stop (Dinode × Nat × State)
  | 0, s, din, off, _ => .ok (din, off, s)
  | n + 1, s, din, off, p =>
    if p.length = 0 then .ok (din, off, s)
    else do
      let fbn := off / BSIZE
      assert "fbn < MAXFILE" (fbn < MAXFILE)
      let r ← blockOf s din fbn
      let n1 := min p.length ((fbn + 1) * BSIZE - off)
      let buf ← rsect r.2.2 r.1
      let s' := wsect r.2.2 r.1 (splice buf (off - fbn * BSIZE) n1 (ofList p))
      iappendLoop n s' r.2.1 (off + n1) (p.drop n1)

def iappend (s : State) (inum : Nat) (p : List Byte) : Except Stop State := do
  let din ← rinode s inum
  let r ← iappendLoop p.length s din din.size.toNat p
  winode r.2.2 inum { r.1 with size := .ofNat 32 r.2.1 }

/-! ## main -/

/-- a `struct dirent` with a name copied by `strncpy` -/
def dirent (inum : Nat) (name : List Byte) : List Byte :=
  [le16 (.ofNat 16 inum) 0, le16 (.ofNat 16 inum) 1] ++
    (name.take DIRSIZ ++ List.replicate (DIRSIZ - name.length) 0)

def slash : Byte := 0x2f
def underscore : Byte := 0x5f
def dot : Byte := 0x2e

/-- `"user/"` -/
def userDir : List Byte := [0x75, 0x73, 0x65, 0x72, 0x2f]

/-- a file on the command line: `argv[i]`, and what `read` returns of it if it can be opened -/
structure Arg where
  path : List Byte
  data : Option (List {p : List Byte // 0 < p.length ∧ p.length ≤ BSIZE})

/-- the name without `user/` -/
def stripUser (path : List Byte) : List Byte :=
  if path.take 5 = userDir then path.drop 5 else path

/-- the name without a leading `_` -/
def stripUnderscore (name : List Byte) : List Byte :=
  if name.head? = some underscore then name.tail else name

/-- the image file, filled with zeroes -/
def zeroed : State :=
  (List.range FSSIZE).foldl (fun s i => wsect s i fun _ => 0) ⟨0, fun _ _ => 0, 1, nmeta⟩

def mkroot (s : State) : Except Stop State := do
  let r ← ialloc s T_DIR
  assert "rootino == ROOTINO" (r.1 = ROOTINO)
  let s ← iappend r.2 r.1 (dirent r.1 [dot])
  iappend s r.1 (dirent r.1 [dot, dot])

def addFile (s : State) (a : Arg) : Except Stop State := do
  let shortname := stripUser a.path
  assert "index(shortname, '/') == 0" (shortname.contains slash = false)
  match a.data with
  | none => .error (.open a.path)
  | some pieces =>
    let r ← ialloc s T_FILE
    let s ← iappend r.2 ROOTINO (dirent r.1 (stripUnderscore shortname))
    pieces.foldlM (fun s p => iappend s r.1 p.val) s

/-- fix size of root inode dir -/
def fixRoot (s : State) : Except Stop State := do
  let din ← rinode s ROOTINO
  let off := (din.size.toNat / BSIZE + 1) * BSIZE
  winode s ROOTINO { din with size := .ofNat 32 off }

def mkfs (args : List Arg) : Except Stop State := do
  let s ← mkroot (wsect zeroed 1 (sb.put fun _ => 0))
  let s ← args.foldlM addFile s
  let s ← fixRoot s
  balloc s s.freeblock

/-! ## the image -/

/-- the inode `inum` as the kernel finds it -/
def State.dinode (s : State) (inum : Nat) : Dinode :=
  Dinode.get (s.sector (iblock inum)) (64 * (inum % IPB))

/-- the inode numbers that `ialloc` has given out -/
def State.InUse (s : State) (inum : Nat) : Prop := 1 ≤ inum ∧ inum < s.freeinode

/-- the place holds the number of a block of the inode, or of its indirect block -/
def State.Needed (s : State) (inum : Nat) (p : Place) : Prop :=
  s.InUse inum ∧ p.Needed (blocksFor (s.dinode inum).size.toNat)

def State.addr (s : State) (inum : Nat) (p : Place) : Nat := (s.dinode inum).addr s.sector p

/-- a consistent image: every file has its blocks, each block has one use, and the bitmap says so -/
structure Consistent (s : State) : Prop where
  super : Superblock.get (s.sector 1) = sb
  inum : ∀ i, s.InUse i → i < sb.ninodes.toNat ∧ (s.dinode i).type ≠ 0 ∧
    sb.inodestart.toNat ≤ iblock i ∧ iblock i < sb.bmapstart.toNat
  nonzero : ∀ i bn, s.InUse i → bn < blocksFor (s.dinode i).size.toNat →
    (s.dinode i).block s.sector bn ≠ 0
  distinct : ∀ i p i' p', s.Needed i p → s.Needed i' p' → s.addr i p = s.addr i' p' → i = i' ∧ p = p'
  range : ∀ i p, s.Needed i p → nmeta ≤ s.addr i p ∧ s.addr i p < FSSIZE
  bits : ∀ b, b < BPB →
    (bit (s.sector sb.bmapstart.toNat) b = true ↔ b < nmeta ∨ ∃ i p, s.Needed i p ∧ s.addr i p = b)

end Mkfs
