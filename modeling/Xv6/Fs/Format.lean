import Xv6.Lib.Bytes
import Xv6.Lib.Slots

/-!
# The on-disk format (`kernel/fs.h`)

A disk is an array of blocks of `BSIZE` bytes: boot block, super block, log, inode blocks, free bit
map, data blocks.

* `Superblock`, `Dinode`   with their bytes;
* `Dinode.get_put`, `Dinode.get_put_ne`   a stored inode is read back, and its neighbours stay;
* `Place`, `Dinode.addr`   where an inode keeps block numbers, and the number kept there;
* `Dinode.addr_congr`      which parts of the disk these numbers depend on.
-/

namespace Fs
open Bytes Function

def ROOTINO : Nat := 1
def BSIZE : Nat := 1024
def FSMAGIC : BitVec 32 := 0x10203040
def NDIRECT : Nat := 12
def NINDIRECT : Nat := 256
def MAXFILE : Nat := 268
def DIRSIZ : Nat := 14

/-- inodes per block, `BSIZE / sizeof(struct dinode)` -/
def IPB : Nat := 16

/-- bitmap bits per block -/
def BPB : Nat := 8192

def FSSIZE : Nat := 2000
def LOGSIZE : Nat := 30

def T_DIR : BitVec 16 := 1
def T_FILE : BitVec 16 := 2
def T_DEVICE : BitVec 16 := 3

structure Superblock where
  magic : BitVec 32
  size : BitVec 32
  nblocks : BitVec 32
  ninodes : BitVec 32
  nlog : BitVec 32
  logstart : BitVec 32
  inodestart : BitVec 32
  bmapstart : BitVec 32

/-- `memmove` of the first bytes of a block into a `struct superblock` -/
def Superblock.get (b : Buf) : Superblock where
  magic := get32 b 0
  size := get32 b 4
  nblocks := get32 b 8
  ninodes := get32 b 12
  nlog := get32 b 16
  logstart := get32 b 20
  inodestart := get32 b 24
  bmapstart := get32 b 28

def Superblock.put (b : Buf) (sb : Superblock) : Buf :=
  set32 (set32 (set32 (set32 (set32 (set32 (set32 (set32 b 0 sb.magic) 4 sb.size) 8 sb.nblocks)
    12 sb.ninodes) 16 sb.nlog) 20 sb.logstart) 24 sb.inodestart) 28 sb.bmapstart

theorem Superblock.get_put (b : Buf) (sb : Superblock) : Superblock.get (sb.put b) = sb := by
  simp [Superblock.get, Superblock.put, get32_set32_ne]

@[ext] structure Dinode where
  type : BitVec 16
  major : BitVec 16
  minor : BitVec 16
  nlink : BitVec 16
  size : BitVec 32
  addrs : Fin (NDIRECT + 1) → BitVec 32

namespace Dinode

/-- `bzero(&din, sizeof(din))` -/
def zero : Dinode := ⟨0, 0, 0, 0, 0, fun _ => 0⟩

/-- the words of `addrs` -/
def words (d : Dinode) (i : Nat) : BitVec 32 := if h : i < NDIRECT + 1 then d.addrs ⟨i, h⟩ else 0

/-- the inode at offset `o` of a block -/
def get (b : Buf) (o : Nat) : Dinode where
  type := get16 b o
  major := get16 b (o + 2)
  minor := get16 b (o + 4)
  nlink := get16 b (o + 6)
  size := get32 b (o + 8)
  addrs := fun i => get32 b (o + 12 + 4 * i)

def put (b : Buf) (o : Nat) (d : Dinode) : Buf :=
  splice (set32 (set16 (set16 (set16 (set16 b o d.type) (o + 2) d.major) (o + 4) d.minor)
    (o + 6) d.nlink) (o + 8) d.size) (o + 12) 52 (Bytes.words d.words)

theorem get_put (b : Buf) (o : Nat) (d : Dinode) : get (d.put b o) o = d := by
  ext : 1
  · simp only [get, put, set16, set32]
    rw [get16_splice (by omega), get16_splice (by omega), get16_splice (by omega),
      get16_splice (by omega), get16_splice (by omega)]
    exact get16_set16 b o d.type
  · simp only [get, put, set16, set32]
    rw [get16_splice (by omega), get16_splice (by omega), get16_splice (by omega),
      get16_splice (by omega)]
    exact get16_set16 _ _ _
  · simp only [get, put, set16, set32]
    rw [get16_splice (by omega), get16_splice (by omega), get16_splice (by omega)]
    exact get16_set16 _ _ _
  · simp only [get, put, set16, set32]
    rw [get16_splice (by omega), get16_splice (by omega)]
    exact get16_set16 _ _ _
  · simp only [get, put, set16, set32]
    rw [get32_splice (by omega)]
    exact get32_set32 _ _ _
  · funext i
    have hi : i.val < NDIRECT + 1 := i.isLt
    have hlt : i.val < 13 := hi
    simp only [get, put]
    rw [get32_splice_in (by omega), get32_words, words, dif_pos hi]

theorem get_zero (o : Nat) : get (fun _ => 0) o = zero := by
  unfold get zero
  simp only [get16_zero, get32_zero]

variable {b : Buf} {o : Nat}

theorem get_congr {b' : Buf} (h : ∀ j, o ≤ j → j < o + 64 → b j = b' j) : get b o = get b' o := by
  ext : 1
  · exact get16_congr fun j hj => h _ (by omega) (by omega)
  · exact get16_congr fun j hj => h _ (by omega) (by omega)
  · exact get16_congr fun j hj => h _ (by omega) (by omega)
  · exact get16_congr fun j hj => h _ (by omega) (by omega)
  · exact get32_congr fun j hj => h _ (by omega) (by omega)
  · funext i
    have hlt : i.val < 13 := i.isLt
    exact get32_congr fun j hj => h _ (by omega) (by omega)

theorem put_out {j : Nat} {d : Dinode} (h : j < o ∨ o + 64 ≤ j) : d.put b o j = b j := by
  simp only [put, set16, set32]
  rw [splice_out (by omega), splice_out (by omega), splice_out (by omega), splice_out (by omega),
    splice_out (by omega), splice_out (by omega)]

theorem get_put_ne {o' : Nat} {d : Dinode} (h : o + 64 ≤ o' ∨ o' + 64 ≤ o) : get (d.put b o) o' = get b o' :=
  get_congr fun _ h1 h2 => put_out (by omega)

end Dinode

/-! ## block numbers of an inode -/

/-- a place for a block number: in `addrs`, for the indirect block, or in the indirect block -/
inductive Place where
  | direct (i : Fin NDIRECT)
  | table
  | entry (j : Fin NINDIRECT)
  deriving DecidableEq

/-- the number of the indirect block -/
def Dinode.table (d : Dinode) : BitVec 32 := d.addrs (Fin.last NDIRECT)

/-- the block number that stands in a place, `0` for none -/
def Dinode.addr (sec : Nat → Buf) (d : Dinode) : Place → Nat
  | .direct i => (d.addrs i.castSucc).toNat
  | .table => d.table.toNat
  | .entry j => if d.table = 0 then 0 else (get32 (sec d.table.toNat) (4 * j)).toNat

/-- the block number of the block `bn` of a file -/
def Dinode.block (sec : Nat → Buf) (d : Dinode) (bn : Nat) : Nat :=
  if h : bn < NDIRECT then d.addr sec (.direct ⟨bn, h⟩)
  else if h : bn - NDIRECT < NINDIRECT then d.addr sec (.entry ⟨bn - NDIRECT, h⟩)
  else 0

variable {sec : Nat → Buf} {d : Dinode}

theorem Dinode.addr_congr {sec' : Nat → Buf}
    (h : d.table ≠ 0 → sec' d.table.toNat = sec d.table.toNat) (p : Place) :
    d.addr sec' p = d.addr sec p := by
  cases p with
  | direct i | table => rfl
  | entry j =>
    show (if d.table = 0 then 0 else (get32 (sec' d.table.toNat) (4 * j)).toNat) =
      if d.table = 0 then 0 else (get32 (sec d.table.toNat) (4 * j)).toNat
    split
    · rfl
    · rw [h ‹_›]

/-- `addrs[i] = x` -/
def Dinode.setAddr (d : Dinode) (i : Fin (NDIRECT + 1)) (x : BitVec 32) : Dinode :=
  { d with addrs := Function.update d.addrs i x }

theorem castSucc_ne_last (i : Fin NDIRECT) : i.castSucc ≠ Fin.last NDIRECT :=
  Fin.ne_of_lt (Fin.castSucc_lt_last i)

@[simp] theorem Dinode.setAddr_last (d : Dinode) (x : BitVec 32) :
    (d.setAddr (Fin.last NDIRECT) x).table = x := by
  show update d.addrs (Fin.last NDIRECT) x (Fin.last NDIRECT) = x
  rw [update_self]

@[simp] theorem Dinode.setAddr_castSucc (d : Dinode) (i : Fin NDIRECT) (x : BitVec 32) :
    (d.setAddr i.castSucc x).table = d.table := by
  show update d.addrs i.castSucc x (Fin.last NDIRECT) = d.addrs (Fin.last NDIRECT)
  rw [update_of_ne (castSucc_ne_last i).symm]

theorem Dinode.addr_table (sec : Nat → Buf) (d : Dinode) : d.addr sec .table = d.table.toNat := rfl

theorem Dinode.addr_entry (h : d.table ≠ 0) (j : Fin NINDIRECT) :
    d.addr sec (.entry j) = (get32 (sec d.table.toNat) (4 * j)).toNat := if_neg h

theorem Dinode.addr_entry_zero (h : d.table = 0) (j : Fin NINDIRECT) : d.addr sec (.entry j) = 0 := if_pos h

theorem Dinode.addr_setDirect (sec : Nat → Buf) (d : Dinode) (i : Fin NDIRECT) (x : BitVec 32)
    (p : Place) :
    (d.setAddr i.castSucc x).addr sec p = if p = .direct i then x.toNat else d.addr sec p := by
  cases p with
  | direct j =>
    by_cases e : j = i
    · subst e
      rw [if_pos rfl]
      exact congrArg BitVec.toNat (update_self _ _ _)
    · rw [if_neg (by simpa using e)]
      exact congrArg BitVec.toNat
        (update_of_ne (fun he => e (Fin.castSucc_inj.mp he)) _ _)
  | table => rw [if_neg (by simp), addr_table, setAddr_castSucc, addr_table]
  | entry j =>
    rw [if_neg (by simp)]
    by_cases h : d.table = 0
    · rw [addr_entry_zero h, addr_entry_zero (by rwa [setAddr_castSucc])]
    · rw [addr_entry h, addr_entry (by rwa [setAddr_castSucc]), setAddr_castSucc]

theorem Dinode.addr_setTable {x : BitVec 32} (h0 : d.table = 0) (hx : sec x.toNat = fun _ => 0) (p : Place) :
    (d.setAddr (Fin.last NDIRECT) x).addr sec p = if p = .table then x.toNat else d.addr sec p := by
  cases p with
  | direct j =>
    rw [if_neg (by simp)]
    exact congrArg BitVec.toNat (update_of_ne (castSucc_ne_last j) _ _)
  | table => rw [if_pos rfl, addr_table, setAddr_last]
  | entry j =>
    rw [if_neg (by simp), addr_entry_zero h0]
    by_cases e : x = 0
    · rw [addr_entry_zero (by rwa [setAddr_last])]
    · rw [addr_entry (by rwa [setAddr_last]), setAddr_last, hx, get32_zero]
      rfl

theorem Dinode.addr_setEntry (h : d.table ≠ 0) (j : Fin NINDIRECT) (x : BitVec 32) (p : Place) :
    d.addr (update sec d.table.toNat (set32 (sec d.table.toNat) (4 * j) x)) p =
      if p = .entry j then x.toNat else d.addr sec p := by
  cases p with
  | direct i | table => rw [if_neg (by simp)]; rfl
  | entry i =>
    rw [addr_entry h, update_self]
    by_cases e : i = j
    · subst e
      rw [if_pos rfl, get32_set32]
    · rw [if_neg (by simpa using e), get32_set32_ne (by omega), addr_entry h]

/-- how many blocks a file of `n` bytes has -/
def blocksFor (n : Nat) : Nat := (n + (BSIZE - 1)) / BSIZE

/-- a file of `n` blocks has a block number in this place -/
def Place.Needed (n : Nat) : Place → Prop
  | .direct i => i < n
  | .table => NDIRECT < n
  | .entry j => NDIRECT + j < n

/-! ## blocks and places -/

section
variable {sec sec' : Nat → Buf} {d d' : Dinode} {bn bn' : Nat}

/-- where the number of the block `bn` stands -/
def placeOf (bn : Nat) (h : bn < MAXFILE) : Place :=
  if hd : bn < NDIRECT then .direct ⟨bn, hd⟩
  else .entry ⟨bn - NDIRECT, by simp only [MAXFILE, NDIRECT, NINDIRECT] at *; omega⟩

theorem block_eq (h : bn < MAXFILE) : d.block sec bn = d.addr sec (placeOf bn h) := by
  unfold placeOf Dinode.block
  by_cases hd : bn < NDIRECT
  · rw [dif_pos hd, dif_pos hd]
  · rw [dif_neg hd, dif_neg hd, dif_pos]

theorem placeOf_ne_table (h : bn < MAXFILE) : placeOf bn h ≠ .table := by
  unfold placeOf
  split <;> exact fun e => by cases e

theorem placeOf_inj {h : bn < MAXFILE} {h' : bn' < MAXFILE} (e : placeOf bn h = placeOf bn' h') :
    bn = bn' := by
  unfold placeOf at e
  split at e
  · split at e
    · injection e with e
      exact congrArg Fin.val e
    · cases e
  · split at e
    · cases e
    · injection e with e
      have := congrArg Fin.val e
      dsimp only at this
      omega

theorem lt_maxfile (h : d.block sec bn ≠ 0) : bn < MAXFILE := by
  by_contra hc
  apply h
  have h1 : ¬ bn < NDIRECT := by
    simp only [MAXFILE, NDIRECT] at *
    omega
  have h2 : ¬ bn - NDIRECT < NINDIRECT := by
    simp only [MAXFILE, NDIRECT, NINDIRECT] at *
    omega
  exact (dif_neg h1).trans (dif_neg h2)

theorem block_congr (h : ∀ q, d'.addr sec' q = d.addr sec q) (bn : Nat) :
    d'.block sec' bn = d.block sec bn := by
  unfold Dinode.block
  simp only [h]

end

end Fs
