import Xv6.Mkfs.Contents

/-!
# The image that `mkfs` writes

* `files_after`           before the size of the root directory is fixed, every inode has the blocks
                          for its size, as long as there are inodes;
* `mkfs_consistent_iff`   the image is consistent if and only if there were enough inodes and the
                          entries of the root directory do not end at the end of a block;
* `mkfs_full_block`       62 files make an image that is not.
-/

namespace Mkfs
open Bytes Fs Slots Function List BitVec

section
variable {s s' : State} {a : Arg} {args : List Arg}

/-! ## the empty image -/

theorem zeroed_eq : zeroed = ⟨FSSIZE, fun _ _ => 0, 1, nmeta⟩ := by
  have h : ∀ n, n ≤ 4194304 →
      (range n).foldl (fun s i => wsect s i fun _ => 0) (⟨0, fun _ _ => 0, 1, nmeta⟩ : State) =
        ⟨n, fun _ _ => 0, 1, nmeta⟩ := by
    intro n hn
    induction n with
    | zero => rfl
    | succ n ih =>
      rw [range_succ, foldl_append, ih (by omega)]
      show wsect _ n _ = _
      rw [wsect, place_eq (by omega), Nat.max_eq_right (Nat.le_succ n)]
      congr 1
      exact update_eq_self n (fun _ _ => (0 : Byte))
  exact h FSSIZE (by decide)

/-- the image with its super block -/
def start : State := wsect zeroed 1 (sb.put fun _ => 0)

theorem start_eq : start = ⟨FSSIZE, update (fun _ _ => 0) 1 (sb.put fun _ => 0), 1, nmeta⟩ := by
  rw [start, zeroed_eq, wsect_eq rfl (by decide)]

theorem start_inv : Inv start := by
  rw [start_eq]
  have huse : ∀ i, ¬ State.InUse ⟨FSSIZE, update (fun _ _ => 0) 1 (sb.put fun _ => 0), 1, nmeta⟩ i :=
    fun i hi => Nat.not_lt_of_le hi.1 hi.2
  refine ⟨⟨rfl, Nat.le_refl _, ⟨fun x y hx => ?_, fun b => ?_⟩, fun b hb => ?_⟩, ?_, by decide, by decide,
    fun i hi => absurd hi (huse i), fun i hi => absurd hi (huse i), fun i hi => absurd hi (huse i)⟩
  · exact absurd (if_neg (huse x.1)) hx
  · refine ⟨fun hb => absurd hb.2 (Nat.not_lt_of_le hb.1), ?_⟩
    rintro ⟨hb, x, hx⟩
    rw [places, if_neg (huse x.1)] at hx
    exact absurd hx.symm hb
  · have hb : 46 ≤ b := hb
    show update (fun _ _ => (0 : Byte)) 1 (sb.put fun _ => 0) b = _
    rw [update_of_ne (by omega)]
  · show update (fun _ _ => (0 : Byte)) 1 (sb.put fun _ => 0) 1 = _
    rw [update_self]

/-! ## the root directory and the files -/

theorem dirent_length (inum : Nat) (name : List Byte) : (dirent inum name).length = 16 := by
  rw [dirent, length_append, length_append, length_take, length_replicate,
    show DIRSIZ = 14 from rfl]
  simp only [length_cons, length_nil]
  omega

/-- the image after `k` files -/
structure After (s : State) (k : Nat) : Prop where
  inv : Inv s
  inode : s.freeinode = k + 2
  root : (s.dinode ROOTINO).size.toNat = 16 * (k + 2)

variable {k : Nat} {s1 : State}

theorem After.inUse (h : After s k) : s.InUse ROOTINO := by
  rw [State.InUse, h.inode]
  exact ⟨Nat.le_refl _, by show 1 < k + 2; omega⟩

theorem mkroot_after (h : mkroot start = .ok s) : After s 0 := by
  have hfree : start.freeinode = 1 := by rw [start_eq]
  obtain ⟨s1, hal, hinv, hino, -, hdin⟩ := ialloc_inv T_DIR start_inv (by rw [hfree])
    (by rw [hfree]; decide) (by decide)
  rw [hfree] at hal hino hdin
  obtain ⟨r, hr, h⟩ := bind_ok h
  cases hal.symm.trans hr
  obtain ⟨_, -, h⟩ := bind_ok h
  obtain ⟨s2, h1, h2⟩ := bind_ok h
  have hi1 : s1.InUse 1 := by
    rw [State.InUse, hino]
    decide
  obtain ⟨hinv2, hino2, hsize2, -⟩ := iappend_inv hinv hi1 h1
  have hi2 : s2.InUse 1 := by rwa [State.InUse, hino2]
  obtain ⟨hinv3, hino3, hsize3, -⟩ := iappend_inv hinv2 hi2 h2
  refine ⟨hinv3, by rw [hino3, hino2, hino], ?_⟩
  show (s.dinode 1).size.toNat = _
  rw [hsize3, hsize2, dirent_length, dirent_length, hdin 1 (by decide), if_pos rfl]
  rfl

theorem mkroot_ok : ∃ s, mkroot start = .ok s ∧ s.freeblock ≤ nmeta + 4 := by
  have hfree : start.freeinode = 1 := by rw [start_eq]
  have hfb : start.freeblock = nmeta := by rw [start_eq]
  obtain ⟨s1, hal, hinv, hino, hfb1, hdin⟩ := ialloc_inv T_DIR start_inv (by rw [hfree])
    (by rw [hfree]; decide) (by decide)
  rw [hfree] at hal hino hdin
  rw [hfb, nmeta_eq] at hfb1
  have hi1 : s1.InUse 1 := by
    rw [State.InUse, hino]
    decide
  have hsize1 : (s1.dinode 1).size.toNat = 0 := by
    rw [hdin 1 (by decide), if_pos rfl]
    rfl
  obtain ⟨s2, h2, hle2⟩ := iappend_ok (p := dirent 1 [dot]) hinv hi1 (by rw [fssize_eq]; omega)
    (by rw [hsize1]; decide) (by rw [hsize1, dirent_length]; decide)
  obtain ⟨hinv2, hino2, hsize2, -⟩ := iappend_inv hinv hi1 h2
  rw [hsize1, dirent_length] at hsize2
  have hi2 : s2.InUse 1 := by rwa [State.InUse, hino2]
  obtain ⟨s3, h3, hle3⟩ := iappend_ok (p := dirent 1 [dot, dot]) hinv2 hi2 (by rw [fssize_eq]; omega)
    (by rw [hsize2]; decide) (by rw [hsize2, dirent_length]; decide)
  refine ⟨s3, ?_, by rw [nmeta_eq]; omega⟩
  have hroot : assert "rootino == ROOTINO" ((1, s1).1 = ROOTINO) = .ok () := assert_true rfl
  rwa [mkroot, ok_bind hal, ok_bind hroot, ok_bind h2]

theorem pieces_after {pieces : List {p : List Byte // 0 < p.length ∧ p.length ≤ BSIZE}} {inum : Nat}
    (hs : Inv s) (hi : s.InUse inum) (hne : ROOTINO ≠ inum)
    (h : pieces.foldlM (fun s p => iappend s inum p.val) s = .ok s') :
    Inv s' ∧ s'.freeinode = s.freeinode ∧ s'.dinode ROOTINO = s.dinode ROOTINO := by
  induction pieces generalizing s with
  | nil =>
    cases h
    exact ⟨hs, rfl, rfl⟩
  | cons p pieces ih =>
    rw [foldlM_cons] at h
    obtain ⟨s1, h1, h2⟩ := bind_ok h
    obtain ⟨hs1, hino, -, hother⟩ := iappend_inv hs hi h1
    obtain ⟨hs', hino', hroot⟩ := ih hs1 (by rwa [State.InUse, hino]) h2
    exact ⟨hs', hino'.trans hino, by rw [hroot, hother ROOTINO (by decide) hne]⟩

theorem addFile_after (hk : k + 3 ≤ NINODES) (hs : After s k) (h : addFile s a = .ok s') :
    After s' (k + 1) := by
  rw [addFile] at h
  obtain ⟨_, -, h⟩ := bind_ok h
  cases hd : a.data with
  | none =>
    rw [hd] at h
    cases h
  | some pieces =>
    rw [hd] at h
    obtain ⟨s1, hal, hinv, hino, -, hdin⟩ := ialloc_inv T_FILE hs.inv (by rw [hs.inode]; omega)
      (by rw [hs.inode]; omega) (by decide)
    obtain ⟨r, hr, h⟩ := bind_ok h
    cases hal.symm.trans hr
    rw [hs.inode] at hino hdin h
    have hroot : s1.InUse ROOTINO := by
      rw [State.InUse, hino]
      exact ⟨Nat.le_refl _, by show 1 < _; omega⟩
    obtain ⟨s2, h1, h2⟩ := bind_ok h
    obtain ⟨hinv2, hino2, hsize2, -⟩ := iappend_inv hinv hroot h1
    have hnew : s2.InUse (k + 2) := by
      rw [State.InUse, hino2, hino]
      omega
    have hne : ROOTINO ≠ k + 2 := by
      show 1 ≠ _
      omega
    obtain ⟨hinv3, hino3, hroot3⟩ := pieces_after hinv2 hnew hne h2
    refine ⟨hinv3, by rw [hino3, hino2, hino], ?_⟩
    rw [hroot3, hsize2, dirent_length, hdin ROOTINO (by decide), if_neg hne, hs.root]
    omega

theorem files_after (hk : args.length + k + 2 ≤ NINODES) (hs : After s k)
    (h : args.foldlM addFile s = .ok s') : After s' (args.length + k) := by
  induction args generalizing s k with
  | nil =>
    cases h
    rwa [length_nil, Nat.zero_add]
  | cons a args ih =>
    rw [length_cons] at hk
    rw [foldlM_cons] at h
    obtain ⟨s1, h1, h2⟩ := bind_ok h
    have := ih (by omega) (addFile_after (by omega) hs h1) h2
    rwa [length_cons, show args.length + 1 + k = args.length + (k + 1) by omega]

/-- an empty file, whose name has no slash -/
def Arg.Plain (a : Arg) : Prop := a.data = some [] ∧ slash ∉ stripUser a.path

theorem files_ok (hk : args.length + k + 2 ≤ NINODES) (hs : After s k)
    (hfb : s.freeblock ≤ nmeta + 2 * (k + 2)) (hp : ∀ a ∈ args, a.Plain) :
    ∃ s', args.foldlM addFile s = .ok s' ∧ s'.freeblock ≤ nmeta + 2 * (args.length + k + 2) := by
  induction args generalizing s k with
  | nil =>
    rw [length_nil, Nat.zero_add]
    exact ⟨s, rfl, hfb⟩
  | cons a args ih =>
    rw [length_cons] at hk ⊢
    have hn : NINODES = 200 := rfl
    obtain ⟨hdata, hslash⟩ := hp a mem_cons_self
    obtain ⟨s1, hal, hinv, hino, hfb1, hdin⟩ := ialloc_inv T_FILE hs.inv
      (by rw [hs.inode]; omega) (by rw [hs.inode]; omega) (by decide)
    rw [hs.inode] at hino hdin hal
    have hne : ROOTINO ≠ k + 2 := by
      show 1 ≠ _
      omega
    have hroot : s1.InUse ROOTINO := by
      rw [State.InUse, hino]
      exact ⟨Nat.le_refl _, by show 1 < _; omega⟩
    have hsize : (s1.dinode ROOTINO).size.toNat = 16 * (k + 2) := by
      rw [hdin ROOTINO (by decide), if_neg hne, hs.root]
    rw [nmeta_eq] at hfb
    obtain ⟨s2, h2, hle⟩ := iappend_ok (p := dirent (k + 2) (stripUnderscore (stripUser a.path))) hinv hroot
      (by rw [fssize_eq]; omega) (by rw [hsize, bsize_eq, show MAXFILE = 268 from rfl]; omega)
      (by rw [hsize, bsize_eq, dirent_length]; omega)
    have hadd : addFile s a = .ok s2 := by
      have hcon : (stripUser a.path).contains slash = false := by
        rwa [← Bool.not_eq_true, contains_iff_mem]
      rw [addFile, ok_bind (assert_true hcon), hdata]
      show (ialloc s T_FILE >>= _) = _
      rw [ok_bind hal, ok_bind h2]
      rfl
    obtain ⟨s', h', hle'⟩ := ih (by omega) (addFile_after (by omega) hs hadd) (by rw [nmeta_eq]; omega)
      fun b hb => hp b (mem_cons_of_mem _ hb)
    refine ⟨s', ?_, by omega⟩
    rwa [foldlM_cons, hadd]

theorem files_freeinode (h : args.foldlM addFile s = .ok s') :
    s'.freeinode = s.freeinode + args.length := by
  induction args generalizing s with
  | nil =>
    cases h
    rfl
  | cons a args ih =>
    rw [foldlM_cons] at h
    obtain ⟨s1, h1, h2⟩ := bind_ok h
    have hpieces : ∀ (pieces : List {p : List Byte // 0 < p.length ∧ p.length ≤ BSIZE}) (i : Nat)
        (t t' : State), pieces.foldlM (fun s p => iappend s i p.val) t = .ok t' →
        t'.freeinode = t.freeinode := by
      intro pieces i
      induction pieces with
      | nil =>
        intro t t' ht
        cases ht
        rfl
      | cons p pieces ihp =>
        intro t t' ht
        rw [foldlM_cons] at ht
        obtain ⟨t1, ht1, ht2⟩ := bind_ok ht
        rw [ihp t1 t' ht2, iappend_freeinode ht1]
    have hadd : s1.freeinode = s.freeinode + 1 := by
      obtain ⟨_, -, h1⟩ := bind_ok h1
      cases hd : a.data with
      | none =>
        rw [hd] at h1
        cases h1
      | some pieces =>
        rw [hd] at h1
        obtain ⟨⟨i, t⟩, hal, h1⟩ := bind_ok h1
        obtain ⟨t1, hap, h1⟩ := bind_ok h1
        rw [hpieces pieces _ _ _ h1, iappend_freeinode hap, (ialloc_freeinode hal).2]
    rw [ih h2, hadd, length_cons]
    omega

/-! ## the size of the root directory, and the bitmap -/

theorem bit_bitmap (n b : Nat) : bit (bitmap n) b = decide (b < n) := by
  induction n with
  | zero => exact getLsbD_zero
  | succ n ih =>
    rw [bitmap, bit_setBit, ih, ← Bool.decide_or]
    congr 1
    exact propext (by omega)

/-- the size that `main` gives to the root directory -/
def roundedSize (k : Nat) : Nat := (16 * (k + 2) / BSIZE + 1) * BSIZE

/-- the image in the end -/
structure Final (s1 s : State) (k : Nat) : Prop where
  freeinode : s.freeinode = s1.freeinode
  super : s.sector 1 = s1.sector 1
  bitmap : s.sector 45 = bitmap s1.freeblock
  root : (s.dinode ROOTINO).size.toNat = roundedSize k
  type : ∀ i, s1.InUse i → (s.dinode i).type = (s1.dinode i).type
  size : ∀ i, s1.InUse i → i ≠ ROOTINO → (s.dinode i).size = (s1.dinode i).size
  addr : ∀ i p, s1.InUse i → (s.dinode i).addr s.sector p = (s1.dinode i).addr s1.sector p

theorem final_of (hk : k + 2 ≤ NINODES) (h1 : After s1 k)
    (h : (fixRoot s1 >>= fun s => balloc s s.freeblock) = .ok s) : Final s1 s k := by
  obtain ⟨s2, hfix, hbal⟩ := bind_ok h
  have hk' : k + 2 ≤ 200 := hk
  obtain ⟨d, hd⟩ : ∃ d : Dinode, d = { s1.dinode ROOTINO with
      size := .ofNat 32 (((s1.dinode ROOTINO).size.toNat / BSIZE + 1) * BSIZE) } := ⟨_, rfl⟩
  rw [fixRoot, ok_bind (rinode_eq h1.inv.base.length (by decide))] at hfix
  dsimp only at hfix
  rw [← hd, winode_eq h1.inv.base.length (by decide)] at hfix
  replace hfix := Except.ok.inj hfix
  obtain ⟨_, -, hbal⟩ := bind_ok hbal
  have hl : s2.length = FSSIZE := by
    rw [← hfix]
    exact h1.inv.base.length
  rw [bmapstart_eq, wsect_eq hl (by decide)] at hbal
  replace hbal := Except.ok.inj hbal
  have hdin2 : ∀ i, s2.dinode i = update s1.dinode ROOTINO d i := fun i =>
    dinode_winode (by rw [← hfix])
  have hdin : ∀ i, s1.InUse i → s.dinode i = if i = ROOTINO then d else s1.dinode i := by
    intro i hi
    have hi : i < 200 := hi.lt h1.inv.inodes
    have hb : iblock i ≠ 45 := by
      rw [iblock_eq]
      omega
    have hsame : s.dinode i = s2.dinode i := by
      rw [State.dinode, ← hbal]
      show Dinode.get (update s2.sector 45 (bitmap s2.freeblock) (iblock i)) _ = _
      rw [update_of_ne hb, State.dinode]
    rw [hsame, hdin2]
    by_cases e : i = ROOTINO
    · rw [if_pos e, e, update_self]
    · rw [if_neg e, update_of_ne e]
  have hsec : ∀ b, b ≠ 45 → b ≠ 32 → s.sector b = s1.sector b := by
    intro b h45 h32
    rw [← hbal]
    show update s2.sector 45 (bitmap s2.freeblock) b = _
    rw [update_of_ne h45, ← hfix]
    exact update_of_ne h32 (d.put (s1.sector (iblock ROOTINO)) (64 * (ROOTINO % IPB))) s1.sector
  have haddrs : ∀ i, s1.InUse i → (s.dinode i).addrs = (s1.dinode i).addrs := by
    intro i hi
    rw [hdin i hi]
    split
    · rw [hd, ‹i = ROOTINO›]
    · rfl
  refine ⟨?_, hsec 1 (by decide) (by decide), ?_, ?_, fun i hi => ?_, fun i hi hne => ?_, fun i p hi => ?_⟩
  · rw [← hbal, ← hfix]
  · rw [← hbal]
    show update s2.sector 45 (Mkfs.bitmap s2.freeblock) 45 = Mkfs.bitmap s1.freeblock
    rw [update_self, ← hfix]
  · rw [hdin ROOTINO h1.inUse, if_pos rfl, hd, h1.root]
    exact toNat_ofNat (by rw [bsize_eq]; omega)
  · rw [hdin i hi]
    split
    · rw [hd, ‹i = ROOTINO›]
    · rfl
  · rw [hdin i hi, if_neg hne]
  · have ht : (s.dinode i).table = (s1.dinode i).table := congrFun (haddrs i hi) _
    have hsame : (s.dinode i).addr s1.sector p = (s1.dinode i).addr s1.sector p := by
      cases p with
      | direct j => exact congrArg BitVec.toNat (congrFun (haddrs i hi) _)
      | table => exact congrArg BitVec.toNat ht
      | entry j =>
        simp only [Dinode.addr]
        rw [ht]
    rw [← hsame]
    apply Dinode.addr_congr
    intro hne
    rw [ht] at hne ⊢
    have hm := h1.inv.base.addr_mem hi (p := .table) (toNat_ne_zero.mp hne)
    rw [Dinode.addr_table, nmeta_eq] at hm
    exact hsec _ (by omega) (by omega)

/-! ## consistency -/

theorem rounded_blocks (h : (k + 2) * 16 % BSIZE ≠ 0) :
    blocksFor (roundedSize k) = blocksFor (16 * (k + 2)) := by
  rw [bsize_eq] at h
  rw [blocksFor, blocksFor, roundedSize, bsize_eq]
  omega

theorem consistent_of (h1 : After s1 k) (hf : Final s1 s k)
    (hmod : (k + 2) * 16 % BSIZE ≠ 0) : Consistent s := by
  have huse : ∀ i, s.InUse i ↔ s1.InUse i := fun i => by rw [State.InUse, State.InUse, hf.freeinode]
  have hblocks : ∀ i, s1.InUse i →
      blocksFor (s.dinode i).size.toNat = blocksFor (s1.dinode i).size.toNat := by
    intro i hi
    by_cases e : i = ROOTINO
    · rw [e, hf.root, h1.root, rounded_blocks hmod]
    · rw [hf.size i hi e]
  have hhas : ∀ i, s1.InUse i → HasBlocks s.sector (s.dinode i) (blocksFor (s.dinode i).size.toNat) := by
    intro i hi p
    rw [hf.addr i p hi, hblocks i hi]
    exact h1.inv.has i hi p
  have hne : ∀ i p, s.Needed i p → s1.InUse i ∧ (s1.dinode i).addr s1.sector p ≠ 0 := by
    intro i p h
    have hi := (huse i).mp h.1
    refine ⟨hi, ?_⟩
    rw [← hf.addr i p hi]
    exact (hhas i hi p).mpr h.2
  refine ⟨?_, fun i hi => ?_, fun i bn hi hb => ?_, fun i p i' p' hp hp' he => ?_, fun i p hp => ?_,
    fun b hb => ?_⟩
  · rw [hf.super, h1.inv.super, Superblock.get_put]
  · have hi := (huse i).mp hi
    have h200 : i < 200 := hi.lt h1.inv.inodes
    refine ⟨h200, ?_, ?_, ?_⟩
    · rw [hf.type i hi]
      exact h1.inv.type i hi
    · rw [iblock_eq, inodestart_eq]
      omega
    · rw [iblock_eq, bmapstart_eq]
      omega
  · have hi := (huse i).mp hi
    refine block_ne_zero (hhas i hi) ?_ hb
    rw [hblocks i hi]
    exact blocksFor_le (h1.inv.small i hi)
  · obtain ⟨hi, hz⟩ := hne i p hp
    obtain ⟨hi', -⟩ := hne i' p' hp'
    rw [State.addr, State.addr, hf.addr i p hi, hf.addr i' p' hi'] at he
    exact h1.inv.base.addr_inj hi hi' hz he
  · obtain ⟨hi, hz⟩ := hne i p hp
    rw [State.addr, hf.addr i p hi]
    have hm := h1.inv.base.addr_mem hi hz
    exact ⟨hm.1, Nat.lt_of_lt_of_le hm.2 h1.inv.bound⟩
  · rw [bmapstart_eq, hf.bitmap, bit_bitmap, decide_eq_true_iff]
    constructor
    · intro hlt
      by_cases hm : b < nmeta
      · exact .inl hm
      obtain ⟨hb0, ⟨i, p⟩, hx⟩ := (h1.inv.base.tight.mem b).mp ⟨Nat.le_of_not_lt hm, hlt⟩
      rw [places] at hx
      split at hx
      case isFalse => exact absurd hx.symm hb0
      case isTrue hi =>
        refine .inr ⟨i, p, ⟨(huse i).mpr hi, ?_⟩, by rw [State.addr, hf.addr i p hi, hx]⟩
        refine (hhas i hi p).mp ?_
        rwa [hf.addr i p hi, hx]
    · rintro (hm | ⟨i, p, hp, rfl⟩)
      · exact Nat.lt_of_lt_of_le hm h1.inv.base.first
      · obtain ⟨hi, hz⟩ := hne i p hp
        rw [State.addr, hf.addr i p hi]
        exact (h1.inv.base.addr_mem hi hz).2

theorem not_consistent_of (h1 : After s1 k) (hf : Final s1 s k)
    (hk : k + 2 ≤ NINODES) (hmod : (k + 2) * 16 % BSIZE = 0) : ¬ Consistent s := by
  intro hc
  have hk' : k + 2 ≤ 200 := hk
  have hroot := h1.inUse
  rw [bsize_eq] at hmod
  have hbn : (k + 2) / 64 < NDIRECT := by
    show (k + 2) / 64 < 12
    omega
  have huse : s.InUse ROOTINO := by
    rwa [State.InUse, hf.freeinode]
  have hlt : (k + 2) / 64 < blocksFor (s.dinode ROOTINO).size.toNat := by
    rw [hf.root, blocksFor, roundedSize, bsize_eq]
    omega
  have hne := hc.nonzero ROOTINO _ huse hlt
  rw [Dinode.block, dif_pos hbn, hf.addr _ _ hroot] at hne
  have hneeded : (k + 2) / 64 < blocksFor (s1.dinode ROOTINO).size.toNat :=
    (h1.inv.has ROOTINO hroot (.direct ⟨_, hbn⟩)).mp hne
  rw [h1.root, blocksFor, bsize_eq] at hneeded
  omega

end

/-- **The image of `mkfs`.** -/
theorem mkfs_consistent_iff (args : List Arg) (s : State) (h : mkfs args = .ok s) :
    Consistent s ↔ args.length + 2 ≤ NINODES ∧ (args.length + 2) * 16 % BSIZE ≠ 0 := by
  obtain ⟨s0, h0, h⟩ := bind_ok h
  obtain ⟨s1, h1, h⟩ := bind_ok h
  have hroot := mkroot_after h0
  by_cases hn : args.length + 2 ≤ NINODES
  · have hafter := files_after (by omega) hroot h1
    rw [Nat.add_zero] at hafter
    have hf := final_of hn hafter h
    by_cases hmod : (args.length + 2) * 16 % BSIZE = 0
    · exact ⟨fun hc => absurd hc (not_consistent_of hafter hf hn hmod), fun hc => absurd hmod hc.2⟩
    · exact ⟨fun _ => ⟨hn, hmod⟩, fun _ => consistent_of hafter hf hmod⟩
  · refine ⟨fun hc => ?_, fun hc => absurd hc.1 hn⟩
    have hfree : s.freeinode = args.length + 2 := by
      obtain ⟨s2, hfix, hbal⟩ := bind_ok h
      obtain ⟨_, -, hbal⟩ := bind_ok hbal
      cases hbal
      obtain ⟨_, -, hfix⟩ := bind_ok hfix
      show s2.freeinode = _
      rw [winode_freeinode hfix, files_freeinode h1, hroot.inode]
      omega
    have h200 : NINODES = 200 := rfl
    have := (hc.inum 200 ⟨by omega, by omega⟩).1
    exact absurd this (by decide)

theorem mkfs_ok (args : List Arg) (hn : args.length + 2 ≤ NINODES) (hp : ∀ a ∈ args, a.Plain) :
    ∃ s, mkfs args = .ok s := by
  obtain ⟨s0, h0, hfb⟩ := mkroot_ok
  obtain ⟨s1, h1, hle⟩ := files_ok (by omega) (mkroot_after h0) hfb hp
  have hafter := files_after (by omega) (mkroot_after h0) h1
  have h200 : NINODES = 200 := rfl
  rw [nmeta_eq] at hle
  have hlen := hafter.inv.base.length
  obtain ⟨s2, h2, hfb2⟩ : ∃ s2, fixRoot s1 = .ok s2 ∧ s2.freeblock = s1.freeblock :=
    ⟨_, (ok_bind (rinode_eq hlen (by decide))).trans (winode_eq hlen (by decide) _), rfl⟩
  have hused : s2.freeblock < BSIZE * 8 := by
    rw [hfb2, bsize_eq]
    omega
  exact ⟨_, (ok_bind h0).trans ((ok_bind h1).trans ((ok_bind h2).trans (ok_bind (assert_true hused))))⟩

/-- empty files with the names `f0`, `f1`, and so on -/
def sampleArgs (n : Nat) : List Arg :=
  (List.range n).map fun k => ⟨[0x66, BitVec.ofNat 8 (48 + k)], some []⟩

theorem sampleArgs_plain {n : Nat} (hn : n ≤ 62) : ∀ a ∈ sampleArgs n, a.Plain := by
  intro a ha
  obtain ⟨k, hk, rfl⟩ := mem_map.mp ha
  have hslash : ∀ k < 62, slash ∉ stripUser [0x66, BitVec.ofNat 8 (48 + k)] := by decide +kernel
  exact ⟨rfl, hslash k (by rw [mem_range] at hk; omega)⟩

theorem mkfs_consistent_sample : ∃ s, mkfs (sampleArgs 3) = .ok s ∧ Consistent s := by
  obtain ⟨s, hs⟩ := mkfs_ok (sampleArgs 3) (by decide) (sampleArgs_plain (by decide))
  exact ⟨s, hs, (mkfs_consistent_iff _ s hs).mpr (by decide)⟩

/-- 62 files fill a block of the root directory, which then claims one block more than it has -/
theorem mkfs_full_block :
    (∀ a ∈ sampleArgs 62, slash ∉ stripUser a.path) ∧
      (sampleArgs 62).Pairwise (fun a b =>
        (stripUnderscore (stripUser a.path)).take DIRSIZ ≠ (stripUnderscore (stripUser b.path)).take DIRSIZ) ∧
      ∃ s, mkfs (sampleArgs 62) = .ok s ∧ ¬ Consistent s := by
  have hplain := sampleArgs_plain (Nat.le_refl 62)
  obtain ⟨s, hs⟩ := mkfs_ok (sampleArgs 62) (by decide) hplain
  refine ⟨fun a ha => (hplain a ha).2, by decide +kernel, s, hs, ?_⟩
  obtain ⟨s0, h0, h⟩ := bind_ok hs
  obtain ⟨s1, h1, h⟩ := bind_ok h
  have hafter := files_after (by decide) (mkroot_after h0) h1
  exact not_consistent_of hafter (final_of (by decide) hafter h) (by decide) (by decide)

end Mkfs
