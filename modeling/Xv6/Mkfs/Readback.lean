import Mathlib.Algebra.BigOperators.Group.Finset.Basic
import Mathlib.Algebra.Order.BigOperators.Group.Finset
import Xv6.Fs.Read
import Xv6.Mkfs.Image

/-!
# The kernel reads back what `mkfs` wrote

`main` makes inodes with `ialloc` and appends to them, in any order.

* `Filled`          the bytes that each file has, and the blocks that they take;
* `calls_filled`    any calls leave the files with the bytes appended to them, while there is room;
* `image_reads`     the kernel's `readi` returns these bytes.
-/

namespace Mkfs
open Bytes Fs Run Function List Finset

inductive Call where
  | ialloc (type : BitVec 16)
  | iappend (inum : Nat) (p : List Byte)

def Call.run (s : State) : Call → Except Stop State
  | .ialloc type => do
    let r ← Mkfs.ialloc s type
    return r.2
  | .iappend inum p => Mkfs.iappend s inum p

/-- the inodes made -/
def made : List Call → Nat
  | [] => 0
  | .ialloc _ :: calls => made calls + 1
  | .iappend _ _ :: calls => made calls

/-- the bytes appended to the inode `i` -/
def appended (i : Nat) : List Call → List Byte
  | [] => []
  | .ialloc _ :: calls => appended i calls
  | .iappend inum p :: calls => if inum = i then p ++ appended i calls else appended i calls

/-- every call names an inode that was made before; `n` is the next one -/
def Named : Nat → List Call → Prop
  | _, [] => True
  | n, .ialloc type :: calls => type ≠ 0 ∧ n < NINODES ∧ Named (n + 1) calls
  | n, .iappend inum _ :: calls => 1 ≤ inum ∧ inum < n ∧ Named n calls

instance : (n : Nat) → (calls : List Call) → Decidable (Named n calls)
  | _, [] => .isTrue trivial
  | n, .ialloc type :: calls =>
    have := instDecidableNamed (n + 1) calls
    inferInstanceAs (Decidable (type ≠ 0 ∧ n < NINODES ∧ Named (n + 1) calls))
  | n, .iappend inum _ :: calls =>
    have := instDecidableNamed n calls
    inferInstanceAs (Decidable (1 ≤ inum ∧ inum < n ∧ Named n calls))

/-- the blocks that the files take -/
def room (F : Nat → List Byte) : Nat := ∑ i ∈ Finset.range NINODES, need (F i).length

/-- the files hold the bytes `F` -/
structure Filled (s : State) (F : Nat → List Byte) : Prop where
  inv : Inv s
  pos : 1 ≤ s.freeinode
  blocks : s.freeblock = nmeta + room F
  size : ∀ i, s.InUse i → (s.dinode i).size.toNat = (F i).length
  bytes : ∀ i, s.InUse i → ∀ x, x < (F i).length → content s.store (s.dinode i) x = ofList (F i) x
  unused : ∀ i, s.freeinode ≤ i → F i = []

section
variable {s s' : State} {F G : Nat → List Byte} {i : Nat} {p : List Byte}

theorem room_le (h : ∀ i, (F i).length ≤ (G i).length) : room F ≤ room G :=
  Finset.sum_le_sum fun i _ => need_mono (h i)

theorem room_update (hi : i < NINODES) :
    room (update F i p) + need (F i).length = room F + need p.length := by
  have hmem : i ∈ Finset.range NINODES := Finset.mem_range.mpr hi
  have hrest : ∑ k ∈ (Finset.range NINODES).erase i, need (update F i p k).length =
      ∑ k ∈ (Finset.range NINODES).erase i, need (F k).length :=
    sum_congr rfl fun k hk => by rw [update_of_ne (ne_of_mem_erase hk)]
  have h1 := sum_erase_add _ (fun k => need (update F i p k).length) hmem
  have h2 := sum_erase_add _ (fun k => need (F k).length) hmem
  rw [hrest, update_self] at h1
  unfold room
  omega

theorem ofList_append (p q : List Byte) (x : Nat) :
    ofList (p ++ q) x = if p.length ≤ x then ofList q (x - p.length) else ofList p x := by
  unfold ofList
  rw [getD_eq_getElem?_getD, getD_eq_getElem?_getD, getD_eq_getElem?_getD]
  split
  · next h => rw [getElem?_append_right h]
  · next h => rw [getElem?_append_left (Nat.lt_of_not_le h)]

theorem need_zero : need 0 = 0 := by decide

theorem start_filled : Filled start fun _ => [] := by
  have hino : start.freeinode = 1 := by rw [start_eq]
  have huse : ∀ i, ¬ start.InUse i := fun i hi => by
    have := hi.1
    have := hi.2
    omega
  refine ⟨start_inv, by omega, ?_, fun i hi => absurd hi (huse i), fun i hi => absurd hi (huse i), fun _ _ => rfl⟩
  have h0 : room (fun _ => []) = 0 := sum_eq_zero fun _ _ => need_zero
  rw [start_eq, h0]
  rfl

theorem ialloc_sector {type : BitVec 16} {r : Nat × State} (hl : s.length = FSSIZE) (hlt : s.freeinode < NINODES)
    (hr : ialloc s type = .ok r) : ∃ buf, r.2.sector = update s.sector (iblock s.freeinode) buf := by
  unfold ialloc at hr
  dsimp only at hr
  rw [winode_eq (s := { s with freeinode := s.freeinode + 1 }) hl hlt] at hr
  cases hr
  exact ⟨_, rfl⟩

theorem Filled.ialloc (h : Filled s F) {type : BitVec 16} (ht : type ≠ 0) (hlt : s.freeinode < NINODES) :
    ∃ s', Mkfs.ialloc s type = .ok (s.freeinode, s') ∧ s'.freeinode = s.freeinode + 1 ∧ Filled s' F := by
  obtain ⟨s', hr, hinv, hino, hfb, hdin⟩ := ialloc_inv type h.inv h.pos hlt ht
  refine ⟨s', hr, hino, hinv, by omega, hfb.trans h.blocks, fun i hi => ?_, fun i hi x hx => ?_,
    fun i hi => h.unused i (by omega)⟩
  all_goals
    have hu : i = s.freeinode ∨ s.InUse i := by
      have := hi.1
      have := hi.2
      rw [State.InUse]
      omega
  · rw [hdin i (hi.lt hinv.inodes)]
    rcases hu with e | hu
    · rw [if_pos e, h.unused i (Nat.le_of_eq e.symm)]
      rfl
    · rw [if_neg (Nat.ne_of_lt hu.2), h.size i hu]
  rcases hu with e | hu
  · rw [h.unused i (Nat.le_of_eq e.symm)] at hx
    exact absurd hx (Nat.not_lt_zero x)
  obtain ⟨buf, hsec⟩ := ialloc_sector h.inv.base.length hlt hr
  have hib : iblock s.freeinode < nmeta := by
    have h200 : s.freeinode < 200 := hlt
    rw [iblock_eq, nmeta_eq]
    omega
  have hb : (s.dinode i).block s.sector (x / BSIZE) ≠ 0 :=
    block_ne_zero (h.inv.has i hu) (blocksFor_le (h.inv.small i hu)) (div_lt_blocksFor (by rwa [h.size i hu]))
  have hlow := h.inv.base.content_low buf hu hib hb
  rw [← hsec] at hlow
  rw [hdin i (hi.lt hinv.inodes), if_neg (Nat.ne_of_lt hu.2)]
  exact hlow.trans (h.bytes i hu x hx)

theorem Filled.iappend (h : Filled s F) (hi : s.InUse i) (hmax : (F i ++ p).length ≤ MAXFILE * BSIZE)
    (hroom : nmeta + room (update F i (F i ++ p)) ≤ FSSIZE) :
    ∃ s', Mkfs.iappend s i p = .ok s' ∧ s'.freeinode = s.freeinode ∧
      Filled s' (update F i (F i ++ p)) := by
  have hsize := h.size i hi
  have hgrow := room_update (F := F) (p := F i ++ p) (hi.lt h.inv.inodes)
  rw [length_append] at hmax hgrow
  have hb := h.blocks
  obtain ⟨s', hr, hfb⟩ := iappend_room h.inv hi (by rw [hsize]; exact hmax) (by rw [hsize]; omega)
  obtain ⟨hinv, hino, hgrown, hother⟩ := iappend_inv h.inv hi hr
  obtain ⟨hbytes, hkept⟩ := iappend_bytes h.inv hi hr
  rw [hsize] at hfb hgrown hbytes
  have huse : ∀ k, s'.InUse k ↔ s.InUse k := fun k => by rw [State.InUse, State.InUse, hino]
  refine ⟨s', hr, hino, hinv, by rw [hino]; exact h.pos, by omega, fun k hk => ?_, fun k hk x hx => ?_, fun k hk => ?_⟩
  · rw [huse] at hk
    by_cases e : k = i
    · rw [e, update_self, length_append, hgrown]
    · rw [update_of_ne e, hother k (hk.lt h.inv.inodes) e, h.size k hk]
  · rw [huse] at hk
    by_cases e : k = i
    · rw [e, update_self, length_append] at hx
      rw [e, update_self, hbytes x hx, ofList_append]
      split
      · rfl
      · next hc => exact h.bytes i hi x (Nat.lt_of_not_le hc)
    · rw [update_of_ne e] at hx ⊢
      rw [hkept k x e hk (by rwa [h.size k hk])]
      exact h.bytes k hk x hx
  · rw [hino] at hk
    have hne : k ≠ i := fun e => absurd hi.2 (by omega)
    rw [update_of_ne hne, h.unused k hk]

/-- **Any calls**: each file has the bytes appended to it. -/
theorem calls_filled (calls : List Call) (h : Filled s F) (hn : Named s.freeinode calls)
    (hmax : ∀ i, (F i ++ appended i calls).length ≤ MAXFILE * BSIZE)
    (hroom : nmeta + room (fun i => F i ++ appended i calls) ≤ FSSIZE) :
    ∃ s', calls.foldlM Call.run s = .ok s' ∧ s'.freeinode = s.freeinode + made calls ∧
      Filled s' fun i => F i ++ appended i calls := by
  induction calls generalizing s F with
  | nil => exact ⟨s, rfl, rfl, by simpa only [appended, List.append_nil] using h⟩
  | cons c calls ih =>
    cases c with
    | ialloc type =>
      obtain ⟨ht, hlt, hn⟩ := hn
      obtain ⟨s1, hr, hino, h1⟩ := h.ialloc ht hlt
      obtain ⟨s', hrun, hino', h'⟩ := ih h1 (by rw [hino]; exact hn) hmax hroom
      refine ⟨s', ?_, ?_, h'⟩
      · rwa [foldlM_cons, Call.run, hr]
      · rw [hino', hino, made]
        omega
    | iappend inum p =>
      obtain ⟨h0, hlt, hn⟩ := hn
      have hF : (fun i => F i ++ appended i (.iappend inum p :: calls)) =
          fun i => update F inum (F inum ++ p) i ++ appended i calls := by
        funext i
        by_cases e : inum = i
        · rw [appended, if_pos e, e, update_self, append_assoc]
        · rw [appended, if_neg e, update_of_ne (Ne.symm e)]
      have hmax' : ∀ i, (update F inum (F inum ++ p) i ++ appended i calls).length ≤ MAXFILE * BSIZE := by
        intro i
        rw [← congrFun hF i]
        exact hmax i
      rw [hF] at hroom ⊢
      have hle : room (update F inum (F inum ++ p)) ≤
          room fun i => update F inum (F inum ++ p) i ++ appended i calls :=
        room_le fun i => by rw [length_append]; omega
      have hself := hmax' inum
      rw [update_self, length_append] at hself
      obtain ⟨s1, hr, hino, h1⟩ := h.iappend (p := p) ⟨h0, hlt⟩ (by omega) (by omega)
      obtain ⟨s', hrun, hino', h'⟩ := ih h1 (by rw [hino]; exact hn) hmax' hroom
      refine ⟨s', ?_, by rw [hino', hino, made], h'⟩
      rwa [foldlM_cons, Call.run, hr]

theorem Filled.reads (h : Filled s F) (hi : s.InUse i) :
    ReadsAs sb s.store (s.dinode i) (ofList (F i)) := by
  have ha : Allocated s.store (s.dinode i) := fun bn hbn =>
    block_ne_zero (h.inv.has i hi) (blocksFor_le (h.inv.small i hi)) hbn
  exact (readi_content ha).congr fun x hx => h.bytes i hi x (by rwa [← h.size i hi])

end

/-- **mkfs and the kernel agree on the layout**: while no file is too long and the image is not exhausted,
the calls succeed, and `readi` returns from each inode what was appended to it. -/
theorem image_reads (calls : List Call) (hn : Named 1 calls)
    (hmax : ∀ i, (appended i calls).length ≤ MAXFILE * BSIZE)
    (hroom : nmeta + room (fun i => appended i calls) ≤ FSSIZE) :
    ∃ s, calls.foldlM Call.run start = .ok s ∧ ∀ i, 1 ≤ i → i ≤ made calls →
      (inodeAt sb s.store i).type ≠ 0 ∧ (inodeAt sb s.store i).size.toNat = (appended i calls).length ∧
        ReadsAs sb s.store (inodeAt sb s.store i) (ofList (appended i calls)) := by
  have hino : start.freeinode = 1 := by rw [start_eq]
  obtain ⟨s, hrun, hfree, h⟩ := calls_filled calls start_filled (by rwa [hino]) hmax hroom
  refine ⟨s, hrun, fun i h1 h2 => ?_⟩
  have hi : s.InUse i := ⟨h1, by omega⟩
  exact ⟨h.inv.type i hi, h.size i hi, h.reads hi⟩

/-- a directory and a file, written in turns -/
def sampleCalls : List Call :=
  [.ialloc T_DIR, .iappend 1 [46, 46], .ialloc T_FILE, .iappend 2 [104, 105], .iappend 1 [0], .iappend 2 [33]]

theorem sampleCalls_read : ∃ s, sampleCalls.foldlM Call.run start = .ok s ∧
    ReadsAs sb s.store (inodeAt sb s.store 2) (ofList [104, 105, 33]) := by
  have hmax : ∀ i, (appended i sampleCalls).length ≤ MAXFILE * BSIZE := by
    intro i
    have h : MAXFILE * BSIZE = 274432 := by decide
    rw [h]
    simp only [sampleCalls, appended]
    split <;> split <;> decide
  obtain ⟨s, hrun, hread⟩ := image_reads sampleCalls (by decide) hmax (by decide +kernel)
  exact ⟨s, hrun, (hread 2 (by decide) (by decide)).2.2⟩

end Mkfs
