import Xv6.Fs.Inode

/-!
# The free bit map

* `used`            the block is marked in the bit map;
* `balloc_cases`    `balloc` takes the first block that is not, or the disk is full;
* `Sound`           the block numbers that inodes hold are distinct, lie in the data area and are marked;
* `Sound.fill`      a new block goes into an empty place.
-/

namespace Fs
open Bytes Run Slots Function

section
variable (sb : Superblock)

/-- the first block behind the bit map -/
def dataStart : Nat := sb.bmapstart.toNat + (sb.size.toNat / BPB + 1)

/-- boot block, super block, log, inode blocks, bit map, data blocks -/
structure Geometry : Prop where
  inodes : sb.inodestart.toNat + (sb.ninodes.toNat / IPB + 1) ≤ sb.bmapstart.toNat

def used (s : Store) (b : Nat) : Bool := bit (s.block (BBLOCK sb b)) (b % BPB)

/-- no block is left -/
def Full (s : Store) : Prop := ∀ b, b < sb.size.toNat → used sb s b = true

/-- the block `b` is marked and zeroed -/
def taken (s : Store) (b : Nat) : Store :=
  bzero (s.write (BBLOCK sb b) (setBit (s.block (BBLOCK sb b)) (b % BPB))) b

end

section
variable {sb : Superblock} {s : Store} {b : Nat}

/-! ## the search -/

theorem freeBit_some {buf : Buf} {n bi i : Nat} (h : freeBit sb buf b n bi = some i) :
    bi ≤ i ∧ i < bi + n ∧ b + i < sb.size.toNat ∧ bit buf i = false ∧
      ∀ j, bi ≤ j → j < i → bit buf j = true := by
  induction n generalizing bi with
  | zero => cases h
  | succ n ih =>
    unfold freeBit at h
    by_cases hb : b + bi < sb.size.toNat
    · rw [if_pos hb] at h
      by_cases hbit : bit buf bi = false
      · rw [if_pos hbit] at h
        cases h
        exact ⟨Nat.le_refl _, by omega, hb, hbit, fun j h1 h2 => by omega⟩
      rw [if_neg hbit] at h
      obtain ⟨h1, h2, h3, h4, h5⟩ := ih h
      refine ⟨by omega, by omega, h3, h4, fun j hj hi => ?_⟩
      by_cases he : j = bi
      · rw [he]
        exact Bool.eq_true_of_not_eq_false hbit
      · exact h5 j (by omega) hi
    · rw [if_neg hb] at h
      cases h

theorem freeBit_none {buf : Buf} {n bi i : Nat} (h : freeBit sb buf b n bi = none) (h1 : bi ≤ i) (h2 : i < bi + n)
    (hi : b + i < sb.size.toNat) : bit buf i = true := by
  induction n generalizing bi with
  | zero => omega
  | succ n ih =>
    unfold freeBit at h
    rw [if_pos (by omega)] at h
    by_cases hbit : bit buf bi = false
    · rw [if_pos hbit] at h
      cases h
    rw [if_neg hbit] at h
    by_cases he : i = bi
    · rw [he]
      exact Bool.eq_true_of_not_eq_false hbit
    · exact ih h (by omega) (by omega)

theorem BBLOCK_add {k bi : Nat} (h : bi < BPB) : BBLOCK sb (k * BPB + bi) = BBLOCK sb (k * BPB) := by
  have hk : (k * BPB + bi) / BPB = k * BPB / BPB := by
    simp only [BPB] at h ⊢
    omega
  rw [BBLOCK, BBLOCK, hk]

theorem used_add {k bi : Nat} (h : bi < BPB) : used sb s (k * BPB + bi) = bit (s.block (BBLOCK sb (k * BPB))) bi := by
  have hmod : (k * BPB + bi) % BPB = bi := by
    simp only [BPB] at h ⊢
    omega
  rw [used, BBLOCK_add h, hmod]

theorem ballocLoop_cases {n k : Nat} (hn : sb.size.toNat ≤ (k + n) * BPB)
    (hk : ∀ c, c < k * BPB → c < sb.size.toNat → used sb s c = true) :
    (ballocLoop sb s n (k * BPB) = (0, s) ∧ Full sb s) ∨
      ∃ c, c < sb.size.toNat ∧ used sb s c = false ∧ ballocLoop sb s n (k * BPB) = (c, taken sb s c) ∧
        ∀ d, d < c → used sb s d = true := by
  induction n generalizing k with
  | zero => exact .inl ⟨rfl, fun c hc => hk c (by simp only [BPB] at hn ⊢; omega) hc⟩
  | succ n ih =>
    unfold ballocLoop
    by_cases hb : k * BPB < sb.size.toNat
    · rw [if_pos hb]
      cases hf : freeBit sb (s.block (BBLOCK sb (k * BPB))) (k * BPB) BPB 0 with
      | some bi =>
        obtain ⟨-, h2, h3, h4, h5⟩ := freeBit_some hf
        rw [Nat.zero_add] at h2
        have hmod : (k * BPB + bi) % BPB = bi := by
          simp only [BPB] at h2 ⊢
          omega
        refine .inr ⟨k * BPB + bi, h3, (used_add h2).trans h4, ?_, fun d hd => ?_⟩
        · rw [taken, BBLOCK_add h2, hmod]
        by_cases hlt : d < k * BPB
        · exact hk d hlt (by omega)
        · obtain ⟨i, rfl⟩ := Nat.exists_eq_add_of_le (Nat.le_of_not_lt hlt)
          rw [used_add (by omega)]
          exact h5 i (Nat.zero_le i) (by omega)
      | none =>
        have hnext : k * BPB + BPB = (k + 1) * BPB := (Nat.succ_mul k BPB).symm
        rw [hnext]
        refine ih (by rwa [Nat.add_right_comm, Nat.add_assoc]) fun c hc hcs => ?_
        by_cases hlt : c < k * BPB
        · exact hk c hlt hcs
        · obtain ⟨i, rfl⟩ := Nat.exists_eq_add_of_le (Nat.le_of_not_lt hlt)
          rw [used_add (by omega)]
          exact freeBit_none hf (Nat.zero_le _) (by omega) hcs
    · rw [if_neg hb]
      exact .inl ⟨rfl, fun c hc => hk c (by omega) hc⟩

theorem balloc_cases (sb : Superblock) (s : Store) :
    (balloc sb s = (0, s) ∧ Full sb s) ∨
      ∃ c, c < sb.size.toNat ∧ used sb s c = false ∧ balloc sb s = (c, taken sb s c) ∧
        ∀ d, d < c → used sb s d = true := by
  have hn : sb.size.toNat ≤ (0 + (sb.size.toNat / BPB + 1)) * BPB := by
    simp only [BPB]
    omega
  have h := ballocLoop_cases (s := s) hn fun c hc => by omega
  rwa [Nat.zero_mul] at h

/-! ## a block that is taken -/

theorem bmapstart_lt : sb.bmapstart.toNat < dataStart sb :=
  Nat.lt_add_of_pos_right (Nat.succ_pos _)

theorem BBLOCK_lt (h : b < sb.size.toNat) : sb.bmapstart.toNat ≤ BBLOCK sb b ∧ BBLOCK sb b < dataStart sb := by
  unfold BBLOCK dataStart
  simp only [BPB]
  omega

theorem taken_self : (taken sb s b).block b = fun _ => 0 := update_self _ _ _

theorem taken_bitmap (hb : dataStart sb ≤ b) (hlt : b < sb.size.toNat) :
    (taken sb s b).block (BBLOCK sb b) = setBit (s.block (BBLOCK sb b)) (b % BPB) := by
  have hne : BBLOCK sb b ≠ b := by
    have := (BBLOCK_lt hlt).2
    omega
  exact (update_of_ne hne _ _).trans (update_self _ _ _)

theorem taken_ne {c : Nat} (h1 : c ≠ b) (h2 : c ≠ BBLOCK sb b) : (taken sb s b).block c = s.block c :=
  (update_of_ne h1 _ _).trans (update_of_ne h2 _ _)

theorem taken_data {c : Nat} (hc : dataStart sb ≤ c) (hne : c ≠ b) (hlt : b < sb.size.toNat) :
    (taken sb s b).block c = s.block c :=
  taken_ne hne (by
    have := (BBLOCK_lt hlt).2
    omega)

theorem taken_low {c : Nat} (hc : c < sb.bmapstart.toNat) (hb : dataStart sb ≤ b) (hlt : b < sb.size.toNat) :
    (taken sb s b).block c = s.block c := by
  have h := BBLOCK_lt hlt
  exact taken_ne (by omega) (by omega)

theorem used_taken {c : Nat} (hb : dataStart sb ≤ b) (hlt : b < sb.size.toNat) (hc : c < sb.size.toNat) :
    used sb (taken sb s b) c = (used sb s c || decide (c = b)) := by
  have hc' := BBLOCK_lt hc
  unfold used
  by_cases he : BBLOCK sb c = BBLOCK sb b
  · rw [he, taken_bitmap hb hlt, bit_setBit]
    congr 1
    have hdiv : c / BPB = b / BPB := by
      unfold BBLOCK at he
      omega
    rw [decide_eq_decide]
    simp only [BPB] at hdiv ⊢
    omega
  · have hne : c ≠ b := fun e => he (by rw [e])
    rw [taken_ne (by omega) he, decide_eq_false hne, Bool.or_false]

end

/-! ## the block numbers of the inodes -/

section
variable (sb : Superblock)

/-- an inode in use -/
def InUse (I : Nat → Dinode) (j : Nat) : Prop := j < sb.ninodes.toNat ∧ (I j).type ≠ 0

instance (I : Nat → Dinode) (j : Nat) : Decidable (InUse sb I j) := inferInstanceAs (Decidable (_ ∧ _))

/-- the number in each place of each inode -/
def places (I : Nat → Dinode) (s : Store) (x : Nat × Place) : Nat :=
  if InUse sb I x.1 then (I x.1).addr s.block x.2 else 0

/-- the inodes `I` hold the blocks `U`, each in one place -/
structure Sound (I : Nat → Dinode) (s : Store) (U : Set Nat) : Prop where
  tight : Tight (places sb I s) U
  data : ∀ b ∈ U, dataStart sb ≤ b ∧ b < sb.size.toNat ∧ used sb s b = true
  low : ∀ b, b < dataStart sb → b < sb.size.toNat → used sb s b = true

end

section
variable {sb : Superblock} {I I' : Nat → Dinode} {s s' : Store} {U : Set Nat} {i j : Nat} {p q : Place}

theorem Sound.mem (h : Sound sb I s U) (hj : InUse sb I j) (hq : (I j).addr s.block q ≠ 0) :
    (I j).addr s.block q ∈ U := by
  have e : places sb I s (j, q) = (I j).addr s.block q := if_pos hj
  have := h.tight.of_ne (by rwa [e])
  rwa [e] at this

theorem Sound.inj (h : Sound sb I s U) (hi : InUse sb I i) (hj : InUse sb I j)
    (hp : (I i).addr s.block p ≠ 0) (he : (I i).addr s.block p = (I j).addr s.block q) : i = j ∧ p = q := by
  have e : places sb I s (i, p) = (I i).addr s.block p := if_pos hi
  have e' : places sb I s (j, q) = (I j).addr s.block q := if_pos hj
  have := h.tight.inj (i, p) (j, q) (by rwa [e]) (by rw [e, e', he])
  exact ⟨congrArg Prod.fst this, congrArg Prod.snd this⟩

/-- a block that is not marked lies in the data area, and no inode holds it -/
theorem Sound.free (h : Sound sb I s U) {b : Nat} (hb : b < sb.size.toNat) (hu : used sb s b = false) :
    dataStart sb ≤ b ∧ b ∉ U := by
  refine ⟨?_, fun hm => ?_⟩
  · by_contra hlt
    rw [h.low b (Nat.lt_of_not_le hlt) hb] at hu
    cases hu
  · rw [(h.data b hm).2.2] at hu
    cases hu

theorem Sound.fill (h : Sound sb I s U) {b : Nat} (hi : InUse sb I i) (h0 : (I i).addr s.block p = 0)
    (hb : b < sb.size.toNat) (hu : used sb s b = false)
    (huse : ∀ j, InUse sb I' j ↔ InUse sb I j) (hp : (I' i).addr s'.block p = b)
    (hother : ∀ j q, InUse sb I j → (j, q) ≠ (i, p) → (I' j).addr s'.block q = (I j).addr s.block q)
    (hused : ∀ c, c < sb.size.toNat → used sb s' c = (used sb s c || decide (c = b))) :
    Sound sb I' s' (insert b U) := by
  obtain ⟨hd, hU⟩ := h.free hb hu
  refine ⟨?_, fun c hc => ?_, fun c hc hcs => ?_⟩
  · refine h.tight.fill (a := (i, p)) ?_ hU ?_ ?_ ?_
    · rw [places, if_pos hi, h0]
    · intro e
      rw [e] at hd
      exact absurd hd (Nat.not_le.mpr (Nat.succ_pos _))
    · rw [places, if_pos ((huse i).mpr hi), hp]
    · intro x hne
      by_cases hx : InUse sb I x.1
      · rw [places, places, if_pos hx, if_pos ((huse x.1).mpr hx)]
        exact hother x.1 x.2 hx hne
      · rw [places, places, if_neg hx, if_neg fun hc => hx ((huse x.1).mp hc)]
  · rcases hc with rfl | hc
    · exact ⟨hd, hb, by rw [hused c hb, decide_eq_true rfl, Bool.or_true]⟩
    · obtain ⟨h1, h2, h3⟩ := h.data c hc
      exact ⟨h1, h2, by rw [hused c h2, h3, Bool.true_or]⟩
  · rw [hused c hcs, h.low c hc hcs, Bool.true_or]

end

end Fs
