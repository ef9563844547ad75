import Xv6.Fs.Files

/-!
# The block allocator

* `bfree_used`          `bfree` clears one bit;
* `bitmap_allocator`    `balloc` marks and zeroes the first free block, and `bfree` takes that back.
-/

namespace Fs
open Bytes Run

section
variable {sb : Superblock} {s : Store} {b : Nat}

/-- the store behind `bfree` -/
def freed (sb : Superblock) (s : Store) (b : Nat) : Store :=
  s.write (BBLOCK sb b) (clearBit (s.block (BBLOCK sb b)) (b % BPB))

theorem bfree_used (h : used sb s b = true) : bfree sb s b = .next (freed sb s b) :=
  if_neg (by rw [← used, h]; exact Bool.false_ne_true.symm)

theorem freed_self : (freed sb s b).block (BBLOCK sb b) = clearBit (s.block (BBLOCK sb b)) (b % BPB) :=
  Function.update_self _ _ _

theorem freed_ne {c : Nat} (h : c ≠ BBLOCK sb b) : (freed sb s b).block c = s.block c :=
  Function.update_of_ne h _ _

theorem used_freed (c : Nat) : used sb (freed sb s b) c = (used sb s c && !decide (c = b)) := by
  unfold used
  by_cases he : BBLOCK sb c = BBLOCK sb b
  · have hdiv : c / BPB = b / BPB := Nat.add_right_cancel he
    have hmod : c % BPB = b % BPB ↔ c = b := by
      simp only [BPB] at hdiv ⊢
      omega
    rw [he, freed_self, bit_clearBit]
    simp only [hmod]
  · have hne : c ≠ b := fun e => he (by rw [e])
    rw [freed_ne he, decide_eq_false hne, Bool.not_false, Bool.and_true]

end

/-- **The bitmap allocator.**  With the meta data blocks marked, `balloc` returns 0 and changes nothing iff
no block is free, and else the first free block, marked and zeroed; `bfree` clears one bit. -/
theorem bitmap_allocator (sb : Superblock) (s : Store)
    (hmeta : ∀ c, c < dataStart sb → c < sb.size.toNat → used sb s c = true) :
    (Full sb s → balloc sb s = (0, s)) ∧
    (¬ Full sb s → ∃ b s', balloc sb s = (b, s') ∧ b ≠ 0 ∧ b < sb.size.toNat ∧ used sb s b = false ∧
      (∀ c, c < b → used sb s c = true) ∧ s'.block b = (fun _ => 0) ∧
      (∀ i, bit (s'.block (BBLOCK sb b)) i = (bit (s.block (BBLOCK sb b)) i || decide (i = b % BPB))) ∧
      (∀ c, c < sb.size.toNat → used sb s' c = (used sb s c || decide (c = b))) ∧
      (∀ c, c ≠ b → c ≠ BBLOCK sb b → s'.block c = s.block c) ∧
      ∃ s'', bfree sb s' b = .next s'' ∧ ∀ c, c ≠ b → s''.block c = s.block c) ∧
    ∀ b, used sb s b = true → ∃ s', bfree sb s b = .next s' ∧
      (∀ i, bit (s'.block (BBLOCK sb b)) i = (bit (s.block (BBLOCK sb b)) i && !decide (i = b % BPB))) ∧
      (∀ c, used sb s' c = (used sb s c && !decide (c = b))) ∧
      ∀ c, c ≠ BBLOCK sb b → s'.block c = s.block c := by
  refine ⟨fun hfull => ?_, fun hfree => ?_, fun b hb => ?_⟩
  · obtain ⟨h, -⟩ | ⟨b, hb, hu, -⟩ := balloc_cases sb s
    · exact h
    · rw [hfull b hb] at hu
      cases hu
  · obtain ⟨-, hfull⟩ | ⟨b, hb, hu, hbal, hleast⟩ := balloc_cases sb s
    · exact absurd hfull hfree
    have hd : dataStart sb ≤ b := by
      by_contra hlt
      rw [hmeta b (Nat.lt_of_not_le hlt) hb] at hu
      cases hu
    have hself := taken_bitmap (s := s) hd hb
    have hused := fun c => used_taken (s := s) (c := c) hd hb
    refine ⟨b, taken sb s b, hbal, ne_zero_of_data hd, hb, hu, hleast, taken_self, fun i => ?_, hused,
      fun c h1 h2 => taken_ne h1 h2, _, bfree_used ?_, fun c hc => ?_⟩
    · rw [hself, bit_setBit]
    · rw [hused b hb, decide_eq_true rfl, Bool.or_true]
    · by_cases he : c = BBLOCK sb b
      · rw [he, freed_self, hself, clearBit_setBit hu]
      · rw [freed_ne he, taken_ne hc he]
  · refine ⟨_, bfree_used hb, fun i => ?_, used_freed, fun c hc => freed_ne hc⟩
    rw [freed_self, bit_clearBit]

/-- a new file system, whose first free block is behind its 48 meta data blocks -/
theorem bitmap_allocator_blank : ∃ b s', balloc small blank = (b, s') ∧ b ≠ 0 ∧ used small blank b = false ∧
    s'.block b = fun _ => 0 := by
  have hfree : ¬ Full small blank := fun h => absurd (h 48 (by decide)) (by decide)
  have hmeta : ∀ c, c < dataStart small → c < small.size.toNat → used small blank c = true := by decide +kernel
  obtain ⟨b, s', hbal, h0, -, hu, -, hz, -⟩ := (bitmap_allocator small blank hmeta).2.1 hfree
  exact ⟨b, s', hbal, h0, hu, hz⟩

end Fs
