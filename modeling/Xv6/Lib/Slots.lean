import Mathlib.Data.Set.Insert
import Mathlib.Logic.Function.Basic

/-!
# Numbers kept in places

Places hold numbers, and `0` says that a place is empty.  `Tight f U` says that no number stands in
two places, and that those that stand in some place are the ones in `U`.

* `Tight.fill`     a number that is in no place is stored in an empty one.
-/

namespace Slots

section
variable {α : Type*} {f g : α → ℕ} {U : Set ℕ} {a : α} {b : ℕ}

structure Tight (f : α → ℕ) (U : Set ℕ) : Prop where
  inj : ∀ a a', f a ≠ 0 → f a = f a' → a = a'
  mem : ∀ b, b ∈ U ↔ b ≠ 0 ∧ ∃ a, f a = b

theorem Tight.of_ne (h : Tight f U) (ha : f a ≠ 0) : f a ∈ U := (h.mem _).mpr ⟨ha, a, rfl⟩

theorem Tight.ne_zero (h : Tight f U) (hb : b ∈ U) : b ≠ 0 := ((h.mem b).mp hb).1

theorem Tight.fill (h : Tight f U) (h0 : f a = 0) (hU : b ∉ U) (hb : b ≠ 0) (ha : g a = b)
    (hg : ∀ x, x ≠ a → g x = f x) : Tight g (insert b U) := by
  have hne : ∀ x, f x ≠ b := fun x e => hU ((h.mem b).mpr ⟨hb, x, e⟩)
  refine ⟨fun x y hx hxy => ?_, fun c => ?_⟩
  · by_cases ex : x = a
    · by_cases ey : y = a
      · rw [ex, ey]
      · rw [ex, ha, hg y ey] at hxy
        exact absurd hxy.symm (hne y)
    · rw [hg x ex] at hx hxy
      by_cases ey : y = a
      · rw [ey, ha] at hxy
        exact absurd hxy (hne x)
      · rw [hg y ey] at hxy
        exact h.inj x y hx hxy
  · rw [Set.mem_insert_iff, h.mem]
    constructor
    · rintro (rfl | ⟨hc, x, hx⟩)
      · exact ⟨hb, a, ha⟩
      · refine ⟨hc, x, ?_⟩
        rw [hg x fun e => hc (by rw [← hx, e, h0]), hx]
    · rintro ⟨hc, x, hx⟩
      by_cases ex : x = a
      · exact .inl (by rw [← hx, ex, ha])
      · exact .inr ⟨hc, x, by rw [← hg x ex, hx]⟩

end

end Slots
