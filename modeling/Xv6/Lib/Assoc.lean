import Mathlib.Logic.Function.Basic
import Mathlib.Data.Nat.Find

/-!
# A map kept in numbered slots

Of the slots `0`, …, `n - 1` some are empty and the others hold a key and a value.  A search takes the
first slot that holds the key.

* `Found`          what the search returns;
* `Found.put`      a pair goes into an empty slot, or into a new one;
* `Found.clear`    a slot is emptied.
-/

namespace Assoc

section
variable {κ ν : Type*}

inductive Found (slot : ℕ → Option (κ × ν)) (n : ℕ) (x : κ) : Option (ν × ℕ) → Prop where
  | missing : (∀ k v, k < n → slot k ≠ some (x, v)) → Found slot n x none
  | hit {k : ℕ} {v : ν} : k < n → slot k = some (x, v) → (∀ j w, j < k → slot j ≠ some (x, w)) →
      Found slot n x (some (v, k))

/-- no key is in two slots -/
def Distinct (slot : ℕ → Option (κ × ν)) (n : ℕ) : Prop :=
  ∀ j k x v w, j < n → k < n → slot j = some (x, v) → slot k = some (x, w) → j = k

/-- the slot `k` is empty, or comes next behind the others -/
def Open (slot : ℕ → Option (κ × ν)) (n k : ℕ) : Prop := k = n ∨ k < n ∧ slot k = none

variable {slot slot' : ℕ → Option (κ × ν)} {n n' k : ℕ} {x y : κ} {v : ν} {r r' : Option (ν × ℕ)}

theorem Found.unique (h : Found slot n x r) (h' : Found slot n x r') : r = r' := by
  cases h with
  | missing h1 =>
    cases h' with
    | missing => rfl
    | hit h2 h3 => exact absurd h3 (h1 _ _ h2)
  | @hit k v h1 h2 h3 =>
    cases h' with
    | missing h4 => exact absurd h2 (h4 _ _ h1)
    | @hit j w h4 h5 h6 =>
      rcases Nat.lt_trichotomy k j with hlt | e | hlt
      · exact absurd h2 (h6 _ _ hlt)
      · subst e
        rw [h2] at h5
        cases h5
        rfl
      · exact absurd h5 (h3 _ _ hlt)

theorem exists_found (slot : ℕ → Option (κ × ν)) (n : ℕ) (x : κ) : ∃ r, Found slot n x r := by
  classical
  by_cases h : ∃ k, k < n ∧ ∃ v, slot k = some (x, v)
  · obtain ⟨hlt, v, hv⟩ := Nat.find_spec h
    refine ⟨_, .hit hlt hv fun j w hj hw => ?_⟩
    exact Nat.find_min h hj ⟨Nat.lt_trans hj hlt, w, hw⟩
  · exact ⟨_, .missing fun k v hk hv => h ⟨k, hk, v, hv⟩⟩

theorem Found.congr (h : Found slot n x r) (hn : n ≤ n')
    (hs : ∀ k v, k < n → slot k = some (x, v) → slot' k = some (x, v))
    (hs' : ∀ k v, k < n' → slot' k = some (x, v) → k < n ∧ slot k = some (x, v)) : Found slot' n' x r := by
  cases h with
  | missing h1 => exact .missing fun k v hk hv => h1 k v (hs' k v hk hv).1 (hs' k v hk hv).2
  | hit h1 h2 h3 =>
    refine .hit (Nat.lt_of_lt_of_le h1 hn) (hs _ _ h1 h2) fun j w hj hw => ?_
    exact h3 j w hj (hs' j w (Nat.lt_of_lt_of_le (Nat.lt_trans hj h1) hn) hw).2

section
variable (hopen : Open slot n k) (hput : slot' k = some (y, v)) (hother : ∀ j, j < n → j ≠ k → slot' j = slot j)
  (hn : n' = max n (k + 1))
include hopen hput hother hn

theorem Found.put_self (h : Found slot n y none) : Found slot' n' y (some (v, k)) := by
  cases h with
  | missing h =>
    refine .hit (by omega) hput fun j w hj hw => ?_
    have hjn : j < n := by
      rcases hopen with e | e <;> omega
    rw [hother j hjn (by omega)] at hw
    exact h j w hjn hw

theorem Found.put (hne : x ≠ y) (h : Found slot n x r) : Found slot' n' x r := by
  refine h.congr (by omega) (fun j w hj hw => ?_) fun j w hj hw => ?_
  · rw [hother j hj, hw]
    rintro rfl
    rcases hopen with e | ⟨-, e⟩
    · omega
    · rw [e] at hw
      cases hw
  · by_cases e : j = k
    · rw [e, hput] at hw
      cases hw
      exact absurd rfl hne
    · have hjn : j < n := by
        rcases hopen with e | e <;> omega
      exact ⟨hjn, by rwa [← hother j hjn e]⟩

theorem Distinct.put (hd : Distinct slot n) (h : Found slot n y none) : Distinct slot' n' := by
  cases h with
  | missing h =>
    have hlt : ∀ j, j < n' → j ≠ k → j < n := by
      intro j hj hne
      rcases hopen with e | e <;> omega
    intro i j z u w hi hj hu hw
    by_cases ei : i = k
    · by_cases ej : j = k
      · rw [ei, ej]
      · rw [ei, hput] at hu
        cases hu
        rw [hother j (hlt j hj ej) ej] at hw
        exact absurd hw (h j w (hlt j hj ej))
    · rw [hother i (hlt i hi ei) ei] at hu
      by_cases ej : j = k
      · rw [ej, hput] at hw
        cases hw
        exact absurd hu (h i u (hlt i hi ei))
      · rw [hother j (hlt j hj ej) ej] at hw
        exact hd i j z u w (hlt i hi ei) (hlt j hj ej) hu hw

end

section
variable (hclear : slot' k = none) (hother : ∀ j, j < n → j ≠ k → slot' j = slot j)
include hclear hother

theorem Found.clear_self (hd : Distinct slot n) (h : Found slot n y (some (v, k))) :
    Found slot' n y none := by
  cases h with
  | hit h1 h2 h3 =>
    refine .missing fun j w hj hw => ?_
    by_cases e : j = k
    · rw [e, hclear] at hw
      cases hw
    · rw [hother j hj e] at hw
      exact e (hd j k y w v hj h1 hw h2)

theorem Found.clear (hk : slot k = some (y, v)) (hne : x ≠ y) (h : Found slot n x r) : Found slot' n x r := by
  refine h.congr (Nat.le_refl n) (fun j w hj hw => ?_) fun j w hj hw => ⟨hj, ?_⟩
  · rw [hother j hj, hw]
    rintro rfl
    rw [hk] at hw
    cases hw
    exact hne rfl
  · by_cases e : j = k
    · rw [e, hclear] at hw
      cases hw
    · rwa [← hother j hj e]

theorem Distinct.clear (hd : Distinct slot n) : Distinct slot' n := by
  have hold : ∀ j z w, j < n → slot' j = some (z, w) → slot j = some (z, w) := by
    intro j z w hj hw
    by_cases e : j = k
    · rw [e, hclear] at hw
      cases hw
    · rwa [← hother j hj e]
  intro i j z u w hi hj hu hw
  exact hd i j z u w hi hj (hold i z u hi hu) (hold j z w hj hw)

end

end

end Assoc
