import Xv6.Fs.Format

/-!
# Names of directory entries

A name is at most `DIRSIZ` bytes; it ends at a NUL or, if it has `DIRSIZ` bytes, without one.  A pointer is
the array of the bytes from there on.

* `cstr`             the name that stands at a pointer;
* `namecmp_iff`      `namecmp` compares names;
* `cstr_strncpy`     `strncpy` stores a name that reads as the old one.
-/

namespace Fs
open Bytes Function

/-- the bytes from `i` on before the NUL, at most `n` -/
def cstr (p : Buf) : (n i : Nat) → List Byte
  | 0, _ => []
  | n + 1, i => if p i = 0 then [] else p i :: cstr p n (i + 1)

/-- `strncmp(p + i, q + i, n)` -/
def strncmp (p q : Buf) : (n i : Nat) → Int
  | 0, _ => 0
  | n + 1, i =>
    if p i ≠ 0 ∧ p i = q i then strncmp p q n (i + 1) else (p i).toNat - (q i).toNat

def namecmp (s t : Buf) : Int := strncmp s t DIRSIZ 0

/-- the second loop of `strncpy` -/
def strnzero (s : Buf) : (n i : Nat) → Buf
  | 0, _ => s
  | n + 1, i => strnzero (Function.update s i 0) n (i + 1)

/-- `strncpy(s + i, t + i, n)` -/
def strncpy (s t : Buf) : (n i : Nat) → Buf
  | 0, _ => s
  | n + 1, i =>
    if t i ≠ 0 then strncpy (Function.update s i (t i)) t n (i + 1)
    else strnzero (Function.update s i 0) n (i + 1)

/-- the name at a pointer -/
def nameAt (p : Buf) : List Byte := cstr p DIRSIZ 0

section
variable {p q s t : Buf} {n i j : Nat}

theorem cstr_congr (h : ∀ j, i ≤ j → j < i + n → p j = q j) : cstr p n i = cstr q n i := by
  induction n generalizing i with
  | zero => rfl
  | succ n ih =>
    rw [cstr, cstr, h i (Nat.le_refl i) (by omega), ih fun j h1 h2 => h j (by omega) (by omega)]

theorem nameAt_congr (h : ∀ j, j < DIRSIZ → p j = q j) : nameAt p = nameAt q :=
  cstr_congr fun j _ hj => h j (by omega)

theorem strncmp_eq_zero : strncmp p q n i = 0 ↔ cstr p n i = cstr q n i := by
  induction n generalizing i with
  | zero => exact iff_of_true rfl rfl
  | succ n ih =>
    rw [strncmp, cstr, cstr]
    by_cases hp : p i = 0
    · have hneg : ¬ (p i ≠ 0 ∧ p i = q i) := fun h => h.1 hp
      rw [if_neg hneg, if_pos hp]
      by_cases hq : q i = 0
      · rw [if_pos hq, hp, hq]
        exact iff_of_true rfl rfl
      rw [if_neg hq]
      refine iff_of_false (fun e => hq ?_) fun e => by cases e
      rw [hp] at e
      apply BitVec.eq_of_toNat_eq
      omega
    · rw [if_neg hp]
      by_cases he : p i = q i
      · rw [if_pos ⟨hp, he⟩, ih, if_neg (he ▸ hp), he, List.cons_inj_right]
      have hneg : ¬ (p i ≠ 0 ∧ p i = q i) := fun h => he h.2
      rw [if_neg hneg]
      refine iff_of_false (fun e => he (BitVec.eq_of_toNat_eq (by omega))) fun e => ?_
      by_cases hq : q i = 0
      · rw [if_pos hq] at e
        cases e
      · rw [if_neg hq] at e
        exact he (List.cons.inj e).1

theorem namecmp_iff : namecmp p q = 0 ↔ nameAt p = nameAt q := strncmp_eq_zero

theorem strnzero_low (h : j < i) : strnzero s n i j = s j := by
  induction n generalizing s i with
  | zero => rfl
  | succ n ih => rw [strnzero, ih (by omega), update_of_ne (by omega)]

theorem strncpy_low (h : j < i) : strncpy s t n i j = s j := by
  induction n generalizing s i with
  | zero => rfl
  | succ n ih =>
    rw [strncpy]
    split
    · rw [ih (by omega), update_of_ne (by omega)]
    · rw [strnzero_low (by omega), update_of_ne (by omega)]

theorem cstr_strncpy : cstr (strncpy s t n i) n i = cstr t n i := by
  induction n generalizing s i with
  | zero => rfl
  | succ n ih =>
    rw [cstr, cstr, strncpy]
    by_cases h : t i = 0
    · rw [if_neg (not_not.mpr h), strnzero_low (Nat.lt_succ_self i), update_self, if_pos rfl, if_pos h]
    · rw [if_pos h, strncpy_low (Nat.lt_succ_self i), update_self, if_neg h, if_neg h, ih]

end

end Fs
