import Mathlib.Data.Nat.ModEq
import Mathlib.Logic.Function.Basic

/-!
# Rings with counters that wrap around

A ring of `N` cells with two counters of `v` bits that only grow, modulo `2 ^ v`: `r` for what has
been taken out and `w` for what has been put in.  The cell of a counter is its value modulo `N`, and
`N` divides `2 ^ v`.

* `contents N data r w`             what is in the ring, oldest first;
* `contents_push`, `contents_pop`   one more element, one less.
-/

namespace Ring
open Function

variable {α : Type*} {v N : Nat} {r w : BitVec v} {data : Nat → α}

/-- how many elements are in the ring -/
def count (r w : BitVec v) : Nat := (w - r).toNat

def contents (N : Nat) (data : Nat → α) (r w : BitVec v) : List α :=
  (List.range (count r w)).map fun i => data ((r + BitVec.ofNat v i).toNat % N)

theorem slot_add (hN : N ∣ 2 ^ v) (r : BitVec v) (i : Nat) :
    (r + BitVec.ofNat v i).toNat % N = (r.toNat + i) % N := by
  rw [BitVec.toNat_add, BitVec.toNat_ofNat, Nat.add_mod_mod]
  exact Nat.mod_mod_of_dvd _ hN

theorem slot_ne (hN : N ∣ 2 ^ v) (r : BitVec v) {i j : Nat} (hi : i < N) (hj : j < N) (h : i ≠ j) :
    (r + BitVec.ofNat v i).toNat % N ≠ (r + BitVec.ofNat v j).toNat % N := by
  rw [slot_add hN, slot_add hN]
  intro e
  exact h (Nat.ModEq.eq_of_lt_of_lt (Nat.ModEq.add_left_cancel' r.toNat e) hi hj)

theorem add_count (r w : BitVec v) : r + BitVec.ofNat v (count r w) = w := by
  rw [count, BitVec.ofNat_toNat, BitVec.setWidth_eq, BitVec.add_comm, BitVec.sub_add_cancel]

theorem count_eq_zero : count r w = 0 ↔ r = w := by
  constructor
  · intro h
    have e := add_count r w
    rw [h] at e
    rwa [BitVec.add_zero] at e
  · intro h
    rw [h, count, BitVec.sub_self]
    rfl

theorem count_add {n : Nat} (h : n < 2 ^ v) : count r (r + BitVec.ofNat v n) = n := by
  rw [count, BitVec.add_comm, BitVec.add_sub_cancel, BitVec.toNat_ofNat, Nat.mod_eq_of_lt h]

theorem count_push (h : count r w + 1 < 2 ^ v) : count r (w + 1) = count r w + 1 := by
  have e : w + 1 = r + BitVec.ofNat v (count r w + 1) := by
    rw [BitVec.ofNat_add, ← BitVec.add_assoc, add_count]
    rfl
  rw [e, count_add h]

theorem count_pop (h : r ≠ w) : count (r + 1) w + 1 = count r w := by
  have h0 : count r w ≠ 0 := fun e => h (count_eq_zero.mp e)
  have hlt : count r w < 2 ^ v := (w - r).isLt
  obtain ⟨n, hn⟩ := Nat.exists_eq_succ_of_ne_zero h0
  have e : w = r + 1 + BitVec.ofNat v n := by
    have e := add_count r w
    rw [hn, Nat.succ_eq_one_add, BitVec.ofNat_add, ← BitVec.add_assoc] at e
    exact e.symm
  rw [hn, e, count_add (by omega)]

theorem contents_self : contents N data r r = [] := by
  rw [contents, count_eq_zero.mpr rfl]
  rfl

theorem contents_push (hN : N ∣ 2 ^ v) (h : count r w < N) (hv : N < 2 ^ v) (x : α) :
    contents N (update data (w.toNat % N) x) r (w + 1) = contents N data r w ++ [x] := by
  unfold contents
  rw [count_push (by omega), List.range_succ, List.map_append, List.map_singleton, add_count,
    update_self]
  refine congrArg (· ++ [x]) (List.map_congr_left fun i hi => update_of_ne ?_ _ _)
  have hi : i < count r w := List.mem_range.mp hi
  have hw := add_count r w
  rw [← hw]
  exact slot_ne hN r (by omega) h (by omega)

theorem contents_pop (h : r ≠ w) :
    contents N data r w = data (r.toNat % N) :: contents N data (r + 1) w := by
  rw [contents, ← count_pop h, List.range_succ_eq_map, List.map_cons, List.map_map]
  refine congrArg₂ List.cons ?_ (List.map_congr_left fun i _ => ?_)
  · rw [BitVec.add_zero]
  · show data ((r + BitVec.ofNat v (i + 1)).toNat % N) = _
    rw [Nat.add_comm, BitVec.ofNat_add, ← BitVec.add_assoc]
    rfl

end Ring
