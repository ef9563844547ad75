import Xv6.Lib.Bytes

/-!
# Strings that end in a NUL

A string is the list of its bytes before the NUL, and a pointer into it is a suffix of that list:
`deref` is what the pointer reads, the NUL when nothing is left.
-/

namespace Bytes

/-- a NUL-terminated string -/
structure CString where
  bytes : List Byte
  nul : 0 ∉ bytes

/-- `*s` -/
def deref (s : List Byte) : Byte := s.headD 0

@[simp] theorem deref_nil : deref [] = 0 := rfl
@[simp] theorem deref_cons (c : Byte) (s : List Byte) : deref (c :: s) = c := rfl

theorem length_pos_of_deref {s : List Byte} (h : deref s ≠ 0) : 0 < s.length := by
  cases s with
  | nil => exact absurd rfl h
  | cons c s => exact Nat.succ_pos _

theorem deref_eq_zero {s : List Byte} (h : 0 ∉ s) : deref s = 0 ↔ s = [] := by
  cases s with
  | nil => simp
  | cons c s =>
    have hc : c ≠ 0 := fun e => h (e ▸ List.mem_cons_self)
    rw [deref_cons]
    exact iff_of_false hc (List.cons_ne_nil c s)

end Bytes
