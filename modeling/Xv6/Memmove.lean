import Mathlib.Algebra.Group.Nat.Defs
import Xv6.Lib.Bytes

/-!
# `memmove` of the kernel and of the user library

Pointers are 64-bit words, and a loop counts the `n` turns it has left.

* `copyUp_eq`, `copyDown_eq`   the two loops, each for the overlaps it can be used for;
* `memmove_overlap`            both functions move the bytes between any two ranges.
-/

namespace Memmove
open Bytes Function

abbrev Addr := BitVec 64

abbrev Mem := Addr → Byte

/-- `while(n-- > 0) *d++ = *s++;` -/
def copyUp : (n : Nat) → Mem → (d s : Addr) → Mem
  | 0, m, _, _ => m
  | n + 1, m, d, s => copyUp n (Function.update m d (m s)) (d + 1) (s + 1)

/-- `while(n-- > 0) *--d = *--s;` -/
def copyDown : (n : Nat) → Mem → (d s : Addr) → Mem
  | 0, m, _, _ => m
  | n + 1, m, d, s => copyDown n (Function.update m (d - 1) (m (s - 1))) (d - 1) (s - 1)

/-- `memmove` of `kernel/string.c`, with `uint n`: what it returns, and the memory -/
def memmove (m : Mem) (dst src : Addr) (n : BitVec 32) : Addr × Mem :=
  if n = 0 then (dst, m)
  else if src < dst ∧ src + n.setWidth 64 > dst then
    (dst, copyDown n.toNat m (dst + n.setWidth 64) (src + n.setWidth 64))
  else (dst, copyUp n.toNat m dst src)

/-- `memmove` of `user/ulib.c`, with `int n` -/
def ulibMemmove (m : Mem) (vdst vsrc : Addr) (n : BitVec 32) : Addr × Mem :=
  if vsrc > vdst then (vdst, copyUp n.toInt.toNat m vdst vsrc)
  else (vdst, copyDown n.toInt.toNat m (vdst + n.signExtend 64) (vsrc + n.signExtend 64))

/-- the `n` bytes from `dst` on are those that were at `src`, and all others are as they were -/
def moved (m : Mem) (dst src : Addr) (n : Nat) : Mem :=
  fun a => if (a - dst).toNat < n then m (src + (a - dst)) else m a

section
variable {m : Mem} {d s : Addr} {n : Nat}

/-- upwards, if `d` is not behind `s` in the range: then no byte is written before it is read -/
theorem copyUp_eq (hn : n ≤ 2 ^ 64) (h : (d - s).toNat = 0 ∨ n ≤ (d - s).toNat) :
    copyUp n m d s = moved m d s n := by
  induction n generalizing m d s with
  | zero => rfl
  | succ n ih =>
    rw [copyUp, ih (by omega) (by bv_omega)]
    funext a
    unfold moved
    by_cases ha : a = d
    · rw [if_neg (by bv_omega), if_pos (by bv_omega), ha, update_self]
      exact congrArg m (by bv_omega)
    rw [update_of_ne ha]
    by_cases hlt : (a - (d + 1)).toNat < n
    · rw [if_pos hlt, if_pos (by bv_omega), update_of_ne (by bv_omega)]
      exact congrArg m (by bv_omega)
    · rw [if_neg hlt, if_neg (by bv_omega)]

/-- downwards, if `s` is not behind `d` in the range -/
theorem copyDown_eq (hn : n ≤ 2 ^ 64) (h : (s - d).toNat = 0 ∨ n ≤ (s - d).toNat) :
    copyDown n m (d + BitVec.ofNat 64 n) (s + BitVec.ofNat 64 n) = moved m d s n := by
  induction n generalizing m with
  | zero => rfl
  | succ n ih =>
    have hp : ∀ p : Addr, p + BitVec.ofNat 64 (n + 1) - 1 = p + BitVec.ofNat 64 n := fun p => by bv_omega
    rw [copyDown, hp, hp, ih (by omega) (by omega)]
    funext a
    unfold moved
    by_cases ha : a = d + BitVec.ofNat 64 n
    · rw [if_neg (by bv_omega), if_pos (by bv_omega), ha, update_self]
      exact congrArg m (by bv_omega)
    · rw [update_of_ne ha]
      by_cases hlt : (a - d).toNat < n
      · rw [if_pos hlt, if_pos (by omega), update_of_ne (by bv_omega)]
      · rw [if_neg hlt, if_neg (by bv_omega)]

end

/-- **Overlaps.**  Both functions move the bytes between any two ranges that do not wrap, so they agree. -/
theorem memmove_overlap (m : Mem) (dst src : Addr) (n : BitVec 32) (hd : dst.toNat + n.toNat ≤ 2 ^ 64)
    (hs : src.toNat + n.toNat ≤ 2 ^ 64) :
    memmove m dst src n = (dst, moved m dst src n.toNat) ∧
      (0 ≤ n.toInt → ulibMemmove m dst src n = (dst, moved m dst src n.toNat)) := by
  refine ⟨?_, fun hpos => ?_⟩
  · unfold memmove
    split
    · rename_i h0
      rw [h0]
      rfl
    rw [← BitVec.ofNat_toNat]
    split
    · rename_i hc
      exact congrArg (Prod.mk dst) (copyDown_eq (by omega) (by bv_omega))
    · rename_i hc
      exact congrArg (Prod.mk dst) (copyUp_eq (by omega) (by bv_omega))
  · have hint : n.toInt.toNat = n.toNat := by
      rw [BitVec.toInt_eq_toNat_cond] at hpos ⊢
      omega
    have hmsb : n.msb = false := by
      rw [BitVec.msb_eq_toInt]
      exact decide_eq_false (Int.not_lt.mpr hpos)
    unfold ulibMemmove
    rw [hint, BitVec.signExtend_eq_setWidth_of_msb_false hmsb, ← BitVec.ofNat_toNat]
    split
    · rename_i hc
      exact congrArg (Prod.mk dst) (copyUp_eq (by omega) (by bv_omega))
    · rename_i hc
      exact congrArg (Prod.mk dst) (copyDown_eq (by omega) (by bv_omega))

/-- four bytes moved up by one, in the memory that has at each address its low byte -/
theorem memmove_overlap_up : (memmove (fun a => a.setWidth 8) 0x1001 0x1000 4).2 0x1003 = 2 := by
  rw [(memmove_overlap (fun a => a.setWidth 8) 0x1001 0x1000 4 (by decide) (by decide)).1]
  rfl

end Memmove
