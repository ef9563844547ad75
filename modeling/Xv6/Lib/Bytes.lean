import Mathlib.Algebra.Group.Nat.Defs
import Mathlib.Logic.Function.Basic

/-!
# Byte arrays and little-endian fields

A byte array is a function from offsets to bytes; what stands behind the end of the array is
never read.  `splice b o n f` overwrites the `n` bytes at offset `o` by the first `n` bytes of
`f`.  `get16`, `get32` read little-endian words, `le16`, `le32` are the bytes of a word, and
`set16`, `set32` store one.  Bit `i` of an array is bit `i % 8` of byte `i / 8`.

* `scatter`                        bytes stored one after the other, at any places;
* `get32_set32`, `get16_set16`     a stored word is read back;
* `get32_splice`, `get16_splice`   a word outside the overwritten range stays;
* `bit_setBit`, `bit_clearBit`     one bit changes.
-/

namespace Bytes
open Function BitVec Bool

abbrev Byte := BitVec 8

/-- a byte array -/
abbrev Buf := Nat → Byte

def splice (b : Buf) (o n : Nat) (f : Buf) : Buf :=
  fun i => if o ≤ i ∧ i < o + n then f (i - o) else b i

variable {b b' m : Buf} {a i n o o' : Nat} {f : Nat → Nat}

theorem splice_in {f : Buf} (h1 : o ≤ i) (h2 : i < o + n) : splice b o n f i = f (i - o) := if_pos ⟨h1, h2⟩

theorem splice_out {f : Buf} (h : i < o ∨ o + n ≤ i) : splice b o n f i = b i := by
  apply if_neg
  omega

/-! ## single bytes -/

/-- the first `n` bytes of `b` are stored at the places `f 0`, `f 1`, …, in this order -/
def scatter (m : Buf) (f : Nat → Nat) (b : Buf) : Nat → Buf
  | 0 => m
  | n + 1 => Function.update (scatter m f b n) (f n) (b n)

theorem scatter_congr {f' : Nat → Nat} (hf : ∀ i, i < n → f i = f' i)
    (hb : ∀ i, i < n → b i = b' i) : scatter m f b n = scatter m f' b' n := by
  induction n with
  | zero => rfl
  | succ n ih =>
    rw [scatter, scatter, ih (fun i hi => hf i (by omega)) (fun i hi => hb i (by omega)),
      hf n (by omega), hb n (by omega)]

theorem scatter_add (m : Buf) (f : Nat → Nat) (b : Buf) (n k : Nat) :
    scatter (scatter m f b n) (fun i => f (n + i)) (fun i => b (n + i)) k = scatter m f b (n + k) := by
  induction k with
  | zero => rfl
  | succ k ih => rw [scatter, ih, ← Nat.add_assoc, scatter]

theorem scatter_out (h : ∀ i, i < n → f i ≠ a) : scatter m f b n a = m a := by
  induction n with
  | zero => rfl
  | succ n ih =>
    rw [scatter, update_of_ne (h n (by omega)).symm, ih fun i hi => h i (by omega)]

theorem scatter_in (hi : i < n) (h : ∀ j, i < j → j < n → f j ≠ f i) : scatter m f b n (f i) = b i := by
  induction n with
  | zero => exact absurd hi (Nat.not_lt_zero i)
  | succ n ih =>
    by_cases e : i = n
    · rw [e, scatter, update_self]
    · rw [scatter, update_of_ne (h n (by omega) (by omega)).symm,
        ih (by omega) fun j h1 h2 => h j h1 (by omega)]

theorem splice_eq_scatter (m b : Buf) (a n : Nat) : splice m a n b = scatter m (fun i => a + i) b n := by
  induction n with
  | zero =>
    funext c
    exact splice_out (by omega)
  | succ n ih =>
    rw [scatter, ← ih]
    funext c
    by_cases e : c = a + n
    · rw [e, update_self, splice_in (by omega) (by omega), Nat.add_sub_cancel_left]
    · rw [update_of_ne e]
      by_cases h : a ≤ c ∧ c < a + n
      · rw [splice_in h.1 (by omega), splice_in h.1 h.2]
      · rw [splice_out (by omega), splice_out (by omega)]

theorem splice_congr (h : ∀ i, i < n → b i = b' i) : splice m a n b = splice m a n b' := by
  rw [splice_eq_scatter, splice_eq_scatter]
  exact scatter_congr (fun _ _ => rfl) h

theorem splice_add (m b : Buf) (a n k : Nat) :
    splice (splice m a n b) (a + n) k (fun i => b (n + i)) = splice m a (n + k) b := by
  rw [splice_eq_scatter, splice_eq_scatter, splice_eq_scatter, ← scatter_add]
  exact scatter_congr (fun i _ => Nat.add_assoc a n i) fun _ _ => rfl

/-! ## words -/

def get16 (b : Buf) (o : Nat) : BitVec 16 := b (o + 1) ++ b o

def get32 (b : Buf) (o : Nat) : BitVec 32 := b (o + 3) ++ b (o + 2) ++ b (o + 1) ++ b o

def get64 (b : Buf) (o : Nat) : BitVec 64 := get32 b (o + 4) ++ get32 b o

def le16 (x : BitVec 16) : Buf := fun j => x.extractLsb' (8 * j) 8

def le32 (x : BitVec 32) : Buf := fun j => x.extractLsb' (8 * j) 8

def le64 (x : BitVec 64) : Buf := fun j => x.extractLsb' (8 * j) 8

def set16 (b : Buf) (o : Nat) (x : BitVec 16) : Buf := splice b o 2 (le16 x)

def set32 (b : Buf) (o : Nat) (x : BitVec 32) : Buf := splice b o 4 (le32 x)

theorem get16_le16 (x : BitVec 16) : get16 (le16 x) 0 = x := by
  show (x.extractLsb' 8 8 ++ x.extractLsb' 0 8 : BitVec 16) = x
  apply eq_of_getLsbD_eq
  intro i hi
  simp only [getLsbD_append, getLsbD_extractLsb']
  grind

theorem get32_le32 (x : BitVec 32) : get32 (le32 x) 0 = x := by
  show (x.extractLsb' 24 8 ++ x.extractLsb' 16 8 ++ x.extractLsb' 8 8 ++ x.extractLsb' 0 8
    : BitVec 32) = x
  apply eq_of_getLsbD_eq
  intro i hi
  simp only [getLsbD_append, getLsbD_extractLsb']
  grind

theorem get16_congr (h : ∀ j, j < 2 → b (o + j) = b' (o' + j)) : get16 b o = get16 b' o' := by
  unfold get16
  rw [h 1 (by omega), show b o = b' o' from h 0 (by omega)]

theorem get32_congr (h : ∀ j, j < 4 → b (o + j) = b' (o' + j)) : get32 b o = get32 b' o' := by
  unfold get32
  rw [h 3 (by omega), h 2 (by omega), h 1 (by omega), show b o = b' o' from h 0 (by omega)]

@[simp] theorem get16_set16 (b : Buf) (o : Nat) (x : BitVec 16) : get16 (set16 b o x) o = x := by
  rw [← get16_le16 x]
  apply get16_congr
  intro j hj
  rw [get16_le16, set16, splice_in (by omega) (by omega)]
  congr 1
  omega

@[simp] theorem get32_set32 (b : Buf) (o : Nat) (x : BitVec 32) : get32 (set32 b o x) o = x := by
  rw [← get32_le32 x]
  apply get32_congr
  intro j hj
  rw [get32_le32, set32, splice_in (by omega) (by omega)]
  congr 1
  omega

theorem get16_splice {f : Buf} (h : o + 2 ≤ a ∨ a + n ≤ o) : get16 (splice b a n f) o = get16 b o := by
  apply get16_congr
  intro j hj
  rw [splice_out (by omega)]

theorem get32_splice {f : Buf} (h : o + 4 ≤ a ∨ a + n ≤ o) : get32 (splice b a n f) o = get32 b o := by
  apply get32_congr
  intro j hj
  rw [splice_out (by omega)]

theorem get32_set32_ne {x : BitVec 32} (h : o + 4 ≤ a ∨ a + 4 ≤ o) :
    get32 (set32 b a x) o = get32 b o := get32_splice h

theorem get32_splice_in {f : Buf} {k : Nat} (h : k + 4 ≤ n) : get32 (splice b o n f) (o + k) = get32 f k := by
  apply get32_congr
  intro j hj
  rw [splice_in (by omega) (by omega)]
  congr 1
  omega

theorem get16_zero (o : Nat) : get16 (fun _ => 0) o = 0 := by
  show (0#8 ++ 0#8 : BitVec 16) = 0
  decide

theorem get32_zero (o : Nat) : get32 (fun _ => 0) o = 0 := by
  show (0#8 ++ 0#8 ++ 0#8 ++ 0#8 : BitVec 32) = 0
  decide

theorem get64_le64 (x : BitVec 64) : get64 (le64 x) 0 = x := by
  show (x.extractLsb' 56 8 ++ x.extractLsb' 48 8 ++ x.extractLsb' 40 8 ++ x.extractLsb' 32 8 ++
    (x.extractLsb' 24 8 ++ x.extractLsb' 16 8 ++ x.extractLsb' 8 8 ++ x.extractLsb' 0 8) : BitVec 64) = x
  apply eq_of_getLsbD_eq
  intro i hi
  simp only [getLsbD_append, getLsbD_extractLsb']
  grind

theorem get64_congr (h : ∀ j, j < 8 → b (o + j) = b' (o' + j)) : get64 b o = get64 b' o' := by
  unfold get64
  congr 1
  · apply get32_congr
    intro j hj
    rw [Nat.add_assoc, Nat.add_assoc]
    exact h (4 + j) (by omega)
  · exact get32_congr fun j hj => h j (by omega)

theorem get64_splice {f : Buf} (h : o + 8 ≤ a ∨ a + n ≤ o) : get64 (splice b a n f) o = get64 b o := by
  apply get64_congr
  intro j hj
  rw [splice_out (by omega)]

theorem get64_splice_in {f : Buf} {k : Nat} (h : k + 8 ≤ n) : get64 (splice b o n f) (o + k) = get64 f k := by
  apply get64_congr
  intro j hj
  rw [splice_in (by omega) (by omega)]
  congr 1
  omega

theorem get64_store (b : Buf) (o : Nat) (x : BitVec 64) : get64 (splice b o 8 (le64 x)) o = x :=
  (get64_splice_in (Nat.le_refl 8)).trans (get64_le64 x)

theorem get64_zero (o : Nat) : get64 (fun _ => 0) o = 0 := by
  rw [get64, get32_zero, get32_zero]
  decide

/-- an array of words -/
def words (a : Nat → BitVec 32) : Buf := fun j => le32 (a (j / 4)) (j % 4)

theorem get32_words (a : Nat → BitVec 32) (i : Nat) : get32 (words a) (4 * i) = a i := by
  rw [← get32_le32 (a i)]
  apply get32_congr
  intro j hj
  rw [words, show (4 * i + j) / 4 = i by omega, show (4 * i + j) % 4 = 0 + j by omega]

/-! ## bits -/

def bit (b : Buf) (i : Nat) : Bool := (b (i / 8)).getLsbD (i % 8)

/-- the mask of a bit in its byte -/
def mask (i : Nat) : Byte := 1#8 <<< (i % 8)

def setBit (b : Buf) (i : Nat) : Buf := Function.update b (i / 8) (b (i / 8) ||| mask i)

def clearBit (b : Buf) (i : Nat) : Buf := Function.update b (i / 8) (b (i / 8) &&& ~~~(mask i))

theorem getLsbD_mask {j : Nat} (hj : j < 8) : (mask i).getLsbD j = decide (j = i % 8) := by
  rw [mask, getLsbD_shiftLeft, getLsbD_one]
  by_cases h : j = i % 8
  · subst h
    simp [hj]
  simp only [hj, decide_true, Bool.true_and, h, decide_false]
  by_cases h2 : j < i % 8
  · simp [h2]
  · have : j - i % 8 ≠ 0 := by omega
    simp [this]

theorem bit_setBit (b : Buf) (i j : Nat) : bit (setBit b i) j = (bit b j || decide (j = i)) := by
  unfold bit setBit
  by_cases h : j / 8 = i / 8
  · rw [h, update_self, getLsbD_or, getLsbD_mask (Nat.mod_lt _ (by decide))]
    congr 2
    exact propext ⟨fun e => by omega, fun e => by rw [e]⟩
  · rw [update_of_ne h, decide_eq_false (by intro e; exact h (by rw [e])), Bool.or_false]

theorem bit_clearBit (b : Buf) (i j : Nat) : bit (clearBit b i) j = (bit b j && !decide (j = i)) := by
  unfold bit clearBit
  by_cases h : j / 8 = i / 8
  · have hj : j % 8 < 8 := Nat.mod_lt _ (by decide)
    rw [h, update_self, getLsbD_and, getLsbD_not, getLsbD_mask hj,
      decide_eq_true hj, Bool.true_and]
    congr 3
    exact propext ⟨fun e => by omega, fun e => by rw [e]⟩
  · rw [update_of_ne h, decide_eq_false (by intro e; exact h (by rw [e])), Bool.not_false,
      Bool.and_true]

theorem eq_of_bit {b b' : Buf} (h : ∀ i, bit b i = bit b' i) : b = b' := by
  funext k
  apply eq_of_getLsbD_eq
  intro t ht
  have := h (8 * k + t)
  rwa [bit, bit, show (8 * k + t) / 8 = k by omega, show (8 * k + t) % 8 = t by omega] at this

theorem clearBit_setBit {b : Buf} {i : Nat} (h : bit b i = false) : clearBit (setBit b i) i = b := by
  refine eq_of_bit fun j => ?_
  rw [bit_clearBit, bit_setBit]
  by_cases e : j = i
  · rw [e, h]
    simp
  · simp [e]

end Bytes
