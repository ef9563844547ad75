import Mathlib.Data.List.GetD
import Xv6.Fs.Dir
import Xv6.Lib.CString

/-!
# Path names (`kernel/fs.c`)

A path is a string that ends in a NUL, and `char *path` points into it.  The buffer `name` keeps its bytes
from one path element to the next.

* `components`         what a path is for: the parts between slashes that are not empty;
* `skipelem_cases`     `skipelem` takes the first component and leaves the others;
* `nameAt_putName`     in the buffer it is cut to `DIRSIZ` bytes.
-/

namespace Fs
open Bytes Run Assoc List

/-- `'/'` -/
def SLASH : Byte := 47

/-- `while(*path == '/') path++` -/
def skipSlashes : List Byte → List Byte
  | [] => []
  | c :: l => if c = SLASH then skipSlashes l else c :: l

/-- `while(*path != '/' && *path != 0) path++` -/
def skipName : List Byte → List Byte
  | [] => []
  | c :: l => if c ≠ SLASH ∧ c ≠ 0 then skipName l else c :: l

/-- the rest of the path, and the buffer -/
def skipelem (path : List Byte) (name : Buf) : Option (List Byte × Buf) :=
  let s := skipSlashes path
  if deref s = 0 then none
  else
    let path := skipName s
    let len := s.length - path.length
    let name := if len ≥ DIRSIZ then splice name 0 DIRSIZ fun j => s.getD j 0
      else Function.update (splice name 0 len fun j => s.getD j 0) len 0
    some (skipSlashes path, name)

/-! ## components -/

/-- the parts of a path between slashes, without the empty ones -/
def components (p : List Byte) : List (List Byte) := (p.splitOn SLASH).filter fun c => !c.isEmpty

/-- `skipelem` stores a component -/
def putName (name : Buf) (c : List Byte) : Buf :=
  if c.length ≥ DIRSIZ then splice name 0 DIRSIZ fun j => c.getD j 0
  else Function.update (splice name 0 c.length fun j => c.getD j 0) c.length 0

section
variable {p q c : List Byte} {name : Buf}

theorem components_append (a b : List Byte) : components (a ++ SLASH :: b) = components a ++ components b := by
  rw [components, splitOn_append_cons_self, filter_append]
  rfl

theorem components_nil : components [] = [] := rfl

theorem components_slash (b : List Byte) : components (SLASH :: b) = components b := components_append [] b

theorem components_name (h : SLASH ∉ c) (hc : c ≠ []) : components c = [c] := by
  rw [components, splitOn_eq_singleton h, filter_cons_of_pos, filter_nil]
  cases c with
  | nil => exact absurd rfl hc
  | cons => rfl

theorem components_skipSlashes (p : List Byte) : components (skipSlashes p) = components p := by
  induction p with
  | nil => rfl
  | cons c l ih =>
    rw [skipSlashes]
    split
    · rename_i h
      rw [ih, h, components_slash]
    · rfl

theorem skipSlashes_head (p : List Byte) : deref (skipSlashes p) ≠ SLASH := by
  induction p with
  | nil => decide
  | cons c l ih =>
    rw [skipSlashes]
    split
    · exact ih
    · assumption

theorem skipSlashes_suffix (p : List Byte) : skipSlashes p <:+ p := by
  induction p with
  | nil => exact suffix_rfl
  | cons c l ih =>
    rw [skipSlashes]
    split
    · exact ih.trans (suffix_cons c l)
    · exact suffix_rfl

theorem skipName_spec (h : (0 : Byte) ∉ p) :
    ∃ c, p = c ++ skipName p ∧ SLASH ∉ c ∧ (skipName p = [] ∨ ∃ r, skipName p = SLASH :: r) ∧
      (deref p ≠ SLASH → p ≠ [] → c ≠ []) := by
  induction p with
  | nil => exact ⟨[], rfl, not_mem_nil, .inl rfl, fun _ hc => absurd rfl hc⟩
  | cons a l ih =>
    obtain ⟨c, h1, h2, h3, -⟩ := ih fun hl => h (mem_cons_of_mem _ hl)
    have ha : a ≠ 0 := fun e => h (e ▸ mem_cons_self)
    rw [skipName]
    by_cases hs : a = SLASH
    · have hneg : ¬ (a ≠ SLASH ∧ a ≠ 0) := fun hc => hc.1 hs
      rw [if_neg hneg]
      exact ⟨[], rfl, not_mem_nil, .inr ⟨l, by rw [hs]⟩, fun hc => absurd hs hc⟩
    · rw [if_pos ⟨hs, ha⟩]
      refine ⟨a :: c, ?_, ?_, h3, fun _ _ => cons_ne_nil a c⟩
      · rw [cons_append, ← h1]
      · rw [mem_cons, not_or]
        exact ⟨fun e => hs e.symm, h2⟩

theorem skipelem_cases (h0 : (0 : Byte) ∉ p) (name : Buf) :
    skipelem p name = none ∧ components p = [] ∧ skipSlashes p = [] ∨
      ∃ c q, skipelem p name = some (skipSlashes q, putName name c) ∧ components p = c :: components q ∧
        (0 : Byte) ∉ c ∧ (0 : Byte) ∉ q ∧ q.length < p.length ∧ skipSlashes p ≠ [] := by
  have hs0 : (0 : Byte) ∉ skipSlashes p := fun h => h0 ((skipSlashes_suffix p).subset h)
  have hlen := (skipSlashes_suffix p).length_le
  have hhead := skipSlashes_head p
  have hcomp := components_skipSlashes p
  unfold skipelem
  generalize skipSlashes p = s at *
  dsimp only
  by_cases hs : s = []
  · subst hs
    exact .inl ⟨if_pos rfl, hcomp.symm, rfl⟩
  obtain ⟨c, h1, h2, h3, h4⟩ := skipName_spec hs0
  have hc := h4 hhead hs
  have hlenc : s.length - (skipName s).length = c.length := by
    have := congrArg length h1
    rw [length_append] at this
    omega
  have hsub : ∀ b, b ∈ c ∨ b ∈ skipName s → b ∈ s := fun b hb => by
    rw [h1]
    exact mem_append.mpr hb
  refine .inr ⟨c, skipName s, ?_, ?_, fun h => hs0 (hsub _ (.inl h)), fun h => hs0 (hsub _ (.inr h)), ?_, hs⟩
  · rw [if_neg fun e => hs ((deref_eq_zero hs0).mp e), hlenc]
    have hget : ∀ j, j < c.length → s.getD j 0 = c.getD j 0 := by
      intro j hj
      rw [h1, getD_append _ _ _ _ hj]
    congr 2
    unfold putName
    split
    · exact splice_congr fun j hj => hget j (by omega)
    · rw [splice_congr fun j hj => hget j hj]
  · rw [← hcomp]
    rcases h3 with e | ⟨r, e⟩
    · rw [e, append_nil] at h1
      rw [e, h1, components_name h2 hc, components_nil]
    · rw [e] at h1
      rw [e, h1, components_append, components_name h2 hc, components_slash]
      rfl
  · have := congrArg length h1
    rw [length_append] at this
    have := length_pos_iff.mpr hc
    omega

theorem deref_skipSlashes (h0 : (0 : Byte) ∉ p) : deref (skipSlashes p) = 0 ↔ components p = [] := by
  have hs0 : (0 : Byte) ∉ skipSlashes p := fun h => h0 ((skipSlashes_suffix p).subset h)
  rw [deref_eq_zero hs0]
  obtain ⟨-, h1, h2⟩ | ⟨c, q, -, h1, -, -, -, h2⟩ := skipelem_cases h0 fun _ => 0
  · exact iff_of_true h2 h1
  · refine iff_of_false h2 ?_
    rw [h1]
    exact cons_ne_nil _ _

/-! ## the name in the buffer -/

theorem cstr_list {n i : Nat} {b : Buf} (h0 : (0 : Byte) ∉ c) (hb : ∀ j, j < n → j < c.length → b (i + j) = c.getD j 0)
    (hend : c.length < n → b (i + c.length) = 0) : cstr b n i = c.take n := by
  induction n generalizing i c with
  | zero => rfl
  | succ n ih =>
    rw [cstr]
    cases c with
    | nil =>
      have hi : b i = 0 := hend (Nat.succ_pos n)
      rw [if_pos hi]
      rfl
    | cons a l =>
      have ha : b i = a := hb 0 (Nat.succ_pos n) (Nat.succ_pos _)
      have ha0 : a ≠ 0 := fun e => h0 (e ▸ mem_cons_self)
      rw [ha, if_neg ha0, take_succ_cons, ih (fun h => h0 (mem_cons_of_mem _ h)) (fun j h1 h2 => ?_) fun h => ?_]
      · have := hb (j + 1) (by omega) (Nat.succ_lt_succ h2)
        rw [getD_cons_succ] at this
        rw [← this, Nat.add_assoc, Nat.add_comm 1 j]
      · have := hend (Nat.succ_lt_succ h)
        rw [length_cons] at this
        rwa [Nat.add_assoc, Nat.add_comm 1]

theorem nameAt_putName (h0 : (0 : Byte) ∉ c) (name : Buf) : nameAt (putName name c) = c.take DIRSIZ := by
  refine cstr_list h0 (fun j h1 h2 => ?_) fun h => ?_
  · rw [Nat.zero_add]
    unfold putName
    split
    · exact splice_in (Nat.zero_le j) (by omega)
    · rw [Function.update_of_ne (by omega), splice_in (Nat.zero_le j) (by omega)]
      rfl
  · rw [Nat.zero_add, putName, if_neg (by omega), Function.update_self]

end

end Fs
