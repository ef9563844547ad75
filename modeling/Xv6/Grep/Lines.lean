import Xv6.Grep.Match
import Mathlib.Data.List.TakeWhile

/-!
# The loop of grep over its input

`buf` holds the string of the bytes that were read and not dealt with; as in `Grep.Match`, a pointer into it
is a suffix.  The `k`th call of `read` gives `want k` bytes, but at least one while there are any, and never
more than it is asked for.

* `scan_spec`        the inner loop deals with the lines that are complete in the buffer;
* `grepLoop_eq`      the lines before the first one that does not fit are written, however `read` splits them;
* `grep_lines`       these are all iff no later line matches.
-/

set_option linter.unusedVariables false

namespace Grep
open Bytes List

/-- `sizeof(buf)` -/
def BUFSIZE : Nat := 1024

def newline : Byte := chr '\n'

/-- the string that a pointer to the bytes reads -/
def asString (s : List Byte) : CString where
  bytes := s.takeWhile fun x => x ≠ 0
  nul h := absurd (List.mem_takeWhile_imp h) (by decide)

/-- the bytes before the first `c` and those behind it -/
def strchr (c : Byte) : List Byte → Option (List Byte × List Byte)
  | [] => none
  | x :: s =>
    if x = 0 then none
    else if x = c then some ([], s)
    else (strchr c s).map fun y => (x :: y.1, y.2)

theorem strchr_some {c : Byte} {s : List Byte} {y : List Byte × List Byte} (h : strchr c s = some y) :
    s = y.1 ++ c :: y.2 ∧ c ∉ y.1 := by
  induction s generalizing y with
  | nil => cases h
  | cons x s ih =>
    rw [strchr] at h
    split at h
    · cases h
    split at h
    · rename_i hx
      cases h
      exact ⟨by rw [hx]; rfl, not_mem_nil⟩
    rename_i hx
    obtain ⟨y, hy, rfl⟩ := Option.map_eq_some_iff.mp h
    obtain ⟨hs, hc⟩ := ih hy
    refine ⟨by rw [hs]; rfl, fun hm => ?_⟩
    rcases mem_cons.mp hm with e | hm
    · exact hx e.symm
    · exact hc hm

theorem strchr_none {c : Byte} {s : List Byte} (h0 : 0 ∉ s) (h : strchr c s = none) : c ∉ s := by
  induction s with
  | nil => exact not_mem_nil
  | cons x s ih =>
    obtain ⟨hx, hs⟩ := not_mem_of_cons h0
    rw [strchr, if_neg hx] at h
    split at h
    · cases h
    rename_i hc
    intro hm
    rcases mem_cons.mp hm with e | hm
    · exact hc e.symm
    · exact ih hs (Option.map_eq_none_iff.mp h) hm

/-! ## the loops -/

/-- the inner loop: what it writes, and what is left at `p` -/
def scan (re : CString) (p : List Byte) : List Byte × List Byte :=
  match h : strchr newline p with
  | none => ([], p)
  | some x =>
    let y := scan re x.2
    ((if matchText re (asString x.1) then x.1 ++ [newline] else []) ++ y.1, y.2)
termination_by p.length
decreasing_by
  have := congrArg List.length (strchr_some h).1
  rw [List.length_append, List.length_cons] at this
  omega

/-- how much a `read` of `req` bytes gives when `left` are left -/
def readSize (want req left : Nat) : Nat := min (max 1 want) (min req left)

theorem readSize_le (want req left : Nat) : readSize want req left ≤ left :=
  (Nat.min_le_right _ _).trans (Nat.min_le_right _ _)

/-- the outer loop, with the unfinished line `tail` in the buffer and `rest` to be read -/
def grepLoop (re : CString) (want : Nat → Nat) (k : Nat) (tail rest : List Byte) : List Byte :=
  let n := readSize (want k) (BUFSIZE - tail.length - 1) rest.length
  if h : 0 < n then
    let y := scan re (tail ++ rest.take n)
    y.1 ++ grepLoop re want (k + 1) y.2 (rest.drop n)
  else []
termination_by rest.length
decreasing_by
  have := readSize_le (want k) (BUFSIZE - tail.length - 1) rest.length
  rw [List.length_drop]
  omega

/-- `grep` -/
def grep (re : CString) (want : Nat → Nat) (stream : List Byte) : List Byte := grepLoop re want 0 [] stream

/-! ## lines -/

/-- the lines that a newline ends -/
def lines (s : List Byte) : List (List Byte) := (s.splitOn newline).dropLast

/-- those of the lines that match, each with its newline -/
def written (re : CString) (ls : List (List Byte)) : List Byte :=
  (ls.filter fun t => matchText re (asString t)).flatMap fun t => t ++ [newline]

/-- the line fits into the buffer -/
def fits (t : List Byte) : Bool := t.length < BUFSIZE - 1

section
variable {re : CString} {s t p : List Byte} {ls : List (List Byte)}

theorem lines_none (h : newline ∉ s) : lines s = [] := by
  rw [lines, splitOn_eq_singleton h]
  rfl

theorem lines_cons (h : newline ∉ t) (s : List Byte) : lines (t ++ newline :: s) = t :: lines s := by
  rw [lines, splitOn_append_cons_self, splitOn_eq_singleton h,
    dropLast_append_of_ne_nil (splitOn_ne_nil _ _)]
  rfl

theorem written_append (re : CString) (a b : List (List Byte)) :
    written re (a ++ b) = written re a ++ written re b := by
  rw [written, filter_append, flatMap_append]
  rfl

theorem written_eq_nil : written re ls = [] ↔ ∀ t ∈ ls, matchText re (asString t) = false := by
  simp [written]

theorem scan_none (h : strchr newline p = none) : scan re p = ([], p) := by
  rw [scan]
  split
  · rfl
  · rename_i h'
    rw [h] at h'
    cases h'

theorem scan_some {x : List Byte × List Byte} (h : strchr newline p = some x) :
    scan re p = (written re [x.1] ++ (scan re x.2).1, (scan re x.2).2) := by
  rw [scan]
  split
  · rename_i h'
    rw [h] at h'
    cases h'
  rename_i y h'
  rw [h] at h'
  cases h'
  by_cases hm : matchText re (asString x.1) = true <;> simp [written, hm]

theorem scan_spec (re : CString) (h0 : 0 ∉ p) :
    newline ∉ (scan re p).2 ∧ 0 ∉ (scan re p).2 ∧ (scan re p).2.length ≤ p.length ∧
      ∃ ls, (scan re p).1 = written re ls ∧ (∀ t ∈ ls, t.length < p.length) ∧
        ∀ s, lines (p ++ s) = ls ++ lines ((scan re p).2 ++ s) := by
  induction hn : p.length using Nat.strongRecOn generalizing p with
  | ind n ih =>
    cases h : strchr newline p with
    | none =>
      rw [scan_none h]
      exact ⟨strchr_none h0 h, h0, hn.le, [], rfl, fun t ht => absurd ht not_mem_nil, fun s => rfl⟩
    | some x =>
      obtain ⟨hp, hx⟩ := strchr_some h
      have hlen : p.length = x.1.length + (x.2.length + 1) := by rw [hp, length_append, length_cons]
      have h0' : 0 ∉ x.2 := fun hm => h0 (by rw [hp]; exact mem_append_right _ (mem_cons_of_mem _ hm))
      obtain ⟨h1, h2, h3, ls, h4, h5, h6⟩ := ih x.2.length (by omega) h0' rfl
      rw [scan_some h]
      refine ⟨h1, h2, by show (scan re x.2).2.length ≤ n; omega, x.1 :: ls, ?_, fun t ht => ?_, fun s => ?_⟩
      · rw [h4]
        exact (written_append re [x.1] ls).symm
      · rcases mem_cons.mp ht with rfl | ht
        · omega
        · exact (h5 t ht).trans (by omega)
      · rw [hp, append_assoc, cons_append, lines_cons hx, h6]
        rfl

/-- a buffer that is full, or a stream that has ended -/
theorem lines_stop {tail rest : List Byte} (hn : newline ∉ tail)
    (h : rest = [] ∨ BUFSIZE - 1 ≤ tail.length) : (lines (tail ++ rest)).takeWhile fits = [] := by
  rcases h with rfl | h
  · rw [append_nil, lines_none hn]
    rfl
  by_cases hr : newline ∈ rest
  · obtain ⟨a, b, rfl, ha⟩ := eq_append_cons_of_mem hr
    rw [← append_assoc, lines_cons (by simp [hn, ha]), takeWhile_cons_of_neg]
    simp only [fits, length_append, decide_eq_true_iff]
    omega
  · rw [lines_none (by simp [hn, hr])]
    rfl

theorem grepLoop_eq (re : CString) (want : Nat → Nat) {k : Nat} {tail rest : List Byte} (h0 : 0 ∉ tail ++ rest)
    (hn : newline ∉ tail) (hl : tail.length < BUFSIZE) :
    grepLoop re want k tail rest = written re ((lines (tail ++ rest)).takeWhile fits) := by
  -- every turn reads some bytes, so the induction is on what is left of the stream
  induction hr : rest.length using Nat.strongRecOn generalizing k tail rest with
  | ind r ih =>
    rw [grepLoop]
    generalize hsz : readSize (want k) (BUFSIZE - tail.length - 1) rest.length = n
    rw [readSize] at hsz
    by_cases hpos : 0 < n
    · rw [dif_pos hpos]
      have hcut : tail ++ rest = (tail ++ rest.take n) ++ rest.drop n := by
        rw [append_assoc, take_append_drop]
      rw [hcut] at h0 ⊢
      have hlen : (tail ++ rest.take n).length ≤ BUFSIZE - 1 := by
        rw [length_append, length_take]
        omega
      obtain ⟨h1, h2, h3, ls, h4, h5, h6⟩ := scan_spec re fun hm => h0 (mem_append_left _ hm)
      have h0' : 0 ∉ (scan re (tail ++ rest.take n)).2 ++ rest.drop n := fun hm =>
        (mem_append.mp hm).elim h2 fun hm => h0 (mem_append_right _ hm)
      have hlt : (rest.drop n).length < r := by
        rw [length_drop]
        omega
      dsimp only
      rw [h6, takeWhile_append_of_pos, written_append, h4]
      · exact congrArg _ (ih _ hlt h0' h1 (by rw [BUFSIZE] at *; omega) rfl)
      · intro t ht
        have := h5 t ht
        exact decide_eq_true (by omega)
    · rw [dif_neg hpos, lines_stop hn]
      · rfl
      · rw [← length_eq_zero_iff]
        omega

theorem grep_eq (re : CString) (want : Nat → Nat) (h0 : 0 ∉ s) :
    grep re want s = written re ((lines s).takeWhile fits) :=
  grepLoop_eq re want h0 not_mem_nil (by decide)

end

/-- `grep` writes the lines that match, however `read` splits the stream, iff no line matches from the first
one on that does not fit into the buffer -/
theorem grep_lines (re : CString) (want : Nat → Nat) (stream : List Byte) (h0 : 0 ∉ stream) :
    grep re want stream = written re (lines stream) ↔
      ∀ t ∈ (lines stream).dropWhile fits, matchText re (asString t) = false := by
  have hsplit : written re (lines stream)
      = written re ((lines stream).takeWhile fits) ++ written re ((lines stream).dropWhile fits) := by
    rw [← written_append, List.takeWhile_append_dropWhile]
  rw [grep_eq re want h0, hsplit, List.self_eq_append_right, written_eq_nil]

/-- two short lines, read byte by byte -/
theorem grep_lines_short : grep ⟨[chr 'b'], by decide⟩ (fun _ => 1) [chr 'a', newline, chr 'b', newline]
    = written ⟨[chr 'b'], by decide⟩ (lines [chr 'a', newline, chr 'b', newline]) := by
  refine (grep_lines _ _ _ (by decide)).mpr fun t ht => ?_
  rw [show (lines [chr 'a', newline, chr 'b', newline]).dropWhile fits = [] by decide] at ht
  cases ht

/-- a line of 1023 bytes is lost, though the empty pattern matches every line -/
theorem grep_long_line :
    grep ⟨[], by decide⟩ (fun _ => 1023) (List.replicate 1023 (chr 'a') ++ [newline])
      ≠ written ⟨[], by decide⟩ (lines (List.replicate 1023 (chr 'a') ++ [newline])) := by
  generalize ht : List.replicate 1023 (chr 'a') = t
  have hlen : t.length = 1023 := by rw [← ht, List.length_replicate]
  have hmem : ∀ x ∈ t, x = chr 'a' := fun x hx => List.eq_of_mem_replicate (ht ▸ hx)
  have hn : newline ∉ t := fun h => absurd (hmem _ h) (by decide)
  have h0 : 0 ∉ t ++ [newline] := by
    intro h
    rcases List.mem_append.mp h with h | h
    · exact absurd (hmem _ h) (by decide)
    · exact absurd (List.mem_singleton.mp h) (by decide)
  have hl : lines (t ++ [newline]) = [t] := (lines_cons hn []).trans (by rw [lines_none List.not_mem_nil])
  rw [grep_eq _ _ h0, hl, List.takeWhile_cons_of_neg (by rw [fits, hlen]; decide)]
  intro h
  have hm := written_eq_nil.mp h.symm t List.mem_cons_self
  rw [matchText, if_neg (by decide), matchLoop, if_pos (matchhere_nil _)] at hm
  cases hm

end Grep
