import Mathlib.Data.List.Chain
import Mathlib.Data.List.Nodup
import Mathlib.Data.List.Perm.Basic
import Mathlib.Order.Defs.PartialOrder

/-!
# Linked lists and cycles

A linked list is given by the function `next` that follows the link of a cell.

* `Link next l`     each cell of `l` points to the one behind it;
* `link_split`      a list is linked if its two parts are, with the cell between them in both;
* `Link.congr`      only the links of the cells before the last one matter;
* `Link.next_sorted`   the links of a sorted list;
* `Link.turn`       a cycle can be entered at each of its cells;
* `seek`            the loop that follows links up to a cell that satisfies `stop`;
* `seek_cycle`      on a cycle it finds the only such cell, wherever it starts;
* `seek_find`       and from a cell on it finds the first one;
* `TwoWay`            a cycle through a head that is linked in both directions;
* `TwoWay.remove`, `TwoWay.insert`   a cell is unlinked, and linked in behind the head.
-/

namespace Cycle
open Function List

section
variable {α : Type*} {next next' : α → α} {l l' fs : List α} {a x y p : α}

/-- each cell points to the one behind it -/
def Link (next : α → α) (l : List α) : Prop := l.IsChain fun a b => next a = b

theorem link_single (next : α → α) (x : α) : Link next [x] := List.isChain_singleton x

theorem link_cons_cons : Link next (x :: y :: l) ↔ next x = y ∧ Link next (y :: l) :=
  isChain_cons_cons

theorem link_split : Link next (l ++ x :: l') ↔ Link next (l ++ [x]) ∧ Link next (x :: l') :=
  isChain_split

theorem Link.congr (h : Link next (l ++ [x])) (he : ∀ y ∈ l, next' y = next y) :
    Link next' (l ++ [x]) := by
  induction l with
  | nil => exact link_single _ _
  | cons y l ih =>
    have hl : ∀ z ∈ l, next' z = next z := fun z hz => he z (mem_cons_of_mem _ hz)
    cases l with
    | nil =>
      refine link_cons_cons.mpr ⟨?_, link_single _ _⟩
      rw [he y mem_cons_self]
      exact (link_cons_cons.mp h).1
    | cons z l =>
      obtain ⟨hy, h⟩ := link_cons_cons.mp h
      refine link_cons_cons.mpr ⟨?_, ih h hl⟩
      rwa [he y mem_cons_self]

theorem Link.replace_head (h : Link next (x :: l ++ [a])) (hp : next' p = next x)
    (he : ∀ y ∈ l, next' y = next y) : Link next' (p :: l ++ [a]) := by
  cases l with
  | nil =>
    refine link_cons_cons.mpr ⟨?_, link_single _ _⟩
    rw [hp]
    exact (link_cons_cons.mp h).1
  | cons y l =>
    obtain ⟨hx, h⟩ := link_cons_cons.mp h
    refine link_cons_cons.mpr ⟨?_, Link.congr h he⟩
    rwa [hp]

theorem Link.next_eq (h : Link next (l ++ x :: y :: l')) : next x = y :=
  (link_cons_cons.mp (link_split.mp h).2).1

theorem Link.turn (h : Link next (a :: fs ++ [a])) (hx : x ∈ a :: fs) :
    ∃ ys, Link next (x :: ys ++ [x]) ∧ (x :: ys).Perm (a :: fs) := by
  obtain ⟨X, B, hXB⟩ := append_of_mem hx
  cases X with
  | nil =>
    cases hXB
    exact ⟨fs, h, List.Perm.refl _⟩
  | cons b X =>
    cases hXB
    have h' : Link next ((a :: X) ++ x :: (B ++ [a])) := by
      rwa [← cons_append, ← append_assoc]
    obtain ⟨hfront, hback⟩ := link_split.mp h'
    refine ⟨B ++ a :: X, ?_, ?_⟩
    · have : x :: (B ++ a :: X) ++ [x] = (x :: B) ++ a :: (X ++ [x]) := by
        rw [cons_append, cons_append, append_assoc, cons_append]
      rw [this]
      exact link_split.mpr ⟨hback, hfront⟩
    · show ((x :: B) ++ (a :: X)).Perm ((a :: X) ++ (x :: B))
      exact perm_append_comm

/-- in a sorted list a cell points to the next larger one, or it is the largest -/
theorem Link.next_sorted {α : Type*} [Preorder α] {next : α → α} {a y : α} {S : List α}
    (h : Link next (S ++ [a])) (hS : S.Pairwise (· < ·)) (hy : y ∈ S) :
    (next y = a ∧ ∀ z ∈ S, z ≤ y) ∨
      (next y ∈ S ∧ y < next y ∧ ∀ z ∈ S, z ≤ y ∨ next y ≤ z) := by
  obtain ⟨A, B, rfl⟩ := append_of_mem hy
  obtain ⟨-, hB, hAB⟩ := pairwise_append.mp hS
  have hA : ∀ z ∈ A, z ≤ y := fun z hz => le_of_lt (hAB z hz y mem_cons_self)
  rw [append_assoc, cons_append] at h
  cases B with
  | nil =>
    refine .inl ⟨h.next_eq, fun z hz => ?_⟩
    rcases mem_append.mp hz with hz | hz
    · exact hA z hz
    · exact le_of_eq (mem_singleton.mp hz)
  | cons b B =>
    have hb : next y = b := h.next_eq
    obtain ⟨hyB, hB⟩ := pairwise_cons.mp hB
    rw [hb]
    refine .inr ⟨mem_append_right _ (mem_cons_of_mem _ mem_cons_self),
      hyB b mem_cons_self, fun z hz => ?_⟩
    rcases mem_append.mp hz with hz | hz
    · exact .inl (hA z hz)
    rcases mem_cons.mp hz with rfl | hz
    · exact .inl (le_refl _)
    rcases mem_cons.mp hz with rfl | hz
    · exact .inr (le_refl _)
    · exact .inr (le_of_lt ((pairwise_cons.mp hB).1 z hz))

/-! ## searching -/

/-- follow the links up to a cell that satisfies `stop`, for at most `n` cells -/
def seek (stop : α → Prop) [DecidablePred stop] (next : α → α) : Nat → α → Option α
  | 0, _ => none
  | n + 1, x => if stop x then some x else seek stop next n (next x)

variable {stop : α → Prop} [DecidablePred stop] {n m : Nat}

theorem seek_mono (h : seek stop next n x = some y) (hm : n ≤ m) :
    seek stop next m x = some y := by
  induction n generalizing m x with
  | zero => cases h
  | succ n ih =>
    cases m with
    | zero => exact absurd hm (Nat.not_succ_le_zero n)
    | succ m =>
      rw [seek] at h ⊢
      split
      · rename_i hs
        rwa [if_pos hs] at h
      · rename_i hs
        rw [if_neg hs] at h
        exact ih h (Nat.le_of_succ_le_succ hm)

theorem seek_path (h : Link next (x :: l ++ [p])) (hl : ∀ y ∈ x :: l, ¬ stop y) (hp : stop p)
    (hn : l.length + 1 < n) : seek stop next n x = some p := by
  induction l generalizing n x with
  | nil =>
    obtain ⟨n, rfl⟩ := Nat.exists_eq_add_of_lt hn
    have hx := (link_cons_cons.mp h).1
    rw [seek, if_neg (hl x mem_cons_self), hx, List.length_nil, Nat.zero_add, Nat.add_comm 1,
      seek, if_pos hp]
  | cons y l ih =>
    cases n with
    | zero => exact absurd hn (Nat.not_lt_zero _)
    | succ n =>
      obtain ⟨hx, h⟩ := link_cons_cons.mp h
      rw [seek, if_neg (hl x mem_cons_self), hx]
      apply ih h (fun z hz => hl z (mem_cons_of_mem _ hz))
      rw [length_cons] at hn
      omega

/-- the loop finds the only cell of a cycle that satisfies `stop` -/
theorem seek_cycle (h : Link next (a :: fs ++ [a])) (hnd : (a :: fs).Nodup) (hx : x ∈ a :: fs)
    (hp : p ∈ a :: fs) (hstop : ∀ y ∈ a :: fs, stop y ↔ y = p) (hn : fs.length + 1 < n) :
    seek stop next n x = some p := by
  obtain ⟨ys, hlink, hperm⟩ := h.turn hx
  have hlen := hperm.length_eq
  rw [length_cons, length_cons] at hlen
  rcases mem_cons.mp (hperm.mem_iff.mpr hp) with rfl | hys
  · cases n with
    | zero => exact absurd hn (Nat.not_lt_zero _)
    | succ n => rw [seek, if_pos ((hstop p hp).mpr rfl)]
  obtain ⟨Y, Z, rfl⟩ := append_of_mem hys
  have hpath : Link next (x :: Y ++ [p]) := by
    rw [← cons_append, append_assoc] at hlink
    exact (link_split.mp hlink).1
  apply seek_path hpath ?_ ((hstop p hp).mpr rfl)
  · rw [length_append, length_cons] at hlen
    omega
  intro y hy hs
  have hmem : y ∈ x :: (Y ++ p :: Z) := mem_append_left (p :: Z) hy
  have he := (hstop y (hperm.mem_iff.mp hmem)).mp hs
  have hnd' : ((x :: Y) ++ p :: Z).Nodup := hperm.nodup_iff.mpr hnd
  rw [he] at hy
  exact (nodup_append.mp hnd').2.2 p hy p mem_cons_self rfl

theorem seek_find (h : Link next (x :: l ++ [a])) (ha : stop a) (hn : l.length < n) :
    seek stop next n (next x) = some ((l.find? fun y => stop y).getD a) := by
  induction l generalizing n x with
  | nil =>
    obtain ⟨n, rfl⟩ := Nat.exists_eq_succ_of_ne_zero (Nat.ne_of_gt hn)
    rw [seek, (link_cons_cons.mp h).1, if_pos ha]
    rfl
  | cons y l ih =>
    obtain ⟨n, rfl⟩ := Nat.exists_eq_succ_of_ne_zero (Nat.ne_of_gt (Nat.zero_lt_of_lt hn))
    obtain ⟨hx, h⟩ := link_cons_cons.mp h
    rw [seek, hx]
    by_cases hs : stop y
    · rw [if_pos hs, find?_cons_of_pos (by simpa using hs)]
      rfl
    · rw [if_neg hs, find?_cons_of_neg (by simpa using hs)]
      exact ih h (Nat.lt_of_succ_lt_succ hn)

end

/-! ## both directions -/

/-- the cells of `l` and the head `h` form a cycle; `prev` goes the other way round -/
structure TwoWay {α : Type*} (next prev : α → α) (h : α) (l : List α) : Prop where
  fwd : Link next (h :: l ++ [h])
  bwd : Link prev (h :: l.reverse ++ [h])
  nodup : (h :: l).Nodup

section
variable {α : Type*} {next prev : α → α} {h k x : α} {l A B : List α}

theorem TwoWay.symm (r : TwoWay next prev h l) : TwoWay prev next h l.reverse :=
  ⟨r.bwd, by rw [List.reverse_reverse]; exact r.fwd, by simpa using r.nodup⟩

/-- what stands before a cell, with its last element -/
theorem cons_eq_concat (x : α) (l : List α) : ∃ P y, x :: l = P ++ [y] ∧ l.reverse ++ [x] = y :: P.reverse := by
  refine ⟨(x :: l).dropLast, (x :: l).getLast (cons_ne_nil x l), (dropLast_concat_getLast _).symm, ?_⟩
  rw [← reverse_cons, ← reverse_concat, dropLast_concat_getLast]

theorem TwoWay.prev_next (r : TwoWay next prev h l) (hx : x ∈ h :: l) : prev (next x) = x := by
  obtain ⟨P, Q, hPQ⟩ := append_of_mem hx
  obtain ⟨y, Q', hQ⟩ : ∃ y Q', Q ++ [h] = y :: Q' := exists_cons_of_ne_nil (by simp)
  have hl : h :: l ++ [h] = P ++ x :: y :: Q' := by rw [hPQ, append_assoc, cons_append, hQ]
  have hb : h :: l.reverse ++ [h] = (h :: l ++ [h]).reverse := by simp
  have hnext : next x = y := (hl ▸ r.fwd).next_eq
  have hprev := hb ▸ r.bwd
  rw [hl, reverse_append, reverse_cons, reverse_cons, append_assoc, append_assoc] at hprev
  rw [hnext]
  exact Link.next_eq (show Link prev (Q'.reverse ++ y :: x :: P.reverse) from hprev)

variable [DecidableEq α]

theorem TwoWay.remove_fwd (r : TwoWay next prev h (A ++ k :: B)) :
    Link (update next (prev k) (next k)) (h :: (A ++ B) ++ [h]) := by
  obtain ⟨P, a, hP, hrev⟩ := cons_eq_concat h A
  have hfwd : Link next (P ++ a :: (k :: B ++ [h])) := by
    have := r.fwd
    rwa [← cons_append, hP, append_assoc, append_assoc] at this
  have hprev : prev k = a := by
    have := r.bwd
    rw [reverse_append, reverse_cons, append_assoc, ← cons_append, append_assoc,
      append_assoc, hrev] at this
    exact this.next_eq
  have hnd := r.nodup
  rw [← cons_append, hP, append_assoc, nodup_append] at hnd
  obtain ⟨-, hnd, hdis⟩ := hnd
  have haB : a ∉ B := fun hm => (nodup_cons.mp hnd).1 (mem_cons_of_mem _ hm)
  obtain ⟨h1, h2⟩ := link_split.mp hfwd
  rw [hprev, ← cons_append, hP, append_assoc, append_assoc]
  refine link_split.mpr ⟨h1.congr fun y hy => ?_, Link.replace_head (link_cons_cons.mp h2).2 ?_ fun y hy => ?_⟩
  · exact update_of_ne (hdis y hy a mem_cons_self) _ _
  · exact update_self _ _ _
  · exact update_of_ne (fun e : y = a => haB (e ▸ hy)) _ _

/-- the cell `k` is taken out -/
theorem TwoWay.remove (r : TwoWay next prev h (A ++ k :: B)) :
    TwoWay (update next (prev k) (next k)) (update prev (next k) (prev k)) h (A ++ B) := by
  have r' : TwoWay prev next h (B.reverse ++ k :: A.reverse) := by simpa using r.symm
  refine ⟨r.remove_fwd, by simpa using r'.remove_fwd, r.nodup.sublist ?_⟩
  exact (List.Sublist.append_left (sublist_cons_self k B) A).cons_cons h

/-- the cell `k` is put behind the head -/
theorem TwoWay.insert (r : TwoWay next prev h l) (hk : k ∉ h :: l) :
    TwoWay (update (update next k (next h)) h k)
      (update (update prev k h) (next h) k) h (k :: l) := by
  have hkh : k ≠ h := fun e => hk (e ▸ mem_cons_self)
  obtain ⟨P, a, hP, hrev⟩ := cons_eq_concat h l.reverse
  rw [List.reverse_reverse] at hrev
  have hfwd := r.fwd
  rw [cons_append, hrev] at hfwd
  have hbwd := r.bwd
  rw [hP, append_assoc] at hbwd
  have hnd : (P ++ [a]).Nodup := by
    rw [← hP]
    exact r.symm.nodup
  have hmem : ∀ y ∈ P ++ [a], y ≠ k := by
    intro y hy e
    rw [← hP, e] at hy
    exact hk (by simpa using hy)
  have hna : next h = a := (link_cons_cons.mp hfwd).1
  refine ⟨?_, ?_, nodup_cons.mpr ⟨fun hm => ?_, nodup_cons.mpr ⟨fun hm => ?_, (nodup_cons.mp r.nodup).2⟩⟩⟩
  · refine link_cons_cons.mpr ⟨update_self _ _ _, Link.replace_head r.fwd ?_ fun y hy => ?_⟩
    · rw [update_of_ne hkh, update_self]
    · have h1 : y ≠ h := fun e => (nodup_cons.mp r.nodup).1 (e ▸ hy)
      have h2 : y ≠ k := fun e => hk (e ▸ mem_cons_of_mem _ hy)
      rw [update_of_ne h1, update_of_ne h2]
  · rw [hna, reverse_cons, ← cons_append, hP, append_assoc, append_assoc]
    refine link_split.mpr ⟨(link_split.mp hbwd).1.congr fun y hy => ?_, link_cons_cons.mpr ⟨?_, link_cons_cons.mpr ⟨?_, ?_⟩⟩⟩
    · have h1 : y ≠ a := fun e => (nodup_append.mp hnd).2.2 y hy a (mem_singleton_self a) e
      rw [update_of_ne h1, update_of_ne (hmem y (mem_append_left _ hy))]
    · exact update_self _ _ _
    · rw [update_of_ne (hmem a (by simp)).symm, update_self]
    · exact link_single _ _
  · rcases mem_cons.mp hm with e | hm
    · exact hkh e.symm
    · exact (nodup_cons.mp r.nodup).1 hm
  · exact hk (mem_cons_of_mem _ hm)

end

end Cycle
