import Mathlib.Data.List.Basic
import Xv6.Malloc.Model

/-!
# The heap as a row of blocks

What the allocator is for: the memory between the first break and the break is a row of blocks
without gaps.  A block (`Tile`) is free or live, and a live one has room for the bytes asked for.

* `place a ts`       the blocks of the row `ts` with their addresses, the first one at `a`;
* `freeAddrs`, `liveBlocks`   the free blocks, and the results of `malloc`;
* `Rep I c ts`       the state `c` of the allocator represents the row `ts`.
-/

namespace Malloc
open Cycle List

/-- a block of the heap: its size with the header, and the bytes asked for if it is live -/
structure Tile where
  units : Nat
  live : Option Nat
  pos : 0 < units
  fits : ∀ n ∈ live, n ≤ sizeofHeader * (units - 1)

def Tile.free (units : Nat) (h : 0 < units) : Tile :=
  ⟨units, none, h, fun _ hn => absurd hn (Option.not_mem_none _)⟩

theorem Tile.free_congr {u v : Nat} (h : u = v) (hu : 0 < u) (hv : 0 < v) :
    Tile.free u hu = Tile.free v hv := by
  subst h
  rfl

section
variable {a b : Nat} {t u : Tile} {ts L R : List Tile} {x y : Nat × Tile}

/-- the blocks with their addresses -/
def place : Nat → List Tile → List (Nat × Tile)
  | _, [] => []
  | a, t :: ts => (a, t) :: place (above a t.units) ts

/-- the end of the row -/
def finish : Nat → List Tile → Nat
  | a, [] => a
  | a, t :: ts => finish (above a t.units) ts

theorem place_append (a : Nat) (L R : List Tile) :
    place a (L ++ R) = place a L ++ place (finish a L) R := by
  induction L generalizing a with
  | nil => rfl
  | cons t L ih => rw [cons_append, place, ih, place, finish, cons_append]

theorem finish_append (a : Nat) (L R : List Tile) :
    finish a (L ++ R) = finish (finish a L) R := by
  induction L generalizing a with
  | nil => rfl
  | cons t L ih => rw [cons_append, finish, ih, finish]

theorem le_finish (a : Nat) (ts : List Tile) : a ≤ finish a ts := by
  induction ts generalizing a with
  | nil => exact Nat.le_refl a
  | cons t ts ih => exact Nat.le_trans (Nat.le_add_right _ _) (ih _)

theorem lt_above (a : Nat) (t : Tile) : a < above a t.units := by
  have := t.pos
  unfold above sizeofHeader
  omega

theorem place_bounds (h : x ∈ place a ts) :
    a ≤ x.1 ∧ x.1 < above x.1 x.2.units ∧ above x.1 x.2.units ≤ finish a ts := by
  induction ts generalizing a with
  | nil => cases h
  | cons t ts ih =>
    rcases mem_cons.mp h with rfl | h
    · exact ⟨Nat.le_refl _, lt_above _ _, le_finish _ _⟩
    · obtain ⟨h1, h2, h3⟩ := ih h
      exact ⟨Nat.le_trans (Nat.le_of_lt (lt_above a t)) h1, h2, h3⟩

theorem place_pairwise (a : Nat) (ts : List Tile) :
    (place a ts).Pairwise fun x y => above x.1 x.2.units ≤ y.1 := by
  induction ts generalizing a with
  | nil => exact List.Pairwise.nil
  | cons t ts ih => exact List.Pairwise.cons (fun y hy => (place_bounds hy).1) (ih _)

theorem place_cover {z : Nat} (h1 : a ≤ z) (h2 : z < finish a ts) :
    ∃ x ∈ place a ts, x.1 ≤ z ∧ z < above x.1 x.2.units := by
  induction ts generalizing a with
  | nil => exact absurd h2 (Nat.not_lt.mpr h1)
  | cons t ts ih =>
    by_cases hz : z < above a t.units
    · exact ⟨(a, t), mem_cons_self, h1, hz⟩
    · obtain ⟨x, hx, h⟩ := ih (Nat.le_of_not_lt hz) h2
      exact ⟨x, mem_cons_of_mem _ hx, h⟩

theorem split_of_mem (h : x ∈ place a ts) :
    ∃ L R, ts = L ++ x.2 :: R ∧ x.1 = finish a L := by
  induction ts generalizing a with
  | nil => cases h
  | cons t ts ih =>
    rcases mem_cons.mp h with rfl | h
    · exact ⟨[], ts, rfl, rfl⟩
    · obtain ⟨L, R, rfl, hx⟩ := ih h
      exact ⟨t :: L, R, rfl, hx⟩

theorem getLast_of_finish (h : x ∈ place a ts) (he : above x.1 x.2.units = finish a ts) :
    ts.getLast? = some x.2 := by
  obtain ⟨L, R, rfl, hx⟩ := split_of_mem h
  cases R with
  | nil => rw [getLast?_concat]
  | cons t R =>
    have hlt := lt_above (above x.1 x.2.units) t
    have hle := le_finish (above (above x.1 x.2.units) t.units) R
    rw [finish_append, ← hx, finish, finish] at he
    omega

/-! ## free and live blocks -/

def freeAddr (x : Nat × Tile) : Option Nat := if x.2.live = none then some x.1 else none

def liveBlock (x : Nat × Tile) : Option (Nat × Nat) := x.2.live.map fun n => (x.1 + sizeofHeader, n)

/-- the addresses of the free blocks -/
def freeAddrs (a : Nat) (ts : List Tile) : List Nat := (place a ts).filterMap freeAddr

/-- the results of `malloc` -/
def liveBlocks (a : Nat) (ts : List Tile) : List (Nat × Nat) := (place a ts).filterMap liveBlock

theorem freeAddrs_append (a : Nat) (L R : List Tile) :
    freeAddrs a (L ++ R) = freeAddrs a L ++ freeAddrs (finish a L) R := by
  unfold freeAddrs
  rw [place_append, filterMap_append]

theorem freeAddrs_cons_free (h : t.live = none) :
    freeAddrs a (t :: ts) = a :: freeAddrs (above a t.units) ts :=
  filterMap_cons_some (if_pos h)

theorem freeAddrs_cons_live (h : t.live ≠ none) :
    freeAddrs a (t :: ts) = freeAddrs (above a t.units) ts :=
  filterMap_cons_none (if_neg h)

theorem liveBlocks_append (a : Nat) (L R : List Tile) :
    liveBlocks a (L ++ R) = liveBlocks a L ++ liveBlocks (finish a L) R := by
  unfold liveBlocks
  rw [place_append, filterMap_append]

theorem liveBlocks_cons_free (h : t.live = none) :
    liveBlocks a (t :: ts) = liveBlocks (above a t.units) ts := by
  apply filterMap_cons_none
  rw [liveBlock, h]
  rfl

theorem liveBlocks_cons_live {n : Nat} (h : t.live = some n) :
    liveBlocks a (t :: ts) = (a + sizeofHeader, n) :: liveBlocks (above a t.units) ts := by
  apply filterMap_cons_some
  rw [liveBlock, h]
  rfl

theorem mem_freeAddrs : b ∈ freeAddrs a ts ↔ ∃ t, (b, t) ∈ place a ts ∧ t.live = none := by
  rw [freeAddrs, mem_filterMap]
  constructor
  · rintro ⟨⟨b', t⟩, hx, hb⟩
    obtain ⟨h, hb⟩ := Option.ite_none_right_eq_some.mp hb
    cases hb
    exact ⟨t, hx, h⟩
  · rintro ⟨t, hx, h⟩
    exact ⟨(b, t), hx, if_pos h⟩

theorem mem_liveBlocks {q n : Nat} : (q, n) ∈ liveBlocks a ts ↔
    ∃ x ∈ place a ts, x.2.live = some n ∧ q = x.1 + sizeofHeader := by
  rw [liveBlocks, mem_filterMap]
  constructor
  · rintro ⟨x, hx, hq⟩
    obtain ⟨m, hm, he⟩ := Option.map_eq_some_iff.mp hq
    cases he
    exact ⟨x, hx, hm, rfl⟩
  · rintro ⟨x, hx, hn, rfl⟩
    refine ⟨x, hx, ?_⟩
    rw [liveBlock, hn]
    rfl

theorem freeAddrs_bounds (h : b ∈ freeAddrs a ts) : a ≤ b ∧ b < finish a ts := by
  obtain ⟨t, hx, -⟩ := mem_freeAddrs.mp h
  obtain ⟨h1, h2, h3⟩ := place_bounds hx
  exact ⟨h1, Nat.lt_of_lt_of_le h2 h3⟩

theorem freeAddrs_sorted (a : Nat) (ts : List Tile) : (freeAddrs a ts).Pairwise (· < ·) := by
  apply (place_pairwise a ts).filterMap freeAddr
  intro x y hxy b hb c hc
  unfold freeAddr at hb hc
  split at hb
  · split at hc
    · cases hb
      cases hc
      exact Nat.lt_of_lt_of_le (lt_above _ _) hxy
    · cases hc
  · cases hb

end

/-! ## the state and the row -/

/-- no two free blocks stand side by side -/
def Merged (ts : List Tile) : Prop := ts.IsChain fun t u => t.live ≠ none ∨ u.live ≠ none

/-- the headers and the list of the state `s` are those of the row `ts` -/
structure RepState (I : Image) (s : State) (ts : List Tile) : Prop where
  brk : s.brk = finish I.start ts
  size : ∀ x ∈ place I.start ts, s.size x.1 = x.2.units
  base : s.size I.base = 0
  link : Link s.ptr (I.base :: freeAddrs I.start ts ++ [I.base])
  freep : s.freep ∈ I.base :: freeAddrs I.start ts
  merged : Merged ts

/-- moreover the live results of `malloc` are its live blocks -/
structure Rep (I : Image) (c : Config) (ts : List Tile) : Prop where
  state : RepState I c.state ts
  live : c.live.Perm (liveBlocks I.start ts)

section
variable {I : Image} {ts : List Tile} {a b : Nat}

theorem base_lt_of_mem (h : a ∈ freeAddrs I.start ts) : I.base < a :=
  Nat.lt_of_lt_of_le I.base_lt (freeAddrs_bounds h).1

theorem cycle_sorted (I : Image) (ts : List Tile) :
    (I.base :: freeAddrs I.start ts).Pairwise (· < ·) :=
  List.Pairwise.cons (fun _ h => base_lt_of_mem h) (freeAddrs_sorted _ _)

theorem cycle_nodup (I : Image) (ts : List Tile) : (I.base :: freeAddrs I.start ts).Nodup :=
  (cycle_sorted I ts).imp fun h => Nat.ne_of_lt h

end

end Malloc
