import Xv6.Malloc.Tiles

/-!
# `free` on the row of blocks

* `seek_pred`      the loop of `free` ends at the last block of the list below the freed one;
* `release`        the row after a block becomes free: it is joined with a free neighbour on
                   either side;
* `free_release`   `free` does this, if the joined size fits into a `uint`.
-/

namespace Malloc
open Cycle List

section
variable {I : Image} {s : State} {ts L R : List Tile} {t : Tile} {X B : List Nat} {p bp : Nat}

/-! ## the loop -/

theorem stops_iff {S : List Nat} (hlink : Link s.ptr (S ++ [I.base])) (hsort : S.Pairwise (· < ·))
    (hbase : ∀ z ∈ S, I.base ≤ z) (hp : p ∈ S) (hlt : p < bp)
    (hmax : ∀ z ∈ S, z ≤ p ∨ bp < z) {y : Nat} (hy : y ∈ S) :
    stops s bp y ↔ y = p := by
  have hp_le := hbase p hp
  unfold stops
  constructor
  · intro hs
    have hyp := hmax y hy
    obtain ⟨hn, hall⟩ | ⟨hmem, hlt', hall⟩ := hlink.next_sorted hsort hy
    · have := hall p hp
      omega
    · have := hall p hp
      omega
  · rintro rfl
    obtain ⟨hn, hall⟩ | ⟨hmem, hlt', hall⟩ := hlink.next_sorted hsort hy
    · omega
    · have := hmax _ hmem
      omega

theorem cycle_split (ht : t.live ≠ none) (I : Image) :
    ∃ X p, I.base :: freeAddrs I.start L = X ++ [p] ∧
      I.base :: freeAddrs I.start (L ++ t :: R) =
        X ++ p :: freeAddrs (above (finish I.start L) t.units) R := by
  obtain ⟨X, p, hX⟩ : ∃ X p, I.base :: freeAddrs I.start L = X ++ [p] :=
    ⟨_, _, (dropLast_append_getLast (cons_ne_nil _ _)).symm⟩
  refine ⟨X, p, hX, ?_⟩
  rw [freeAddrs_append, freeAddrs_cons_live ht, ← cons_append, hX, append_assoc]
  rfl

theorem seek_pred (h : RepState I s (L ++ t :: R)) (ht : t.live ≠ none)
    (hX : I.base :: freeAddrs I.start L = X ++ [p]) {n : Nat}
    (hn : (freeAddrs I.start (L ++ t :: R)).length + 1 < n) :
    seek (stops s (finish I.start L)) s.ptr n s.freep = some p := by
  have hpL : p ∈ I.base :: freeAddrs I.start L := by
    rw [hX]
    exact mem_append_right _ mem_cons_self
  have hall : ∀ z ∈ I.base :: freeAddrs I.start (L ++ t :: R), I.base ≤ z ∧
      (z ∈ I.base :: freeAddrs I.start L ∨ finish I.start L < z) := by
    intro z hz
    rcases mem_cons.mp hz with rfl | hz
    · exact ⟨Nat.le_refl _, .inl mem_cons_self⟩
    refine ⟨Nat.le_of_lt (base_lt_of_mem hz), ?_⟩
    rw [freeAddrs_append, freeAddrs_cons_live ht] at hz
    rcases mem_append.mp hz with hz | hz
    · exact .inl (mem_cons_of_mem _ hz)
    · exact .inr (Nat.lt_of_lt_of_le (lt_above _ t) (freeAddrs_bounds hz).1)
  have hp : p ∈ I.base :: freeAddrs I.start (L ++ t :: R) := by
    rw [freeAddrs_append, ← cons_append]
    exact mem_append_left _ hpL
  have hlt : p < finish I.start L := by
    rcases mem_cons.mp hpL with rfl | hp
    · exact Nat.lt_of_lt_of_le I.base_lt (le_finish _ _)
    · exact (freeAddrs_bounds hp).2
  have hmax : ∀ z ∈ I.base :: freeAddrs I.start (L ++ t :: R), z ≤ p ∨ finish I.start L < z := by
    intro z hz
    rcases (hall z hz).2 with hz | hz
    · left
      have hsort := cycle_sorted I L
      rw [hX] at hz hsort
      rcases mem_append.mp hz with hz | hz
      · exact Nat.le_of_lt ((pairwise_append.mp hsort).2.2 z hz p mem_cons_self)
      · exact Nat.le_of_eq (mem_singleton.mp hz)
    · exact .inr hz
  exact seek_cycle h.link (cycle_nodup I _) h.freep hp
    (fun y hy => stops_iff h.link (cycle_sorted I _) (fun z hz => (hall z hz).1) hp hlt hmax hy) hn

end

/-! ## the row after `free` -/

/-- the size of a free block of `u` units in front of the row, joined with a free neighbour -/
def joinUnits (u : Nat) : List Tile → Nat
  | r :: _ => if r.live = none then u + r.units else u
  | [] => u

def joinRest : List Tile → List Tile
  | r :: R => if r.live = none then R else r :: R
  | [] => []

/-- the free block at the end of the row, if there is one -/
def lastFree (L : List Tile) : Option Tile :=
  L.getLast?.bind fun l => if l.live = none then some l else none

def lastUnits (L : List Tile) : Nat := (lastFree L).elim 0 Tile.units

def lastRest (L : List Tile) : List Tile := (lastFree L).elim L fun _ => L.dropLast

theorem joinUnits_pos {u : Nat} (hu : 0 < u) (R : List Tile) : 0 < joinUnits u R := by
  cases R with
  | nil => exact hu
  | cons r R =>
    show 0 < if r.live = none then u + r.units else u
    split
    · exact Nat.add_pos_left hu _
    · exact hu

/-- the row after the block of `u` units between `L` and `R` became free -/
def release (L : List Tile) (u : Nat) (hu : 0 < u) (R : List Tile) : List Tile :=
  lastRest L ++ Tile.free (lastUnits L + joinUnits u R)
    (Nat.add_pos_right _ (joinUnits_pos hu R)) :: joinRest R

theorem join_cases (R : List Tile) :
    (∃ r R', R = r :: R' ∧ r.live = none ∧ (∀ u, joinUnits u R = u + r.units) ∧ joinRest R = R') ∨
      ((∀ r ∈ R.head?, r.live ≠ none) ∧ (∀ u, joinUnits u R = u) ∧ joinRest R = R) := by
  cases R with
  | nil => exact .inr ⟨fun r hr => absurd hr (Option.not_mem_none r), fun _ => rfl, rfl⟩
  | cons r R =>
    by_cases hr : r.live = none
    · exact .inl ⟨r, R, rfl, hr, fun _ => if_pos hr, if_pos hr⟩
    · refine .inr ⟨fun r' hr' => ?_, fun _ => if_neg hr, if_neg hr⟩
      cases hr'
      exact hr

theorem last_cases (L : List Tile) :
    (∃ L' l, L = L' ++ [l] ∧ l.live = none ∧ lastUnits L = l.units ∧ lastRest L = L') ∨
      ((∀ l ∈ L.getLast?, l.live ≠ none) ∧ lastUnits L = 0 ∧ lastRest L = L) := by
  rcases eq_nil_or_concat L with rfl | ⟨L', l, rfl⟩
  · exact .inr ⟨fun l hl => absurd hl (Option.not_mem_none l), rfl, rfl⟩
  rw [concat_eq_append]
  have hlast : lastFree (L' ++ [l]) = if l.live = none then some l else none := by
    rw [lastFree, getLast?_concat]
    rfl
  unfold lastUnits lastRest
  by_cases hl : l.live = none
  · rw [hlast, if_pos hl]
    exact .inl ⟨L', l, rfl, hl, rfl, dropLast_concat⟩
  rw [hlast, if_neg hl]
  refine .inr ⟨fun l' hl' => ?_, rfl, rfl⟩
  rw [getLast?_concat] at hl'
  cases hl'
  exact hl

section
variable {a u : Nat} {R L : List Tile} {x : Nat × Tile}

theorem finish_join (a u : Nat) (R : List Tile) :
    finish (above a (joinUnits u R)) (joinRest R) = finish (above a u) R := by
  obtain ⟨r, R', rfl, -, hu, hr⟩ | ⟨-, hu, hr⟩ := join_cases R
  · rw [hu, hr, finish]
    unfold above
    rw [Nat.mul_add, Nat.add_assoc]
  · rw [hu, hr]

theorem place_join (h : x ∈ place (above a (joinUnits u R)) (joinRest R)) :
    x ∈ place (above a u) R := by
  obtain ⟨r, R', rfl, -, hu, hr⟩ | ⟨-, hu, hr⟩ := join_cases R
  · rw [hu, hr] at h
    refine mem_cons_of_mem _ ?_
    unfold above at h ⊢
    rwa [Nat.mul_add, ← Nat.add_assoc] at h
  · rwa [hu, hr] at h

theorem liveBlocks_join (a u : Nat) (R : List Tile) :
    liveBlocks (above a (joinUnits u R)) (joinRest R) = liveBlocks (above a u) R := by
  obtain ⟨r, R', rfl, hf, hu, hr⟩ | ⟨-, hu, hr⟩ := join_cases R
  · rw [hu, hr, liveBlocks_cons_free hf]
    unfold above
    rw [Nat.mul_add, Nat.add_assoc]
  · rw [hu, hr]

end

section
variable {I : Image} {a u : Nat} {L R : List Tile}

theorem finish_last (L : List Tile) (a : Nat) :
    above (finish a (lastRest L)) (lastUnits L) = finish a L := by
  obtain ⟨L', l, rfl, -, hlu, hlr⟩ | ⟨-, hlu, hlr⟩ := last_cases L
  · rw [hlu, hlr, finish_append]
    rfl
  · rw [hlu, hlr]
    rfl

theorem above_add (a u v : Nat) : above a (u + v) = above (above a u) v := by
  unfold above
  rw [Nat.mul_add, Nat.add_assoc]

theorem liveBlocks_last (L : List Tile) (a : Nat) :
    liveBlocks a (lastRest L) = liveBlocks a L := by
  obtain ⟨L', l, rfl, hf, -, hlr⟩ | ⟨-, -, hlr⟩ := last_cases L
  · rw [hlr, liveBlocks_append, liveBlocks_cons_free hf]
    exact (append_nil _).symm
  · rw [hlr]

theorem finish_release (hu : 0 < u) :
    finish a (release L u hu R) = finish (above (finish a L) u) R := by
  rw [release, finish_append, finish]
  show finish (above _ (lastUnits L + joinUnits u R)) _ = _
  rw [above_add, finish_last, finish_join]

theorem liveBlocks_release (hu : 0 < u) :
    liveBlocks a (release L u hu R) = liveBlocks a L ++ liveBlocks (above (finish a L) u) R := by
  rw [release, liveBlocks_append, liveBlocks_cons_free rfl]
  show _ ++ liveBlocks (above _ (lastUnits L + joinUnits u R)) _ = _
  rw [above_add, finish_last, liveBlocks_join, liveBlocks_last]

theorem le_joinUnits (u : Nat) (R : List Tile) : u ≤ joinUnits u R := by
  obtain ⟨r, R', rfl, -, hu, -⟩ | ⟨-, hu, -⟩ := join_cases R
  · rw [hu]
    exact Nat.le_add_right _ _
  · rw [hu]

theorem mem_release (hu : 0 < u) :
    ∃ x ∈ place a (release L u hu R), x.2.live = none ∧ u ≤ x.2.units := by
  have hpos : 0 < lastUnits L + joinUnits u R := Nat.add_pos_right _ (joinUnits_pos hu R)
  refine ⟨(finish a (lastRest L), Tile.free (lastUnits L + joinUnits u R) hpos), ?_, rfl, ?_⟩
  · rw [release, place_append]
    exact mem_append_right _ mem_cons_self
  · exact Nat.le_trans (le_joinUnits u R) (Nat.le_add_left _ _)

end

/-! ## joining -/

section
variable {I : Image} {s : State} {L R : List Tile} {t : Tile} {X : List Nat} {p : Nat}

/-- after the first step of `free` the block at `bp` has its final size but one, and points to the
list behind it -/
theorem joinNext_spec (h : RepState I s (L ++ t :: R)) (ht : t.live ≠ none)
    (hX : I.base :: freeAddrs I.start L = X ++ [p])
    (hu : joinUnits t.units R < 2 ^ 32) :
    (joinNext s (finish I.start L) p).size (finish I.start L) = joinUnits t.units R ∧
      (∀ a, a ≠ finish I.start L → (joinNext s (finish I.start L) p).size a = s.size a ∧
        (joinNext s (finish I.start L) p).ptr a = s.ptr a) ∧
      Link (joinNext s (finish I.start L) p).ptr (finish I.start L ::
        freeAddrs (above (finish I.start L) (joinUnits t.units R)) (joinRest R) ++ [I.base]) ∧
      (joinNext s (finish I.start L) p).brk = s.brk := by
  have hsize : s.size (finish I.start L) = t.units := by
    apply h.size (finish I.start L, t)
    rw [place_append]
    exact mem_append_right _ mem_cons_self
  have hpR : Link s.ptr (p :: freeAddrs (above (finish I.start L) t.units) R ++ [I.base]) := by
    have hlink := h.link
    rw [freeAddrs_append, freeAddrs_cons_live ht, ← cons_append, hX, append_assoc,
      append_assoc] at hlink
    exact (link_split.mp hlink).2
  obtain ⟨r, R', rfl, hf, hju, hjr⟩ | ⟨hf, hju, hjr⟩ := join_cases R
  · -- the neighbour above is free: it is the block behind `p` in the list
    rw [freeAddrs_cons_free hf] at hpR
    obtain ⟨hnext, hpR⟩ := link_cons_cons.mp hpR
    have hr : s.size (above (finish I.start L) t.units) = r.units := by
      apply h.size (above (finish I.start L) t.units, r)
      rw [place_append]
      exact mem_append_right _ (mem_cons_of_mem _ mem_cons_self)
    have hj : joinNext s (finish I.start L) p =
        (s.setSize (finish I.start L) (t.units + r.units)).setPtr (finish I.start L)
          (s.ptr (above (finish I.start L) t.units)) := by
      rw [joinNext, hsize, if_pos hnext.symm, hnext, hr]
      simp [hnext]
    rw [hju] at hu ⊢
    rw [hj, hjr]
    refine ⟨?_, ?_, ?_, rfl⟩
    · rw [setPtr_size, setSize_size, if_pos rfl, Nat.mod_eq_of_lt hu]
    · intro a ha
      simp [ha]
    have he : above (finish I.start L) (t.units + r.units) =
        above (above (finish I.start L) t.units) r.units := by
      unfold above
      rw [Nat.mul_add, Nat.add_assoc]
    rw [he]
    apply hpR.replace_head
    · simp
    intro y hy
    have hy' := (freeAddrs_bounds hy).1
    have := lt_above (above (finish I.start L) t.units) r
    have := lt_above (finish I.start L) t
    have hne' : y ≠ finish I.start L := by omega
    simp [hne']
  · have hcond : above (finish I.start L) t.units ≠ s.ptr p := by
      intro he
      have hlt := lt_above (finish I.start L) t
      cases hfr : freeAddrs (above (finish I.start L) t.units) R with
      | nil =>
        rw [hfr] at hpR
        have hb := (link_cons_cons.mp hpR).1
        have := le_finish I.start L
        have := I.base_lt
        omega
      | cons b B =>
        rw [hfr] at hpR
        have hb := (link_cons_cons.mp hpR).1
        have hmem : b ∈ freeAddrs (above (finish I.start L) t.units) R := by
          rw [hfr]
          exact mem_cons_self
        cases R with
        | nil => cases hmem
        | cons r R =>
          rw [freeAddrs_cons_live (hf r rfl)] at hmem
          have := (freeAddrs_bounds hmem).1
          have := lt_above (above (finish I.start L) t.units) r
          omega
    have hj : joinNext s (finish I.start L) p = s.setPtr (finish I.start L) (s.ptr p) := by
      rw [joinNext, hsize, if_neg hcond]
    rw [hju] at hu ⊢
    rw [hj, hjr]
    refine ⟨?_, ?_, ?_, rfl⟩
    · rw [setPtr_size, hsize]
    · intro a ha
      simp [ha]
    apply hpR.replace_head
    · simp
    intro y hy
    have hy' := (freeAddrs_bounds hy).1
    have := lt_above (finish I.start L) t
    have hne' : y ≠ finish I.start L := by omega
    simp [hne']

theorem place_left {x : Nat × Tile} (hx : x ∈ place I.start L) :
    x ∈ place I.start (L ++ t :: R) := by
  rw [place_append]
  exact mem_append_left _ hx

theorem place_right {x : Nat × Tile} (hx : x ∈ place (above (finish I.start L) t.units) R) :
    x ∈ place I.start (L ++ t :: R) := by
  rw [place_append]
  exact mem_append_right _ (mem_cons_of_mem _ hx)

theorem merged_join (h : Merged (L ++ t :: R)) {u : Tile} :
    Merged (u :: joinRest R) := by
  have hR : Merged (t :: R) := (isChain_split.mp h).2
  obtain ⟨r, R', rfl, hf, -, hjr⟩ | ⟨hf, -, hjr⟩ := join_cases R
  · rw [hjr]
    have hrR : Merged (r :: R') := (isChain_cons_cons.mp hR).2
    cases R' with
    | nil => exact isChain_singleton _
    | cons r' R' =>
      obtain ⟨hr, hR'⟩ := isChain_cons_cons.mp hrR
      exact isChain_cons_cons.mpr ⟨.inr (hr.resolve_left (absurd hf)), hR'⟩
  · rw [hjr]
    cases R with
    | nil => exact isChain_singleton _
    | cons r R =>
      exact isChain_cons_cons.mpr ⟨.inr (hf r rfl), (isChain_cons_cons.mp hR).2⟩

theorem merged_append {u : Tile} (hL : Merged L) (hlast : ∀ l ∈ L.getLast?, l.live ≠ none)
    (hR : Merged (u :: R)) : Merged (L ++ u :: R) := by
  apply List.IsChain.append hL hR
  intro l hl u' _
  exact .inl (hlast l hl)

theorem repState_of_parts {u : Nat} (hu : 0 < u)
    (hbrk : s.brk = finish (above (finish I.start L) u) R)
    (hL : ∀ x ∈ place I.start L, s.size x.1 = x.2.units)
    (hsize : s.size (finish I.start L) = u)
    (hR : ∀ x ∈ place (above (finish I.start L) u) R, s.size x.1 = x.2.units)
    (hbase : s.size I.base = 0)
    (hfront : Link s.ptr (I.base :: freeAddrs I.start L ++ [finish I.start L]))
    (hback : Link s.ptr
      (finish I.start L :: freeAddrs (above (finish I.start L) u) R ++ [I.base]))
    (hfreep : s.freep ∈ I.base :: freeAddrs I.start L ++ [finish I.start L])
    (hm : Merged (L ++ Tile.free u hu :: R)) : RepState I s (L ++ Tile.free u hu :: R) := by
  have hcycle : I.base :: freeAddrs I.start (L ++ Tile.free u hu :: R) =
      (I.base :: freeAddrs I.start L) ++
        finish I.start L :: freeAddrs (above (finish I.start L) u) R := by
    rw [freeAddrs_append, freeAddrs_cons_free rfl, cons_append]
    rfl
  refine ⟨?_, ?_, hbase, ?_, ?_, hm⟩
  · rw [hbrk, finish_append]
    rfl
  · intro x hx
    rw [place_append] at hx
    rcases mem_append.mp hx with hx | hx
    · exact hL x hx
    rcases mem_cons.mp hx with rfl | hx
    · exact hsize
    · exact hR x hx
  · rw [hcycle, append_assoc]
    exact link_split.mpr ⟨hfront, hback⟩
  · rw [hcycle]
    rcases mem_append.mp hfreep with h | h
    · exact mem_append_left _ h
    · rw [mem_singleton.mp h]
      exact mem_append_right _ mem_cons_self

theorem release_eq {L' : List Tile} {u v : Nat} (hu : 0 < u) (hr : lastRest L = L')
    (hv : lastUnits L = v) :
    release L u hu R = L' ++ Tile.free (v + joinUnits u R)
      (Nat.add_pos_right _ (joinUnits_pos hu R)) :: joinRest R := by
  subst hr hv
  rfl

end

/-! ## `free` -/

section
variable {I : Image} {s s₁ : State} {L R : List Tile} {t : Tile} {X : List Nat} {p : Nat}

/-- what `joinNext` leaves to `joinPrev`: a block of `u` units between `L` and `R` that points to
the list behind it -/
structure Loose (I : Image) (s : State) (L : List Tile) (u : Nat) (R : List Tile) : Prop where
  pos : 0 < u
  brk : s.brk = finish (above (finish I.start L) u) R
  left : ∀ x ∈ place I.start L, s.size x.1 = x.2.units
  size : s.size (finish I.start L) = u
  right : ∀ x ∈ place (above (finish I.start L) u) R, s.size x.1 = x.2.units
  base : s.size I.base = 0
  front : ∀ p X, I.base :: freeAddrs I.start L = X ++ [p] → Link s.ptr (X ++ [p])
  back : Link s.ptr (finish I.start L :: freeAddrs (above (finish I.start L) u) R ++ [I.base])

theorem joinNext_loose (h : RepState I s (L ++ t :: R)) (ht : t.live ≠ none)
    (hX : I.base :: freeAddrs I.start L = X ++ [p]) (hu : joinUnits t.units R < 2 ^ 32) :
    Loose I (joinNext s (finish I.start L) p) L (joinUnits t.units R) (joinRest R) := by
  obtain ⟨hsz, hsame, hlink, hbrk⟩ := joinNext_spec h ht hX hu
  generalize joinNext s (finish I.start L) p = s₁ at hsz hsame hlink hbrk ⊢
  have hbaselt : I.base < finish I.start L := Nat.lt_of_lt_of_le I.base_lt (le_finish _ _)
  refine ⟨joinUnits_pos t.pos R, ?_, ?_, hsz, ?_, ?_, ?_, hlink⟩
  · rw [hbrk, h.brk, finish_append, finish, finish_join]
  · intro x hx
    obtain ⟨-, h1, h2⟩ := place_bounds hx
    rw [(hsame x.1 (by omega)).1]
    exact h.size x (place_left hx)
  · intro x hx
    have hx := place_join hx
    have h1 := (place_bounds hx).1
    have h2 := lt_above (finish I.start L) t
    rw [(hsame x.1 (by omega)).1]
    exact h.size x (place_right hx)
  · rw [(hsame I.base (Nat.ne_of_lt hbaselt)).1]
    exact h.base
  · intro p' X' hX'
    have hl := h.link
    rw [freeAddrs_append, freeAddrs_cons_live ht, ← cons_append, hX', append_assoc,
      append_assoc] at hl
    apply (link_split.mp hl).1.congr
    intro y hy
    have hmem : y ∈ I.base :: freeAddrs I.start L := by
      rw [hX']
      exact mem_append_left _ hy
    have hlt : y < finish I.start L := by
      rcases mem_cons.mp hmem with rfl | hy
      · exact hbaselt
      · exact (freeAddrs_bounds hy).2
    exact (hsame y (Nat.ne_of_lt hlt)).2

/-- the neighbour below is free, so it is `p`, and the two are joined -/
theorem joinPrev_lower {l : Tile} {u : Nat} (h : Loose I s (L ++ [l]) u R) (hl : l.live = none)
    (hu : l.units + u < 2 ^ 32)
    (hm : Merged (L ++ Tile.free (l.units + u) (Nat.add_pos_left l.pos _) :: R)) :
    RepState I
      { joinPrev s (finish I.start (L ++ [l])) (finish I.start L) with freep := finish I.start L }
      (L ++ Tile.free (l.units + u) (Nat.add_pos_left l.pos _) :: R) := by
  have hfin : finish I.start (L ++ [l]) = above (finish I.start L) l.units := by
    rw [finish_append]
    rfl
  have hlast : (finish I.start L, l) ∈ place I.start (L ++ [l]) := by
    rw [place_append]
    exact mem_append_right _ mem_cons_self
  have hsz : s.size (finish I.start L) = l.units := h.left _ hlast
  have hlt := lt_above (finish I.start L) l
  have hsum : above (finish I.start L) (l.units + u) = above (finish I.start (L ++ [l])) u := by
    rw [hfin]
    unfold above
    rw [Nat.mul_add, Nat.add_assoc]
  have hj : joinPrev s (finish I.start (L ++ [l])) (finish I.start L) =
      (s.setSize (finish I.start L) (l.units + u)).setPtr (finish I.start L)
        (s.ptr (finish I.start (L ++ [l]))) := by
    rw [joinPrev, hsz, if_pos hfin.symm, h.size]
    simp
  have hcyc : I.base :: freeAddrs I.start (L ++ [l]) =
      (I.base :: freeAddrs I.start L) ++ [finish I.start L] := by
    rw [freeAddrs_append, freeAddrs_cons_free hl]
    rfl
  rw [hj]
  refine repState_of_parts _ ?_ ?_ ?_ ?_ ?_ ?_ ?_ ?_ hm
  · rw [hsum]
    exact h.brk
  · intro x hx
    have hxlt := (place_bounds hx).2
    have hne : x.1 ≠ finish I.start L := by omega
    show ((s.setSize _ _).setPtr _ _).size x.1 = _
    rw [setPtr_size, setSize_size, if_neg hne]
    apply h.left
    rw [place_append]
    exact mem_append_left _ hx
  · show ((s.setSize _ _).setPtr _ _).size _ = _
    rw [setPtr_size, setSize_size, if_pos rfl, Nat.mod_eq_of_lt hu]
  · intro x hx
    rw [hsum] at hx
    have hxge := (place_bounds hx).1
    have hpos := h.pos
    have hne : x.1 ≠ finish I.start L := by
      unfold above sizeofHeader at hxge hlt
      unfold above sizeofHeader at hfin
      omega
    show ((s.setSize _ _).setPtr _ _).size x.1 = _
    rw [setPtr_size, setSize_size, if_neg hne]
    exact h.right x hx
  · have hne : I.base ≠ finish I.start L :=
      Nat.ne_of_lt (Nat.lt_of_lt_of_le I.base_lt (le_finish _ _))
    show ((s.setSize _ _).setPtr _ _).size I.base = _
    rw [setPtr_size, setSize_size, if_neg hne]
    exact h.base
  · apply (h.front _ _ hcyc).congr
    intro y hy
    have hne : y ≠ finish I.start L := by
      rcases mem_cons.mp hy with rfl | hy
      · exact Nat.ne_of_lt (Nat.lt_of_lt_of_le I.base_lt (le_finish _ _))
      · exact Nat.ne_of_lt (freeAddrs_bounds hy).2
    show ((s.setSize _ _).setPtr _ _).ptr y = _
    rw [setPtr_ptr, if_neg hne, setSize_ptr]
  · rw [hsum]
    apply h.back.replace_head
    · show ((s.setSize _ _).setPtr _ _).ptr _ = _
      rw [setPtr_ptr, if_pos rfl]
    intro y hy
    have hyge := (freeAddrs_bounds hy).1
    have hne : y ≠ finish I.start L := by
      unfold above sizeofHeader at hyge hlt hfin
      omega
    show ((s.setSize _ _).setPtr _ _).ptr y = _
    rw [setPtr_ptr, if_neg hne, setSize_ptr]
  · exact mem_append_right _ mem_cons_self

/-- the neighbour below is not free, so the block is put behind `p` -/
theorem joinPrev_new {u : Nat} (h : Loose I s L u R) (hl : ∀ l ∈ L.getLast?, l.live ≠ none)
    (hX : I.base :: freeAddrs I.start L = X ++ [p])
    (hm : Merged (L ++ Tile.free u h.pos :: R)) :
    RepState I { joinPrev s (finish I.start L) p with freep := p }
      (L ++ Tile.free u h.pos :: R) := by
  have hpmem : p ∈ I.base :: freeAddrs I.start L := by
    rw [hX]
    exact mem_append_right _ mem_cons_self
  have hbaselt : I.base < finish I.start L := Nat.lt_of_lt_of_le I.base_lt (le_finish _ _)
  have hplt : p < finish I.start L := by
    rcases mem_cons.mp hpmem with rfl | hp
    · exact hbaselt
    · exact (freeAddrs_bounds hp).2
  have hcond : above p (s.size p) ≠ finish I.start L := by
    intro he
    rcases mem_cons.mp hpmem with rfl | hp
    · rw [h.base] at he
      exact Nat.ne_of_lt hbaselt he
    · obtain ⟨l, hx, hfree⟩ := mem_freeAddrs.mp hp
      rw [h.left _ hx] at he
      exact hl l (getLast_of_finish hx he) hfree
  have hj : joinPrev s (finish I.start L) p = s.setPtr p (finish I.start L) := if_neg hcond
  have hptr : ∀ y, y ≠ p → (s.setPtr p (finish I.start L)).ptr y = s.ptr y := by
    intro y hy
    rw [setPtr_ptr, if_neg hy]
  have hsize : ∀ y, (s.setPtr p (finish I.start L)).size y = s.size y :=
    fun y => setPtr_size s p y _
  rw [hj]
  refine repState_of_parts _ h.brk ?_ ?_ ?_ ?_ ?_ ?_ ?_ hm
  · intro x hx
    exact (hsize x.1).trans (h.left x hx)
  · exact (hsize _).trans h.size
  · intro x hx
    exact (hsize x.1).trans (h.right x hx)
  · exact (hsize _).trans h.base
  · rw [hX, append_assoc]
    refine link_split.mpr ⟨?_, ?_⟩
    · apply (h.front p X hX).congr
      intro y hy
      have hsort := cycle_sorted I L
      rw [hX] at hsort
      exact hptr y (Nat.ne_of_lt ((pairwise_append.mp hsort).2.2 y hy p mem_cons_self))
    · refine link_cons_cons.mpr ⟨?_, link_single _ _⟩
      show (s.setPtr p _).ptr p = _
      rw [setPtr_ptr, if_pos rfl]
  · apply h.back.replace_head
    · exact hptr _ (Nat.ne_of_gt hplt)
    intro y hy
    have hyge := (freeAddrs_bounds hy).1
    apply hptr
    unfold above sizeofHeader at hyge
    omega
  · exact mem_append_left _ hpmem

/-- `free` makes the block a free one and joins it with its free neighbours -/
theorem free_release (h : RepState I s (L ++ t :: R)) (ht : t.live ≠ none)
    (hu : lastUnits L + joinUnits t.units R < 2 ^ 32) :
    ∃ s', RepState I s' (release L t.units t.pos R) ∧
      ∀ n, (freeAddrs I.start (L ++ t :: R)).length + 1 < n →
        free n s (finish I.start L + sizeofHeader) = some s' := by
  obtain ⟨X, p, hX, -⟩ := cycle_split (R := R) ht I
  have hloose := joinNext_loose h ht hX (Nat.lt_of_le_of_lt (Nat.le_add_left _ _) hu)
  refine ⟨{ joinPrev (joinNext s (finish I.start L) p) (finish I.start L) p with freep := p },
    ?_, fun n hn => ?_⟩
  · obtain ⟨L', l, rfl, hf, hlu, hlr⟩ | ⟨hf, hlu, hlr⟩ := last_cases L
    · rw [freeAddrs_append, freeAddrs_cons_free hf, ← cons_append] at hX
      obtain ⟨rfl, hp⟩ := append_inj' hX rfl
      cases hp
      rw [hlu] at hu
      rw [release_eq t.pos hlr hlu]
      apply joinPrev_lower hloose hf hu
      apply merged_append
      · have hm := h.merged
        rw [append_assoc] at hm
        exact (isChain_append.mp hm).1
      · intro l' hl'
        have hm := h.merged
        rw [append_assoc] at hm
        exact ((isChain_append.mp hm).2.2 l' hl' l rfl).resolve_right (absurd hf)
      · exact merged_join h.merged
    · rw [release_eq t.pos hlr hlu, Tile.free_congr (Nat.zero_add _) _ hloose.pos]
      apply joinPrev_new hloose hf hX
      exact merged_append (isChain_append.mp h.merged).1 hf (merged_join h.merged)
  · rw [free, Nat.add_sub_cancel]
    rw [seek_pred h ht hX hn]

end

end Malloc
