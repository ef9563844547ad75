import Xv6.Malloc.Free

/-!
# `malloc` on the row of blocks

* `Carve`         a live block is cut from the end of a free one, or takes all of it;
* `take_carve`    what `malloc` does when it has found a block;
* `loop_path`     the loop of `malloc` follows the list up to the first block that is large enough;
* `malloc_turn`   `malloc` carves a block from the row, or comes to the end of the list;
* `extend_spec`   there it carves a block from the row with new memory.
-/

namespace Malloc
open Cycle List

/-- a live block of `u` units for `nbytes` bytes -/
def Tile.taken (u nbytes : Nat) (hu : 0 < u) (hn : nbytes ≤ sizeofHeader * (u - 1)) : Tile :=
  ⟨u, some nbytes, hu, fun _ h => Option.some.inj h ▸ hn⟩

section
variable {I : Image} {s : State} {ts : List Tile} {nbytes u p prev : Nat}

/-- the row `ts'` is `ts` with a new live block of the size of `v` in a free one; `q` is its result -/
inductive Carve (I : Image) (v : Tile) : List Tile → List Tile → Nat → Prop where
  | whole {L R : List Tile} {t : Tile} (ht : t.live = none) (he : t.units = v.units) :
      Carve I v (L ++ t :: R) (L ++ v :: R) (finish I.start L + sizeofHeader)
  | split {L R : List Tile} {t : Tile} (ht : t.live = none) (hlt : v.units < t.units) :
      Carve I v (L ++ t :: R)
        (L ++ Tile.free (t.units - v.units) (Nat.sub_pos_of_lt hlt) :: v :: R)
        (above (finish I.start L) (t.units - v.units) + sizeofHeader)

variable {L R : List Tile} {t v : Tile}

theorem prev_eq (h : RepState I s (L ++ t :: R)) (ht : t.live = none)
    (hprev : prev ∈ I.base :: freeAddrs I.start (L ++ t :: R))
    (hnext : s.ptr prev = finish I.start L) :
    ∃ X, I.base :: freeAddrs I.start L = X ++ [prev] := by
  obtain ⟨X, p, hX⟩ : ∃ X p, I.base :: freeAddrs I.start L = X ++ [p] :=
    ⟨_, _, (dropLast_append_getLast (cons_ne_nil _ _)).symm⟩
  have hS : I.base :: freeAddrs I.start (L ++ t :: R) =
      X ++ p :: finish I.start L :: freeAddrs (above (finish I.start L) t.units) R := by
    rw [freeAddrs_append, freeAddrs_cons_free ht, ← cons_append, hX, append_assoc]
    rfl
  have hbaselt : I.base < finish I.start L := Nat.lt_of_lt_of_le I.base_lt (le_finish _ _)
  have hsort := cycle_sorted I (L ++ t :: R)
  obtain ⟨hn, -⟩ | ⟨-, hlt, hall⟩ := h.link.next_sorted hsort hprev
  · omega
  have hp : p ≤ prev := by
    have hmem : p ∈ I.base :: freeAddrs I.start (L ++ t :: R) := by
      rw [hS]
      exact mem_append_right _ mem_cons_self
    have hpp : p < finish I.start L := by
      rw [hS] at hsort
      exact (pairwise_cons.mp (pairwise_append.mp hsort).2.1).1 _ mem_cons_self
    have := hall p hmem
    omega
  have hp' : prev ≤ p := by
    rw [hS] at hprev hsort
    obtain ⟨-, hback, hfront⟩ := pairwise_append.mp hsort
    rcases mem_append.mp hprev with hm | hm
    · exact Nat.le_of_lt (hfront prev hm p mem_cons_self)
    rcases mem_cons.mp hm with rfl | hm
    · exact Nat.le_refl _
    rcases mem_cons.mp hm with rfl | hm
    · omega
    · have := (pairwise_cons.mp (pairwise_cons.mp hback).2).1 prev hm
      omega
  exact ⟨X, by rw [hX, Nat.le_antisymm hp hp']⟩

theorem merged_replace (h : Merged (L ++ t :: R)) (hv : v.live ≠ none) : Merged (L ++ v :: R) := by
  obtain ⟨hL, hR, -⟩ := isChain_append.mp h
  refine List.IsChain.append hL ?_ fun l _ v' hv' => ?_
  · cases R with
    | nil => exact isChain_singleton _
    | cons r R => exact isChain_cons_cons.mpr ⟨.inl hv, (isChain_cons_cons.mp hR).2⟩
  · cases hv'
    exact .inr hv

theorem merged_insert {t' : Tile} (h : Merged (L ++ t :: R))
    (ht : t.live = none) (hv : v.live ≠ none) : Merged (L ++ t' :: v :: R) := by
  obtain ⟨hL, hR, hLt⟩ := isChain_append.mp h
  have hR' : Merged (v :: R) := (merged_replace (L := []) hR hv)
  refine List.IsChain.append hL (isChain_cons_cons.mpr ⟨.inr hv, hR'⟩) fun l hl _ _ => ?_
  exact .inl ((hLt l hl t rfl).resolve_right (absurd ht))

theorem freeAddrs_replace (ht : t.live = none) (hv : v.live ≠ none) (he : t.units = v.units) (a : Nat) :
    freeAddrs a (L ++ t :: R) =
        freeAddrs a L ++ finish a L :: freeAddrs (above (finish a L) v.units) R ∧
      freeAddrs a (L ++ v :: R) =
        freeAddrs a L ++ freeAddrs (above (finish a L) v.units) R := by
  constructor
  · rw [freeAddrs_append, freeAddrs_cons_free ht, he]
  · rw [freeAddrs_append, freeAddrs_cons_live hv]

theorem take_whole (h : RepState I s (L ++ t :: R))
    (ht : t.live = none) (hv : v.live ≠ none) (he : t.units = v.units)
    (hprev : prev ∈ I.base :: freeAddrs I.start (L ++ t :: R))
    (hnext : s.ptr prev = finish I.start L) :
    RepState I { s.setPtr prev (s.ptr (finish I.start L)) with freep := prev } (L ++ v :: R) := by
  obtain ⟨X, hX⟩ := prev_eq h ht hprev hnext
  obtain ⟨hold, hnew⟩ := freeAddrs_replace ht hv he I.start
  have hsort := cycle_sorted I (L ++ t :: R)
  have hlink := h.link
  rw [hold, ← cons_append, hX, append_assoc] at hlink hsort
  rw [append_assoc] at hlink
  obtain ⟨hfront, hback⟩ := link_split.mp hlink
  have hptr : ∀ y, y ≠ prev →
      (s.setPtr prev (s.ptr (finish I.start L))).ptr y = s.ptr y := by
    intro y hy
    rw [setPtr_ptr, if_neg hy]
  refine ⟨?_, ?_, ?_, ?_, ?_, merged_replace h.merged hv⟩
  · show s.brk = _
    rw [h.brk, finish_append, finish_append, finish, finish, he]
  · intro x hx
    show (s.setPtr _ _).size x.1 = _
    rw [setPtr_size]
    rw [place_append] at hx
    rcases mem_append.mp hx with hx | hx
    · exact h.size x (place_left hx)
    rcases mem_cons.mp hx with rfl | hx
    · rw [← he]
      apply h.size (finish I.start L, t)
      rw [place_append]
      exact mem_append_right _ mem_cons_self
    · rw [← he] at hx
      exact h.size x (place_right hx)
  · show (s.setPtr _ _).size I.base = _
    rw [setPtr_size]
    exact h.base
  · rw [hnew, ← cons_append, hX, append_assoc, append_assoc]
    refine link_split.mpr ⟨?_, ?_⟩
    · apply hfront.congr
      intro y hy
      exact hptr y (Nat.ne_of_lt ((pairwise_append.mp hsort).2.2 y hy prev mem_cons_self))
    apply (link_cons_cons.mp hback).2.replace_head
    · show (s.setPtr _ _).ptr prev = _
      rw [setPtr_ptr, if_pos rfl]
    · intro y hy
      have hlt := (pairwise_cons.mp (pairwise_append.mp hsort).2.1).1 y
        (mem_cons_of_mem _ hy)
      exact hptr y (Nat.ne_of_gt hlt)
  · rw [hnew, ← cons_append, hX]
    exact mem_append_left _ (mem_append_right _ mem_cons_self)

/-- the block is cut from the end of a larger one, which stays in the list -/
theorem take_split (h : RepState I s (L ++ t :: R))
    (ht : t.live = none) (hv : v.live ≠ none) (hlt : v.units < t.units) (hsmall : t.units < 2 ^ 32)
    (hprev : prev ∈ I.base :: freeAddrs I.start (L ++ t :: R)) :
    RepState I { (s.setSize (finish I.start L) (t.units - v.units)).setSize
        (above (finish I.start L) (t.units - v.units)) v.units with freep := prev }
      (L ++ Tile.free (t.units - v.units) (Nat.sub_pos_of_lt hlt) :: v :: R) := by
  have hsum : above (above (finish I.start L) (t.units - v.units)) v.units =
      above (finish I.start L) t.units := by
    rw [← above_add, Nat.sub_add_cancel (Nat.le_of_lt hlt)]
  have hcut : finish I.start L < above (finish I.start L) (t.units - v.units) := by
    unfold above sizeofHeader
    omega
  have hcut' : above (finish I.start L) (t.units - v.units) < above (finish I.start L) t.units := by
    have := v.pos
    unfold above sizeofHeader
    omega
  have hfree : freeAddrs I.start
      (L ++ Tile.free (t.units - v.units) (Nat.sub_pos_of_lt hlt) :: v :: R) =
        freeAddrs I.start (L ++ t :: R) := by
    rw [freeAddrs_append, freeAddrs_append, freeAddrs_cons_free rfl, freeAddrs_cons_free ht,
      freeAddrs_cons_live hv]
    show _ ++ _ :: freeAddrs (above (above _ (t.units - v.units)) _) _ = _
    rw [hsum]
  have hsize : ∀ y, y ≠ finish I.start L → y ≠ above (finish I.start L) (t.units - v.units) →
      ((s.setSize (finish I.start L) (t.units - v.units)).setSize
        (above (finish I.start L) (t.units - v.units)) v.units).size y = s.size y := by
    intro y h1 h2
    rw [setSize_size, if_neg h2, setSize_size, if_neg h1]
  refine ⟨?_, ?_, ?_, ?_, ?_, merged_insert h.merged ht hv⟩
  · show s.brk = _
    rw [h.brk, finish_append, finish_append, finish, finish, finish]
    show _ = finish (above (above _ (t.units - v.units)) _) _
    rw [hsum]
  · intro x hx
    rw [place_append] at hx
    rcases mem_append.mp hx with hx | hx
    · obtain ⟨-, h1, h2⟩ := place_bounds hx
      refine (hsize x.1 (by omega) (by omega)).trans (h.size x (place_left hx))
    rcases mem_cons.mp hx with rfl | hx
    · show ((s.setSize _ _).setSize _ _).size (finish I.start L) = t.units - v.units
      rw [setSize_size, if_neg (Nat.ne_of_lt hcut), setSize_size, if_pos rfl]
      exact Nat.mod_eq_of_lt (by omega)
    rcases mem_cons.mp hx with rfl | hx
    · show ((s.setSize _ _).setSize _ _).size
        (above (finish I.start L) (t.units - v.units)) = v.units
      rw [setSize_size, if_pos rfl]
      exact Nat.mod_eq_of_lt (by omega)
    · have hx : x ∈ place (above (above (finish I.start L) (t.units - v.units)) v.units) R := hx
      rw [hsum] at hx
      have h1 := (place_bounds hx).1
      exact (hsize x.1 (by omega) (by omega)).trans (h.size x (place_right hx))
  · have hbaselt : I.base < finish I.start L := Nat.lt_of_lt_of_le I.base_lt (le_finish _ _)
    exact (hsize I.base (by omega) (by omega)).trans h.base
  · rw [hfree]
    have hptr : ((s.setSize (finish I.start L) (t.units - v.units)).setSize
        (above (finish I.start L) (t.units - v.units)) v.units).ptr = s.ptr := by
      funext y
      rw [setSize_ptr, setSize_ptr]
    exact hptr ▸ h.link
  · rwa [hfree]

theorem take_carve (h : RepState I s ts) (hv : v.live ≠ none)
    (hsmall : ∀ t ∈ ts, t.units < 2 ^ 32) (hprev : prev ∈ I.base :: freeAddrs I.start ts)
    (hp : s.ptr prev ∈ I.base :: freeAddrs I.start ts) (hu : v.units ≤ s.size (s.ptr prev)) :
    ∃ ts', RepState I (take s v.units prev (s.ptr prev)).1 ts' ∧
      Carve I v ts ts' (take s v.units prev (s.ptr prev)).2 := by
  have hpos := v.pos
  rcases mem_cons.mp hp with hp | hp
  · rw [hp, h.base] at hu
    omega
  obtain ⟨t, hx, ht⟩ := mem_freeAddrs.mp hp
  have hsize : s.size (s.ptr prev) = t.units := h.size _ hx
  obtain ⟨L, R, rfl, hfin⟩ := split_of_mem hx
  have hnext : s.ptr prev = finish I.start L := hfin
  rw [hsize] at hu
  rw [take, hsize, hnext]
  by_cases he : t.units = v.units
  · rw [if_pos he]
    exact ⟨_, take_whole h ht hv he hprev hnext, .whole ht he⟩
  rw [if_neg he]
  have hlt : v.units < t.units := Nat.lt_of_le_of_ne hu (Ne.symm he)
  have hsmall' := hsmall t (mem_append_right _ mem_cons_self)
  have hcut : (s.setSize (finish I.start L) (t.units - v.units)).size (finish I.start L) =
      t.units - v.units := by
    rw [setSize_size, if_pos rfl]
    exact Nat.mod_eq_of_lt (by omega)
  dsimp only
  rw [hcut]
  exact ⟨_, take_split h ht hv hlt hsmall' hprev, .split ht hlt⟩

/-! ## the loop -/

/-- `malloc` at the end of the list -/
def extend (nunits : Nat) (sbrk : Bool) (n : Nat) (s : State) : Option (State × Nat) :=
  match morecore n s nunits sbrk with
  | none => none
  | some (s, p) => if p = 0 then some (s, 0) else mallocLoop nunits sbrk n s p (s.ptr p)

theorem mallocLoop_succ (nunits : Nat) (sbrk : Bool) (n : Nat) (s : State) (prev p : Nat) :
    mallocLoop nunits sbrk (n + 1) s prev p =
      if nunits ≤ s.size p then some (take s nunits prev p)
      else if p = s.freep then extend nunits sbrk n s
      else mallocLoop nunits sbrk n s p (s.ptr p) := rfl

/-- the loop follows the list to the first block that is large enough, or to its end -/
theorem loop_path (nunits : Nat) (sbrk : Bool) {ys : List Nat}
    (hlink : Link s.ptr (prev :: ys ++ [s.freep])) (hys : s.freep ∉ ys) :
    (∃ x ∈ prev :: ys, s.ptr x ∈ ys ++ [s.freep] ∧ nunits ≤ s.size (s.ptr x) ∧
      ∀ n, mallocLoop nunits sbrk (n + ys.length + 1) s prev (s.ptr prev) =
        some (take s nunits x (s.ptr x))) ∨
    ((∀ y ∈ ys ++ [s.freep], s.size y < nunits) ∧
      ∀ n, mallocLoop nunits sbrk (n + ys.length + 1) s prev (s.ptr prev) =
        extend nunits sbrk n s) := by
  induction ys generalizing prev with
  | nil =>
    have hnext : s.ptr prev = s.freep := (link_cons_cons.mp hlink).1
    by_cases hs : nunits ≤ s.size (s.ptr prev)
    · refine .inl ⟨prev, mem_cons_self, ?_, hs, fun n => ?_⟩
      · rw [hnext]
        exact mem_cons_self
      · rw [mallocLoop_succ, if_pos hs]
    · refine .inr ⟨fun y hy => ?_, fun n => ?_⟩
      · rw [mem_singleton.mp hy, ← hnext]
        exact Nat.lt_of_not_le hs
      · rw [mallocLoop_succ, if_neg hs, if_pos hnext]
        rfl
  | cons y ys ih =>
    obtain ⟨hnext, hrest⟩ := link_cons_cons.mp hlink
    by_cases hs : nunits ≤ s.size (s.ptr prev)
    · refine .inl ⟨prev, mem_cons_self, ?_, hs, fun n => ?_⟩
      · rw [hnext]
        exact mem_cons_self
      · rw [mallocLoop_succ, if_pos hs]
    have hne : s.ptr prev ≠ s.freep := by
      rw [hnext]
      intro he
      exact hys (he ▸ mem_cons_self)
    have hstep : ∀ n, mallocLoop nunits sbrk (n + (y :: ys).length + 1) s prev (s.ptr prev) =
        mallocLoop nunits sbrk (n + ys.length + 1) s y (s.ptr y) := by
      intro n
      rw [mallocLoop_succ, if_neg hs, if_neg hne, hnext]
      rfl
    obtain ⟨x, hx, hx', hsx, hloop⟩ | ⟨hall, hloop⟩ :=
      ih hrest fun hm => hys (mem_cons_of_mem _ hm)
    · refine .inl ⟨x, mem_cons_of_mem _ hx, mem_cons_of_mem _ hx', hsx, fun n => ?_⟩
      rw [hstep, hloop]
    refine .inr ⟨fun z hz => ?_, fun n => ?_⟩
    · rcases mem_cons.mp hz with rfl | hz
      · rw [← hnext]
        exact Nat.lt_of_not_le hs
      · exact hall z hz
    · rw [hstep, hloop]

/-- one turn of the loop: a block is found, or no block is large enough -/
theorem loop_turn (sbrk : Bool) (h : RepState I s ts) (hv : v.live ≠ none)
    (hsmall : ∀ t ∈ ts, t.units < 2 ^ 32) :
    (∃ r ts', RepState I (Prod.fst r) ts' ∧ Carve I v ts ts' r.2 ∧
      ∀ n, mallocLoop v.units sbrk (n + (freeAddrs I.start ts).length + 1) s s.freep
        (s.ptr s.freep) = some r) ∨
    ((∀ x ∈ place I.start ts, x.2.live = none → x.2.units < v.units) ∧
      ∀ n, mallocLoop v.units sbrk (n + (freeAddrs I.start ts).length + 1) s s.freep
        (s.ptr s.freep) = extend v.units sbrk n s) := by
  obtain ⟨ys, hlink, hperm⟩ := h.link.turn h.freep
  have hlen : ys.length = (freeAddrs I.start ts).length := Nat.succ.inj hperm.length_eq
  have hnd : s.freep ∉ ys := (nodup_cons.mp (hperm.nodup_iff.mpr (cycle_nodup I ts))).1
  have hmem : ∀ y, y ∈ ys ++ [s.freep] → y ∈ I.base :: freeAddrs I.start ts := by
    intro y hy
    apply hperm.mem_iff.mp
    rcases mem_append.mp hy with hy | hy
    · exact mem_cons_of_mem _ hy
    · rw [mem_singleton.mp hy]
      exact mem_cons_self
  rw [← hlen]
  obtain ⟨x, hx, hx', hsx, hloop⟩ | ⟨hall, hloop⟩ := loop_path v.units sbrk hlink hnd
  · obtain ⟨ts', hrep, hcarve⟩ :=
      take_carve h hv hsmall (hperm.mem_iff.mp hx) (hmem _ hx') hsx
    exact .inl ⟨_, ts', hrep, hcarve, hloop⟩
  refine .inr ⟨fun x hx hfree => ?_, hloop⟩
  rw [← h.size x hx]
  apply hall
  have hf : x.1 ∈ I.base :: freeAddrs I.start ts :=
    mem_cons_of_mem _ (mem_freeAddrs.mpr ⟨x.2, hx, hfree⟩)
  rcases mem_cons.mp (hperm.mem_iff.mpr hf) with he | hm
  · rw [he]
    exact mem_append_right _ mem_cons_self
  · exact mem_append_left _ hm

/-! ## new memory -/

theorem le_coreUnits (nu : Nat) : nu ≤ coreUnits nu ∧ 0 < coreUnits nu := by
  unfold coreUnits
  split <;> omega

/-- the block that `morecore` gives to `free` -/
def coreTile (nu : Nat) : Tile := Tile.taken (coreUnits nu) 0 (le_coreUnits nu).2 (Nat.zero_le _)

theorem core_rep (h : RepState I s ts) (nu : Nat) (hnu : coreUnits nu < 2 ^ 32) :
    RepState I (State.setSize { s with brk := above s.brk (coreUnits nu) } s.brk (coreUnits nu))
      (ts ++ [coreTile nu]) := by
  have hlive : (coreTile nu).live ≠ none := Option.some_ne_none 0
  have hfree : freeAddrs I.start (ts ++ [coreTile nu]) = freeAddrs I.start ts := by
    rw [freeAddrs_append, freeAddrs_cons_live hlive]
    exact append_nil _
  have hsize : ∀ y, y ≠ s.brk → (State.setSize { s with brk := above s.brk (coreUnits nu) } s.brk
      (coreUnits nu)).size y = s.size y := by
    intro y hy
    rw [setSize_size, if_neg hy]
    rfl
  refine ⟨?_, ?_, ?_, ?_, ?_, ?_⟩
  · rw [finish_append, ← h.brk]
    rfl
  · intro x hx
    rw [place_append] at hx
    rcases mem_append.mp hx with hx | hx
    · obtain ⟨-, h1, h2⟩ := place_bounds hx
      have hb := h.brk
      exact (hsize x.1 (by omega)).trans (h.size x hx)
    · rw [← h.brk] at hx
      cases mem_singleton.mp hx
      rw [setSize_size, if_pos rfl]
      exact Nat.mod_eq_of_lt hnu
  · have hb := h.brk
    have := le_finish I.start ts
    have := I.base_lt
    exact (hsize I.base (by omega)).trans h.base
  · rw [hfree]
    have hptr : (State.setSize { s with brk := above s.brk (coreUnits nu) } s.brk
        (coreUnits nu)).ptr = s.ptr := by
      funext y
      rw [setSize_ptr]
      rfl
    exact hptr ▸ h.link
  · rw [hfree]
    exact h.freep
  · refine List.IsChain.append h.merged (isChain_singleton _) fun l _ v hv => ?_
    cases hv
    exact .inr hlive

theorem freep_pos (h : RepState I s ts) : s.freep ≠ 0 := by
  have hbase := I.base_pos
  rcases mem_cons.mp h.freep with he | hm
  · omega
  · have := base_lt_of_mem hm
    omega

theorem small_release {u : Nat} (hu : 0 < u) (hsmall : ∀ t ∈ ts, t.units < 2 ^ 32)
    (hsum : lastUnits ts + u < 2 ^ 32) : ∀ t ∈ release ts u hu [], t.units < 2 ^ 32 := by
  intro t ht
  rcases mem_append.mp ht with ht | ht
  · obtain ⟨L, l, rfl, -, -, hlr⟩ | ⟨-, -, hlr⟩ := last_cases ts
    · rw [hlr] at ht
      exact hsmall t (mem_append_left _ ht)
    · rw [hlr] at ht
      exact hsmall t ht
  · cases mem_singleton.mp ht
    exact hsum

/-- the row after `morecore` -/
def grown (ts : List Tile) (nu : Nat) : List Tile :=
  release ts (coreUnits nu) (le_coreUnits nu).2 []

theorem morecore_rep {nu : Nat} (h : RepState I s ts) (hsum : lastUnits ts + coreUnits nu < 2 ^ 32) :
    ∃ s', RepState I s' (grown ts nu) ∧
      ∀ n, (freeAddrs I.start ts).length + 1 < n → morecore n s nu true = some (s', s'.freep) := by
  have hcore := core_rep h nu (Nat.lt_of_le_of_lt (Nat.le_add_left _ _) hsum)
  have hlive : (coreTile nu).live ≠ none := Option.some_ne_none 0
  obtain ⟨s', hrep, hfree⟩ := free_release hcore hlive hsum
  have hlen : freeAddrs I.start (ts ++ [coreTile nu]) = freeAddrs I.start ts := by
    rw [freeAddrs_append, freeAddrs_cons_live hlive]
    exact append_nil _
  rw [hlen] at hfree
  refine ⟨s', hrep, fun n hn => ?_⟩
  have hf := hfree n hn
  rw [← h.brk] at hf
  unfold morecore
  dsimp only
  rw [if_pos rfl, hf]

theorem loop_grown (sbrk : Bool) (h : RepState I s (grown ts v.units)) (hv : v.live ≠ none)
    (hsmall : ∀ t ∈ grown ts v.units, t.units < 2 ^ 32) :
    ∃ r ts', RepState I (Prod.fst r) ts' ∧ Carve I v (grown ts v.units) ts' r.2 ∧
      ∀ n, mallocLoop v.units sbrk (n + (freeAddrs I.start (grown ts v.units)).length + 1) s s.freep
        (s.ptr s.freep) = some r := by
  obtain hfound | ⟨hall, -⟩ := loop_turn sbrk h hv hsmall
  · exact hfound
  obtain ⟨x, hx, hfree, hux⟩ := mem_release
    (le_coreUnits v.units).2
  have := hall x hx hfree
  have := (le_coreUnits v.units).1
  omega

theorem extend_spec (h : RepState I s ts) (hv : v.live ≠ none) (hsmall : ∀ t ∈ ts, t.units < 2 ^ 32)
    (hsum : lastUnits ts + coreUnits v.units < 2 ^ 32) :
    ∃ r ts', RepState I (Prod.fst r) ts' ∧ Carve I v (grown ts v.units) ts' r.2 ∧
      ∀ n ≥ (freeAddrs I.start ts).length + (freeAddrs I.start (grown ts v.units)).length + 2,
        extend v.units true n s = some r := by
  obtain ⟨s', hrep, hmore⟩ := morecore_rep h hsum
  obtain ⟨r, ts', hr, hcarve, hloop⟩ := loop_grown true hrep hv (small_release _ hsmall hsum)
  refine ⟨r, ts', hr, hcarve, fun n hn => ?_⟩
  rw [extend, hmore n (by omega)]
  dsimp only
  rw [if_neg (freep_pos hrep)]
  obtain ⟨k, rfl⟩ := Nat.exists_eq_add_of_le
    (show (freeAddrs I.start (grown ts v.units)).length + 1 ≤ n by omega)
  rw [Nat.add_comm, ← Nat.add_assoc]
  exact hloop k

/-! ## `malloc` -/

theorem initList_rep {s : State} (hf : s.freep = 0) (hb : s.brk = I.start) :
    RepState I (initList I s) [] := by
  rw [initList, if_pos hf]
  refine ⟨hb, ?_, ?_, ?_, mem_cons_self, isChain_nil⟩
  · intro x hx
    cases hx
  · show ((s.setPtr _ _).setSize _ _).size I.base = 0
    rw [setSize_size, if_pos rfl, Nat.zero_mod]
  · refine link_cons_cons.mpr ⟨?_, link_single _ _⟩
    show ((s.setPtr _ _).setSize _ _).ptr I.base = I.base
    rw [setSize_ptr, setPtr_ptr, if_pos rfl]

theorem initList_eq (h : RepState I s ts) : initList I s = s := if_neg (freep_pos h)

theorem malloc_turn (sbrk : Bool) (h : RepState I (initList I s) ts)
    (hv : v.live ≠ none) (hunits : v.units = unitsFor nbytes)
    (hsmall : ∀ t ∈ ts, t.units < 2 ^ 32) :
    (∃ r ts', RepState I (Prod.fst r) ts' ∧ Carve I v ts ts' r.2 ∧
      ∀ n, malloc I (n + (freeAddrs I.start ts).length + 1) s nbytes sbrk = some r) ∨
    ∀ n, malloc I (n + (freeAddrs I.start ts).length + 1) s nbytes sbrk =
      extend v.units sbrk n (initList I s) := by
  have hrun : ∀ n, malloc I n s nbytes sbrk = mallocLoop v.units sbrk n (initList I s)
      (initList I s).freep ((initList I s).ptr (initList I s).freep) := by
    intro n
    rw [hunits]
    rfl
  obtain ⟨r, ts', hr, hcarve, hloop⟩ | ⟨-, hloop⟩ := loop_turn sbrk h hv hsmall
  · refine .inl ⟨r, ts', hr, hcarve, fun n => ?_⟩
    rw [hrun, hloop]
  · refine .inr fun n => ?_
    rw [hrun, hloop]

theorem malloc_returns {sbrk : Bool} (h : RepState I (initList I s) ts)
    (hv : v.live ≠ none) (hunits : v.units = unitsFor nbytes)
    (hsmall : ∀ t ∈ ts, t.units < 2 ^ 32)
    (hsum : sbrk = true → lastUnits ts + coreUnits v.units < 2 ^ 32) :
    ∃ N r, malloc I N s nbytes sbrk = some r := by
  obtain ⟨r, -, -, -, hloop⟩ | hloop := malloc_turn sbrk h hv hunits hsmall
  · exact ⟨_, r, hloop 0⟩
  cases sbrk with
  | false => exact ⟨_, (initList I s, 0), hloop 0⟩
  | true =>
    obtain ⟨r, -, -, -, hext⟩ := extend_spec h hv hsmall (hsum rfl)
    exact ⟨_, r, (hloop _).trans (hext _ (Nat.le_refl _))⟩

end

end Malloc
