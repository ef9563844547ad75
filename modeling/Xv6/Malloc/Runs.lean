import Xv6.Malloc.Alloc

/-!
# Runs of the allocator

* `free_mono`, `malloc_mono`   more rounds change no result;
* `step_brk`                   the break never moves down;
* `step_good`                  as long as the heap has fewer than `2 ^ 32` units, every event keeps a
                               row of blocks behind the state;
* `calls_return`               and every call of `malloc` and `free` returns.
-/

namespace Malloc
open Cycle Run Function List Option

/-! ## rounds -/

section
variable {n m : Nat} {s s' : State} {ap nu p prev : Nat} {sbrk : Bool} {r : State × Nat}

theorem free_mono (h : free n s ap = some s') (hm : n ≤ m) : free m s ap = some s' := by
  unfold free at h ⊢
  dsimp only at h ⊢
  cases hs : seek (stops s (ap - sizeofHeader)) s.ptr n s.freep with
  | none =>
    rw [hs] at h
    cases h
  | some p =>
    rw [hs] at h
    rwa [seek_mono hs hm]

theorem morecore_mono (h : morecore n s nu sbrk = some r) (hm : n ≤ m) :
    morecore m s nu sbrk = some r := by
  unfold morecore at h ⊢
  dsimp only at h ⊢
  cases sbrk with
  | false => exact h
  | true =>
    rw [if_pos rfl] at h ⊢
    split at h
    · cases h
    · rename_i s₁ hf
      rwa [free_mono hf hm]

theorem mallocLoop_mono (h : mallocLoop nu sbrk n s prev p = some r) (hm : n ≤ m) :
    mallocLoop nu sbrk m s prev p = some r := by
  induction n generalizing m s prev p with
  | zero => cases h
  | succ n ih =>
    cases m with
    | zero => exact absurd hm (Nat.not_succ_le_zero n)
    | succ m =>
      have hm := Nat.le_of_succ_le_succ hm
      rw [mallocLoop_succ] at h ⊢
      split
      · rename_i hs
        rwa [if_pos hs] at h
      rename_i hs
      rw [if_neg hs] at h
      split
      · rename_i hp
        rw [if_pos hp] at h
        unfold extend at h ⊢
        split at h
        · cases h
        rename_i s₁ p₁ hc
        rw [morecore_mono hc hm]
        dsimp only
        split
        · rename_i hz
          rwa [if_pos hz] at h
        · rename_i hz
          rw [if_neg hz] at h
          exact ih h hm
      · rename_i hp
        rw [if_neg hp] at h
        exact ih h hm

theorem malloc_mono {I : Image} {nbytes : Nat} (h : malloc I n s nbytes sbrk = some r)
    (hm : n ≤ m) : malloc I m s nbytes sbrk = some r := mallocLoop_mono h hm

/-! ## the break -/

theorem free_brk (h : free n s ap = some s') : s'.brk = s.brk := by
  unfold free at h
  dsimp only at h
  split at h
  · cases h
  · cases h
    unfold joinPrev joinNext
    split <;> split <;> rfl

theorem morecore_brk (h : morecore n s nu sbrk = some r) : s.brk ≤ r.1.brk := by
  unfold morecore at h
  dsimp only at h
  split at h
  · split at h
    · cases h
    rename_i s₁ hf
    cases h
    have hb := free_brk hf
    rw [hb]
    exact Nat.le_add_right _ _
  · cases h
    exact Nat.le_refl _

theorem take_brk : (take s nu prev p).1.brk = s.brk := by
  unfold take
  split <;> rfl

theorem mallocLoop_brk (h : mallocLoop nu sbrk n s prev p = some r) : s.brk ≤ r.1.brk := by
  induction n generalizing s prev p with
  | zero => cases h
  | succ n ih =>
    rw [mallocLoop_succ] at h
    split at h
    · cases h
      rw [take_brk]
    split at h
    · unfold extend at h
      split at h
      · cases h
      rename_i s₁ p₁ hc
      have hb : s.brk ≤ s₁.brk := morecore_brk hc
      split at h
      · cases h
        exact hb
      · exact Nat.le_trans hb (ih h)
    · exact ih h

theorem extend_brk (h : extend nu true n s = some r) :
    above s.brk (coreUnits nu) ≤ r.1.brk := by
  unfold extend at h
  split at h
  · cases h
  rename_i s₁ p₁ hc
  have hb : above s.brk (coreUnits nu) = s₁.brk := by
    unfold morecore at hc
    dsimp only at hc
    rw [if_pos rfl] at hc
    split at hc
    · cases hc
    · rename_i s₂ hf
      cases hc
      exact (free_brk hf).symm
  split at h
  · cases h
    exact Nat.le_of_eq hb
  · rw [hb]
    exact mallocLoop_brk h

theorem initList_brk (I : Image) (s : State) : (initList I s).brk = s.brk := by
  unfold initList
  split <;> rfl

end

section
variable {I : Image} {c c' : Config} {e : Event} {ts : List Tile}

theorem step_brk (h : step I c e = .next c') : c.state.brk ≤ c'.state.brk := by
  cases e with
  | malloc nbytes sbrk n =>
    unfold step at h
    dsimp only at h
    split at h
    · cases h
    rename_i s ap hm
    cases h
    have hb := mallocLoop_brk hm
    rwa [initList_brk] at hb
  | free ap nbytes n =>
    obtain ⟨-, h⟩ := ite_blocked h
    split at h
    · cases h
    · rename_i s hf
      cases h
      exact Nat.le_of_eq (free_brk hf).symm
  | store a hd =>
    obtain ⟨-, rfl⟩ := guard_next h
    exact Nat.le_refl _

/-! ## sizes -/

variable {t v : Tile} {a nb q : Nat} {L R ts' : List Tile}

theorem units_le (a : Nat) (ht : t ∈ ts) : above a t.units ≤ finish a ts := by
  induction ts generalizing a with
  | nil => cases ht
  | cons u ts ih =>
    rcases mem_cons.mp ht with rfl | ht
    · exact le_finish _ _
    have h := ih (above a u.units) ht
    unfold above at h ⊢
    rw [finish]
    unfold above
    omega

theorem small_of_heap (h : finish a ts - a < sizeofHeader * 2 ^ 32) : ∀ t ∈ ts, t.units < 2 ^ 32 := by
  intro t ht
  have hle := units_le a ht
  unfold above sizeofHeader at hle
  unfold sizeofHeader at h
  omega

theorem release_small {u : Nat} (hu : 0 < u)
    (h : finish (above (finish a L) u) R - a < sizeofHeader * 2 ^ 32) :
    lastUnits L + joinUnits u R < 2 ^ 32 := by
  rw [← finish_release hu] at h
  apply small_of_heap h (Tile.free _ (Nat.add_pos_right _ (joinUnits_pos hu R)))
  exact mem_append_right _ mem_cons_self

/-! ## what the events keep -/

theorem unitsFor_eq {nbytes : Nat} (h : nbytes < 2 ^ 27) :
    unitsFor nbytes = (nbytes + 15) / 16 + 1 := by
  unfold unitsFor sizeofHeader
  omega

theorem unitsFor_fits {nbytes : Nat} (h : nbytes < 2 ^ 27) :
    nbytes ≤ sizeofHeader * (unitsFor nbytes - 1) := by
  rw [unitsFor_eq h]
  unfold sizeofHeader
  omega

theorem unitsFor_pos {nbytes : Nat} (h : nbytes < 2 ^ 27) : 0 < unitsFor nbytes := by
  rw [unitsFor_eq h]
  exact Nat.succ_pos _

/-- the block that `malloc` makes -/
def newTile (nbytes : Fin (2 ^ 27)) : Tile :=
  Tile.taken (unitsFor nbytes) nbytes (unitsFor_pos nbytes.isLt) (unitsFor_fits nbytes.isLt)

theorem Carve.finish_eq {ts : List Tile} (h : Carve I v ts ts' q) (a : Nat) : finish a ts' = finish a ts := by
  cases h with
  | whole ht he => rw [finish_append, finish_append, finish, finish, he]
  | split ht hlt =>
    rw [finish_append, finish_append, finish, finish, finish]
    show finish (above (above _ (_ - _)) _) _ = _
    rw [← above_add, Nat.sub_add_cancel (Nat.le_of_lt hlt)]

theorem Carve.live_perm {ts : List Tile} (h : Carve I v ts ts' q) (hv : v.live = some nb) :
    (liveBlocks I.start ts').Perm ((q, nb) :: liveBlocks I.start ts) := by
  cases h with
  | whole ht he =>
    rw [liveBlocks_append, liveBlocks_append, liveBlocks_cons_live hv, liveBlocks_cons_free ht, he]
    exact perm_middle
  | split ht hlt =>
    rw [liveBlocks_append, liveBlocks_append, liveBlocks_cons_free rfl, liveBlocks_cons_live hv,
      liveBlocks_cons_free ht]
    show (_ ++ _ :: liveBlocks (above (above _ (_ - _)) _) _).Perm _
    rw [← above_add, Nat.sub_add_cancel (Nat.le_of_lt hlt)]
    exact perm_middle

theorem Carve.pos {ts : List Tile} (h : Carve I v ts ts' q) : q ≠ 0 := by
  cases h with
  | whole | split => exact Nat.succ_ne_zero _

/-- before the first call, or with a row of blocks behind the state -/
def Good (I : Image) (c : Config) : Prop :=
  (c.state.freep = 0 ∧ c.state.brk = I.start ∧ c.live = []) ∨ ∃ ts, Rep I c ts

theorem Good.init (h : Good I c) :
    ∃ ts, RepState I (initList I c.state) ts ∧ c.live.Perm (liveBlocks I.start ts) := by
  rcases h with ⟨hf, hb, hl⟩ | ⟨ts, h⟩
  · refine ⟨[], initList_rep hf hb, ?_⟩
    rw [hl]
    exact List.Perm.refl _
  · rw [initList_eq h.state]
    exact ⟨ts, h.state, h.live⟩

/-- the bytes obtained from `sbrk` -/
def Config.heap (I : Image) (c : Config) : Nat := c.state.brk - I.start

theorem carve_good {ts : List Tile} {r : State × Nat}
    (hr : RepState I r.1 ts') (hcarve : Carve I v ts ts' r.2) (hv : v.live = some nb)
    (hl : c.live.Perm (liveBlocks I.start ts)) :
    Good I ⟨r.1, if r.2 = 0 then c.live else (r.2, nb) :: c.live⟩ := by
  refine .inr ⟨ts', hr, ?_⟩
  rw [if_neg hcarve.pos]
  exact (hl.cons _).trans (hcarve.live_perm hv).symm

theorem malloc_good {nbytes : Fin (2 ^ 27)} {sbrk : Bool} {n : Nat} (hg : Good I c)
    (h : step I c (.malloc nbytes sbrk n) = .next c')
    (hheap : c'.heap I < sizeofHeader * 2 ^ 32) : Good I c' := by
  obtain ⟨ts, hs, hl⟩ := hg.init
  have hbrk := step_brk h
  unfold step at h
  dsimp only at h
  split at h
  · cases h
  rename_i s ap hm
  cases h
  unfold Config.heap at hheap
  have hb : (initList I c.state).brk = finish I.start ts := hs.brk
  rw [initList_brk] at hb
  have hsmall : ∀ t ∈ ts, t.units < 2 ^ 32 := by
    apply small_of_heap (a := I.start)
    omega
  have hm' := malloc_mono hm (m := n + (freeAddrs I.start ts).length + 1) (by omega)
  have hv : (newTile nbytes).live ≠ none := some_ne_none _
  obtain ⟨r, ts', hr, hcarve, hloop⟩ | hloop := malloc_turn sbrk hs hv rfl hsmall
  · rw [hloop n] at hm'
    cases hm'
    exact carve_good hr hcarve rfl hl
  rw [hloop n] at hm'
  cases sbrk with
  | false =>
    cases hm'
    exact .inr ⟨ts, hs, hl⟩
  | true =>
    have hbe := extend_brk hm'
    rw [initList_brk, hb] at hbe
    have hsum : lastUnits ts + coreUnits (newTile nbytes).units < 2 ^ 32 := by
      apply release_small (R := []) (le_coreUnits _).2 (a := I.start)
      dsimp only at hheap hbe
      show above _ _ - _ < _
      omega
    obtain ⟨r, ts', hr, hcarve, hext⟩ := extend_spec hs hv hsmall hsum
    generalize (freeAddrs I.start ts).length +
      (freeAddrs I.start (grown ts (newTile nbytes).units)).length + 2 = N at hext
    have hm'' := malloc_mono hm (m := n + N + (freeAddrs I.start ts).length + 1) (by omega)
    rw [hloop, hext _ (Nat.le_add_left _ _)] at hm''
    cases hm''
    have hl' : c.live.Perm (liveBlocks I.start (grown ts (newTile nbytes).units)) := by
      rw [grown, liveBlocks_release]
      exact hl.trans (List.Perm.of_eq (append_nil _).symm)
    exact carve_good hr hcarve rfl hl'

theorem live_split (h : Rep I c ts) {ap : Nat} (hl : (ap, nb) ∈ c.live) :
    ∃ L t R, ts = L ++ t :: R ∧ t.live = some nb ∧ ap = finish I.start L + sizeofHeader := by
  obtain ⟨x, hx, hn, rfl⟩ := mem_liveBlocks.mp (h.live.mem_iff.mp hl)
  obtain ⟨L, R, rfl, hfin⟩ := split_of_mem hx
  exact ⟨L, x.2, R, rfl, hn, by rw [hfin]⟩

theorem Good.rep (hg : Good I c) {b : Nat × Nat} (hl : b ∈ c.live) : ∃ ts, Rep I c ts := by
  rcases hg with ⟨-, -, he⟩ | h
  · rw [he] at hl
    cases hl
  · exact h

theorem free_returns (h : Rep I c (L ++ t :: R))
    (ht : t.live ≠ none) (hheap : c.heap I < sizeofHeader * 2 ^ 32) :
    ∃ s', RepState I s' (release L t.units t.pos R) ∧
      ∃ N, ∀ n ≥ N, free n c.state (finish I.start L + sizeofHeader) = some s' := by
  have hsum : lastUnits L + joinUnits t.units R < 2 ^ 32 := by
    apply release_small t.pos
    unfold Config.heap at hheap
    rwa [h.state.brk, finish_append, finish] at hheap
  obtain ⟨s', hs', hfree⟩ := free_release h.state ht hsum
  exact ⟨s', hs', _, fun n hn => hfree n hn⟩

theorem free_rep {s' : State} (h : Rep I c (L ++ t :: R)) (hn : t.live = some nb)
    (hs' : RepState I s' (release L t.units t.pos R)) :
    Rep I ⟨s', c.live.erase (finish I.start L + sizeofHeader, nb)⟩
      (release L t.units t.pos R) := by
  refine ⟨hs', ?_⟩
  have hlive := h.live
  rw [liveBlocks_append, liveBlocks_cons_live hn] at hlive
  have herase := (hlive.trans perm_middle).erase (finish I.start L + sizeofHeader, nb)
  rw [erase_cons_head] at herase
  rwa [liveBlocks_release]

theorem free_good {ap n : Nat} (hg : Good I c) (h : step I c (.free ap nb n) = .next c')
    (hheap : c'.heap I < sizeofHeader * 2 ^ 32) : Good I c' := by
  have hbrk := step_brk h
  obtain ⟨hl, h⟩ := ite_blocked h
  split at h
  · cases h
  rename_i s hf
  cases h
  obtain ⟨ts, hrep⟩ := hg.rep hl
  obtain ⟨L, t, R, rfl, hn, rfl⟩ := live_split hrep hl
  have ht : t.live ≠ none := by
    rw [hn]
    exact some_ne_none _
  have hheap' : c.heap I < sizeofHeader * 2 ^ 32 := by
    unfold Config.heap at hheap ⊢
    omega
  obtain ⟨s', hs', N, hfree⟩ := free_returns hrep ht hheap'
  have hmax := free_mono hf (Nat.le_max_left n N)
  rw [hfree _ (Nat.le_max_right n N)] at hmax
  cases hmax
  exact .inr ⟨_, free_rep hrep hn hs'⟩

theorem store_good {hd : Header} (hg : Good I c) (h : step I c (.store a hd) = .next c') : Good I c' := by
  obtain ⟨hin, rfl⟩ := guard_next h
  obtain ⟨⟨ap, nb⟩, hl, hb⟩ := any_eq_true.mp hin
  obtain ⟨ts, hrep⟩ := hg.rep hl
  obtain ⟨L, t, R, rfl, hn, rfl⟩ := live_split hrep hl
  have hsize : c.state.size (finish I.start L) = t.units := by
    apply hrep.state.size (finish I.start L, t)
    rw [place_append]
    exact mem_append_right _ mem_cons_self
  -- the cell is none of the headers
  have hbounds : finish I.start L < a ∧ a < above (finish I.start L) t.units := by
    unfold inBlock at hb
    rw [Bool.and_eq_true, decide_eq_true_eq, decide_eq_true_eq, Nat.add_sub_cancel, hsize] at hb
    unfold sizeofHeader at hb
    omega
  have hne : ∀ x ∈ place I.start (L ++ t :: R), x.1 ≠ a := by
    intro x hx
    rw [place_append] at hx
    rcases mem_append.mp hx with hx | hx
    · have := place_bounds hx
      omega
    rcases mem_cons.mp hx with rfl | hx
    · exact Nat.ne_of_lt hbounds.1
    · have := place_bounds hx
      omega
  have hbase : I.base ≠ a := by
    have := le_finish I.start L
    have := I.base_lt
    omega
  have hmem : ∀ y, y ≠ a → update c.state.mem a hd y = c.state.mem y :=
    fun y hy => update_of_ne hy _ _
  refine .inr ⟨L ++ t :: R, ⟨hrep.state.brk, ?_, ?_, ?_, hrep.state.freep, hrep.state.merged⟩,
    hrep.live⟩
  · intro x hx
    show (update c.state.mem a hd x.1).size = _
    rw [hmem x.1 (hne x hx)]
    exact hrep.state.size x hx
  · show (update c.state.mem a hd I.base).size = _
    rw [hmem I.base hbase]
    exact hrep.state.base
  · apply hrep.state.link.congr
    intro y hy
    show (update c.state.mem a hd y).ptr = _
    rw [hmem y]
    · rfl
    · rcases mem_cons.mp hy with rfl | hy
      · exact hbase
      · obtain ⟨u, hx, -⟩ := mem_freeAddrs.mp hy
        exact hne _ hx

theorem step_good (hg : Good I c) (h : step I c e = .next c')
    (hheap : c'.heap I < sizeofHeader * 2 ^ 32) : Good I c' := by
  cases e with
  | malloc nbytes sbrk n => exact malloc_good hg h hheap
  | free ap nb n => exact free_good hg h hheap
  | store a hd => exact store_good hg h

theorem run_good {mem : Nat → Header} {es : List Event}
    (h : exec (step I) (Config.init I mem) es = .next c)
    (hheap : c.heap I < sizeofHeader * 2 ^ 32) : Good I c := by
  have hinv : c.heap I < sizeofHeader * 2 ^ 32 → Good I c := by
    refine exec_inv (fun c => c.heap I < sizeofHeader * 2 ^ 32 → Good I c)
      ?_ ?_ (along_of_forall (fun _ _ => trivial) _ _) h
    · intro c e c' hc _ hstep hheap'
      have hbrk := step_brk hstep
      apply step_good (hc ?_) hstep hheap'
      unfold Config.heap at hheap' ⊢
      omega
    · intro _
      exact .inl ⟨rfl, rfl, rfl⟩
  exact hinv hheap

theorem calls_return (hg : Good I c) (hheap : c.heap I < sizeofHeader * 2 ^ 32) :
    (∀ (nbytes : Fin (2 ^ 27)) (sbrk : Bool),
      (sbrk = true → c.heap I + sizeofHeader * coreUnits (unitsFor nbytes) <
        sizeofHeader * 2 ^ 32) →
      ∃ N, ∀ n ≥ N, ∃ c', step I c (.malloc nbytes sbrk n) = .next c') ∧
    ∀ b ∈ c.live, ∃ N, ∀ n ≥ N, ∃ c', step I c (.free b.1 b.2 n) = .next c' := by
  constructor
  · intro nbytes sbrk hsb
    obtain ⟨ts, hs, -⟩ := hg.init
    have hb : (initList I c.state).brk = finish I.start ts := hs.brk
    rw [initList_brk] at hb
    unfold Config.heap at hheap hsb
    rw [hb] at hheap hsb
    have hv : (newTile nbytes).live ≠ none := some_ne_none _
    have hsum : sbrk = true → lastUnits ts + coreUnits (newTile nbytes).units < 2 ^ 32 := by
      intro hs
      apply release_small (R := []) (le_coreUnits _).2
      show above (finish I.start ts) (coreUnits (unitsFor nbytes)) - _ < _
      have := hsb hs
      unfold above
      omega
    obtain ⟨N, r, hN⟩ := malloc_returns hs hv rfl (small_of_heap hheap) hsum
    refine ⟨N, fun n hn => ?_⟩
    unfold step
    dsimp only
    rw [malloc_mono hN hn]
    exact ⟨_, rfl⟩
  · intro b hbl
    obtain ⟨ts, hrep⟩ := hg.rep hbl
    obtain ⟨L, t, R, rfl, hn, hap⟩ := live_split hrep hbl
    have ht : t.live ≠ none := by
      rw [hn]
      exact some_ne_none _
    obtain ⟨s', -, N, hfree⟩ := free_returns hrep ht hheap
    refine ⟨N, fun n hn => ?_⟩
    unfold step
    dsimp only
    rw [if_pos hbl, hap, hfree n hn]
    exact ⟨_, rfl⟩

end

end Malloc
