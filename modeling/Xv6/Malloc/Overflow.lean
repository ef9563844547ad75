import Xv6.Malloc.Heap

/-!
# A heap of `2 ^ 32` units

The size of a block is a `uint`.  If a program allocates 512 blocks of the largest size and frees
them all, `free` joins them to a block of `2 ^ 32 + 512` units and stores the size 512.

* `fill`, `drain`     the blocks are allocated side by side, and all but the last one are joined;
* `size_overflow`     after the last `free` the heap is not in order.
-/

namespace Malloc
open Cycle Run List Option

/-- the largest request -/
def big : Fin (2 ^ 27) := ⟨2 ^ 27 - 1, by decide⟩

/-- the units of a block for it -/
def bigUnits : Nat := 8388609

/-- the block for it -/
def bigTile : Tile := newTile big

/-- 512 calls of `malloc`, and `free` for each result in their order -/
def overflowRun : List Event :=
  List.replicate 512 (.malloc big true 8) ++
    (List.range 512).map fun k =>
      .free (above sampleImage.start (k * bigUnits) + sizeofHeader) big 8

theorem bigTile_units : bigTile.units = bigUnits := by
  decide

theorem bigTile_live : bigTile.live = some big.val := rfl

section
variable {I : Image} {c : Config} {s : State} {ts L R : List Tile}

def AllLive (ts : List Tile) : Prop := ∀ t ∈ ts, t.live ≠ none

theorem allLive_replicate (k : Nat) : AllLive (List.replicate k bigTile) := by
  intro t ht
  rw [eq_of_mem_replicate ht]
  exact some_ne_none _

theorem AllLive.last (h : AllLive ts) : lastUnits ts = 0 ∧ lastRest ts = ts := by
  obtain ⟨L', l, rfl, hf, -, -⟩ | ⟨-, hlu, hlr⟩ := last_cases ts
  · exact absurd hf (h l (mem_append_right _ mem_cons_self))
  · exact ⟨hlu, hlr⟩

theorem AllLive.join (h : AllLive ts) (u : Nat) : joinUnits u ts = u ∧ joinRest ts = ts := by
  obtain ⟨r, R', rfl, hf, -, -⟩ | ⟨-, hju, hjr⟩ := join_cases ts
  · exact absurd hf (h r mem_cons_self)
  · exact ⟨hju u, hjr⟩

theorem AllLive.freeAddrs (h : AllLive ts) (a : Nat) : freeAddrs a ts = [] := by
  induction ts generalizing a with
  | nil => rfl
  | cons t ts ih =>
    rw [freeAddrs_cons_live (h t mem_cons_self)]
    exact ih (fun u hu => h u (mem_cons_of_mem _ hu)) _

theorem Carve.not_allLive {v : Tile} {ts' : List Tile} {q : Nat} (h : Carve I v ts ts' q) :
    ¬ AllLive ts := by
  intro hl
  cases h with
  | whole ht | split ht => exact hl _ (mem_append_right _ mem_cons_self) ht

/-- a block carved from the only free one, at the end of the row, of the same size -/
theorem carve_last {v f : Tile} {ts' : List Tile} {q : Nat} (h : Carve I v (L ++ [f]) ts' q)
    (hL : AllLive L) (hf : f.live = none) (hu : f.units = v.units) : ts' = L ++ [v] := by
  have hsplit : ∀ {A B : List Tile} {t : Tile}, t.live = none → L ++ [f] = A ++ t :: B →
      A = L ∧ t = f ∧ B = [] := by
    intro A B t ht he
    rcases append_eq_append_iff.mp he with ⟨as, rfl, hB⟩ | ⟨bs, rfl, hB⟩
    · cases as with
      | nil =>
        cases hB
        exact ⟨append_nil _, rfl, rfl⟩
      | cons a as =>
        injection hB with h1 h2
        cases as <;> cases h2
    · cases bs with
      | nil =>
        cases hB
        exact ⟨(append_nil _).symm, rfl, rfl⟩
      | cons b bs =>
        injection hB with h1 h2
        subst h1
        exact absurd ht (hL t (mem_append_right _ mem_cons_self))
  generalize hts : L ++ [f] = ts at h
  cases h with
  | whole ht he =>
    obtain ⟨rfl, rfl, rfl⟩ := hsplit ht hts
    rfl
  | split ht hlt =>
    obtain ⟨rfl, rfl, rfl⟩ := hsplit ht hts
    omega

/-! ## the calls of `malloc` -/

theorem grown_allLive (h : AllLive ts) (nu : Nat) :
    grown ts nu = ts ++ [Tile.free (coreUnits nu) (le_coreUnits nu).2] := by
  rw [grown, release_eq _ h.last.2 h.last.1]
  exact congrArg (fun t => ts ++ [t]) (Tile.free_congr (Nat.zero_add _) _ _)

theorem fill_step {k : Nat} (h : RepState I (initList I c.state) (List.replicate k bigTile))
    (hl : c.live.Perm (liveBlocks I.start (List.replicate k bigTile))) :
    ∃ c', step I c (.malloc big true 8) = .next c' ∧
      RepState I c'.state (List.replicate (k + 1) bigTile) ∧
      c'.live.Perm (liveBlocks I.start (List.replicate (k + 1) bigTile)) := by
  have hlive := allLive_replicate k
  have hv : bigTile.live ≠ none := some_ne_none _
  have hcore : coreUnits bigTile.units = bigTile.units := by
    rw [bigTile_units]
    decide
  have hsmall : ∀ t ∈ replicate k bigTile, t.units < 2 ^ 32 := by
    intro t ht
    rw [eq_of_mem_replicate ht, bigTile_units]
    decide
  have hgrown := grown_allLive hlive bigTile.units
  have hsum : lastUnits (replicate k bigTile) + coreUnits bigTile.units < 2 ^ 32 := by
    rw [hlive.last.1, hcore, bigTile_units]
    decide
  obtain ⟨r, ts', hr, hcarve, hext⟩ := extend_spec h hv hsmall hsum
  have hfew : (freeAddrs I.start (replicate k bigTile)).length +
      (freeAddrs I.start (grown (replicate k bigTile) bigTile.units)).length + 2 = 3 := by
    rw [hgrown, hlive.freeAddrs, freeAddrs_append, hlive.freeAddrs, freeAddrs_cons_free rfl]
    rfl
  rw [hfew] at hext
  rw [hgrown] at hcarve
  have hts' : ts' = replicate (k + 1) bigTile := by
    rw [replicate_succ']
    exact carve_last hcarve hlive rfl hcore
  have hm : malloc I 8 c.state big true = some r := by
    obtain ⟨r', ts'', -, hno, -⟩ | hloop := malloc_turn true h hv rfl hsmall
    · exact absurd hlive hno.not_allLive
    · have hl8 := hloop 7
      rw [hlive.freeAddrs] at hl8
      rwa [← hext 7 (by decide)]
  refine ⟨⟨r.1, (r.2, big.val) :: c.live⟩, ?_, hts' ▸ hr, ?_⟩
  · unfold step
    dsimp only
    rw [hm]
    show Outcome.next (Config.mk _ (if r.2 = 0 then _ else _)) = _
    rw [if_neg hcarve.pos]
  · have hperm := hcarve.live_perm bigTile_live
    rw [liveBlocks_append, liveBlocks_cons_free rfl] at hperm
    rw [← hts']
    refine (hl.cons _).trans (List.Perm.trans ?_ hperm.symm)
    exact List.Perm.of_eq (congrArg _ (append_nil _).symm)

theorem fill (I : Image) (mem : Nat → Header) (k : Nat) :
    ∃ c, exec (step I) (Config.init I mem) (List.replicate (k + 1) (.malloc big true 8)) =
        .next c ∧ Rep I c (List.replicate (k + 1) bigTile) := by
  induction k with
  | zero =>
    have hinit : RepState I (initList I (Config.init I mem).state) [] := initList_rep rfl rfl
    obtain ⟨c, hstep, hrep, hl⟩ := fill_step (k := 0) hinit (List.Perm.refl _)
    exact ⟨c, (exec_cons_next hstep).trans rfl, hrep, hl⟩
  | succ k ih =>
    obtain ⟨c, hrun, hrep⟩ := ih
    have hinit := hrep.state
    rw [← initList_eq hrep.state] at hinit
    obtain ⟨c', hstep, hrep', hl'⟩ := fill_step hinit hrep.live
    refine ⟨c', ?_, hrep', hl'⟩
    rw [replicate_succ', exec_append hrun]
    exact (exec_cons_next hstep).trans rfl

/-! ## the calls of `free` -/

/-- the row of the first `k` blocks after they were freed -/
def freed : Nat → List Tile
  | 0 => []
  | k + 1 => [Tile.free ((k + 1) * bigUnits) (Nat.mul_pos (Nat.succ_pos k) (by decide))]

theorem freed_last (k : Nat) : lastUnits (freed k) = k * bigUnits ∧ lastRest (freed k) = [] := by
  cases k with
  | zero => exact ⟨(Nat.zero_mul _).symm, rfl⟩
  | succ k => exact ⟨rfl, rfl⟩

theorem finish_freed (a k : Nat) : finish a (freed k) = above a (k * bigUnits) := by
  cases k with
  | zero =>
    rw [Nat.zero_mul]
    rfl
  | succ k => rfl

theorem freeAddrs_freed (a k : Nat) : (freeAddrs a (freed k)).length ≤ 1 := by
  cases k with
  | zero => exact Nat.zero_le _
  | succ k => exact Nat.le_refl _

theorem release_freed (k : Nat) (hR : AllLive R) :
    release (freed k) bigTile.units bigTile.pos R = freed (k + 1) ++ R := by
  obtain ⟨hju, hjr⟩ := hR.join bigTile.units
  rw [release_eq _ (freed_last k).2 (freed_last k).1, hjr, nil_append]
  refine congrArg (· :: R) (Tile.free_congr ?_ _ _)
  rw [hju, bigTile_units, Nat.succ_mul]

theorem few_free (I : Image) (k m : Nat) :
    (freeAddrs I.start (freed k ++ bigTile :: List.replicate m bigTile)).length + 1 < 8 := by
  have := freeAddrs_freed I.start k
  rw [freeAddrs_append, freeAddrs_cons_live (some_ne_none _),
    (allLive_replicate m).freeAddrs, append_nil]
  omega

theorem drain_step {k m : Nat} (h : Rep I c (freed k ++ bigTile :: List.replicate m bigTile))
    (hk : (k + 1) * bigUnits < 2 ^ 32) :
    ∃ c', step I c (.free (above I.start (k * bigUnits) + sizeofHeader) big 8) = .next c' ∧
      Rep I c' (freed (k + 1) ++ List.replicate m bigTile) := by
  have hm := allLive_replicate m
  have hv : bigTile.live ≠ none := some_ne_none _
  obtain ⟨hju, -⟩ := hm.join bigTile.units
  have hsum : lastUnits (freed k) + joinUnits bigTile.units (replicate m bigTile) < 2 ^ 32 := by
    rwa [(freed_last k).1, hju, bigTile_units, ← Nat.succ_mul]
  obtain ⟨s', hs', hfree⟩ := free_release h.state hv hsum
  have hmem : (above I.start (k * bigUnits) + sizeofHeader, big.val) ∈ c.live := by
    rw [h.live.mem_iff, ← finish_freed, liveBlocks_append, liveBlocks_cons_live bigTile_live]
    exact mem_append_right _ mem_cons_self
  refine ⟨_, ?_, release_freed k hm ▸ free_rep h bigTile_live hs'⟩
  unfold step
  dsimp only
  rw [if_pos hmem, ← finish_freed, hfree 8 (few_free I k m)]

theorem drain {k : Nat} (hk : k < 512) (h : Rep I c (List.replicate 512 bigTile)) :
    ∃ c', exec (step I) c ((List.range k).map fun k =>
        .free (above I.start (k * bigUnits) + sizeofHeader) big 8) = .next c' ∧
      Rep I c' (freed k ++ List.replicate (512 - k) bigTile) := by
  induction k with
  | zero => exact ⟨c, rfl, h⟩
  | succ k ih =>
    obtain ⟨c₁, hrun, hrep⟩ := ih (Nat.lt_of_succ_lt hk)
    have he : 512 - k = 512 - (k + 1) + 1 := by omega
    rw [he, replicate_succ] at hrep
    have hsmall : (k + 1) * bigUnits < 2 ^ 32 := by
      unfold bigUnits
      omega
    obtain ⟨c₂, hstep, hrep'⟩ := drain_step hrep hsmall
    refine ⟨c₂, ?_, hrep'⟩
    rw [range_succ, map_append, exec_append hrun]
    exact (exec_cons_next hstep).trans rfl

/-- a free block and the last one are joined: the size of the sum is a `uint` -/
theorem join_two {t : Tile} {v nb : Nat} (hv : 0 < v) (h : Rep I c [Tile.free v hv, t])
    (ht : t.live = some nb) (hu : t.units < 2 ^ 32) :
    ∃ c', step I c (.free (above I.start v + sizeofHeader) nb 8) = .next c' ∧ c'.live = [] ∧
      c'.state.size I.start = (v + t.units) % 2 ^ 32 ∧ c'.state.ptr I.start = I.base ∧
      c'.state.ptr I.base = I.start ∧ c'.state.brk = above I.start (v + t.units) := by
  have htl : t.live ≠ none := by
    rw [ht]
    exact some_ne_none nb
  have hX : I.base :: freeAddrs I.start [Tile.free v hv] = [I.base] ++ [I.start] := rfl
  have hrow : RepState I c.state ([Tile.free v hv] ++ t :: []) := h.state
  have hlt : I.start < above I.start v := lt_above I.start (Tile.free v hv)
  have hbase := I.base_lt
  have hfree : freeAddrs I.start ([Tile.free v hv] ++ t :: []) = [I.start] := by
    rw [freeAddrs_append, freeAddrs_cons_live htl]
    rfl
  have hlen : (freeAddrs I.start ([Tile.free v hv] ++ t :: [])).length + 1 < 8 := by
    rw [hfree, length_singleton]
    decide
  have hseek := seek_pred hrow htl hX hlen
  obtain ⟨hsz, hsame, hlink, hbrk⟩ := joinNext_spec hrow htl hX hu
  have hstart : c.state.size I.start = v :=
    h.state.size (I.start, Tile.free v hv) mem_cons_self
  have hnext : c.state.ptr I.base = I.start := by
    have hl := hrow.link
    rw [hfree] at hl
    exact (link_cons_cons.mp hl).1
  have hlive : c.live = [(above I.start v + sizeofHeader, nb)] := by
    apply perm_singleton.mp
    refine h.live.trans (List.Perm.of_eq ?_)
    rw [liveBlocks_cons_free rfl, liveBlocks_cons_live ht]
    rfl
  have hfin : finish I.start [Tile.free v hv] = above I.start v := rfl
  rw [hfin] at hseek hsz hsame hlink hbrk
  generalize hs₁ : joinNext c.state (above I.start v) I.start = s₁ at hsz hsame hlink hbrk
  have hbp : s₁.ptr (above I.start v) = I.base := (link_cons_cons.mp hlink).1
  have hj : joinPrev s₁ (above I.start v) I.start =
      (s₁.setSize I.start (v + t.units)).setPtr I.start I.base := by
    rw [joinPrev, (hsame I.start (Nat.ne_of_lt hlt)).1, hstart, if_pos rfl, hsz]
    dsimp only
    rw [setSize_ptr, hbp]
    rfl
  refine ⟨⟨{ (s₁.setSize I.start (v + t.units)).setPtr I.start I.base with freep := I.start },
    c.live.erase (above I.start v + sizeofHeader, nb)⟩, ?_, ?_, ?_, ?_, ?_, ?_⟩
  · unfold step free
    dsimp only
    rw [if_pos (hlive ▸ mem_cons_self), Nat.add_sub_cancel, hseek]
    dsimp only
    rw [hs₁, hj]
  · rw [hlive, erase_cons_head]
  · show ((s₁.setSize _ _).setPtr _ _).size I.start = _
    rw [setPtr_size, setSize_size, if_pos rfl]
  · show ((s₁.setSize _ _).setPtr _ _).ptr I.start = I.base
    rw [setPtr_ptr, if_pos rfl]
  · show ((s₁.setSize _ _).setPtr _ _).ptr I.base = I.start
    rw [setPtr_ptr, if_neg (Nat.ne_of_lt hbase), setSize_ptr,
      (hsame I.base (Nat.ne_of_lt (Nat.lt_trans hbase hlt))).2, hnext]
  · show s₁.brk = _
    rw [hbrk, h.state.brk, above_add]
    rfl

/-- such a heap is not in order: the memory behind the first 512 units belongs to no block -/
theorem not_heapOk {fs : List Nat} (hlive : c.live = []) (hsize : c.state.size I.start = 512)
    (hptr : c.state.ptr I.start = I.base) (hbase : c.state.ptr I.base = I.start)
    (hbrk : c.state.brk = above I.start (512 * bigUnits)) : ¬ HeapOk I c fs := by
  intro h
  have hne := Nat.ne_of_lt I.base_lt
  have hfs : fs = [I.start] := by
    have hcycle := h.cycle
    cases fs with
    | nil =>
      have := (link_cons_cons.mp hcycle).1
      rw [hbase] at this
      exact absurd this.symm hne
    | cons f fs =>
      obtain ⟨h1, h2⟩ := link_cons_cons.mp hcycle
      rw [hbase] at h1
      subst h1
      cases fs with
      | nil => rfl
      | cons g fs =>
        have h3 := (link_cons_cons.mp h2).1
        rw [hptr] at h3
        have h4 := (pairwise_cons.mp h.sorted).1 g
          (mem_cons_of_mem _ mem_cons_self)
        omega
  obtain ⟨a, ha, -, hz⟩ := h.cover (above I.start 512) (Nat.le_add_right _ _) (by
    rw [hbrk]
    unfold above sizeofHeader bigUnits
    omega)
  unfold Config.blocks at ha
  rw [hfs, hlive] at ha
  cases mem_singleton.mp ha
  unfold Config.endOf at hz
  rw [hsize] at hz
  exact Nat.lt_irrefl _ hz

end

theorem size_overflow : ∃ c,
    exec (step sampleImage) (Config.init sampleImage fun _ => ⟨0, 0⟩) overflowRun = .next c ∧
      ¬ Reliable sampleImage c := by
  obtain ⟨c₁, hfill, hrep⟩ := fill sampleImage (fun _ => ⟨0, 0⟩) 511
  obtain ⟨c₂, hdrain, hrep₂⟩ := drain (k := 511) (by decide) hrep
  have hsmall : bigTile.units < 2 ^ 32 := by
    rw [bigTile_units]
    decide
  obtain ⟨c₃, hstep, hlive, hsize, hptr, hbase, hbrk⟩ := join_two (by decide) hrep₂ bigTile_live hsmall
  have hsum : 511 * bigUnits + bigTile.units = 512 * bigUnits := by
    rw [bigTile_units]
    decide
  rw [hsum] at hsize hbrk
  refine ⟨c₃, ?_, ?_⟩
  · unfold overflowRun
    rw [exec_append hfill, List.range_succ, List.map_append, exec_append hdrain]
    exact (exec_cons_next hstep).trans rfl
  · rintro ⟨⟨-, hb, -⟩ | ⟨fs, hok⟩, -⟩
    · rw [hbrk] at hb
      revert hb
      decide
    · exact not_heapOk hlive (hsize.trans (by decide)) hptr hbase hbrk hok

end Malloc
