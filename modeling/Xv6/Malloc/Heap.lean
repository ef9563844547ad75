import Xv6.Malloc.Runs

/-!
# The heap of a program

* `HeapOk`           the free list is one cycle through `base` in the order of addresses; free and
                     live blocks are disjoint, lie in the heap and cover it; no two free blocks
                     stand side by side; a live block has room for the bytes asked for;
* `allocator_ok`     so it is in every run, while the heap has fewer than `2 ^ 32` units; and every
                     call returns.
-/

namespace Malloc
open Cycle Run List

/-- the headers of the free blocks `fs` and of the live ones -/
def Config.blocks (c : Config) (fs : List Nat) : List Nat :=
  fs ++ c.live.map fun b => b.1 - sizeofHeader

/-- the end of the block at `a` -/
def Config.endOf (c : Config) (a : Nat) : Nat := above a (c.state.size a)

structure HeapOk (I : Image) (c : Config) (fs : List Nat) : Prop where
  cycle : Link c.state.ptr (I.base :: fs ++ [I.base])
  sorted : (I.base :: fs).Pairwise (· < ·)
  freep : c.state.freep ∈ I.base :: fs
  disjoint : (c.blocks fs).Pairwise fun a b => c.endOf a ≤ b ∨ c.endOf b ≤ a
  inside : ∀ a ∈ c.blocks fs, I.start ≤ a ∧ a < c.endOf a ∧ c.endOf a ≤ c.state.brk
  cover : ∀ z, I.start ≤ z → z < c.state.brk → ∃ a ∈ c.blocks fs, a ≤ z ∧ z < c.endOf a
  merged : ∀ a ∈ fs, c.endOf a ∉ fs
  room : ∀ b ∈ c.live, sizeofHeader ≤ b.1 ∧ b.1 + b.2 ≤ c.endOf (b.1 - sizeofHeader)

section
variable {I : Image} {c : Config} {ts : List Tile}

theorem blocks_perm (a : Nat) (ts : List Tile) :
    (freeAddrs a ts ++ (liveBlocks a ts).map fun b => b.1 - sizeofHeader).Perm
      ((place a ts).map Prod.fst) := by
  induction ts generalizing a with
  | nil => exact List.Perm.refl _
  | cons t ts ih =>
    cases ht : t.live with
    | none =>
      rw [freeAddrs_cons_free ht, liveBlocks_cons_free ht]
      exact (ih _).cons a
    | some n =>
      have hne : t.live ≠ none := by
        rw [ht]
        exact Option.some_ne_none n
      rw [freeAddrs_cons_live hne, liveBlocks_cons_live ht, map_cons]
      refine perm_middle.trans ?_
      rw [Nat.add_sub_cancel]
      exact (ih _).cons a

theorem merged_free (h : Merged ts) {a : Nat} {x y : Nat × Tile} (hx : x ∈ place a ts)
    (hy : y ∈ place a ts) (hfx : x.2.live = none) (hfy : y.2.live = none) :
    above x.1 x.2.units ≠ y.1 := by
  intro he
  obtain ⟨L, R, rfl, hfin⟩ := split_of_mem hx
  rw [place_append, ← hfin] at hy
  have hlt := lt_above x.1 x.2
  rcases mem_append.mp hy with hy | hy
  · have := place_bounds hy
    omega
  rcases mem_cons.mp hy with rfl | hy
  · omega
  cases R with
  | nil => cases hy
  | cons r R =>
    rcases mem_cons.mp hy with rfl | hy
    · have hxr := (isChain_cons_cons.mp (isChain_split.mp h).2).1
      exact hxr.elim (absurd hfx) (absurd hfy)
    · have := (place_bounds hy).1
      have := lt_above (above x.1 x.2.units) r
      omega

theorem Rep.heapOk (h : Rep I c ts) : HeapOk I c (freeAddrs I.start ts) := by
  have hend : ∀ x ∈ place I.start ts, c.endOf x.1 = above x.1 x.2.units := by
    intro x hx
    rw [Config.endOf, h.state.size x hx]
  have hperm : (c.blocks (freeAddrs I.start ts)).Perm ((place I.start ts).map Prod.fst) := by
    refine List.Perm.trans ?_ (blocks_perm I.start ts)
    exact (h.live.map _).append_left _
  have hmem : ∀ a, a ∈ c.blocks (freeAddrs I.start ts) ↔ ∃ x ∈ place I.start ts, x.1 = a := by
    intro a
    rw [hperm.mem_iff, List.mem_map]
  refine ⟨h.state.link, cycle_sorted I ts, h.state.freep, ?_, ?_, ?_, ?_, ?_⟩
  · rw [hperm.pairwise_iff fun hab => hab.symm, pairwise_map]
    refine (place_pairwise I.start ts).imp_of_mem fun hx _ hxy => ?_
    rw [hend _ hx]
    exact .inl hxy
  · intro a ha
    obtain ⟨x, hx, rfl⟩ := (hmem a).mp ha
    rw [hend x hx, h.state.brk]
    exact place_bounds hx
  · intro z h1 h2
    rw [h.state.brk] at h2
    obtain ⟨x, hx, hz⟩ := place_cover h1 h2
    refine ⟨x.1, (hmem x.1).mpr ⟨x, hx, rfl⟩, ?_⟩
    rwa [hend x hx]
  · intro a ha hb
    obtain ⟨t, hx, hfx⟩ := mem_freeAddrs.mp ha
    obtain ⟨u, hy, hfy⟩ := mem_freeAddrs.mp hb
    exact merged_free h.state.merged hx hy hfx hfy (hend _ hx).symm
  · intro b hb
    obtain ⟨x, hx, hn, he⟩ := mem_liveBlocks.mp (h.live.mem_iff.mp hb)
    have hfits := x.2.fits b.2 hn
    have hpos := x.2.pos
    have hx1 : b.1 - sizeofHeader = x.1 := by
      rw [he, Nat.add_sub_cancel]
    rw [hx1, hend x hx, he]
    unfold above sizeofHeader at hfits ⊢
    omega

end

/-- what a program relies on: the heap is in order, and `malloc` and `free` return -/
def Reliable (I : Image) (c : Config) : Prop :=
  ((c.state.freep = 0 ∧ c.state.brk = I.start ∧ c.live = []) ∨ ∃ fs, HeapOk I c fs) ∧
    (∀ (nbytes : Fin (2 ^ 27)) (sbrk : Bool),
      (sbrk = true → c.heap I + sizeofHeader * coreUnits (unitsFor nbytes) <
        sizeofHeader * 2 ^ 32) →
      ∃ N, ∀ n ≥ N, ∃ c', step I c (.malloc nbytes sbrk n) = .next c') ∧
    ∀ b ∈ c.live, ∃ N, ∀ n ≥ N, ∃ c', step I c (.free b.1 b.2 n) = .next c'

theorem allocator_ok {I : Image} {mem : Nat → Header} {es : List Event} {c : Config}
    (h : exec (step I) (Config.init I mem) es = .next c)
    (hheap : c.heap I < sizeofHeader * 2 ^ 32) : Reliable I c := by
  have hg := run_good h hheap
  refine ⟨?_, calls_return hg hheap⟩
  rcases hg with hinit | ⟨ts, hrep⟩
  · exact .inl hinit
  · exact .inr ⟨_, hrep.heapOk⟩

/-- `base` in the first page, the heap from the fifth on -/
def sampleImage : Image := ⟨0x800, 0x4000, by decide, by decide⟩

theorem allocator_ok_sample : ∃ es c,
    exec (step sampleImage) (Config.init sampleImage fun _ => ⟨0, 0⟩) es = .next c ∧
      c.live.length = 2 ∧ c.heap sampleImage < sizeofHeader * 2 ^ 32 ∧ Reliable sampleImage c := by
  obtain ⟨c, hrun, hlive, hheap⟩ := exists_of_check
    (o := exec (step sampleImage) (Config.init sampleImage fun _ => ⟨0, 0⟩)
      [.malloc 100 true 8, .malloc 20 false 8, .malloc 40 true 8, .free 81808 100 8])
    (p := fun c => c.live.length = 2 ∧ c.heap sampleImage < sizeofHeader * 2 ^ 32)
    (by decide +kernel)
  exact ⟨_, c, hrun, hlive, hheap, allocator_ok hrun hheap⟩

end Malloc
