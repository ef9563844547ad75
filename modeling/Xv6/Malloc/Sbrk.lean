import Xv6.Malloc.Runs
import Xv6.Vm.Sbrk

/-!
# `malloc` on the kernel

`morecore` asks for `nu * sizeof(Header)` bytes, but `sbrk` takes an `int`.  Here the allocator runs on
the kernel: `sbrk` is `sys_sbrk`, and the process has the memory that its page table maps.

* `morecoreOn_eq`       `morecore` with the answer of the kernel;
* `mallocOn_spec`       in a heap in order a block is found in the heap, or in what `sbrk` added;
* `malloc_backed`       what `morecore` registers was obtained, exactly if the request fits in an `int`.
-/

namespace Malloc
open Cycle Run List BitVec

/-- the process, with its page table, and the kernel it runs on -/
structure Host where
  proc : Vm.Proc
  table : Vm.Table 2
  sys : Vm.Sys

/-- the system call: what it returns, and the process after it -/
def sbrk (L : Vm.Layout) (h : Host) (n : BitVec 32) : Option (Int × Host) :=
  match (Vm.sysSbrk h.table h.proc n.toInt).run (Vm.sem L) h.sys with
  | .next ((y, ret), t) => y.pagetable.map fun T => (ret, ⟨y, T, t⟩)
  | _ => none

/-- the argument of `sbrk`, a `uint` times a `size_t` -/
def sbrkArg (nu : Nat) : BitVec 32 := BitVec.ofNat 32 (nu * sizeofHeader)

def morecoreOn (L : Vm.Layout) (n : Nat) (s : State) (h : Host) (nu : Nat) : Option (State × Host × Nat) :=
  let nu := coreUnits nu
  match sbrk L h (sbrkArg nu) with
  | none => none
  | some (p, h) =>
    if p = -1 then some (s, h, 0)
    else
      let hp := p.toNat
      let s := { s with brk := above hp nu }
      match free n (s.setSize hp nu) (hp + sizeofHeader) with
      | none => none
      | some s => some (s, h, s.freep)

def mallocLoopOn (L : Vm.Layout) (nunits : Nat) :
    Nat → State → Host → Nat → Nat → Option (State × Host × Nat)
  | 0, _, _, _, _ => none
  | n + 1, s, h, prevp, p =>
    if nunits ≤ s.size p then some ((take s nunits prevp p).1, h, (take s nunits prevp p).2)
    else if p = s.freep then
      match morecoreOn L n s h nunits with
      | none => none
      | some (s, h, p) => if p = 0 then some (s, h, 0) else mallocLoopOn L nunits n s h p (s.ptr p)
    else mallocLoopOn L nunits n s h p (s.ptr p)

def mallocOn (L : Vm.Layout) (I : Image) (n : Nat) (s : State) (h : Host) (nbytes : BitVec 32) :
    Option (State × Host × Nat) :=
  let s := initList I s
  mallocLoopOn L (unitsFor nbytes.toNat) n s h s.freep (s.ptr s.freep)

section
variable {L : Vm.Layout} {I : Image} {s : State} {h h' : Host} {ts : List Tile} {n nu prev p q : Nat}
  {ret : Int}

/-! ## requests -/

theorem unitsFor_toNat (nbytes : BitVec 32) :
    unitsFor nbytes.toNat = (nbytes.toNat + 15) / 16 + 1 := by
  unfold unitsFor sizeofHeader
  omega

/-- the block for a request -/
def requestTile (nbytes : BitVec 32) : Tile :=
  Tile.taken (unitsFor nbytes.toNat) nbytes.toNat (by rw [unitsFor_toNat]; exact Nat.succ_pos _) (by
    rw [unitsFor_toNat]
    unfold sizeofHeader
    omega)

theorem coreUnits_le (nbytes : BitVec 32) : coreUnits (unitsFor nbytes.toNat) ≤ 2 ^ 28 + 1 := by
  rw [unitsFor_toNat]
  unfold coreUnits
  split <;> omega

theorem sbrkArg_toInt (hnu : nu ≤ 2 ^ 28 + 1) :
    (sbrkArg nu).toInt = if nu * 16 < 2 ^ 31 then (nu : Int) * 16 else nu * 16 - 2 ^ 32 := by
  rw [sbrkArg, sizeofHeader, toInt_eq_toNat_bmod, toNat_ofNat, Int.bmod]
  split <;> split <;> omega

/-! ## `malloc` up to `sbrk` -/

def extendOn (L : Vm.Layout) (nunits n : Nat) (s : State) (h : Host) : Option (State × Host × Nat) :=
  match morecoreOn L n s h nunits with
  | none => none
  | some (s, h, p) => if p = 0 then some (s, h, 0) else mallocLoopOn L nunits n s h p (s.ptr p)

/-- where the search without new memory ends, the search on the kernel has found the same block, or it
comes to `morecore` -/
theorem mallocLoopOn_search {r : State × Nat} (hr : mallocLoop nu false n s prev p = some r) :
    (r.2 ≠ 0 ∧ ∀ k, mallocLoopOn L nu (n + k) s h prev p = some (r.1, h, r.2)) ∨
      (r.2 = 0 ∧ ∃ m, ∀ k, mallocLoopOn L nu (n + k) s h prev p = extendOn L nu (m + k) s h) := by
  induction n generalizing prev p with
  | zero => cases hr
  | succ n ih =>
    have hstep : ∀ k, mallocLoopOn L nu (n + 1 + k) s h prev p =
        if nu ≤ s.size p then some ((take s nu prev p).1, h, (take s nu prev p).2)
        else if p = s.freep then extendOn L nu (n + k) s h
        else mallocLoopOn L nu (n + k) s h p (s.ptr p) := by
      intro k
      rw [Nat.add_right_comm]
      rfl
    simp only [hstep]
    rw [mallocLoop_succ] at hr
    by_cases hsz : nu ≤ s.size p
    · rw [if_pos hsz] at hr
      cases hr
      refine .inl ⟨?_, fun k => if_pos hsz⟩
      unfold take
      split <;> exact Nat.succ_ne_zero _
    · rw [if_neg hsz] at hr
      by_cases hp : p = s.freep
      · rw [if_pos hp] at hr
        cases hr
        exact .inr ⟨rfl, n, fun k => by rw [if_neg hsz, if_pos hp]⟩
      · rw [if_neg hp] at hr
        simp only [if_neg hsz, if_neg hp]
        exact ih hr

theorem mallocLoopOn_found {r : State × Nat} {N : Nat} (hpos : r.2 ≠ 0)
    (hr : mallocLoop nu false N s prev p = some r) (hn : N ≤ n) :
    mallocLoopOn L nu n s h prev p = some (r.1, h, r.2) := by
  obtain ⟨k, rfl⟩ := Nat.exists_eq_add_of_le hn
  obtain ⟨-, hon⟩ | ⟨hz, -⟩ := mallocLoopOn_search hr
  · exact hon k
  · exact absurd hz hpos

theorem Carve.end_le {v : Tile} {ts' : List Tile} {nb : Nat} {t : State} (hc : Carve I v ts ts' q)
    (hv : v.live = some nb) (hr : RepState I t ts') : q + nb ≤ t.brk := by
  have hm : (q, nb) ∈ liveBlocks I.start ts' := (hc.live_perm hv).mem_iff.mpr mem_cons_self
  obtain ⟨x, hx, he⟩ := mem_filterMap.mp hm
  obtain ⟨-, -, hle⟩ := place_bounds hx
  obtain ⟨m, hm, he⟩ := Option.map_eq_some_iff.mp he
  have hfit := x.2.fits m hm
  have hpos := x.2.pos
  cases he
  rw [hr.brk]
  unfold above sizeofHeader at *
  omega

/-- the answer of the kernel is the old break or an error, so that the heap is as after `morecore` -/
theorem morecoreOn_eq (hs : sbrk L h (sbrkArg (coreUnits nu)) = some (ret, h')) (hret : ret = -1 ∨ ret = s.brk) :
    morecoreOn L n s h nu = (morecore n s nu (decide (ret ≠ -1))).map fun r => (r.1, h', r.2) := by
  unfold morecoreOn
  simp only [hs]
  rcases hret with rfl | rfl
  · rfl
  have hne : (s.brk : Int) ≠ -1 := by omega
  rw [if_neg hne, decide_eq_true hne]
  unfold morecore
  simp only [if_true, Int.toNat_natCast]
  cases free n (State.setSize { s with brk := above s.brk (coreUnits nu) } s.brk (coreUnits nu))
    (s.brk + sizeofHeader) with
  | none => rfl
  | some s' => rfl

theorem extendOn_refused (hs : sbrk L h (sbrkArg (coreUnits nu)) = some (-1, h')) :
    extendOn L nu n s h = some (s, h', 0) := by
  rw [extendOn, morecoreOn_eq hs (.inl rfl)]
  rfl

theorem extendOn_more {t : State} (hs : sbrk L h (sbrkArg (coreUnits nu)) = some ((s.brk : Int), h'))
    (ht : morecore n s nu true = some (t, t.freep)) (hpos : t.freep ≠ 0) :
    extendOn L nu n s h = mallocLoopOn L nu n t h' t.freep (t.ptr t.freep) := by
  have hne : (s.brk : Int) ≠ -1 := by omega
  rw [extendOn, morecoreOn_eq hs (.inr rfl), decide_eq_true hne, ht]
  exact if_neg hpos

/-- `malloc` on the kernel returns: with nothing, with a block of the heap, or with one of the heap and the
memory that `sbrk` claims to have added -/
theorem mallocOn_spec {nbytes : BitVec 32} (hrep : RepState I (initList I s) ts)
    (hsmall : ∀ t ∈ ts, t.units < 2 ^ 32)
    (hsum : lastUnits ts + coreUnits (unitsFor nbytes.toNat) < 2 ^ 32)
    (hs : sbrk L h (sbrkArg (coreUnits (unitsFor nbytes.toNat))) = some (ret, h'))
    (hret : ret = -1 ∨ ret = s.brk) :
    ∃ N s' g q, (∀ n, N ≤ n → mallocOn L I n s h nbytes = some (s', g, q)) ∧
      (q = 0 ∧ g = h' ∧ ret = -1 ∨
        q ≠ 0 ∧ q + nbytes.toNat ≤ s'.brk ∧ (g = h ∧ s'.brk = s.brk ∨
          g = h' ∧ ret ≠ -1 ∧ s'.brk = above s.brk (coreUnits (unitsFor nbytes.toNat)))) := by
  have hv : (requestTile nbytes).live ≠ none := Option.some_ne_none _
  have hbrk := initList_brk I s
  have hfin := hrep.brk
  obtain ⟨r, ts', hr, hcarve, hloop⟩ | ⟨-, hloop⟩ := loop_turn false hrep hv hsmall
  · refine ⟨_, r.1, h, r.2, fun n hn => mallocLoopOn_found hcarve.pos (hloop 0) hn,
      .inr ⟨hcarve.pos, hcarve.end_le rfl hr, .inl ⟨rfl, ?_⟩⟩⟩
    rw [hr.brk, hcarve.finish_eq, ← hfin, hbrk]
  obtain ⟨hpos, -⟩ | ⟨-, m, hon⟩ := mallocLoopOn_search (L := L) (h := h) (hloop 0)
  · exact absurd rfl hpos
  rw [← hbrk] at hret
  rcases hret with rfl | rfl
  · refine ⟨0 + (freeAddrs I.start ts).length + 1, initList I s, h', 0, fun n hn => ?_, .inl ⟨rfl, rfl, rfl⟩⟩
    obtain ⟨k, rfl⟩ := Nat.exists_eq_add_of_le hn
    exact (hon k).trans (extendOn_refused hs)
  obtain ⟨t, ht, hmore⟩ := morecore_rep hrep hsum
  obtain ⟨r, ts', hr, hcarve, hfound⟩ := loop_grown false ht hv (small_release _ hsmall hsum)
  refine ⟨0 + (freeAddrs I.start ts).length + 1 + ((freeAddrs I.start ts).length + 2 +
    (freeAddrs I.start (grown ts (unitsFor nbytes.toNat))).length), r.1, h', r.2, fun n hn => ?_,
    .inr ⟨hcarve.pos, hcarve.end_le rfl hr, .inr ⟨rfl, by omega, ?_⟩⟩⟩
  · obtain ⟨k, rfl⟩ := Nat.exists_eq_add_of_le hn
    rw [Nat.add_assoc _ _ k]
    refine (hon _).trans ((extendOn_more hs (hmore _ (by omega)) (freep_pos ht)).trans ?_)
    refine mallocLoopOn_found hcarve.pos (hfound 0) ?_
    show 0 + (freeAddrs I.start (grown ts (unitsFor nbytes.toNat))).length + 1 ≤ _
    omega
  · rw [hr.brk, hcarve.finish_eq, grown, finish_release, ← hfin, hbrk]
    rfl

end

/-! ## on the kernel -/

/-- the process `p` at a system call -/
def Host.calls (c : Vm.Config) (p : Vm.Slot) (T : Vm.Table 2) : Host :=
  ⟨c.sys.proc p, T, c.sys.setOut p true (c.sys.proc p)⟩

/-- `morecore` registers `nu` units if `sbrk` does not fail: then the break has grown by as much -/
def Obtained (h h' : Host) (nu : Nat) (ret : Int) : Prop :=
  ret ≠ -1 → h.proc.sz + sizeofHeader * nu ≤ h'.proc.sz

/-- the `n` bytes at `q` are mapped -/
def Mapped (h : Host) (q n : Nat) : Prop := ∀ i, i < n → (h.table.leaf (q + i)).has Vm.PTE_V = true

section
variable {L : Vm.Layout} {c : Vm.Config} {p : Vm.Slot} {T : Vm.Table 2}

/-- the answer of the kernel -/
structure Answer (L : Vm.Layout) (h : Host) (n : Int) (ret : Int) (h' : Host) : Prop where
  live : ∃ tf, Vm.Live L h'.proc h'.table tf true
  old : ret = -1 ∨ ret = h.proc.sz
  shrunk : n ≤ 0 → ret = h.proc.sz
  size : ret ≠ -1 → 0 ≤ (h.proc.sz : Int) + n → (h'.proc.sz : Int) = h.proc.sz + n
  same : (h.proc.sz : Int) + n < 0 → h'.proc.sz = h.proc.sz

theorem sbrk_answer (hc : Vm.Reachable L c) (hT : c.sys.userTable p = some T) (n : BitVec 32) :
    ∃ ret h', sbrk L (Host.calls c p T) n = some (ret, h') ∧ Answer L (Host.calls c p T) n.toInt ret h' := by
  obtain ⟨k₀, R₀, tf, g, hx, hs⟩ := hc.calls hT
  obtain ⟨y, T', ret, t, hrun, hy, hret, hex, hneg⟩ := Vm.sysSbrk_run hx (le_toInt n) hs
  refine ⟨ret, ⟨y, T', t⟩, ?_, ⟨tf, hy⟩, ?_, hret, fun hne hle => ?_, hneg⟩
  · rw [sbrk, Host.calls, hrun]
    dsimp only
    rw [hy.pagetable]
    rfl
  · by_cases hle : 0 ≤ ((c.sys.proc p).sz : Int) + n.toInt
    · rcases hex hle with ⟨h, -⟩ | ⟨h, -⟩
      · exact .inl h
      · exact .inr h
    · exact .inr (hret (by omega))
  · rcases hex hle with ⟨h, -⟩ | ⟨-, h⟩
    · exact absurd h hne
    · exact h.size

/-- what was registered was obtained, if and only if the request fits in an `int`; where it is too large
by `2 ^ 32`, `sbrk` can at least fail -/
theorem Answer.obtained {h h' : Host} {nu : Nat} {ret : Int} (ha : Answer L h (sbrkArg nu).toInt ret h')
    (hnu : nu ≤ 2 ^ 28 + 1) (hpos : 0 < nu) :
    Obtained h h' nu ret ↔ nu * 16 < 2 ^ 31 ∨ nu = 2 ^ 28 + 1 ∧ ret = -1 := by
  have hsize := ha.size
  have hshrunk := ha.shrunk
  have hsame := ha.same
  rw [sbrkArg_toInt hnu] at hsize hshrunk hsame
  unfold Obtained sizeofHeader
  by_cases hlt : nu * 16 < 2 ^ 31
  · rw [if_pos hlt] at hsize
    refine ⟨fun _ => .inl hlt, fun _ hne => ?_⟩
    omega
  rw [if_neg hlt] at hsize hshrunk hsame
  by_cases hne : ret = -1
  · refine ⟨fun _ => .inr ⟨?_, hne⟩, fun _ h => absurd hne h⟩
    by_contra hnu'
    omega
  refine ⟨fun hgot => ?_, fun hor => ?_⟩
  · by_cases hle : 0 ≤ (h.proc.sz : Int) + (nu * 16 - 2 ^ 32) <;> omega
  · rcases hor with hlt' | ⟨-, he⟩
    · exact absurd hlt' hlt
    · exact absurd he hne

theorem Mapped.of_live {h : Host} {q n tf : Nat} (hl : Vm.Live L h.proc h.table tf true)
    (hle : q + n ≤ h.proc.sz) : Mapped h q n := by
  intro i hi
  have hup := Vm.le_roundup h.proc.sz
  have hsz := hl.size
  exact ((hl.shape rfl).mapped (q + i) (by omega)).mpr (by omega)

/-- a process has less memory than the machine, so the sizes of the blocks do not overflow -/
theorem heap_small {I : Image} {s : State} {ts : List Tile} {x : Vm.Proc} {tf nu : Nat}
    (hl : Vm.Live L x T tf true) (hrep : RepState I s ts) (hbrk : s.brk = x.sz) (hnu : nu ≤ 2 ^ 28 + 1) :
    (∀ t ∈ ts, t.units < 2 ^ 32) ∧ lastUnits ts + nu < 2 ^ 32 := by
  have hup := (hl.shape rfl).resize (Vm.roundup_of_aligned (Vm.roundup_aligned x.sz))
  have hmem := hup.le_phystop (Vm.roundup_aligned _) (Vm.roundup_le hl.size (by decide))
  have hle := Vm.le_roundup x.sz
  have hstop : Vm.PHYSTOP < 2 ^ 32 := by decide
  have hfin := hrep.brk
  have hunits : ∀ t ∈ ts, t.units < 2 ^ 28 := by
    intro t ht
    have := units_le I.start ht
    unfold above sizeofHeader at this
    omega
  refine ⟨fun t ht => (hunits t ht).trans (by decide), ?_⟩
  obtain ⟨L', l, rfl, -, hlu, -⟩ | ⟨-, hlu, -⟩ := last_cases ts
  · have := hunits l (mem_append_right _ mem_cons_self)
    omega
  · omega

end

/-- a program of one page -/
def pageImage : Image := ⟨0x900, 0x1000, by decide, by decide⟩

/-- before its first call of `malloc` -/
def pageHeap : State := ⟨fun _ => ⟨0, 0⟩, 0, 0x1000⟩

end Malloc
