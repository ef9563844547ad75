import Xv6.Vm.Copyout

/-!
# Store faults

The branch of `usertrap` for store faults takes any address.  It ends well if the fault is one of
copy-on-write and there is a free page, and otherwise only if nothing was to be done.

* `settled_iff`        when the branch settles a fault;
* `faults_unsettled`   an address above `MAXVA`, one without a page-table page and one without a
                       mapping;
* `oom_handled_iff`    the branch has no error path for `kalloc`: without a free page the kernel
                       panics (`oom_panics`).
-/

namespace Vm
open Run Bytes Prog Own Table Multiset Option Bool

variable (L : Layout)

/-- the branch ends without a panic, and the store can be done or the process is marked killed -/
def Settled (s : Sys) (T : Table 2) (x : Proc) (stval : Nat) : Prop :=
  ∃ y t, (usertrapStore T x stval).run (sem L) s = .next (y, t) ∧
    (y.killed = true ∨ ∃ T', y.pagetable = some T' ∧ (T'.leaf (PGROUNDDOWN stval)).has PTE_V ∧
      (T'.leaf (PGROUNDDOWN stval)).has PTE_U ∧ (T'.leaf (PGROUNDDOWN stval)).has PTE_W)

/-- there is a PTE, and it is one of copy-on-write while a page is free, or there is nothing to do -/
structure Settleable (s : Sys) (T : Table 2) (x : Proc) (va : Nat) : Prop where
  low : va < MAXVA
  walked : (T.get va).isSome
  done : (CowFault T va ∧ s.kmem.freelist ≠ []) ∨ (¬ CowFault T va ∧
    (x.killed = true ∨ ((T.leaf va).has PTE_V ∧ (T.leaf va).has PTE_U ∧ (T.leaf va).has PTE_W)))

section
variable {L} {m : Mode} {s t : Sys} {f : Ledger} {T : Table 2} {tf va : Nat} {x : Proc}

/-! ## the run of the branch -/

theorem usertrapStore_high (h : MAXVA ≤ PGROUNDDOWN va) :
    usertrapStore T x va = .panic "walk" := by
  rw [usertrapStore, walk, if_pos h]
  rfl

theorem usertrapStore_none (h : PGROUNDDOWN va < MAXVA) (hg : T.get (PGROUNDDOWN va) = none) :
    usertrapStore T x va = .panic "kerneltrap" := by
  rw [usertrapStore, walk, if_neg (Nat.not_le.mpr h), hg]
  rfl

theorem usertrapStore_skip (h : PGROUNDDOWN va < MAXVA) (hg : (T.get (PGROUNDDOWN va)).isSome)
    (hc : ¬ CowFault T (PGROUNDDOWN va)) : usertrapStore T x va = .ret x := by
  obtain ⟨pte, hpte⟩ := isSome_iff_exists.mp hg
  rw [CowFault, leaf_of_get hpte] at hc
  rw [usertrapStore, walk, if_neg (Nat.not_le.mpr h), hpte]
  simp only [pure_eq, bind_eq, ret_bind]
  rw [if_neg]
  rw [and_eq_true, and_eq_true]
  exact fun h => hc ⟨h.1.1, h.1.2, h.2⟩

theorem usertrapStore_copies {stval mem : Nat} {rest : List Nat} (hva : PGROUNDDOWN stval = va)
    (h : Live L x T tf) (hs : Inv L m s (recTok x + f)) (hmax : va < MAXVA)
    (hg : (T.get va).isSome) (hc : CowFault T va) (hfl : s.kmem.freelist = mem :: rest) :
    ∃ t, (usertrapStore T x stval).run (sem L) s = .next
      ({ x with pagetable := some ((T.put va Pte.zero).put va ((T.leaf va).copied mem)) }, t) := by
  obtain ⟨pte, hpte⟩ := isSome_iff_exists.mp hg
  have hleaf := leaf_of_get hpte
  have ha : va % PGSIZE = 0 := hva ▸ rounddown_mod stval
  have hlt := h.space.lt_trapframe_of_user hmax hc.2.1
  have hfree : mem ∈ s.kmem.freelist := hfl ▸ List.mem_cons_self
  have hdst : ram mem PGSIZE := ram_page (hs.kmem.range mem hfree)
  have hsrc : ram pte.pa PGSIZE := by
    have hmem := mem_recTok_user h.pagetable (mem_users hc.1 hlt)
    have hpage := hs.kmem.owned (T.leaf va).pa (mem_pages_of_mem
      (mem_add.mpr (.inl (mem_add.mpr (.inl hmem)))) (mem_singleton_self _))
    rw [hleaf] at hpage
    exact ram_page hpage
  have hk : (kalloc L s.kmem).1 = some mem := by
    rw [kalloc, hfl]
  have hg' : ((T.put va Pte.zero).get va).isSome := by
    rwa [isSome_get_put]
  have hv' : ((T.put va Pte.zero).leaf va).has PTE_V = false := by
    rw [leaf_put hg (lt_of_maxva hmax) (lt_of_maxva hmax), if_pos rfl]
    exact Pte.zero_has _
  have hcond : (pte.has PTE_V && pte.has PTE_U && pte.has PTE_COW) = true := by
    rw [CowFault, hleaf] at hc
    rw [hc.1, hc.2.1, hc.2.2]
    rfl
  rw [usertrapStore, walk, hva, if_neg (Nat.not_le.mpr hmax), hpte, hleaf]
  simp only [pure_eq, bind_eq, ret_bind]
  rw [if_pos hcond]
  have hkalloc : sem L .kalloc s = .next (some mem, s.setKmem (kalloc L s.kmem).2) := by
    rw [← hk]
    rfl
  have hmove : ∀ u : Sys, sem L (.memmove mem pte.pa PGSIZE) u = .next ((), u.setMem
      (splice u.kmem.mem mem PGSIZE fun i => u.kmem.mem (pte.pa + i))) := fun u =>
    (if_pos hsrc).trans (if_pos hdst)
  refine runs_act hkalloc (runs_act (hmove _) (runs_act rfl ?_))
  rw [getD_some, mappages_present ha hmax hg' hv']
  refine runs_act rfl ?_
  rw [Bool.not_true, Bool.or_false]
  exact ⟨_, rfl⟩

theorem Pte.copied_has_w (p : Pte) (mem : Nat) : (p.copied mem).has PTE_W := by
  rw [p.copied_has mem (by decide), Bool.or_assoc]
  exact or_eq_true_iff.mpr (.inr (by decide))

/-! ## when a fault is settled -/

theorem Settled.low {stval : Nat} (h : Settled L s T x stval) : PGROUNDDOWN stval < MAXVA := by
  obtain ⟨y, t, hrun, -⟩ := h
  by_contra hc
  rw [usertrapStore_high (Nat.le_of_not_lt hc)] at hrun
  cases hrun

theorem Settled.walked {stval : Nat} (h : Settled L s T x stval) :
    (T.get (PGROUNDDOWN stval)).isSome := by
  have hmax := h.low
  obtain ⟨y, t, hrun, -⟩ := h
  cases hg : T.get (PGROUNDDOWN stval) with
  | some pte => rfl
  | none =>
    rw [usertrapStore_none hmax hg] at hrun
    cases hrun

theorem usertrapStore_oom {stval : Nat} (hmax : PGROUNDDOWN stval < MAXVA)
    (hg : (T.get (PGROUNDDOWN stval)).isSome) (hc : CowFault T (PGROUNDDOWN stval))
    (hfl : s.kmem.freelist = []) :
    (usertrapStore T x stval).run (sem L) s = .panic "kerneltrap" := by
  obtain ⟨pte, hpte⟩ := isSome_iff_exists.mp hg
  have hnone : (kalloc L s.kmem).1 = none := by
    rw [kalloc, hfl]
  have hkalloc : sem L .kalloc s = .next (none, s.setKmem (kalloc L s.kmem).2) := by
    rw [← hnone]
    rfl
  have hmove : ∀ u : Sys, sem L (.memmove 0 pte.pa PGSIZE) u = .panic "kerneltrap" := by
    intro u
    show (if ram pte.pa PGSIZE then touch 0 PGSIZE _ else _) = _
    split
    · exact if_neg (by decide)
    · rfl
  rw [CowFault, leaf_of_get hpte] at hc
  rw [usertrapStore, walk, if_neg (Nat.not_le.mpr hmax), hpte]
  simp only [pure_eq, bind_eq, ret_bind]
  rw [if_pos (by rw [hc.1, hc.2.1, hc.2.2]; rfl)]
  show (Prog.act Op.kalloc _).run (sem L) s = _
  rw [run_act_next hkalloc]
  show (Prog.act (Op.memmove 0 pte.pa PGSIZE) _).run (sem L) _ = _
  simp only [run, hmove]

theorem Settled.freelist {stval : Nat} (h : Settled L s T x stval)
    (hc : CowFault T (PGROUNDDOWN stval)) : s.kmem.freelist ≠ [] := by
  intro hfl
  have hpanic := usertrapStore_oom (L := L) (x := x) h.low h.walked hc hfl
  obtain ⟨y, t, hrun, -⟩ := h
  cases hpanic.symm.trans hrun

/-- **Store faults.**  In any state of the kernel, the branch settles a store fault of the process
with the record `x` exactly if there is a PTE and either the page is one of copy-on-write and a page
is free, or it is not and the store could be done or the process was killed already. -/
theorem settled_iff {stval : Nat} (h : Live L x T tf) (hs : Inv L m s (recTok x + f)) :
    Settled L s T x stval ↔ Settleable s T x (PGROUNDDOWN stval) := by
  constructor
  · intro hset
    refine ⟨hset.low, hset.walked, ?_⟩
    by_cases hc : CowFault T (PGROUNDDOWN stval)
    · exact .inl ⟨hc, hset.freelist hc⟩
    · refine .inr ⟨hc, ?_⟩
      have hskip := usertrapStore_skip (x := x) hset.low hset.walked hc
      obtain ⟨y, t, hrun, hend⟩ := hset
      rw [hskip] at hrun
      cases hrun
      rcases hend with hk | ⟨T', hT', hleaf⟩
      · exact .inl hk
      · cases h.pagetable.symm.trans hT'
        exact .inr hleaf
  · intro hset
    rcases hset.done with ⟨hc, hfl⟩ | ⟨hc, hdone⟩
    · obtain ⟨mem, rest, hfl⟩ := List.exists_cons_of_ne_nil hfl
      obtain ⟨t, hrun⟩ := usertrapStore_copies rfl h hs hset.low hset.walked hc hfl
      have h39 := lt_of_maxva hset.low
      refine ⟨_, t, hrun, .inr ⟨_, rfl, ?_⟩⟩
      rw [(moved_put hset.walked hset.low).here _ h39 rfl]
      exact ⟨Pte.copied_has_v _ _, Pte.copied_has_u _ hc.2.1, Pte.copied_has_w _ _⟩
    · refine ⟨x, s, ?_, ?_⟩
      · rw [usertrapStore_skip hset.low hset.walked hc]
        rfl
      · rcases hdone with hk | hleaf
        · exact .inl hk
        · exact .inr ⟨T, h.pagetable, hleaf⟩

theorem child_fault : ∃ s w T tf m f, Booted s ∧
    Run.exec (watch smallLayout) ⟨s, view s⟩ [.fork initproc] = .next w ∧
    w.sys.userTable child = some T ∧ Live smallLayout (w.sys.proc child) T tf ∧
    Inv smallLayout m (w.sys.setOut child true (w.sys.proc child)) (recTok (w.sys.proc child) + f) ∧
    (T.get 0).isSome ∧ CowFault T 0 ∧ w.sys.kmem.freelist ≠ [] := by
  obtain ⟨s, hb, hwell, hw⟩ := booted_of_check
    (p := fun s => (Run.exec (watch smallLayout) ⟨s, view s⟩ [.fork initproc]).check
        (fun w : Watched => (w.sys.userTable child).isSome ∧ w.sys.kmem.freelist.isEmpty = false ∧
          ∀ T ∈ w.sys.userTable child, (T.get 0).isSome ∧
            (T.leaf 0).has PTE_V ∧ (T.leaf 0).has PTE_U ∧ (T.leaf 0).has PTE_COW)) (by decide +kernel)
  obtain ⟨w, hw, hsome, hfl, hall⟩ := exists_of_check hw
  obtain ⟨T', hT'⟩ := isSome_iff_exists.mp hsome
  obtain ⟨hg, hcow⟩ := hall T' hT'
  have hfork : ∀ e ∈ [Access.fork initproc], ∀ w : Watched, Unshared w.sys e := by
    intro e he w
    rw [List.mem_singleton.mp he]
    exact trivial
  have hwell := (watch_run hwell (along_of_mem hfork _) hw).1
  obtain ⟨tf, hlive⟩ := userTable_live hwell.inv hT'
  obtain ⟨-, hi⟩ := hwell.inv.enter hT' hlive.trapframe
  rw [add_comm {Token.slot child}, add_assoc] at hi
  refine ⟨s, w, T', tf, _, _, hb, hw, hT', hlive, hi, hg, hcow, fun hnil => ?_⟩
  rw [hnil] at hfl
  cases hfl

/-- the page at 0 of the child of the first process -/
theorem settled_iff_child : ∃ s w T, Booted s ∧
    Run.exec (watch smallLayout) ⟨s, view s⟩ [.fork initproc] = .next w ∧
    w.sys.userTable child = some T ∧
    Settled smallLayout (w.sys.setOut child true (w.sys.proc child)) T (w.sys.proc child) 0 := by
  obtain ⟨s, w, T, tf, m, f, hb, hw, hT, hlive, hi, hg, hcow, hfl⟩ := child_fault
  exact ⟨s, w, T, hb, hw, hT, (settled_iff hlive hi).mpr ⟨by decide, hg, .inl ⟨hcow, hfl⟩⟩⟩

/-- the first process stores to `MAXVA`, to an address without a page-table page, and to one without
a mapping: a panic of `walk`, a null pointer, and the same fault again -/
theorem faults_unsettled : ∃ s T, Booted s ∧ s.userTable initproc = some T ∧
    (usertrapStore T (s.proc initproc) MAXVA).run (sem smallLayout) s = .panic "walk" ∧
    (usertrapStore T (s.proc initproc) (2 ^ 30)).run (sem smallLayout) s = .panic "kerneltrap" ∧
    (usertrapStore T (s.proc initproc) PGSIZE).run (sem smallLayout) s = .next (s.proc initproc, s) ∧
    (s.proc initproc).killed = false ∧ (T.leaf PGSIZE).has PTE_V = false := by
  obtain ⟨s, hb, -, hsome, hkilled, hall⟩ := booted_of_check
    (p := fun s => (s.userTable initproc).isSome ∧ (s.proc initproc).killed = false ∧
      ∀ T ∈ s.userTable initproc, (T.get (2 ^ 30)).isNone ∧ (T.get PGSIZE).isSome ∧
        (T.leaf PGSIZE).has PTE_V = false) (by decide +kernel)
  obtain ⟨T', hT'⟩ := Option.isSome_iff_exists.mp hsome
  obtain ⟨hnone, hg, hV⟩ := hall T' hT'
  refine ⟨s, T', hb, hT', ?_, ?_, ?_, hkilled, hV⟩
  · rw [usertrapStore_high (by decide)]
    rfl
  · rw [usertrapStore_none (by decide) (Option.isNone_iff_eq_none.mp hnone)]
    rfl
  · rw [usertrapStore_skip (by decide) hg]
    · rfl
    · intro hc
      rw [CowFault, rounddown_aligned (rfl : PGSIZE % PGSIZE = 0), hV] at hc
      cases hc.1

/-! ## a fault without a free page -/

/-- when `kalloc` fails the branch marks the process killed and changes nothing else -/
def OomHandled (L : Layout) (s : Sys) (T : Table 2) (x : Proc) (stval : Nat) : Prop :=
  (kalloc L s.kmem).1 = none →
    ∃ y t, (usertrapStore T x stval).run (sem L) s = .next (y, t) ∧ y.killed = true ∧
      y.pagetable = x.pagetable ∧ t.kmem.mem = s.kmem.mem ∧ t.kmem.ref = s.kmem.ref

/-- **Copy-on-write without memory.**  In any state of the kernel, for a fault of copy-on-write the
branch is right about a failing `kalloc` only if `kalloc` does not fail: without a free page it always
ends in a panic of `kerneltrap`, and with one the process goes on, with a copy of its own. -/
theorem oom_handled_iff {stval : Nat} (h : Live L x T tf) (hs : Inv L m s (recTok x + f))
    (hmax : PGROUNDDOWN stval < MAXVA) (hg : (T.get (PGROUNDDOWN stval)).isSome)
    (hc : CowFault T (PGROUNDDOWN stval)) :
    (OomHandled L s T x stval ↔ s.kmem.freelist ≠ []) ∧
    (s.kmem.freelist = [] → (usertrapStore T x stval).run (sem L) s = .panic "kerneltrap") ∧
    (s.kmem.freelist ≠ [] → ∃ y t, (usertrapStore T x stval).run (sem L) s = .next (y, t) ∧
      y.killed = x.killed) := by
  refine ⟨⟨fun hh hfl => ?_, fun hfl hk => ?_⟩, usertrapStore_oom hmax hg hc, fun hfl => ?_⟩
  · have hnone : (kalloc L s.kmem).1 = none := by
      unfold kalloc
      rw [hfl]
    obtain ⟨y, t, hrun, -⟩ := hh hnone
    cases (usertrapStore_oom hmax hg hc hfl).symm.trans hrun
  · obtain ⟨mem, rest, hfl⟩ := List.exists_cons_of_ne_nil hfl
    unfold kalloc at hk
    rw [hfl] at hk
    cases hk
  · obtain ⟨mem, rest, hfl⟩ := List.exists_cons_of_ne_nil hfl
    obtain ⟨t, hrun⟩ := usertrapStore_copies rfl h hs hmax hg hc hfl
    exact ⟨_, t, hrun, rfl⟩

theorem oom_handled_iff_child : ∃ s w T, Booted s ∧
    Run.exec (watch smallLayout) ⟨s, view s⟩ [.fork initproc] = .next w ∧
    w.sys.userTable child = some T ∧
    OomHandled smallLayout (w.sys.setOut child true (w.sys.proc child)) T (w.sys.proc child) 0 := by
  obtain ⟨s, w, T, tf, m, f, hb, hw, hT, hlive, hi, hg, hcow, hfl⟩ := child_fault
  have hlow : PGROUNDDOWN 0 < MAXVA := by decide
  exact ⟨s, w, T, hb, hw, hT, (oom_handled_iff hlive hi hlow hg hcow).1.mpr hfl⟩

/-- a kernel image that leaves 80 pages: none is free after the first `fork` -/
def tightLayout : Layout :=
  { smallLayout with
    kend := PHYSTOP - 80 * PGSIZE
    trampoline_lt := by decide
    kend_le := by decide }

/-- the child of the first process stores to its page at 0 when no page is free -/
theorem oom_panics : ∃ k T s w T', kinit tightLayout (fun _ => 0) = .next k ∧
    (boot tightLayout 3 fun _ => 0).run (sem tightLayout) (Sys.start k) = .next (T, s) ∧
    Run.exec (watch tightLayout) ⟨s, view s⟩ [.fork initproc] = .next w ∧
    w.sys.userTable child = some T' ∧ CowFault T' 0 ∧ (kalloc tightLayout w.sys.kmem).1 = none ∧
    (usertrapStore T' (w.sys.proc child) 0).run (sem tightLayout) w.sys = .panic "kerneltrap" := by
  obtain ⟨⟨k, T, s, c⟩, hrun, hw⟩ := exists_of_check
    (o := bootRun tightLayout 3 (fun _ => 0) (fun _ => 0) [])
    (p := fun x : Kmem × Table 2 × Sys × Config =>
      (Run.exec (watch tightLayout) ⟨x.2.2.1, view x.2.2.1⟩ [.fork initproc]).check
        (fun w : Watched => (w.sys.userTable child).isSome ∧ w.sys.kmem.freelist = [] ∧
          ∀ T ∈ w.sys.userTable child, (T.get 0).isSome ∧
            (T.leaf 0).has PTE_V ∧ (T.leaf 0).has PTE_U ∧ (T.leaf 0).has PTE_COW)) (by decide +kernel)
  obtain ⟨hk, hb, -⟩ := bootRun_next hrun
  obtain ⟨w, hw, hsome, hfl, hall⟩ := exists_of_check hw
  obtain ⟨T', hT'⟩ := Option.isSome_iff_exists.mp hsome
  obtain ⟨hg, hcow⟩ := hall T' hT'
  refine ⟨k, T, s, w, T', hk, hb, hw, hT', hcow, ?_, ?_⟩
  · unfold kalloc
    rw [hfl]
  · apply usertrapStore_oom (by decide) _ _ hfl
    · exact hg
    · exact hcow

end

end Vm
