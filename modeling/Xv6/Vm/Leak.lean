import Xv6.Vm.System

/-!
# Counters of references

Without faults of copy-on-write the counter of a page is the number of references to it at any time,
and a page without references is on the free list.

* `refcount_exact`          the counters in a state in which no thread is in the kernel;
* `cow_fault_overcounts`    a fault of copy-on-write leaves the new page with a counter of 2.
-/

namespace Vm
open Run Bytes Prog Own Table

/-- the page-table pages of a record -/
def Proc.tablePages (x : Proc) : Multiset Nat :=
  match x.pagetable with
  | some T => T.sys
  | none => 0

/-- the pages of the user PTEs of a record, one for each PTE -/
def Proc.userPages (x : Proc) : Multiset Nat :=
  match x.pagetable with
  | some T => T.users
  | none => 0

/-- the number of user PTEs that map `pa`, over all page tables -/
def userPtes (s : Sys) (pa : Nat) : Nat := ∑ q, (s.proc q).userPages.count pa

/-- a page the kernel uses for itself: for page tables, trapframes, its stacks and pipes -/
def SystemPage (s : Sys) (pa : Nat) : Prop :=
  (∃ q, pa ∈ (s.proc q).tablePages) ∨ (∃ q, (s.proc q).trapframe = some pa) ∨ pa ∈ s.kernel ∨
    ∃ x ∈ s.pipes, x.pa = pa

instance (s : Sys) (pa : Nat) : Decidable (SystemPage s pa) :=
  inferInstanceAs (Decidable (_ ∨ _ ∨ _ ∨ _))

/-- the event is not a fault of copy-on-write -/
def NoCowFault (c : Config) : Event → Prop
  | .call p (.storeFault stval) => ∀ T, c.sys.userTable p = some T → ¬ CowFault T (PGROUNDDOWN stval)
  | _ => True

section
variable {L : Layout} {s : Sys} {c : Config} {pa : Nat} {x : Proc}

theorem NoCowFault.fits {e : Event} (h : NoCowFault c e) : e.Fits ⟨false, false⟩ c := by
  cases e with
  | call p k =>
    intro T hT
    cases k with
    | storeFault stval => exact .inr (h T hT)
    | _ => exact trivial
  | _ => exact trivial

theorem pages_fileTok (ofile : Fin NOFILE → Option FileNo) : pages (fileTok ofile) = 0 := by
  rw [fileTok, map_sum]
  refine Finset.sum_eq_zero fun fd _ => ?_
  cases ofile fd with
  | none => exact map_zero _
  | some f => exact pages_singleton _

theorem pages_recTok (x : Proc) :
    pages (recTok x) = x.tablePages + x.userPages + pages (frameTokOpt x.trapframe) := by
  rw [recTok, map_add, map_add, pages_fileTok, add_zero]
  unfold Proc.tablePages Proc.userPages
  cases x.pagetable with
  | none => rw [tableTokOpt, map_zero, add_zero]
  | some T => rw [tableTokOpt, tableTok, map_add, pages_map_priv, pages_map_user]

theorem count_pages_slot {q : Slot} (hout : s.out q = false) (hsys : ¬ SystemPage s pa) :
    (pages (slotTok s q)).count pa = (s.proc q).userPages.count pa := by
  have h1 : pa ∉ (s.proc q).tablePages := fun h => hsys (.inl ⟨q, h⟩)
  have h2 : pa ∉ pages (frameTokOpt (s.proc q).trapframe) := by
    intro hm
    cases htf : (s.proc q).trapframe with
    | none =>
      rw [htf, frameTokOpt, map_zero] at hm
      exact Multiset.notMem_zero pa hm
    | some tf =>
      rw [htf, frameTokOpt, pages_singleton] at hm
      exact hsys (.inr (.inl ⟨q, htf.trans (congrArg some (Multiset.mem_singleton.mp hm).symm)⟩))
  have hslot : slotTok s q = recTok (s.proc q) := by
    rw [slotTok, hout]
    rfl
  rw [hslot, pages_recTok, Multiset.count_add, Multiset.count_add,
    Multiset.count_eq_zero_of_notMem h1, Multiset.count_eq_zero_of_notMem h2, Nat.zero_add, Nat.add_zero]

/-- the tokens of the tables of the kernel that name a user page are those of its PTEs -/
theorem count_stored (hout : ∀ q, s.out q = false) (hsys : ¬ SystemPage s pa) :
    (pages (stored s)).count pa = userPtes s pa := by
  have hk : pa ∉ pages ((s.kernel : Multiset Nat).map Token.priv) := by
    rw [pages_map_priv]
    exact fun h => hsys (.inr (.inr (.inl h)))
  have hp : pa ∉ pages ((s.pipes : Multiset Pipe).map fun x => Token.priv x.pa) := by
    intro hm
    obtain ⟨t, ht, hpt⟩ := mem_pages_iff.mp hm
    obtain ⟨x, hx, rfl⟩ := Multiset.mem_map.mp ht
    exact hsys (.inr (.inr (.inr ⟨x, Multiset.mem_coe.mp hx, (Multiset.mem_singleton.mp hpt).symm⟩)))
  have hs : (pages (∑ q, slotTok s q)).count pa = userPtes s pa := by
    rw [map_sum, Multiset.count_sum']
    exact Finset.sum_congr rfl fun q _ => count_pages_slot (hout q) hsys
  rw [stored, map_add, map_add, Multiset.count_add, Multiset.count_add, hs,
    Multiset.count_eq_zero_of_notMem hk, Multiset.count_eq_zero_of_notMem hp, Nat.add_zero]

/-- no thread is in the kernel -/
def Idle (c : Config) : Prop := ∀ i, c.thread i = none

theorem Owned.inv_of_idle {m : Mode} (h : Owned L m c) (hi : Idle c) : Inv L m c.sys 0 := by
  obtain ⟨r, hr⟩ := h
  have hz : ∀ i, r i = 0 := by
    intro i
    have := hr.share i
    rwa [hi i] at this
  have hinv : Inv L m c.sys (∑ i, r i) := hr.inv
  rwa [Finset.sum_eq_zero fun i _ => hz i] at hinv

theorem owned_idle {m : Mode} (h : Inv L m s 0) : Owned L m ⟨s, fun _ => none⟩ := by
  refine ⟨fun _ => 0, ?_, fun i => rfl⟩
  rwa [Finset.sum_const_zero]

theorem Inv.out_of_zero {m : Mode} (h : Inv L m s 0) (q : Slot) : s.out q = false := by
  have := h.slots.out q
  cases ho : s.out q with
  | false => rfl
  | true =>
    rw [ho] at this
    cases this

theorem inv_boot {mem : Nat → Byte} {k : Kmem} {kpages : Nat} {initcode : Buf} {T : Table 2}
    (hk : kinit L mem = .next k)
    (hb : (boot L kpages initcode).run (sem L) (Sys.start k) = .next (T, s))
    (hT : (T.leaf 0).has PTE_V) : Inv L ⟨false, false⟩ s 0 := by
  have h0 : (machine L ⟨false, false⟩).Inv (Sys.start k) (0 + (0 + 0)) := by
    rw [add_zero, add_zero]
    exact inv_start hk
  obtain ⟨r, ⟨hr, -⟩, hinv, -⟩ := (boot_safe rfl).run h0 hb
  rwa [hr hT, add_zero, add_zero] at hinv

/-- **Counters.**  After booting, as long as no fault of copy-on-write is taken: whenever no thread
is in the kernel, the counter of a page that is not one of the kernel's own is the number of user
PTEs that map it, and the page is on the free list if there is none. -/
theorem refcount_exact {mem : Nat → Byte} {k : Kmem} {kpages : Nat} {initcode : Buf} {T : Table 2}
    {es : List Event} (hk : kinit L mem = .next k)
    (hb : (boot L kpages initcode).run (sem L) (Sys.start k) = .next (T, s))
    (hT : (T.leaf 0).has PTE_V) (hes : Along (step L) NoCowFault ⟨s, fun _ => none⟩ es)
    (hc : Run.exec (step L) ⟨s, fun _ => none⟩ es = .next c) (hi : Idle c) (hpa : L.Page pa)
    (hsys : ¬ SystemPage c.sys pa) :
    c.sys.kmem.refOf L pa = userPtes c.sys pa ∧
      (userPtes c.sys pa = 0 → pa ∈ c.sys.kmem.freelist) := by
  have hown : Owned L ⟨false, false⟩ c :=
    exec_inv (Owned L ⟨false, false⟩) (fun c e c' h he hs => h.step rfl he.fits hs)
      (owned_idle (inv_boot hk hb hT)) hes hc
  have hinv := hown.inv_of_idle hi
  have hcount := count_stored hinv.out_of_zero hsys
  have hok := (hinv.kmem.page pa hpa).exact rfl
  rw [zero_add, hcount] at hok
  exact hok

/-! ## runs on a small machine -/

/-- from `kinit` on: the allocator, the first page table, the state after booting, and the
configuration after the events -/
def bootRun (L : Layout) (kpages : Nat) (initcode : Buf) (mem : Nat → Byte) (es : List Event) :
    Outcome (Kmem × Table 2 × Sys × Config) :=
  match kinit L mem with
  | .next k =>
    match (boot L kpages initcode).run (sem L) (Sys.start k) with
    | .next (T, s) =>
      match Run.exec (step L) ⟨s, fun _ => none⟩ es with
      | .next c => .next (k, T, s, c)
      | .panic msg => .panic msg
      | .blocked => .blocked
    | .panic msg => .panic msg
    | .blocked => .blocked
  | .panic msg => .panic msg
  | .blocked => .blocked

theorem bootRun_next {kpages : Nat} {initcode : Buf} {mem : Nat → Byte} {es : List Event} {k : Kmem}
    {T : Table 2} (h : bootRun L kpages initcode mem es = .next (k, T, s, c)) :
    kinit L mem = .next k ∧ (boot L kpages initcode).run (sem L) (Sys.start k) = .next (T, s) ∧
      Run.exec (step L) ⟨s, fun _ => none⟩ es = .next c := by
  unfold bootRun at h
  split at h
  · rename_i k' hk
    split at h
    · rename_i T' s' hb
      split at h
      · rename_i c' hc
        cases h
        exact ⟨hk, hb, hc⟩
      · cases h
      · cases h
    · cases h
    · cases h
  · cases h
  · cases h

def child : Slot := ⟨1, by decide⟩

/-- the first process forks -/
def forkEvents : List Event := .call initproc .fork :: List.replicate 20 (.action (some initproc))

/-- and then its child stores to the page at 0 -/
def faultEvents : List Event :=
  forkEvents ++ .call child (.storeFault 0) :: List.replicate 6 (.action (some child))

theorem idle_of_isNone (h : ∀ i, (c.thread i).isNone) : Idle c :=
  fun i => Option.isNone_iff_eq_none.mp (h i)

/-- the page at 0 of parent and child after the fork: two PTEs, and the counter is 2 -/
theorem refcount_exact_fork : ∃ k T s c, kinit smallLayout (fun _ => 0) = .next k ∧
    (boot smallLayout 3 fun _ => 0).run (sem smallLayout) (Sys.start k) = .next (T, s) ∧
    Run.exec (step smallLayout) ⟨s, fun _ => none⟩ forkEvents = .next c ∧
    userPtes c.sys (PHYSTOP - 72 * PGSIZE) = 2 ∧
    c.sys.kmem.refOf smallLayout (PHYSTOP - 72 * PGSIZE) = userPtes c.sys (PHYSTOP - 72 * PGSIZE) := by
  obtain ⟨⟨k, T, s, c⟩, hrun, hT, hi, hsys, hcount⟩ := exists_of_check
    (o := bootRun smallLayout 3 (fun _ => 0) (fun _ => 0) forkEvents)
    (p := fun x => (x.2.1.leaf 0).has PTE_V ∧ (∀ i, (x.2.2.2.thread i).isNone) ∧
      ¬ SystemPage x.2.2.2.sys (PHYSTOP - 72 * PGSIZE) ∧
      userPtes x.2.2.2.sys (PHYSTOP - 72 * PGSIZE) = 2) (by decide +kernel)
  obtain ⟨hk, hb, hc⟩ := bootRun_next hrun
  have hes : ∀ e ∈ forkEvents, ∀ c, NoCowFault c e := by
    intro e he c
    rcases List.mem_cons.mp he with rfl | he
    · exact trivial
    · rw [List.eq_of_mem_replicate he]
      exact trivial
  exact ⟨k, T, s, c, hk, hb, hc, hcount, (refcount_exact hk hb hT (along_of_mem hes _) hc
    (idle_of_isNone hi) (by decide) hsys).1⟩

/-- after the fault, the copy has one PTE and the counter 2 -/
theorem cow_fault_overcounts : ∃ k T s c, kinit smallLayout (fun _ => 0) = .next k ∧
    (boot smallLayout 3 fun _ => 0).run (sem smallLayout) (Sys.start k) = .next (T, s) ∧
    (T.leaf 0).has PTE_V ∧ Run.exec (step smallLayout) ⟨s, fun _ => none⟩ faultEvents = .next c ∧
    Idle c ∧ smallLayout.Page (PHYSTOP - 81 * PGSIZE) ∧
    ¬ SystemPage c.sys (PHYSTOP - 81 * PGSIZE) ∧ userPtes c.sys (PHYSTOP - 81 * PGSIZE) = 1 ∧
    c.sys.kmem.refOf smallLayout (PHYSTOP - 81 * PGSIZE) = 2 := by
  obtain ⟨⟨k, T, s, c⟩, hrun, hT, hi, hsys, hcount, href⟩ := exists_of_check
    (o := bootRun smallLayout 3 (fun _ => 0) (fun _ => 0) faultEvents)
    (p := fun x => (x.2.1.leaf 0).has PTE_V ∧ (∀ i, (x.2.2.2.thread i).isNone) ∧
      ¬ SystemPage x.2.2.2.sys (PHYSTOP - 81 * PGSIZE) ∧
      userPtes x.2.2.2.sys (PHYSTOP - 81 * PGSIZE) = 1 ∧
      x.2.2.2.sys.kmem.refOf smallLayout (PHYSTOP - 81 * PGSIZE) = 2) (by decide +kernel)
  obtain ⟨hk, hb, hc⟩ := bootRun_next hrun
  exact ⟨k, T, s, c, hk, hb, hT, hc, idle_of_isNone hi, by decide, hsys, hcount, href⟩

end

end Vm
