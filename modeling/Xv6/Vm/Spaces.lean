import Xv6.Vm.Leak

/-!
# The shape of address spaces

From the first process on, every process has its user memory mapped page by page up to its size, its
trapframe and the trampoline above it, and nothing else.

* `inv_boot_shape`       the first process;
* `Space.mapped_iff`     what is mapped in an address space of a given size;
* `address_spaces`       every process in every reachable state, and the panics of `vm.c` that cannot
                         happen therefore.
-/

namespace Vm
open Run Bytes Prog Own Table

section
variable {L : Layout} {s : Sys} {c : Config} {T : Table 2} {tf : Nat}

/-! ## the first process -/

variable {mem : Nat → Byte} {k : Kmem}

theorem userinit_begin {kpages : Nat} (hk : kinit L mem = .next k) {t s1 : Sys} {q : Slot} {u : PUnit}
    (h1 : (kvminit kpages).run (sem L) (Sys.start k) = .next (u, s1))
    (h2 : (allocproc L).run (sem L) s1 = .next (some (q, T, tf), t)) :
    ∃ r, Fresh L q T tf r ∧ Inv L ⟨true, false⟩ t r true := by
  have h0 : (machine L ⟨true, false⟩ true).Inv (Sys.start k) (0 + (0 + 0)) := by
    rw [add_zero, add_zero]
    exact inv_start hk
  obtain ⟨r, rfl, hi, -⟩ := kvminit_safe.run h0 h1
  obtain ⟨r, hr, hi', -⟩ := allocproc_safe.run hi h2
  rw [add_zero, add_zero] at hi'
  exact ⟨r, hr, hi'⟩

theorem inv_boot_shape {kpages : Nat} {initcode : Buf} (hk : kinit L mem = .next k)
    (hb : (boot L kpages initcode).run (sem L) (Sys.start k) = .next (T, s))
    (hT : (T.leaf 0).has PTE_V) : Inv L ⟨true, false⟩ s 0 true := by
  obtain ⟨u, s1, h1, h2⟩ := run_bind hb
  obtain ⟨o, s2, h2, h3⟩ := run_bind h2
  match o with
  | none => cases h3
  | some (q, T0, tf) =>
    obtain ⟨r, hr, hi⟩ := userinit_begin hk h1 h2
    obtain ⟨-, hS, hblank⟩ := id hr
    obtain ⟨T', s3, h3, h4⟩ := run_bind h3
    -- what is returned is the table that `uvmfirst` left
    obtain rfl : T = T' := by
      obtain ⟨x1, t1, -, h5⟩ := run_act h4
      obtain ⟨x2, t2, -, h5⟩ := run_act h5
      obtain ⟨x3, t3, -, h5⟩ := run_act h5
      cases h5
      rfl
    have hi0 : (machine L ⟨true, false⟩ true).Inv s2 (tableTok T0 + (0 + ({.slot q} + {.priv tf}))) := by
      rwa [zero_add, ← fresh_tok hr]
    obtain ⟨_, ⟨X, rfl, hS', hX, -, hshape⟩, hi3, -⟩ :=
      (uvmfirst_safe rfl hS hblank.leaf_zero fun _ => hblank.shape).run hi0 h3
    obtain rfl := hX hT
    have hi3' : (machine L ⟨true, false⟩ true).Inv s3
        (tableTok T + 0 + ({.slot q} + {.priv tf}) + (0 + 0)) := by
      have e : tableTok T + 0 + ({.slot q} + {.priv tf}) + (0 + 0)
          = tableTok T + 0 + (0 + ({.slot q} + {.priv tf})) := by abel
      rwa [e]
    obtain ⟨r, ⟨-, rfl⟩, hi4, -⟩ := (userinitEnd_safe rfl hS' fun hs => hshape hs hT).run hi3' h4
    rwa [add_zero, add_zero] at hi4

/-! ## what is mapped -/

/-- the page of `va` is one of the two above user memory -/
def UpperPage (va : Nat) : Prop := va / PGSIZE = TRAPFRAME / PGSIZE ∨ va / PGSIZE = TRAMPOLINE / PGSIZE

theorem Space.mapped_iff {sz va : Nat} (h : Space L tf T) (hsh : Shape L T sz) (hsz : sz ≤ TRAPFRAME)
    (hva : va < 2 ^ 39) : (T.leaf va).has PTE_V = true ↔ va < PGROUNDUP sz ∨ UpperPage va := by
  have hup := roundup_le hsz (by decide)
  by_cases hlow : va < TRAPFRAME
  · have hnot : ¬ UpperPage va := by
      intro hc
      rcases hc with e | e
      · exact trapframe_lt hlow le_rfl e
      · exact trapframe_lt hlow (by decide) e
    rw [hsh.mapped va hlow, or_iff_left hnot]
  rw [or_iff_right (by omega)]
  refine ⟨fun hv => ?_, fun hu => ?_⟩
  · have hmax : va < MAXVA := by
      by_contra hc
      rw [h.high va (Nat.le_of_not_lt hc) hva] at hv
      cases hv
    simp only [UpperPage, TRAPFRAME, TRAMPOLINE, MAXVA, PGSIZE] at *
    omega
  · rcases hu with e | e
    · rw [leaf_page hva (by decide) e, h.trapframe, Pte.has, Pte.ofPa_flags]
      decide
    · rw [leaf_page hva (by decide) e, h.trampoline, Pte.has, Pte.ofPa_flags]
      decide

/-! ## every process -/

theorem owned_shape {kpages : Nat} {initcode : Buf} {es : List Event} (hk : kinit L mem = .next k)
    (hb : (boot L kpages initcode).run (sem L) (Sys.start k) = .next (T, s))
    (hT : (T.leaf 0).has PTE_V)
    (hc : Run.exec (step L) ⟨s, fun _ => none⟩ es = .next c) : Owned L ⟨true, false⟩ c true := by
  refine exec_inv (fun c => Owned L ⟨true, false⟩ c true)
    (fun _ e _ h _ hs => h.step rfl (fits_leaky e) hs) ?_ (along_of_forall (fun _ _ => trivial) _ _) hc
  refine ⟨fun _ => 0, ?_, fun i => rfl⟩
  rw [Finset.sum_const_zero]
  exact inv_boot_shape hk hb hT

/-- **The shape of address spaces.**  In every state that can be reached after the first process was
made, a process that is not in the middle of a system call has mapped: the pages below its size rounded
up, each to a page of its own, the trapframe and the trampoline.  No event ends in one of the panics
about what is mapped, in whatever system calls processes are at that time. -/
theorem address_spaces {mem : Nat → Byte} {k : Kmem} {kpages : Nat} {initcode : Buf} {es : List Event}
    (hk : kinit L mem = .next k)
    (hb : (boot L kpages initcode).run (sem L) (Sys.start k) = .next (T, s))
    (hT : (T.leaf 0).has PTE_V)
    (hc : Run.exec (step L) ⟨s, fun _ => none⟩ es = .next c) :
    (∀ p, c.sys.out p = false → (c.sys.proc p).state = .runnable ∨ (c.sys.proc p).state = .zombie →
      (c.sys.proc p).sz ≤ TRAPFRAME ∧ ∃ T, (c.sys.proc p).pagetable = some T ∧
        (∀ va, va < 2 ^ 39 →
          ((T.leaf va).has PTE_V = true ↔ va < PGROUNDUP (c.sys.proc p).sz ∨ UpperPage va)) ∧
        ∀ va vb, va < PGROUNDUP (c.sys.proc p).sz → vb < PGROUNDUP (c.sys.proc p).sz →
          (T.leaf va).pa = (T.leaf vb).pa → va / PGSIZE = vb / PGSIZE) ∧
      ∀ e, ∀ msg ∈ ["uvmunmap: walk", "uvmunmap: not mapped", "uvmunmap: not a leaf", "freewalk: leaf",
        "mappages: remap", "uvmcopy: pte should exist", "uvmcopy: page not present"],
        step L c e ≠ .panic msg := by
  have hown := owned_shape hk hb hT hc
  refine ⟨fun p hout hst => ?_, fun e msg hmsg => hown.ne_panic (.inr ⟨rfl, hmsg⟩) e⟩
  obtain ⟨r, hr⟩ := hown
  have hinv : Inv L ⟨true, false⟩ c.sys (∑ i, r i) true := hr.inv
  have hok := hinv.slots.ok p hout
  obtain ⟨T, tf, hp, -, hS, hsz⟩ := hok.space hst
  have hsh := hok.shape rfl hst T hp
  have hup := roundup_le hsz (by decide)
  refine ⟨hsz, T, hp, fun va hva => hS.mapped_iff hsh hsz hva, fun va vb ha hb e => ?_⟩
  have hmapped : ∀ v, v < PGROUNDUP (c.sys.proc p).sz → (T.leaf v).has PTE_V = true :=
    fun v hv => (hsh.mapped v (by omega)).mpr hv
  exact hsh.inj va vb (by omega) (by omega) (hmapped va ha) (hmapped vb hb) e

/-- the child after a fork and a store fault: its page at 0 is mapped, that at 4096 is not -/
theorem address_spaces_fork : ∃ k T s c Tc, kinit smallLayout (fun _ => 0) = .next k ∧
    (boot smallLayout 3 fun _ => 0).run (sem smallLayout) (Sys.start k) = .next (T, s) ∧
    Run.exec (step smallLayout) ⟨s, fun _ => none⟩ faultEvents = .next c ∧
    (c.sys.proc child).sz = PGSIZE ∧ (c.sys.proc child).pagetable = some Tc ∧
    (Tc.leaf 0).has PTE_V = true ∧ ¬ (Tc.leaf PGSIZE).has PTE_V = true := by
  obtain ⟨⟨k, T, s, c⟩, hrun, hT, hout, hst, hsz⟩ := exists_of_check
    (o := bootRun smallLayout 3 (fun _ => 0) (fun _ => 0) faultEvents)
    (p := fun x => (x.2.1.leaf 0).has PTE_V ∧ x.2.2.2.sys.out child = false ∧
      (x.2.2.2.sys.proc child).state = .runnable ∧ (x.2.2.2.sys.proc child).sz = PGSIZE) (by decide +kernel)
  obtain ⟨hk, hb, hc⟩ := bootRun_next hrun
  obtain ⟨-, Tc, hp, hmapped, -⟩ := (address_spaces hk hb hT hc).1 child hout (.inl hst)
  have hsz' : (c.sys.proc child).sz = PGSIZE := hsz
  rw [hsz'] at hmapped
  refine ⟨k, T, s, c, Tc, hk, hb, hc, hsz, hp, (hmapped 0 (by decide)).mpr (.inl (by decide)), fun hv => ?_⟩
  rcases (hmapped PGSIZE (by decide)).mp hv with h | h
  · exact absurd h (by decide)
  · rcases h with h | h <;> exact absurd h (by decide)

end

end Vm
