import Xv6.Vm.Fault

/-!
# Write permission after `fork` and store faults

Processes fork and store as in `Vm.Isolation`.  Beside the state are the flags that every page had
in the address space from which the process descends (`Traced`).

* `permission_kept`       as long as no page is copied that was not writable there, a page is
                          writable only if it was, and one that was is writable or can be copied;
* `text_made_writable`    `uvmcopy` marks pages of the program text with `PTE_COW` too, so that a store
                          of the child makes its copy writable.
-/

namespace Vm
open Run Bytes Prog Own Table Function

variable (L : Layout)

/-- the state, and the flags that the pages had in the beginning -/
structure Traced where
  sys : Sys
  origin : Slot → Nat → BitVec 10

/-- a child has what its parent has -/
def handDown {α : Type} (e : Slot → α) (p : Slot) : Option Slot → Slot → α
  | some q => Function.update e q (e p)
  | none => e

def track (w : Traced) : Access → Outcome Traced
  | .fork p => (forkAlone L w.sys p).map fun x => ⟨x.2, handDown w.origin p x.1⟩
  | .store p va b => (storeAlone L w.sys p va b).map fun x => ⟨x.2, w.origin⟩

/-- the flags of the page with the number `n` -/
def flagsOf (s : Sys) (q : Slot) (n : Nat) : BitVec 10 :=
  match s.userTable q with
  | some T => (T.leaf (n * PGSIZE)).flags
  | none => 0

/-- a page that a store fault copies was writable in the beginning -/
def CopiesWritable (w : Traced) : Access → Prop
  | .fork _ => True
  | .store p va _ => ∀ T ∈ w.sys.userTable p, storeAddr T va = none → (T.leaf (PGROUNDDOWN va)).has PTE_V →
      (T.leaf (PGROUNDDOWN va)).has PTE_U → (T.leaf (PGROUNDDOWN va)).has PTE_COW →
      w.origin p (va / PGSIZE) &&& PTE_W ≠ 0

instance (w : Traced) (e : Access) : Decidable (CopiesWritable w e) :=
  match e with
  | .fork _ => inferInstanceAs (Decidable True)
  | .store p _ _ => inferInstanceAs (Decidable (∀ T ∈ w.sys.userTable p, _))

/-- a program with one page of text and nothing in it: the ELF header and a program header with the
flags R and X and a page of memory -/
def textByte : Nat → Byte
  | 0 => 0x7f
  | 1 => 0x45
  | 2 => 0x4c
  | 3 => 0x46
  | 32 => 64
  | 56 => 1
  | 64 => 1
  | 68 => 5
  | 105 => 0x10
  | _ => 0

def textFile : Inode := fun off n => (n, fun i => textByte (off + i))

/-- the process `p` calls `exec` -/
def execAlone (s : Sys) (p : Slot) (ip : Inode) : Outcome Sys :=
  match s.userTable p, (s.proc p).trapframe with
  | some T, some tf =>
    ((kernelThread L p (s.proc p) T tf (.exec true 0 (some ip))).run (sem L)
      (s.setOut p true (s.proc p))).map fun x => x.2
  | _, _ => .blocked

/-- the PTE `p` of a page that had the flags `f` -/
structure Permitted (f : BitVec 10) (p : Pte) : Prop where
  valid : f &&& PTE_V ≠ 0 → p.has PTE_V
  user : p.has PTE_U = (f &&& PTE_U != 0)
  write : p.has PTE_W → f &&& PTE_W ≠ 0
  stays : f &&& PTE_W ≠ 0 → p.has PTE_W ∨ p.has PTE_COW

/-- the pages of all processes -/
def AllPermitted (w : Traced) : Prop := ∀ q T, w.sys.userTable q = some T → ∀ va, va < (w.sys.proc q).sz →
  Permitted (w.origin q (va / PGSIZE)) (T.leaf va)

section
variable {L} {s t : Sys} {T : Table 2} {tf va : Nat} {p q : Slot} {o : Option Slot}

theorem permitted_self (p : Pte) : Permitted p.flags p := by
  refine ⟨fun h => ?_, rfl, fun h => ?_, fun h => .inl ?_⟩
  · exact bne_iff_ne.mpr h
  · exact bne_iff_ne.mp h
  · exact bne_iff_ne.mpr h

theorem Pte.shared_has_cow (p : Pte) : p.shared.has PTE_COW := by
  rw [p.shared_has (by decide), Bool.or_assoc]
  exact Bool.or_eq_true_iff.mpr (.inr (by decide))

theorem Pte.shared_has_w (p : Pte) : p.shared.has PTE_W = false := by
  rw [Pte.has, Pte.shared, Pte.ofPa_flags, flags_or, flags_drop _ (by decide)]
  decide

theorem Permitted.shared {f : BitVec 10} {p : Pte} (h : Permitted f p) : Permitted f p.shared := by
  refine ⟨fun _ => p.shared_has_v, ?_, fun hw => ?_, fun _ => .inr p.shared_has_cow⟩
  · rw [Pte.shared_has_u]
    exact h.user
  · rw [Pte.shared_has_w] at hw
    cases hw

theorem Permitted.copied {f : BitVec 10} {p : Pte} (h : Permitted f p) (hu : p.has PTE_U)
    (hf : f &&& PTE_W ≠ 0) (mem : Nat) : Permitted f (p.copied mem) := by
  refine ⟨fun _ => p.copied_has_v mem, ?_, fun _ => hf, fun _ => .inl (p.copied_has_w mem)⟩
  rw [← h.user, hu]
  exact Pte.copied_has_u mem hu

/-! ## the tables after an event -/

theorem forkAlone_table {Tq : Table 2} (hs : WellFormed L s) (h : forkAlone L s p = .next (o, t))
    (hTq : t.userTable q = some Tq) :
    (o = some q ∧ ∃ T, s.userTable p = some T ∧ Shared T Tq (s.proc p).sz ∧
        (t.proc q).sz = (s.proc p).sz ∧ (s.proc p).sz ≤ TRAPFRAME) ∨
      (o ≠ some q ∧ s.userTable q = some Tq ∧ (t.proc q).sz = (s.proc q).sz) := by
  obtain ⟨T, tf, w, hT, hlive, -, hk, hcase⟩ := forkAlone_cases hs h
  have hself : ∀ u : Sys, (u.setOut p false (s.proc p)).userTable p = some T := fun u =>
    (userTable_setOut_self hlive.state).trans hlive.pagetable
  -- the parent, and the processes that are not concerned
  have hold : ∀ u : Sys, (u.setOut p false (s.proc p)).userTable q = some Tq →
      (q ≠ p → u.userTable q = w.userTable q ∧ u.proc q = w.proc q) →
      s.userTable q = some Tq ∧ ((u.setOut p false (s.proc p)).proc q).sz = (s.proc q).sz := by
    intro u hu hw
    by_cases hq : q = p
    · subst hq
      cases (hself u).symm.trans hu
      rw [setOut_proc_self]
      exact ⟨hT, rfl⟩
    · obtain ⟨h1, h2⟩ := hw hq
      obtain ⟨h3, h4⟩ := kept_userTable hs hk hq
      rw [userTable_setOut hq, h1, h3] at hu
      rw [setOut_proc_of_ne hq, h2, h4 Tq hu]
      exact ⟨hu, rfl⟩
  rcases hcase with ⟨rfl, rfl⟩ | ⟨j, Tj, tfj, rfl, hjp, hsh, rfl⟩
  · exact .inr ⟨nofun, hold w hTq fun _ => ⟨rfl, rfl⟩⟩
  by_cases hq : q = j
  · subst hq
    rw [userTable_setOut hjp] at hTq
    cases userTable_child.symm.trans hTq
    refine .inl ⟨rfl, T, hT, hsh, ?_, hlive.size⟩
    rw [setOut_proc_of_ne hjp, setOut_proc_self]
    rfl
  · refine .inr ⟨fun e => hq (Option.some.inj e).symm, hold _ hTq fun _ => ⟨?_, ?_⟩⟩
    · rw [userTable_setOut hq]
      rfl
    · rw [setOut_proc_of_ne hq]

theorem storeAlone_table {Tq : Table 2} {b : Byte} {d : Bool} (hs : WellFormed L s)
    (h : storeAlone L s p va b = .next (d, t)) (hTq : t.userTable q = some Tq) :
    (t.proc q).sz = (s.proc q).sz ∧ (s.userTable q = some Tq ∨ (q = p ∧ ∃ T mem, s.userTable p = some T ∧
      storeAddr T va = none ∧ PGROUNDDOWN va < MAXVA ∧ CowFault T (PGROUNDDOWN va) ∧
      Moved T Tq (PGROUNDDOWN va) mem)) := by
  obtain ⟨T, tf, hT, htf, ⟨a, -, -, rfl⟩ | ⟨hstore, -, h1⟩⟩ := storeAlone_cases h
  · exact ⟨rfl, .inl hTq⟩
  obtain ⟨hlive, -⟩ := hs.inv.enter hT htf
  rcases fault_cases hs hT hlive h1 with rfl | ⟨mem, u, hmax, hcow, hc, T', hm, rfl⟩
  · exact ⟨rfl, .inl hTq⟩
  by_cases hq : q = p
  · subst hq
    have hrun : ({ s.proc q with pagetable := some T' } : Proc).state = .runnable := hlive.state
    cases (userTable_setOut_self hrun).symm.trans hTq
    rw [setOut_proc_self]
    exact ⟨rfl, .inr ⟨rfl, T, mem, hT, hstore, hmax, hcow, hm⟩⟩
  · have htable : (u.setOut p false { s.proc p with pagetable := some T' }).userTable q
        = s.userTable q := by
      rw [userTable_setOut hq, ← userTable_setOut (s := s) hq]
      unfold Sys.userTable
      rw [hc.proc, hc.out]
    rw [setOut_proc_of_ne hq, hc.proc, setOut_proc_of_ne hq]
    exact ⟨rfl, .inl (htable.symm.trans hTq)⟩

/-! ## runs -/

theorem page_rounddown (va : Nat) : PGROUNDDOWN va / PGSIZE = va / PGSIZE :=
  Nat.mul_div_cancel _ (by decide)

theorem AllPermitted.fork {w : Traced} (hs : WellFormed L w.sys) (hw : AllPermitted w)
    (h : forkAlone L w.sys p = .next (o, t)) : AllPermitted ⟨t, handDown w.origin p o⟩ := by
  intro q Tq hTq va hva
  rcases forkAlone_table hs h hTq with ⟨rfl, T, hT, hsh, hsz, hmax⟩ | ⟨hne, hTq', hsz⟩
  · show Permitted (update w.origin q (w.origin p) q (va / PGSIZE)) (Tq.leaf va)
    rw [update_self]
    replace hva : va < (w.sys.proc p).sz := hsz ▸ hva
    obtain ⟨N0, -, hc⟩ := hsh
    have hend := lt_of_lt_of_le hva (le_pages (w.sys.proc p).sz)
    have h39 : TRAPFRAME < 2 ^ 39 := by decide
    rw [hc.leaf va (by omega), if_pos ⟨Nat.zero_le va, by omega⟩]
    exact (hw p T hT va hva).shared
  · have horigin : handDown w.origin p o q = w.origin q := by
      cases o with
      | none => rfl
      | some j => exact update_of_ne (fun e => hne (congrArg some e.symm)) ..
    show Permitted (handDown w.origin p o q (va / PGSIZE)) (Tq.leaf va)
    rw [horigin]
    exact hw q Tq hTq' va (hsz ▸ hva)

theorem AllPermitted.store {w : Traced} {b : Byte} {d : Bool} (hs : WellFormed L w.sys)
    (hw : AllPermitted w) (hc : CopiesWritable w (.store p va b))
    (h : storeAlone L w.sys p va b = .next (d, t)) : AllPermitted ⟨t, w.origin⟩ := by
  intro q Tq hTq v hv
  obtain ⟨hsz, hold | ⟨rfl, T, mem, hT, hstore, hmax, hcow, hm⟩⟩ := storeAlone_table hs h hTq
  · exact hw q Tq hold v (hsz ▸ hv)
  replace hv : v < (w.sys.proc q).sz := hsz ▸ hv
  obtain ⟨tf, hlive⟩ := userTable_live hs.inv hT
  have h39 : v < 2 ^ 39 := by
    have := hlive.size
    have : TRAPFRAME < 2 ^ 39 := by decide
    omega
  have hpe := hw q T hT v hv
  by_cases hpage : PGROUNDDOWN va / PGSIZE = v / PGSIZE
  · have hleaf : T.leaf v = T.leaf (PGROUNDDOWN va) := leaf_page h39 (lt_of_maxva hmax) hpage.symm
    have hwritable := hc T hT hstore hcow.1 hcow.2.1 hcow.2.2
    rw [page_rounddown] at hpage
    rw [hm.here v h39 (by rw [page_rounddown]; exact hpage)]
    rw [hpage] at hwritable
    exact hpe.copied (hleaf ▸ hcow.2.1) hwritable mem
  · rwa [hm.other v h39 hpage]

theorem track_permitted {w w' : Traced} {e : Access} (hs : WellFormed L w.sys) (hw : AllPermitted w)
    (hc : CopiesWritable w e) (h : track L w e = .next w') : WellFormed L w'.sys ∧ AllPermitted w' := by
  cases e with
  | fork p =>
    obtain ⟨⟨o, t⟩, hf, rfl⟩ := map_next h
    exact ⟨(fork_view hs hf).1, hw.fork hs hf⟩
  | store p va b =>
    obtain ⟨⟨d, t⟩, hf, rfl⟩ := map_next h
    exact ⟨storeAlone_wellFormed hs hf, hw.store hs hc hf⟩

/-- **Write permission.**  After any run of forks and stores from an address space in which no page
is copied that was not writable in the beginning, every page has the permission it had: it is
writable only if it was, and if it was it still is, or is to be copied by the first store. -/
theorem permission_kept {w : Traced} {es : List Access} (hs : WellFormed L s)
    (hes : Along (track L) CopiesWritable ⟨s, flagsOf s⟩ es)
    (h : Run.exec (track L) ⟨s, flagsOf s⟩ es = .next w) : AllPermitted w := by
  have hstart : AllPermitted ⟨s, flagsOf s⟩ := by
    intro q T hT va hva
    obtain ⟨tf, hlive⟩ := userTable_live hs.inv hT
    have h39 : va < 2 ^ 39 := by
      have h1 : va < (s.proc q).sz := hva
      have h2 := hlive.size
      have : TRAPFRAME < 2 ^ 39 := by decide
      omega
    have hflags : flagsOf s q (va / PGSIZE) = (T.leaf va).flags := by
      unfold flagsOf
      rw [show s.userTable q = some T from hT]
      have hle : va / PGSIZE * PGSIZE ≤ va := Nat.div_mul_le_self va PGSIZE
      exact congrArg Pte.flags (leaf_page (lt_of_le_of_lt hle h39) h39 (page_rounddown va))
    show Permitted (flagsOf s q (va / PGSIZE)) (T.leaf va)
    rw [hflags]
    exact permitted_self _
  exact (exec_inv (fun w => WellFormed L w.sys ∧ AllPermitted w)
    (fun _ _ _ hw hc hstep => track_permitted hw.1 hw.2 hc hstep) ⟨hs, hstart⟩ hes h).2

/-- the child of the first process stores to a page that was writable -/
theorem permission_kept_child : ∃ s w, Booted s ∧
    Run.exec (track smallLayout) ⟨s, flagsOf s⟩ [.fork initproc, .store child 0 7] = .next w ∧
    AllPermitted w := by
  obtain ⟨s, hb, hwell, hal, hw⟩ := booted_of_check
    (p := fun s => alongCheck (track smallLayout) CopiesWritable ⟨s, flagsOf s⟩ [.fork initproc, .store child 0 7] ∧
      (Run.exec (track smallLayout) ⟨s, flagsOf s⟩ [.fork initproc, .store child 0 7]).check fun _ => True)
    (by decide +kernel)
  obtain ⟨w, hw, -⟩ := exists_of_check hw
  exact ⟨s, w, hb, hw, permission_kept hwell (along_of_check hal) hw⟩

/-- the first process executes the program and forks; the page at 0 has no `PTE_W`, and after the
child has stored to it, it has one in the child -/
theorem text_made_writable : ∃ s s' w T, Booted s ∧ execAlone smallLayout s initproc textFile = .next s' ∧
    Run.exec (track smallLayout) ⟨s', flagsOf s'⟩ [.fork initproc, .store child 0 7] = .next w ∧
    w.origin child 0 &&& PTE_W = 0 ∧ w.origin child 0 &&& PTE_V ≠ 0 ∧ w.sys.userTable child = some T ∧
    (T.leaf 0).has PTE_W := by
  obtain ⟨s, hb, -, hs'⟩ := booted_of_check
    (p := fun s => (execAlone smallLayout s initproc textFile).check fun s' : Sys =>
        (Run.exec (track smallLayout) ⟨s', flagsOf s'⟩ [.fork initproc, .store child 0 7]).check
          fun w : Traced => w.origin child 0 &&& PTE_W = 0 ∧ w.origin child 0 &&& PTE_V ≠ 0 ∧
            (w.sys.userTable child).isSome ∧ ∀ T ∈ w.sys.userTable child, (T.leaf 0).has PTE_W)
    (by decide +kernel)
  obtain ⟨s', hs', hw⟩ := exists_of_check hs'
  obtain ⟨w, hw, hW, hV, hsome, hall⟩ := exists_of_check hw
  obtain ⟨T', hT'⟩ := Option.isSome_iff_exists.mp hsome
  exact ⟨s, s', w, T', hb, hs', hw, hW, hV, hT', hall T' hT'⟩

end

end Vm
