import Xv6.Vm.Leak

/-!
# Open files and pipes

The counter of an open file is the number of descriptors that point to it, and a pipe lives as long as
an open file stands for one of its ends.

* `FilesExact`        the file table and the pipes when no thread is in the kernel;
* `opens`, `lastCloses`   the events that make a pipe of a page, and that close its last end;
* `pipe_balance`      every pipe has its last end closed once, or is still there;
* `lastCloses_frees`  the thread that closes the last end holds the page alone, and frees it at once;
* `files_exact`       all of this along every run.
-/

namespace Vm
open Run Bytes Prog Own Table Function

/-- how many descriptors of the process table point to the open file `f` -/
def ofileSlots (s : Sys) (f : FileNo) : Nat :=
  ∑ q, ∑ fd, if (s.proc q).ofile fd = some f then 1 else 0

def Pipe.isOpen (x : Pipe) (writable : Bool) : Bool := if writable then x.writeopen else x.readopen

structure FilesExact (s : Sys) : Prop where
  ref : ∀ f, (s.ftable f).ref = ofileSlots s f
  reusable : ∀ f, (s.ftable f).ref = 0 ↔ ∀ q fd, (s.proc q).ofile fd ≠ some f
  pipe : ∀ pi, (∃ x ∈ s.pipes, x.pa = pi) ↔ ∃ f w, 0 < (s.ftable f).ref ∧ (s.ftable f).kind = .pipe pi w
  isOpen : ∀ x ∈ s.pipes, ∀ w,
    x.isOpen w = true ↔ ∃ f, 0 < (s.ftable f).ref ∧ (s.ftable f).kind = .pipe x.pa w

def pipePages (s : Sys) : List Nat := s.pipes.map Pipe.pa

/-- `pipeclose` finds the other end closed already -/
def lastEnd (s : Sys) (pi : Nat) (w : Bool) : Bool :=
  match s.pipes.find? fun x => x.pa = pi with
  | some x => !(x.close w).readopen && !(x.close w).writeopen
  | none => false

/-- a thread makes a pipe of the page `pi` -/
def opens (pi : Nat) (c : Config) : Event → Nat
  | .action i =>
    match c.next i with
    | some (.pipeopen pa) => if pa = pi then 1 else 0
    | _ => 0
  | _ => 0

/-- a thread closes the last end of the pipe in the page `pi` -/
def lastCloses (pi : Nat) (c : Config) : Event → Nat
  | .action i =>
    match c.next i with
    | some (.pipeclose pa w) => if pa = pi ∧ lastEnd c.sys pa w then 1 else 0
    | _ => 0
  | _ => 0

section
variable {L : Layout} {m : Mode} {s s' : Sys} {c c' : Config} {r : Ledger} {f : FileNo} {pi : Nat} {w : Bool}

/-! ## descriptors -/

theorem refs_fdTok (o : Option FileNo) (f : FileNo) (b : Bool) :
    (refs (fdTok o)).count (f, b) = if o = some f ∧ b = false then 1 else 0 := by
  cases o with
  | none =>
    rw [fdTok, map_zero, Multiset.count_zero]
    rfl
  | some g =>
    rw [fdTok, refs_singleton]
    show Multiset.count (f, b) {(g, false)} = _
    rw [Multiset.count_singleton]
    refine if_congr ?_ rfl rfl
    rw [Prod.mk.injEq, Option.some.injEq, eq_comm]

theorem refs_map_page {l : Multiset Nat} {t : Nat → Token} (ht : ∀ a, (t a).fileOf = 0) :
    refs (l.map t) = 0 := by
  show (l.map t).bind Token.fileOf = 0
  rw [Multiset.bind_map]
  simp only [ht]
  exact Multiset.bind_zero l

theorem count_refs_recTok (x : Proc) (f : FileNo) (b : Bool) :
    (refs (recTok x)).count (f, b) = ∑ fd, if x.ofile fd = some f ∧ b = false then 1 else 0 := by
  have hT : refs (tableTokOpt x.pagetable) = 0 := by
    cases x.pagetable with
    | none => exact map_zero _
    | some T =>
      show refs (T.sys.map .priv + T.users.map .user) = 0
      rw [map_add, refs_map_page fun _ => rfl, refs_map_page fun _ => rfl]
      rfl
  have htf : refs (frameTokOpt x.trapframe) = 0 := by
    cases x.trapframe with
    | none => exact map_zero _
    | some tf => exact refs_singleton _
  rw [recTok, map_add, map_add, hT, htf, zero_add, zero_add, fileTok, map_sum, Multiset.count_sum']
  exact Finset.sum_congr rfl fun fd _ => refs_fdTok _ f b

theorem count_refs_stored (hout : ∀ q, s.out q = false) (f : FileNo) (b : Bool) :
    (refs (stored s)).count (f, b)
      = ∑ q, ∑ fd, if (s.proc q).ofile fd = some f ∧ b = false then 1 else 0 := by
  have hp : refs ((s.pipes : Multiset Pipe).map fun x => Token.priv x.pa) = 0 := by
    show ((s.pipes : Multiset Pipe).map fun x => Token.priv x.pa).bind Token.fileOf = 0
    rw [Multiset.bind_map]
    exact Multiset.bind_zero _
  rw [stored, map_add, map_add, refs_map_page fun _ => rfl, hp, add_zero, add_zero, map_sum,
    Multiset.count_sum']
  refine Finset.sum_congr rfl fun q _ => ?_
  rw [slotTok, hout q]
  exact count_refs_recTok (s.proc q) f b

theorem Inv.ref_eq (h : Inv L m s 0) (f : FileNo) : (s.ftable f).ref = ofileSlots s f := by
  have hr := h.files.ref f
  rw [zero_add, count_refs_stored h.out_of_zero, count_refs_stored h.out_of_zero] at hr
  rw [← hr]
  simp only [and_true, Bool.true_eq_false, and_false, if_false, Finset.sum_const_zero, Nat.add_zero]
  rfl

theorem ofileSlots_eq_zero : ofileSlots s f = 0 ↔ ∀ q fd, (s.proc q).ofile fd ≠ some f := by
  unfold ofileSlots
  simp only [Finset.sum_eq_zero_iff, Finset.mem_univ, true_implies]
  refine forall_congr' fun q => forall_congr' fun fd => ?_
  constructor
  · intro h e
    rw [if_pos e] at h
    cases h
  · intro h
    exact if_neg h

/-! ## ends of pipes -/

theorem ends_stored (s : Sys) : ends (stored s) = 0 := by
  have hk : Plain ((s.kernel : Multiset Nat).map Token.priv) := Plain.map (by simp) fun _ => rfl
  have hp : ends ((s.pipes : Multiset Pipe).map fun x => Token.priv x.pa) = 0 := by
    show ((s.pipes : Multiset Pipe).map fun x => Token.priv x.pa).bind Token.endOf = 0
    rw [Multiset.bind_map]
    exact Multiset.bind_zero _
  have hs : ends (∑ q, slotTok s q) = 0 := by
    rw [map_sum]
    refine Finset.sum_eq_zero fun q _ => ?_
    unfold slotTok
    split
    · exact map_zero _
    · exact (plain_recTok _).ends
  rw [stored, map_add, map_add, hs, hp, hk.ends]
  rfl

theorem mem_fileEnds : (pi, w) ∈ fileEnds s ↔ ∃ f, (s.ftable f).kind = .pipe pi w := by
  rw [fileEnds, Multiset.mem_sum]
  refine ⟨?_, ?_⟩
  · rintro ⟨f, -, hf⟩
    refine ⟨f, ?_⟩
    cases hk : (s.ftable f).kind with
    | pipe pi' w' =>
      rw [hk] at hf
      cases Multiset.mem_singleton.mp hf
      rfl
    | none | inode =>
      rw [hk] at hf
      exact absurd hf (Multiset.notMem_zero _)
  · rintro ⟨f, hf⟩
    refine ⟨f, Finset.mem_univ f, ?_⟩
    rw [hf]
    exact Multiset.mem_singleton_self _

theorem mem_openEnd {x : Pipe} : (pi, w) ∈ openEnd x ↔ x.pa = pi ∧ x.isOpen w = true := by
  obtain ⟨pa, readopen, writeopen⟩ := x
  cases w <;> cases readopen <;> cases writeopen <;>
    simp [openEnd, Pipe.isOpen, eq_comm]

theorem mem_openEnds : (pi, w) ∈ openEnds s ↔ ∃ x ∈ s.pipes, x.pa = pi ∧ x.isOpen w = true := by
  rw [openEnds, Multiset.mem_bind]
  simp only [Multiset.mem_coe, mem_openEnd]

theorem Inv.ends_iff (h : Inv L m s 0) :
    (∃ x ∈ s.pipes, x.pa = pi ∧ x.isOpen w = true) ↔ ∃ f, (s.ftable f).kind = .pipe pi w := by
  have hb := h.files.balance
  rw [zero_add, ends_stored, add_zero] at hb
  rw [← mem_openEnds, ← mem_fileEnds, hb]

theorem FInv.ref_pos {R : Ledger} (h : FInv s R) (hk : (s.ftable f).kind = .pipe pi w) :
    0 < (s.ftable f).ref := by
  rcases Nat.eq_zero_or_pos (s.ftable f).ref with hz | hp
  · rw [h.closed f hz] at hk
    cases hk
  · exact hp

theorem Inv.filesExact (h : Inv L m s 0) : FilesExact s := by
  refine ⟨h.ref_eq, fun f => ?_, fun pi => ⟨?_, ?_⟩, fun x hx w => ⟨fun hw => ?_, ?_⟩⟩
  · rw [h.ref_eq f]
    exact ofileSlots_eq_zero
  · rintro ⟨x, hx, hpa⟩
    obtain ⟨⟨pi', w⟩, hm⟩ := Multiset.exists_mem_of_ne_zero (h.files.live x hx)
    obtain ⟨hpi, hw⟩ := mem_openEnd.mp hm
    obtain ⟨f, hf⟩ := h.ends_iff.mp ⟨x, hx, hpa, hw⟩
    exact ⟨f, w, h.files.ref_pos hf, hf⟩
  · rintro ⟨f, w, -, hf⟩
    obtain ⟨x, hx, hpa, -⟩ := h.ends_iff.mpr ⟨f, hf⟩
    exact ⟨x, hx, hpa⟩
  · obtain ⟨f, hf⟩ := h.ends_iff.mp ⟨x, hx, rfl, hw⟩
    exact ⟨f, h.files.ref_pos hf, hf⟩
  · rintro ⟨f, -, hf⟩
    obtain ⟨y, hy, hpa, hw⟩ := h.ends_iff.mpr ⟨f, hf⟩
    have hxy : y = x := List.inj_on_of_nodup_map h.pipes_nodup hy hx hpa
    rwa [hxy] at hw

/-! ## the life of a pipe -/

theorem kfree_setKmem {pa : Nat} {y : Unit × Sys}
    (h : (kfree L s.kmem pa).map (fun k => ((), s.setKmem k)) = .next y) : y.2.pipes = s.pipes := by
  obtain ⟨k, -, hk⟩ := map_next h
  rw [← hk]
  rfl

theorem sem_pipes {o : Op} {x : o.Res} (h : sem L o s = .next (x, s'))
    (ho : ∀ pi, o ≠ .pipeopen pi) (hc : ∀ pi w, o ≠ .pipeclose pi w) : s'.pipes = s.pipes := by
  cases o with
  | kfree pa => exact kfree_setKmem h
  | memset a n b | write a n b => exact congrArg (fun y : Unit × Sys => y.2.pipes) (touch_next h)
  | memmove dst src n =>
    have h' : (if ram src n then touch dst n ((), s.setMem
      (splice s.kmem.mem dst n fun i => s.kmem.mem (src + i))) else .panic "kerneltrap")
      = Outcome.next (x, s') := h
    split at h'
    · exact congrArg (fun y : Unit × Sys => y.2.pipes) (touch_next h')
    · cases h'
  | read a n => exact congrArg (fun y : Buf × Sys => y.2.pipes) (touch_next h)
  | claim q =>
    have h' : s.claim q = .next (x, s') := h
    unfold Sys.claim at h'
    split at h' <;> cases h' <;> rfl
  | reap p q =>
    have h' : s.reap p q = .next (x, s') := h
    unfold Sys.reap at h'
    split at h'
    · cases h'
      rfl
    · cases h'
  | filealloc =>
    have h' : Outcome.next s.filealloc = .next (x, s') := h
    unfold Sys.filealloc at h'
    split at h' <;> cases h' <;> rfl
  | filedup f =>
    obtain ⟨t, ht, hx⟩ := map_next (show (s.filedup f).map (fun t => ((), t)) = .next (x, s') from h)
    cases hx
    unfold Sys.filedup at ht
    split at ht <;> cases ht
    rfl
  | fileclose f =>
    have h' : s.fileclose f = .next (x, s') := h
    unfold Sys.fileclose at h'
    split at h'
    · cases h'
    · split at h' <;> cases h' <;> rfl
  | pipeopen pi => exact absurd rfl (ho pi)
  | pipeclose pi w => exact absurd rfl (hc pi w)
  | _ =>
    cases h
    rfl

theorem pipeclose_pages {last : Bool} (h : s.pipeclose pi w = .next (last, s')) :
    lastEnd s pi w = last ∧ pi ∈ pipePages s ∧ s'.ftable = s.ftable ∧
      (pipePages s').Perm (if last then (pipePages s).erase pi else pipePages s) := by
  unfold Sys.pipeclose at h
  cases hf : s.pipes.find? fun x => decide (x.pa = pi) with
  | none =>
    rw [hf] at h
    cases h
  | some x =>
    have hpa : x.pa = pi := by simpa using List.find?_some hf
    have hx : x ∈ s.pipes := List.mem_of_find?_eq_some hf
    have hmem : pi ∈ pipePages s := hpa ▸ List.mem_map_of_mem hx
    have hperm : (x.pa :: (s.pipes.erase x).map Pipe.pa).Perm (pipePages s) :=
      ((List.perm_cons_erase hx).map Pipe.pa).symm
    have hlast : lastEnd s pi w = (!(x.close w).readopen && !(x.close w).writeopen) := by
      rw [lastEnd, hf]
    have hclose : (x.close w).pa = x.pa := by
      cases w <;> rfl
    rw [hf] at h
    dsimp only at h
    split at h
    · rename_i hc
      cases h
      refine ⟨?_, hmem, rfl, ?_⟩
      · rw [hlast, hc.1, hc.2]
        rfl
      · have := hperm.erase x.pa
        rwa [List.erase_cons_head, hpa] at this
    · rename_i hc
      cases h
      refine ⟨?_, hmem, rfl, ?_⟩
      · rw [hlast]
        revert hc
        cases (x.close w).readopen <;> cases (x.close w).writeopen <;> simp
      · show ((x.close w :: s.pipes.erase x).map Pipe.pa).Perm (pipePages s)
        rwa [List.map_cons, hclose]

theorem pipeclose_balance {pa : Nat} {last : Bool} (h : s.pipeclose pa w = .next (last, s')) :
    (pipePages s').count pi + (if pa = pi ∧ lastEnd s pa w then 1 else 0) = (pipePages s).count pi := by
  obtain ⟨hlast, hmem, -, hperm⟩ := pipeclose_pages h
  rw [hlast, hperm.count_eq]
  cases last with
  | false => simp
  | true =>
    have hpos : 0 < (pipePages s).count pa := List.count_pos_iff.mpr hmem
    simp only [if_true, and_true, List.count_erase, beq_iff_eq]
    split
    · rename_i e
      subst e
      omega
    · rfl

theorem pipeopen_balance {pa : Nat} {x : Unit} (h : sem L (.pipeopen pa) s = .next (x, s')) :
    (pipePages s').count pi = (pipePages s).count pi + if pa = pi then 1 else 0 := by
  have hpages : pipePages s' = pa :: pipePages s := by
    cases h
    rfl
  rw [hpages, List.count_cons]
  simp only [beq_iff_eq]

variable {R : Option Slot → Ledger} {i : Option Slot} {t : Thread Op Op.Res Nat}

theorem count_held_pipe (h : Shares (machine L m) (Leftover m) c R) (hpi : pi ∈ pipePages c.sys)
    (ht : c.thread i = some t) : t.held.count pi = 0 := by
  have hinv : Inv L m c.sys (∑ j, R j) := h.inv
  obtain ⟨x, hx, rfl⟩ := List.mem_map.mp hpi
  have hst : Token.priv x.pa ∈ stored c.sys :=
    Multiset.mem_add.mpr (.inr (Multiset.mem_map.mpr ⟨x, Multiset.mem_coe.mpr hx, rfl⟩))
  have hmem : Token.priv x.pa ∈ ∑ j, R j + stored c.sys := Multiset.mem_add.mpr (.inr hst)
  have hpage := hinv.kmem.owned x.pa (mem_pages_of_mem hmem (Multiset.mem_singleton_self _))
  have hone := (hinv.kmem.page x.pa hpage).single hmem
  have hi := h.share i
  rw [ht] at hi
  have hheld : pages (R i) = t.held := hi.1
  have hle : (pages (R i)).count x.pa ≤ (pages (∑ j, R j)).count x.pa := by
    rw [map_sum, Multiset.count_sum']
    exact Finset.single_le_sum (f := fun j => (pages (R j)).count x.pa) (fun _ _ => Nat.zero_le _)
      (Finset.mem_univ i)
  have hpos : 0 < (pages (stored c.sys)).count x.pa :=
    Multiset.count_pos.mpr (mem_pages_of_mem hst (Multiset.mem_singleton_self _))
  rw [map_add, Multiset.count_add] at hone
  rw [← hheld]
  omega

theorem not_pipe_of_loss {o : Op} {k : o.Res → Kernel PUnit} {x : o.Res}
    (h : Shares (machine L m) (Leftover m) c R) (ht : c.thread i = some t) (hp : t.prog = .act o k)
    (hx : sem L o c.sys = .next (x, s')) (hl : loss o x = {pi}) (hg : gain o x = 0) :
    pi ∉ pipePages c.sys := by
  intro hpi
  have hle : loss o x ≤ t.held + gain o x := (h.acts ht hp hx).2
  have h0 := count_held_pipe h hpi ht
  rw [hl, hg, add_zero, Multiset.singleton_le, ← Multiset.count_pos] at hle
  omega

/-- the pages of pipes change by the openings and the last closings only -/
theorem pipe_balance {e : Event} (hs : step L c e = .next c') :
    (pipePages c'.sys).count pi + lastCloses pi c e = (pipePages c.sys).count pi + opens pi c e := by
  cases e with
  | call p k =>
    have h' : enter L c p k = .next c' := hs
    unfold enter at h'
    split at h' <;> cases h'
    rfl
  | store p va b =>
    have h' : userStore c p va b = .next c' := hs
    unfold userStore at h'
    split at h'
    · cases h'
    · split at h' <;> cases h'
      rfl
  | action i =>
    rcases stepThread_cases hs with ⟨hn, hsys⟩ | ⟨t, o, k, x, ht, hp, hx, -⟩
    · rw [hsys]
      simp only [lastCloses, opens, hn]
    have hn := Config.next_act ht hp
    by_cases ho : ∃ pa, o = .pipeopen pa
    · obtain ⟨pa, rfl⟩ := ho
      simp only [lastCloses, opens, hn]
      exact pipeopen_balance hx
    by_cases hc : ∃ pa w, o = .pipeclose pa w
    · obtain ⟨pa, w, rfl⟩ := hc
      simp only [lastCloses, opens, hn]
      exact pipeclose_balance (show c.sys.pipeclose pa w = .next (x, c'.sys) from hx)
    have hpipes := sem_pipes hx (fun pa e => ho ⟨pa, e⟩) (fun pa w e => hc ⟨pa, w, e⟩)
    have hlc : lastCloses pi c (.action i) = 0 := by
      simp only [lastCloses, hn]
      split
      · rename_i pa w e
        exact absurd ⟨pa, w, Option.some.inj e⟩ hc
      · rfl
    have hop : opens pi c (.action i) = 0 := by
      simp only [opens, hn]
      split
      · rename_i pa e
        exact absurd ⟨pa, Option.some.inj e⟩ ho
      · rfl
    rw [hlc, hop, pipePages, hpipes]
    rfl

/-- the pipe is closed by a thread that finds the other end closed -/
theorem lastCloses_eq_one {e : Event} (h : lastCloses pi c e = 1) :
    ∃ i w, e = .action i ∧ c.next i = some (.pipeclose pi w) ∧ lastEnd c.sys pi w = true := by
  unfold lastCloses at h
  split at h
  · rename_i i
    split at h
    · rename_i pa w hn
      split at h
      · rename_i hc
        obtain ⟨rfl, hl⟩ := hc
        exact ⟨i, w, rfl, hn, hl⟩
      · cases h
    · cases h
  · cases h

/-- **The last end.**  No open file stands for the pipe then, its thread frees the page with its next
action, and until then no other thread holds the page. -/
theorem lastCloses_frees {e : Event} (h : Owned L m c) (hs : step L c e = .next c')
    (hl : lastCloses pi c e = 1) :
    ∃ i, e = .action i ∧ c'.next i = some (.kfree pi) ∧
      (∀ f w, (c'.sys.ftable f).kind ≠ .pipe pi w) ∧
      ∀ j t, c'.thread j = some t → t.held.count pi = if j = i then 1 else 0 := by
  obtain ⟨R, hR⟩ := h
  have hstep := hs
  obtain ⟨i, w, rfl, hnext, hlast⟩ := lastCloses_eq_one hl
  have hown' : Owned L m c' :=
    stepThread_shares (fun s X f hX hf => Inv.forget hX hf) hR hs
  rcases stepThread_cases hs with ⟨hn, -⟩ | ⟨t, o, k, x, ht, hp, hx, hthread⟩
  · rw [hn] at hnext
    cases hnext
  obtain rfl : o = .pipeclose pi w := Option.some.inj ((Config.next_act ht hp).symm.trans hnext)
  have hclose : c.sys.pipeclose pi w = .next (x, c'.sys) := hx
  obtain ⟨hx1, hmem, -, -⟩ := pipeclose_pages hclose
  obtain rfl : x = true := hx1.symm.trans hlast
  have howes : (k true).first = some (.kfree pi) := (hR.acts ht hp hx).1
  have hgone : pi ∉ pipePages c'.sys := by
    have hb : (pipePages c'.sys).count pi + lastCloses pi c (.action i)
        = (pipePages c.sys).count pi + opens pi c (.action i) := pipe_balance hstep
    have hnd : (pipePages c.sys).Nodup := Inv.pipes_nodup hR.inv
    have hop : opens pi c (.action i) = 0 := by simp only [opens, hnext]
    rw [hl, hop, List.count_eq_one_of_mem hnd hmem] at hb
    exact List.count_eq_zero.mp (by omega)
  refine ⟨i, rfl, ?_, fun f w' hk => hgone ?_, fun j t' hj => ?_⟩
  · rwa [Config.next, hthread, update_self]
  · obtain ⟨R', hR'⟩ := hown'
    have hb : fileEnds c'.sys + _ = openEnds c'.sys := hR'.inv.files.balance
    have hin : (pi, w') ∈ openEnds c'.sys := by
      rw [← hb]
      exact Multiset.mem_add.mpr (.inl (mem_fileEnds.mpr ⟨f, hk⟩))
    obtain ⟨y, hy, rfl, -⟩ := mem_openEnds.mp hin
    exact List.mem_map_of_mem hy
  · rw [hthread] at hj
    split
    · rename_i e
      subst e
      rw [update_self] at hj
      cases hj
      show (t.held + {pi} - 0).count pi = 1
      rw [Multiset.sub_zero, Multiset.count_add, count_held_pipe hR hmem ht, Multiset.count_singleton_self]
    · rename_i e
      rw [update_of_ne e] at hj
      exact count_held_pipe hR hmem hj

theorem kfree_not_pipe (h : Owned L m c) (hs : step L c (.action i) = .next c')
    (hn : c.next i = some (.kfree pi)) : pi ∉ pipePages c.sys := by
  obtain ⟨R, hR⟩ := h
  rcases stepThread_cases hs with ⟨hn', -⟩ | ⟨t, o, k, x, ht, hp, hx, -⟩
  · rw [hn'] at hn
    cases hn
  · obtain rfl : o = .kfree pi := Option.some.inj ((Config.next_act ht hp).symm.trans hn)
    exact not_pipe_of_loss hR ht hp hx rfl rfl

/-- **Open files and pipes.**  In every state that can be reached from `kinit` and in which no thread
is in the kernel, the counter of an open file is the number of descriptors that point to it, it can be
taken by `filealloc` if there are none, and a pipe is there, with an end open, exactly if there is an
open file for it.  Every page that was made a pipe as often had its last end closed, but for the pipe
that it is now; the thread that does so frees the page with its next action, when there is no open file
for the pipe; and no thread frees the page of a pipe. -/
theorem files_exact {mem : Nat → Byte} {k : Kmem} (hk : kinit L mem = .next k) {kpages : Nat}
    {initcode : Buf} {es : List Event}
    (hc : Run.exec (Vm.step L) (Config.start L k kpages initcode) es = .next c) :
    (Idle c → FilesExact c.sys) ∧
      (∀ pi, (pipePages c.sys).Nodup ∧ (pipePages c.sys).count pi
          + tally (Vm.step L) (lastCloses pi) (Config.start L k kpages initcode) es
        = tally (Vm.step L) (opens pi) (Config.start L k kpages initcode) es) ∧
      ∀ e c', Vm.step L c e = .next c' → ∀ pi,
        (lastCloses pi c e = 1 → ∃ i, e = .action i ∧ c'.next i = some (.kfree pi) ∧
          (∀ f w, (c'.sys.ftable f).kind ≠ .pipe pi w) ∧
          ∀ j t, c'.thread j = some t → t.held.count pi = if j = i then 1 else 0) ∧
        ∀ i, e = .action i → c.next i = some (.kfree pi) → pi ∉ pipePages c.sys := by
  have hown := owned_run hk hc
  refine ⟨fun hi => (hown.inv_of_idle hi).filesExact, fun pi => ⟨?_, ?_⟩,
    fun e c' hs pi => ⟨fun hl => lastCloses_frees hown hs hl, ?_⟩⟩
  · obtain ⟨R, hR⟩ := hown
    exact Inv.pipes_nodup hR.inv
  · have hb := exec_tally (fun _ => True) (fun _ _ _ _ _ => trivial)
      (g := fun c : Config => (pipePages c.sys).count pi) (fun s e s' _ hs => pipe_balance hs) trivial hc
    exact hb.trans (Nat.zero_add _)
  · rintro i rfl hn
    exact kfree_not_pipe hown hs hn

/-- from `kinit` on: the allocator and the configuration after the events -/
def startRun (L : Layout) (kpages : Nat) (initcode : Buf) (mem : Nat → Byte) (es : List Event) :
    Outcome (Kmem × Config) :=
  match kinit L mem with
  | .next k => (Run.exec (Vm.step L) (Config.start L k kpages initcode) es).map fun c => (k, c)
  | .panic msg => .panic msg
  | .blocked => .blocked

theorem startRun_next {kpages : Nat} {initcode : Buf} {mem : Nat → Byte} {es : List Event} {k : Kmem}
    (h : startRun L kpages initcode mem es = .next (k, c)) :
    kinit L mem = .next k ∧ Run.exec (Vm.step L) (Config.start L k kpages initcode) es = .next c := by
  unfold startRun at h
  split at h
  · rename_i k' hk
    obtain ⟨c', hc, he⟩ := map_next h
    cases he
    exact ⟨hk, hc⟩
  · cases h
  · cases h

/-- the kernel boots, then the first process makes a pipe and closes both ends -/
def pipeEvents : List Event :=
  List.replicate 87 (.action none) ++ .call initproc (.pipe 0) :: List.replicate 10 (.action (some initproc))
    ++ .call initproc (.close ⟨0, by decide⟩) :: List.replicate 4 (.action (some initproc))
    ++ .call initproc (.close ⟨1, by decide⟩) :: List.replicate 5 (.action (some initproc))

theorem files_exact_pipe : ∃ k c pi, kinit smallLayout (fun _ => 0) = .next k ∧
    Run.exec (Vm.step smallLayout) (Config.start smallLayout k 3 fun _ => 0) pipeEvents = .next c ∧
    tally (Vm.step smallLayout) (opens pi) (Config.start smallLayout k 3 fun _ => 0) pipeEvents = 1 ∧
    tally (Vm.step smallLayout) (lastCloses pi) (Config.start smallLayout k 3 fun _ => 0) pipeEvents = 1 ∧
    FilesExact c.sys := by
  obtain ⟨⟨k, c⟩, hrun, hi, hopen, hnone⟩ := exists_of_check
    (o := startRun smallLayout 3 (fun _ => 0) (fun _ => 0) pipeEvents)
    (p := fun x : Kmem × Config => (∀ i, (x.2.thread i).isNone) ∧
      tally (Vm.step smallLayout) (opens (PHYSTOP - 75 * PGSIZE))
        (Config.start smallLayout x.1 3 fun _ => 0) pipeEvents = 1 ∧ pipePages x.2.sys = [])
    (by decide +kernel)
  obtain ⟨hk, hc⟩ := startRun_next hrun
  obtain ⟨hfiles, hpages, -⟩ := files_exact hk hc
  have hlast := (hpages (PHYSTOP - 75 * PGSIZE)).2
  have hnone' : pipePages c.sys = [] := hnone
  have hopen' : tally (Vm.step smallLayout) (opens (PHYSTOP - 75 * PGSIZE))
    (Config.start smallLayout k 3 fun _ => 0) pipeEvents = 1 := hopen
  rw [hnone', hopen', List.count_nil, Nat.zero_add] at hlast
  exact ⟨k, c, _, hk, hc, hopen, hlast, hfiles (idle_of_isNone hi)⟩

end

end Vm
