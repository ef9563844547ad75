import Xv6.Vm.Context
import Xv6.Vm.Exact
import Xv6.Vm.Isolation
import Xv6.Vm.Spaces

/-!
# Failed calls

A `fork` or an `exec` that fails gives back all that it took: the same pages are free as before, and all
counters and slots and the contents of all address spaces are as they were.

* `Restored`, `restored`      what a strict thread that ends with what it began with has left as it was;
* `fork_failed`               `fork` that returns -1;
* `exec_failed`               `exec` that returns -1.
-/

namespace Vm
open Run Bytes Prog Own Table Function

/-! ## a thread that gives back all it took -/

/-- a page of the record: one of its page table, of user memory, or the trapframe -/
def Proc.Uses (x : Proc) (pa : Nat) : Prop :=
  pa ∈ x.tablePages ∨ pa ∈ x.userPages ∨ x.trapframe = some pa

/-- the same pages are free, with the same counters; files, slots and address spaces are the same -/
structure Restored (s t : Sys) : Prop where
  free : ∀ pa, pa ∈ t.kmem.freelist ↔ pa ∈ s.kmem.freelist
  kref : t.kmem.ref = s.kmem.ref
  ftable : t.ftable = s.ftable
  pipes : t.pipes = s.pipes
  out : t.out = s.out
  state : ∀ q, (t.proc q).state = (s.proc q).state
  proc : ∀ q, (s.proc q).state ≠ .unused → t.proc q = s.proc q
  mem : ∀ q a, s.out q = false → (s.proc q).Uses (PGROUNDDOWN a) → t.kmem.mem a = s.kmem.mem a

section
variable {L : Layout} {m : Mode} {sh : Bool} {s t : Sys} {r : Ledger} {p q : Slot} {x : Proc} {T : Table 2}

theorem Proc.Uses.mem {pa : Nat} (h : x.Uses pa) : pa ∈ pages (recTok x) := by
  rw [pages_recTok]
  rcases h with h | h | h
  · exact Multiset.mem_add.mpr (.inl (Multiset.mem_add.mpr (.inl h)))
  · exact Multiset.mem_add.mpr (.inl (Multiset.mem_add.mpr (.inr h)))
  · rw [h, frameTokOpt, pages_singleton]
    exact Multiset.mem_add.mpr (.inr (Multiset.mem_singleton_self pa))

theorem Undisturbed.slots (hs : SInv L s r sh) (ht : SInv L t r sh) (hk : Kept r s t) (h : Undisturbed r s t) (q : Slot) :
    t.out q = s.out q ∧ (t.proc q = s.proc q ∨ ((s.proc q).state = .unused ∧ t.proc q = Proc.free)) := by
  have hout : t.out q = s.out q := by
    have h1 := hs.out q
    have h2 := ht.out q
    rw [h1] at h2
    cases ha : s.out q <;> cases hb : t.out q <;> simp [ha, hb] at h2 ⊢
  refine ⟨hout, ?_⟩
  cases ho : s.out q with
  | true =>
    refine .inl (h.held q ?_).2
    rw [← Multiset.count_pos, hs.out q, ho]
    exact Nat.one_pos
  | false =>
    by_cases hu : (s.proc q).state = .unused
    · rcases h.back q (hout.trans ho) with e | e
      · exact .inl e.2
      · exact .inr ⟨hu, e⟩
    · exact .inl (hk.slots q ho hu).2

theorem restored_stored (hs : SInv L s r sh) (hslots : ∀ q, t.out q = s.out q ∧
      (t.proc q = s.proc q ∨ ((s.proc q).state = .unused ∧ t.proc q = Proc.free)))
    (hk : t.kernel = s.kernel) (hp : t.pipes = s.pipes) : stored t = stored s := by
  have hslot : ∀ q, slotTok t q = slotTok s q := by
    intro q
    obtain ⟨ho, e | ⟨hu, e⟩⟩ := hslots q
    · rw [slotTok, slotTok, ho, e]
    · have hf := hs.unused q hu
      rw [slotTok, slotTok, ho, hf, e, recTok_free]
      exact ((hs.ok q hf).empty (.inl hu)).symm
  unfold stored
  rw [hk, hp, Finset.sum_congr rfl fun q _ => hslot q]

/-- **Roll-back.**  A strict thread that ends with the tokens it began with. -/
theorem restored (hs : Inv L m s r sh) (ht : Inv L m t r sh) (hk : Kept r s t) (h : Undisturbed r s t)
    (he : Exact L s.kmem (r + stored s) t.kmem (r + stored t)) : Restored s t := by
  have hslots := Undisturbed.slots hs.slots ht.slots hk h
  have hst := restored_stored hs.slots hslots h.kernel h.pipes
  have hpages : pages (r + stored t) = pages (r + stored s) := by rw [hst]
  refine ⟨he.free_iff hs.kmem ht.kmem hpages, he.ref_eq hpages, ?_, h.pipes, funext fun q => (hslots q).1,
    fun q => ?_, fun q hq => ?_, fun q a ho hu => hk.mem a ?_⟩
  · funext f
    have h1 := hs.files.ref f
    have h2 := ht.files.ref f
    rw [hst, h1] at h2
    have h3 := h.kind f
    cases hf : t.ftable f
    cases hg : s.ftable f
    rw [hf, hg] at h2 h3
    exact congr (congrArg File.mk h2.symm) h3
  · rcases (hslots q).2 with e | ⟨hu, e⟩
    · rw [e]
    · rw [e, hu]
      rfl
  · rcases (hslots q).2 with e | ⟨hu, -⟩
    · exact e
    · exact absurd hu hq
  · rw [map_add]
    refine Multiset.mem_add.mpr (.inr ?_)
    obtain ⟨u, hu1, hu2⟩ := mem_pages_iff.mp hu.mem
    exact mem_pages_of_mem (mem_stored ho hu1) hu2

/-! ## a process in the kernel -/

theorem stored_enter (ho : s.out p = false) :
    stored (s.setOut p true (s.proc p)) + recTok (s.proc p) = stored s := by
  have := stored_setOut (s := s) (q := p) (b := true) (x := s.proc p)
  rwa [if_pos rfl, add_zero, slotTok, ho] at this

theorem stored_leave (ho : s.out p = true) : stored (s.setOut p false x) = stored s + recTok x := by
  have := stored_setOut (s := s) (q := p) (b := false) (x := x)
  rwa [slotTok, if_pos ho, add_zero] at this

theorem Undisturbed.leave (ho : s.out p = false) (hr : Token.slot p ∉ r)
    (h : Undisturbed r (s.setOut p true (s.proc p)) t) : Undisturbed r s (t.setOut p false (s.proc p)) := by
  refine ⟨fun q hq => ?_, fun q hq => ?_, h.kernel, h.pipes, h.kind⟩
  · have hne : q ≠ p := fun e => hr (e ▸ hq)
    obtain ⟨h1, h2⟩ := h.held q hq
    simp only [Sys.setOut, update_of_ne hne] at h1 h2 ⊢
    exact ⟨h1, h2⟩
  · by_cases e : q = p
    · subst e
      exact .inl ⟨ho, update_self _ _ _⟩
    · have hb := h.back q
      simp only [Sys.setOut, update_of_ne e] at hb hq ⊢
      exact hb hq

theorem Kept.leave (ho : s.out p = false) (ht : t.out p = true)
    (h : Kept (recTok (s.proc p) + r) (s.setOut p true (s.proc p)) t) :
    Kept r s (t.setOut p false (s.proc p)) := by
  have e1 := stored_enter ho
  have e2 := stored_leave (x := s.proc p) ht
  refine ⟨?_, fun a ha => h.mem a ?_, fun q hq hu => ?_, fun q => ?_⟩
  · rw [← e1, e2, map_add, map_add]
    exact add_le_add_left h.stored _
  · rw [← e1] at ha
    rwa [add_assoc, add_comm, add_assoc]
  · by_cases e : q = p
    · subst e
      exact ⟨update_self _ _ _, update_self _ _ _⟩
    · have hb := h.slots q
      simp only [Sys.setOut, update_of_ne e] at hb ⊢
      exact hb hq hu
  · by_cases e : q = p
    · subst e
      exact .inl (update_self _ _ _)
    · have hb := h.other q
      simp only [Sys.setOut, update_of_ne e] at hb ⊢
      exact hb

/-- a process enters the kernel with its record, while others own `r` -/
theorem enter_exact (hs : Inv L strictMode s r true) (hT : s.userTable p = some T) :
    Inv L strictMode (s.setOut p true (s.proc p)) (0 + (recTok (s.proc p) + ({.slot p} + r))) true ∧
      Exact L s.kmem (r + stored s) (s.setOut p true (s.proc p)).kmem
        (0 + (recTok (s.proc p) + ({.slot p} + r)) + stored (s.setOut p true (s.proc p))) := by
  obtain ⟨ho, hst, -⟩ := userTable_some hT
  have hne : (s.proc p).state ≠ .unused := by
    rw [hst]
    decide
  have hs0 : Inv L strictMode s (0 + r) true := by rwa [zero_add]
  obtain ⟨hi, hst1⟩ := hs0.take ho hne
  have e1 : 0 + {Token.slot p} + recTok (s.proc p) + r = 0 + (recTok (s.proc p) + ({.slot p} + r)) := by abel
  rw [e1] at hi
  refine ⟨hi, (Exact.start hs.kmem).congr rfl rfl ?_⟩
  rw [← hst1]
  simp only [map_add, pages_singleton, map_zero]
  show _ + (_ + (0 + _)) + _ = _
  abel

theorem failed_call {α : Type} {prog : Kernel α} {a : α} {u : Sys} {Q : α → Ledger → Prop} (hs : Inv L strictMode s r true)
    (hT : s.userTable p = some T)
    (hsafe : ∀ k₀ R₀, Safe (exactMachine L k₀ R₀) (recTok (s.proc p)) prog 0 Q)
    (hQ : ∀ r, Q a r → r = 0)
    (hrun : prog.run (sem L) (s.setOut p true (s.proc p)) = .next (a, u)) :
    Restored s (u.setOut p false (s.proc p)) := by
  obtain ⟨hi, he⟩ := enter_exact hs hT
  obtain ⟨ho, -, -⟩ := userTable_some hT
  have hr : Token.slot p ∉ r := slot_notMem (by rw [zero_add]; exact hs.slots) (.inl ho)
  obtain ⟨r', hq, hiu, heu, hk, hset⟩ := exact_run (hsafe _ _) hi he hrun
  obtain rfl := hQ r' hq
  have hu : u.out p = true := slot_mem_out hiu.slots (by simp)
  have hku : Kept (recTok (s.proc p) + r) (s.setOut p true (s.proc p)) u := by
    rw [add_left_comm, add_comm] at hk
    exact Keeps.left (m := strictMode) (fun _ => hk) rfl
  have hsu : Undisturbed r (s.setOut p true (s.proc p)) u := by
    rw [← add_assoc, add_comm] at hset
    exact hset.left
  have hback : 0 + (recTok (s.proc p) + ({Token.slot p} + r)) = 0 + {Token.slot p} + recTok (s.proc p) + r := by abel
  rw [hback] at hiu heu
  obtain ⟨hit, hstt⟩ := hiu.giveBack (hs.slots.ok p ho)
  rw [zero_add] at hit
  refine restored hs hit (hku.leave ho hu) (hsu.leave ho hr) (heu.congr rfl rfl ?_)
  rw [hstt]
  simp only [map_add, pages_singleton, map_zero]
  abel

end

/-! ## `fork` -/

variable (L : Layout)

/-- a configuration that can be reached after the first process was made -/
def Reachable (c : Config) : Prop := ∃ mem k kpages initcode T s es, kinit L mem = .next k ∧
  (boot L kpages initcode).run (sem L) (Sys.start k) = .next (T, s) ∧ (T.leaf 0).has PTE_V = true ∧
  Run.exec (step L) ⟨s, fun _ => none⟩ es = .next c

/-- a call of the process `p` alone, with its page table, trapframe and record -/
def callAlone {α : Type} (w : Sys × Ctx) (p : Slot) (f : Table 2 → Nat → Proc → Full (Proc × α)) :
    Outcome (α × (Sys × Ctx)) :=
  match w.1.userTable p, (w.1.proc p).trapframe with
  | some T, some tf =>
    ((f T tf (w.1.proc p)).bind fun y => (sys (Act.putback p y.1)).bind fun _ => .ret y.2).run (fullSem L)
      (w.1.setOut p true (w.1.proc p), w.2)
  | _, _ => .blocked

def forkCall (w : Sys × Ctx) (p : Slot) : Outcome (Option Slot × (Sys × Ctx)) :=
  callAlone L w p fun T tf x => (forkOp L p T tf x).bind fun o => .ret (x, o)

section
variable {L} {c : Config} {s t : Sys} {u u' : Ctx} {p : Slot} {x : Proc} {T : Table 2} {tf : Nat}

theorem Reachable.owned (h : Reachable L c) : Owned L ⟨true, false⟩ c true := by
  obtain ⟨mem, k, kpages, initcode, T, s, es, hk, hb, hT, hc⟩ := h
  exact owned_shape hk hb hT hc

theorem Reachable.enter (h : Reachable L c) (hT : c.sys.userTable p = some T)
    (htf : (c.sys.proc p).trapframe = some tf) :
    ∃ r, Inv L strictMode c.sys r true ∧ Live L (c.sys.proc p) T tf true := by
  obtain ⟨r, hr⟩ := h.owned
  have hinv : Inv L ⟨true, false⟩ c.sys (∑ i, r i) true := hr.inv
  obtain ⟨ho, hst, hpt⟩ := userTable_some hT
  exact ⟨_, hinv.mode rfl, (hinv.slots.ok p ho).live_of hst hpt htf⟩

theorem ctxSem_answer (o : CtxOp) (u : Ctx) (x : Unit) (u' : Ctx) (_ : ctxSem o u = .next (x, u')) :
    x = noAnswer o := rfl

/-- the run of a call on the kernel state, and what it leaves of the context -/
theorem callAlone_run {α : Type} {a : α} {f : Table 2 → Nat → Proc → Full (Proc × α)}
    (h : callAlone L (s, u) p f = .next (a, (t, u'))) :
    ∃ T tf y w, s.userTable p = some T ∧ (s.proc p).trapframe = some tf ∧
      ((f T tf (s.proc p)).left noAnswer).run (sem L) (s.setOut p true (s.proc p)) = .next ((y, a), w) ∧
      t = w.setOut p false y ∧
      ∀ Q : Proc × α → Ctx → Prop, After ctxSem (f T tf (s.proc p)) u Q → Q (y, a) u' := by
  unfold callAlone at h
  split at h
  swap
  · cases h
  rename_i T tf hT htf
  obtain ⟨y, ⟨w, v⟩, h1, h2⟩ := run_bind h
  obtain ⟨_, _, h3, h4⟩ := run_act h2
  cases h3
  cases h4
  exact ⟨T, tf, y.1, w, hT, htf, run_left ctxSem_answer h1, rfl, fun Q hQ => hQ.run h1⟩

/-- **A failed `fork` changes nothing.**  If `fork` returns -1 in a state that can be reached, whatever the
threads of other processes are doing, then the free pages, all counters of pages, files and inodes, the
slots and the memory of the parent are what they were before the call. -/
theorem fork_failed (hc : Reachable L c) (h : forkCall L (c.sys, u) p = .next (none, (t, u'))) :
    Restored c.sys t ∧ u' = u := by
  obtain ⟨T, tf, y, w, hT, htf, hrun, rfl, hctx⟩ := callAlone_run h
  obtain ⟨r, hinv, hlive⟩ := hc.enter hT htf
  rw [left_bind, left_fork] at hrun
  obtain ⟨o, w1, h1, h2⟩ := run_bind hrun
  cases h2
  constructor
  · obtain ⟨o, w1, h1, h2⟩ := run_bind h1
    have hsafe : ∀ k₀ R₀, Safe (exactMachine L k₀ R₀) (recTok (c.sys.proc p))
        (forkCopy L T tf (c.sys.proc p)) 0 _ :=
      fun k₀ R₀ => forkCopy_safe hlive.users_le hlive.space.leafy hlive.size hlive.shape fun _ => hlive.rest_le
    match o with
    | none =>
      cases h2
      exact failed_call hinv hT hsafe (fun r hr => hr) h1
    | some (q, Tq, tfq) =>
      obtain ⟨_, _, h3, h2⟩ := run_act h2
      cases h3
      obtain ⟨_, _, h3, h2⟩ := run_act h2
      cases h3
      cases h2
  · refine hctx (fun y v => y.2 = none → v = u) ?_ rfl
    refine After.bind (P := fun o v => o = none → v = u) ?_ fun o v hv e => hv e
    refine After.bind (After.inl _ _) ?_
    rintro o _ rfl
    match o with
    | none => exact fun _ => rfl
    | some (q, Tq, tfq) =>
      intro x1 u1 _ x2 u2 _ x3 x4 e
      cases e

/-- a kernel image that leaves 5 pages to the first process -/
def scarceLayout : Layout :=
  { smallLayout with
    kend := PHYSTOP - 79 * PGSIZE
    trampoline_lt := by decide
    kend_le := by decide }

/-- the context of the first process, with its reference to the root directory -/
def Ctx.boot : Ctx where
  iref := Function.update (fun _ => 0) ⟨0, by decide⟩ 1
  locked _ := false
  outstanding := 0
  cwd _ := ⟨0, by decide⟩
  name _ := []

/-- `fork` with 5 free pages fails in `uvmcopy` -/
theorem fork_failed_scarce : ∃ c t u', Reachable scarceLayout c ∧ c.sys.kmem.freelist.length = 5 ∧
    forkCall scarceLayout (c.sys, Ctx.boot) initproc = .next (none, (t, u')) ∧ Restored c.sys t ∧ u' = Ctx.boot := by
  obtain ⟨⟨k, T, s, c⟩, hrun, hT, hl, hw⟩ := exists_of_check
    (o := bootRun scarceLayout 3 (fun _ => 0) (fun _ => 0) [])
    (p := fun x : Kmem × Table 2 × Sys × Config => (x.2.1.leaf 0).has PTE_V = true ∧
      x.2.2.2.sys.kmem.freelist.length = 5 ∧
      (forkCall scarceLayout (x.2.2.2.sys, Ctx.boot) initproc).check
        (fun y : Option Slot × (Sys × Ctx) => y.1 = none) = true) (by decide +kernel)
  obtain ⟨hk, hb, hc⟩ := bootRun_next hrun
  obtain ⟨⟨o, t, u'⟩, hf, ho⟩ := exists_of_check hw
  have ho' : o = none := ho
  subst ho'
  have hreach : Reachable scarceLayout c := ⟨_, k, 3, _, T, s, [], hk, hb, hT, hc⟩
  exact ⟨c, t, u', hreach, hl, hf, fork_failed hreach hf⟩

end

/-! ## `exec` -/

def execCall (w : Sys × Ctx) (p : Slot) (path : Option (List Byte)) (uargv : Nat)
    (ino : Option (InodeNo × Inode)) : Outcome (Int × (Sys × Ctx)) :=
  callAlone L w p fun T tf x => sysExecOp L p T tf x path uargv ino

/-- `exec` until nothing can fail any more -/
def execTry (tf : Nat) (ip : Option Inode) (argv : List Nat) : Kernel (Option (Table 2 × Nat × Nat)) :=
  match ip with
  | none => pure none
  | some ip =>
    if (ip 0 64).1 ≠ 64 then pure none
    else if get32 (ip 0 64).2 0 ≠ ELF_MAGIC then pure none
    else do
      match ← procPagetable L tf with
      | none => pure none
      | some Tn => execImage Tn (ip 0 64).2 ip argv

/-- `sys_exec` until nothing can fail any more, with the pages of the arguments -/
def sysExecTry (T : Table 2) (tf : Nat) (x : Proc) (path : Bool) (uargv : Nat) (ip : Option Inode) :
    Kernel (Option (List Nat × Table 2 × Nat × Nat)) :=
  if path = false then pure none
  else do
    let (argv, ok) ← argvLoop T x uargv MAXARG 0 []
    if ok = false then do
      argv.forM Act.kfree
      pure none
    else do
      match ← execTry L tf ip argv with
      | none => do
        argv.forM Act.kfree
        pure none
      | some z => pure (some (argv, z))

def sysExecCommit (T : Table 2) (tf : Nat) (x : Proc) (elf : Buf) :
    Option (List Nat × Table 2 × Nat × Nat) → Kernel (Proc × Int)
  | none => pure (x, -1)
  | some (argv, z) => do
    let r ← execCommit T tf x elf argv (some z)
    argv.forM Act.kfree
    pure r

def elfHeader (ip : Option Inode) : Buf := ip.elim (fun _ => 0) fun ip => (ip 0 64).2

section
variable {L} {m : Mode} {sh adr : Bool} {B : Ledger} {c : Config} {t : Sys} {u u' : Ctx} {p : Slot} {x : Proc}
  {T : Table 2} {tf uargv : Nat} {ip : Option Inode} {argv : List Nat} {path : Bool}

theorem exec_eq : exec L T tf x ip argv = (execTry L tf ip argv).bind (execCommit T tf x (elfHeader ip) argv) := by
  cases ip with
  | none => rfl
  | some ip =>
    unfold exec execTry
    dsimp only
    split
    · rfl
    split
    · rfl
    refine Eq.trans ?_ (Prog.bind_assoc _ _ _).symm
    refine congrArg _ (funext fun o => ?_)
    cases o with
    | none | some Tn => rfl

theorem sysExec_eq : sysExec L T tf x path uargv ip
    = (sysExecTry L T tf x path uargv ip).bind (sysExecCommit T tf x (elfHeader ip)) := by
  unfold sysExec sysExecTry
  split
  · rfl
  refine Eq.trans ?_ (Prog.bind_assoc _ _ _).symm
  refine congrArg _ (funext fun y => ?_)
  obtain ⟨argv, ok⟩ := y
  cases ok with
  | false => exact (Prog.bind_assoc (argv.forM Act.kfree) (fun _ => .ret none) (sysExecCommit T tf x (elfHeader ip))).symm
  | true =>
    show (exec L T tf x ip argv).bind _ = ((execTry L tf ip argv).bind _).bind _
    rw [exec_eq, Prog.bind_assoc, Prog.bind_assoc]
    refine congrArg _ (funext fun o => ?_)
    cases o with
    | none => exact (Prog.bind_assoc (argv.forM Act.kfree) (fun _ => .ret none) (sysExecCommit T tf x (elfHeader ip))).symm
    | some z => rfl

theorem execTry_safe {M : Discipline} [Lawful L m sh adr M]
    (hargs : adr = true → ∀ pg ∈ argv, Token.priv pg ∈ B) :
    Safe M B (execTry L tf ip argv) 0 fun o r => o = none → r = 0 := by
  unfold execTry
  match ip with
  | none => exact Safe.ret fun _ => rfl
  | some ip =>
    dsimp only
    split
    · exact Safe.ret fun _ => rfl
    split
    · exact Safe.ret fun _ => rfl
    refine Safe.bind (procPagetable_safe (c := .priv)) ?_
    intro o r ho
    match o, ho with
    | none, ho => exact Safe.ret fun _ => ho
    | some Tn, ho =>
      obtain ⟨rfl, hS, hblank⟩ := ho
      refine (execImage_safe hS hblank.userPages (fun _ => hblank.shape) hargs).mono ?_
      rintro o r ho rfl
      exact ho

theorem sysExecTry_safe {M : Discipline} [Lawful L m sh adr M] (hr : adr = true → HasUser T B) :
    Safe M B (sysExecTry L T tf x path uargv ip) 0 fun o r => o = none → r = 0 := by
  unfold sysExecTry
  split
  · exact Safe.ret fun _ => rfl
  refine Safe.bind (argvLoop_safe [] hr) ?_
  rintro ⟨argv, ok⟩ _ rfl
  cases ok with
  | false =>
    refine Safe.bind (kfrees_safe argv) ?_
    rintro _ _ rfl
    exact Safe.ret fun _ => rfl
  | true =>
    refine Safe.callLend (execTry_safe fun _ pg hpg => ?_) (zero_add _).symm ?_
    · exact Multiset.mem_add.mpr (.inr (mem_privTok hpg))
    intro o r ho
    match o, ho with
    | none, ho =>
      rw [ho rfl, zero_add]
      refine Safe.bind (kfrees_safe argv) ?_
      rintro _ _ rfl
      exact Safe.ret fun _ => rfl
    | some z, _ => exact Safe.ret fun e => by cases e

/-! ## the context of `exec` -/

/-- in a transaction, with a locked reference to `i` -/
def Ctx.opened (u : Ctx) (i : InodeNo) : Ctx :=
  { u with
    outstanding := u.outstanding + 1
    iref := Function.update u.iref i (u.iref i + 1)
    locked := Function.update u.locked i true }

theorem iunlockput_opened {i : InodeNo} (hl : u.locked i = false) :
    ctxSem (.iunlockput i) (u.opened i) = .next ((), { u with outstanding := u.outstanding + 1 }) := by
  have e1 : update (u.opened i).locked i false = u.locked := by
    show update (update u.locked i true) i false = _
    rw [update_idem, ← hl, update_eq_self]
  have e2 : update (u.opened i).iref i ((u.opened i).iref i - 1) = u.iref := by
    show update (update u.iref i (u.iref i + 1)) i
      (update u.iref i (u.iref i + 1) i - 1) = _
    rw [update_self, update_idem, Nat.add_sub_cancel, update_eq_self]
  have hc : ¬ ((u.opened i).locked i = false ∨ (u.opened i).iref i < 1) := by
    simp [Ctx.opened]
  show ite _ _ _ = _
  rw [if_neg hc, e1, e2]
  rfl

theorem after_sys {α : Type} (q : Kernel α) (u : Ctx) : After ctxSem (sys q) u fun _ v => v = u := After.inl q u

theorem after_ctx {α : Type} {o : CtxOp} {g : Unit → Full α} {Q : α → Ctx → Prop}
    (h : ∀ v, ctxSem o u = .next ((), v) → After ctxSem (g ()) v Q) : After ctxSem ((ctx o).bind g) u Q :=
  fun _ v hv => h v hv

theorem after_close {α : Type} {i : InodeNo} {g : Unit → Full α} {Q : α → Ctx → Prop} (hl : u.locked i = false)
    (h : After ctxSem (g ()) u Q) :
    After ctxSem ((ctx (.iunlockput i)).bind fun _ => (ctx .endOp).bind g) (u.opened i) Q := by
  refine after_ctx fun v h1 => after_ctx fun v' h2 => ?_
  rw [iunlockput_opened hl] at h1
  cases h1
  cases h2
  rwa [Int.add_sub_cancel]

theorem after_bad {image : Option (Table 2 × Nat)} {i : InodeNo} (hl : u.locked i = false) :
    After ctxSem (execBad x image (some i)) (u.opened i) fun _ v => v = u := by
  have hclose : After ctxSem ((ctx (.iunlockput i)).bind fun _ => (ctx .endOp).bind fun _ => .ret (x, -1))
      (u.opened i) fun (_ : Proc × Int) v => v = u := after_close hl rfl
  cases image with
  | none => exact hclose
  | some y =>
    refine After.bind (after_sys _ _) ?_
    rintro _ _ rfl
    exact hclose

theorem after_bad_none {image : Option (Table 2 × Nat)} :
    After ctxSem (execBad x image none) u fun _ v => v = u := by
  cases image with
  | none => rfl
  | some y =>
    refine After.bind (after_sys _ _) ?_
    rintro _ _ rfl
    rfl

theorem argc_ne {n : Nat} : (n : Int) ≠ -1 := by omega

theorem after_stack {name : List Byte} {elf : Buf} {Tn : Table 2} {sz : Nat} :
    After ctxSem (execStack p T tf x name elf Tn sz argv) u fun y v => y.2 = -1 → v = u := by
  have hbad : ∀ image, After ctxSem (execBad x image none) u fun y v => y.2 = -1 → v = u :=
    fun image => after_bad_none.mono fun _ _ h _ => h
  refine After.bind (after_sys _ _) ?_
  rintro ⟨Tn, sz1⟩ _ rfl
  dsimp only
  split
  · exact hbad _
  generalize sz1 - 2 * PGSIZE = guard
  refine After.bind (after_sys _ _) ?_
  rintro Tn _ rfl
  refine After.bind (after_sys _ _) ?_
  rintro o _ rfl
  match o with
  | none => exact hbad _
  | some sp =>
    refine After.bind (after_sys _ _) ?_
    rintro _ _ rfl
    refine after_ctx fun v _ => ?_
    refine After.bind (after_sys _ _) ?_
    rintro _ _ -
    refine After.bind (after_sys _ _) ?_
    rintro _ _ -
    refine After.bind (after_sys _ _) ?_
    rintro _ _ -
    exact fun e => absurd e argc_ne

theorem after_exec {name : List Byte} {ino : Option (InodeNo × Inode)} :
    After ctxSem (execOp L p T tf x name ino argv) u fun y v => y.2 = -1 → v = u := by
  refine after_ctx fun u1 h1 => ?_
  cases h1
  match ino with
  | none =>
    refine after_ctx fun u2 h2 _ => ?_
    cases h2
    rw [Int.add_sub_cancel]
  | some (i, ip) =>
    refine after_ctx fun u2 h2 => after_ctx fun u3 h3 => ?_
    cases h2
    have h3' : (if _ < 1 then _ else if u.locked i = true then Outcome.blocked else Outcome.next ((), u.opened i))
        = .next (_, u3) := h3
    split at h3'
    · cases h3'
    split at h3'
    · cases h3'
    rename_i hl
    cases h3'
    have hl' : u.locked i = false := by simpa using hl
    have hbad : ∀ image, After ctxSem (execBad x image (some i)) (u.opened i) fun y v => y.2 = -1 → v = u :=
      fun image => (after_bad hl').mono fun _ _ h _ => h
    show After ctxSem (ite _ _ _) _ _
    split
    · exact hbad _
    split
    · exact hbad _
    refine After.bind (after_sys _ _) ?_
    rintro o _ rfl
    match o with
    | none => exact hbad _
    | some Tn =>
      refine After.bind (after_sys _ _) ?_
      rintro ⟨Tn, sz, ok⟩ _ rfl
      cases ok with
      | false => exact hbad (some (Tn, sz))
      | true => exact after_close hl' after_stack

theorem after_sysExec {name : Option (List Byte)} {ino : Option (InodeNo × Inode)} :
    After ctxSem (sysExecOp L p T tf x name uargv ino) u fun y v => y.2 = -1 → v = u := by
  match name with
  | none => exact fun _ => rfl
  | some name =>
    refine After.bind (after_sys _ _) ?_
    rintro ⟨argv, ok⟩ _ rfl
    cases ok with
    | false =>
      refine After.bind (after_sys _ _) ?_
      rintro _ _ rfl
      exact fun _ => rfl
    | true =>
      refine After.bind after_exec ?_
      intro y v hv
      refine After.bind (after_sys _ _) ?_
      rintro _ _ rfl
      exact hv

/-- the record and the result of `exec` are those of its failure, or the result is a number of arguments -/
theorem sysExecCommit_fails {elf : Buf} {o : Option (List Nat × Table 2 × Nat × Nat)} {s w : Sys} {y : Proc}
    (h : (sysExecCommit T tf x elf o).run (sem L) s = .next ((y, -1), w)) : o = none ∧ y = x ∧ w = s := by
  match o with
  | none =>
    cases h
    exact ⟨rfl, rfl, rfl⟩
  | some (argv, Tn, sz, sp) =>
    obtain ⟨r, s1, h1, h2⟩ := run_bind h
    obtain ⟨_, s2, -, h2⟩ := run_bind h2
    cases h2
    obtain ⟨_, _, -, h1⟩ := run_act h1
    obtain ⟨_, _, -, h1⟩ := run_act h1
    obtain ⟨_, _, -, h1⟩ := run_act h1
    have h1' : ((procFreepagetable T x.sz).bind fun _ => .ret _).run (sem L) _ = .next ((y, -1), s1) := h1
    obtain ⟨_, _, -, h1⟩ := run_bind h1'
    have e := congrArg (fun r : Proc × Int => r.2) (congrArg Prod.fst (Outcome.next.inj h1))
    exact absurd e argc_ne

/-- **A failed `exec` changes nothing.**  If `sys_exec` returns -1 in a state that can be reached, whatever
the path, the contents of the file and the arguments are and wherever an allocation or a read failed, then
all pages are free again that were free before, with their counters; the record of the process, its page
table, trapframe, memory and name are what they were, and so are the references and locks of all inodes
and the number of transactions. -/
theorem exec_failed {name : Option (List Byte)} {ino : Option (InodeNo × Inode)} (hc : Reachable L c)
    (h : execCall L (c.sys, u) p name uargv ino = .next (-1, (t, u'))) : Restored c.sys t ∧ u' = u := by
  obtain ⟨T, tf, y, w, hT, htf, hrun, rfl, hctx⟩ := callAlone_run h
  obtain ⟨r, hinv, hlive⟩ := hc.enter hT htf
  refine ⟨?_, hctx (fun y v => y.2 = -1 → v = u) after_sysExec rfl⟩
  rw [left_sysExec, sysExec_eq] at hrun
  obtain ⟨o, w1, h1, h2⟩ := run_bind hrun
  obtain ⟨rfl, rfl, rfl⟩ := sysExecCommit_fails h2
  have hsafe : ∀ k₀ R₀, Safe (exactMachine L k₀ R₀) (recTok (c.sys.proc p))
      (sysExecTry L T tf (c.sys.proc p) name.isSome uargv (ino.map Prod.snd)) 0 _ :=
    fun k₀ R₀ => sysExecTry_safe fun _ => hlive.hasUser
  exact failed_call hinv hT hsafe (fun r hr => hr rfl) h1

/-- an executable file: an ELF header, and the header of a segment of one page that is all zero -/
def onePage (a : Nat) : Byte :=
  match a with
  | 0 => 0x7F
  | 1 => 0x45
  | 2 => 0x4C
  | 3 => 0x46
  | 32 => 64
  | 56 => 1
  | 64 => 1
  | 105 => 16
  | _ => 0

/-- `readi` on a file that is long enough -/
def inodeOf (file : Nat → Byte) : Inode := fun off n => (n, fun i => file (off + i))

/-- `exec` with 5 free pages fails in the `mappages` of `uvmalloc` -/
theorem exec_failed_scarce : ∃ c t u', Reachable scarceLayout c ∧ c.sys.kmem.freelist.length = 5 ∧
    execCall scarceLayout (c.sys, Ctx.boot) initproc (some [47]) 0 (some (⟨1, by decide⟩, inodeOf onePage))
      = .next (-1, (t, u')) ∧ Restored c.sys t ∧ u' = Ctx.boot := by
  obtain ⟨⟨k, T, s, c⟩, hrun, hT, hl, hw⟩ := exists_of_check
    (o := bootRun scarceLayout 3 (fun _ => 0) (fun _ => 0) [])
    (p := fun x : Kmem × Table 2 × Sys × Config => (x.2.1.leaf 0).has PTE_V = true ∧
      x.2.2.2.sys.kmem.freelist.length = 5 ∧
      (execCall scarceLayout (x.2.2.2.sys, Ctx.boot) initproc (some [47]) 0
        (some (⟨1, by decide⟩, inodeOf onePage))).check
        (fun y : Int × (Sys × Ctx) => y.1 = -1) = true) (by decide +kernel)
  obtain ⟨hk, hb, hc⟩ := bootRun_next hrun
  obtain ⟨⟨o, t, u'⟩, hf, ho⟩ := exists_of_check hw
  have ho' : o = -1 := ho
  subst ho'
  have hreach : Reachable scarceLayout c := ⟨_, k, 3, _, T, s, [], hk, hb, hT, hc⟩
  exact ⟨c, t, u', hreach, hl, hf, exec_failed hreach hf⟩

end

end Vm
