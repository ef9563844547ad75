import Xv6.Lib.Threads
import Xv6.Vm.ExecSafe

/-!
# The running kernel

The threads of all processes, and the boot thread before them, take their actions in any order.  A
thread of a process starts with a system call or a store fault and ends when it puts the record of
the process back.

* `step`                    one event: a call, an action of a thread, a store of a user program;
* `InUse`                   the pages something refers to;
* `no_use_after_free`       no page on the free list is one of them, in any reachable state.
-/

namespace Vm
open Run Bytes Prog Own Table

/-! ## calls -/

/-- what takes a process into the kernel, with the answers of the file system -/
inductive Call where
  | fork
  | exec (path : Bool) (uargv : Nat) (ip : Option Inode)
  | exit (status : BitVec 32)
  | wait (addr : Nat)
  | sbrk (n : Int)
  | pipe (fdarray : Nat)
  | close (fd : Fin NOFILE)
  | dup (fd : Fin NOFILE)
  | openFile
  | storeFault (stval : Nat)

variable (L : Layout)

/-- the record that the process goes on with.  A `wait` that sleeps is called again. -/
def Call.run (p : Slot) (x : Proc) (T : Table 2) (tf : Nat) : Call → Kernel Proc
  | .fork => do
    let _ ← Vm.fork L p T tf x
    pure x
  | .exec path uargv ip => do
    let (y, _) ← sysExec L T tf x path uargv ip
    pure y
  | .exit status => Vm.exit p x status
  | .wait addr => do
    let _ ← Vm.wait p T x addr
    pure x
  | .sbrk n => do
    let (y, _) ← sysSbrk T x n
    pure y
  | .pipe fdarray => do
    let (y, _) ← sysPipe T x fdarray
    pure y
  | .close fd => do
    let (y, _) ← sysClose x fd
    pure y
  | .dup fd => do
    let (y, _) ← sysDup x fd
    pure y
  | .openFile => do
    let (y, _) ← sysOpen x
    pure y
  | .storeFault stval => usertrapStore T x stval

/-- the thread of a process -/
def kernelThread (p : Slot) (x : Proc) (T : Table 2) (tf : Nat) (c : Call) : Kernel PUnit := do
  let y ← c.run L p x T tf
  Act.putback p y

/-! ## events -/

/-- the thread `none` boots -/
abbrev Config := Own.Config Sys (Option Slot) Op Op.Res Nat

inductive Event where
  | call (p : Slot) (k : Call)
  | action (i : Option Slot)
  /-- a user program stores a byte through a PTE with `PTE_V`, `PTE_U` and `PTE_W` -/
  | store (p : Slot) (va : Nat) (b : Byte)

/-- where a user store to `va` goes -/
def storeAddr (T : Table 2) (va : Nat) : Option Nat :=
  if va < MAXVA ∧ (T.leaf va).has PTE_V ∧ (T.leaf va).has PTE_U ∧ (T.leaf va).has PTE_W then
    some ((T.leaf va).pa + va % PGSIZE)
  else none

/-- the page table of a process in user mode -/
def Sys.userTable (s : Sys) (p : Slot) : Option (Table 2) :=
  if s.out p = false ∧ (s.proc p).state = .runnable then (s.proc p).pagetable else none

/-- a process enters the kernel; its record is now in the hands of its kernel thread -/
def enter (c : Config) (p : Slot) (k : Call) : Outcome Config :=
  match c.thread (some p), c.sys.userTable p, (c.sys.proc p).trapframe with
  | none, some T, some tf =>
    .next ⟨c.sys.setOut p true (c.sys.proc p), Function.update c.thread (some p)
      (some ⟨kernelThread L p (c.sys.proc p) T tf k, pages (recTok (c.sys.proc p))⟩)⟩
  | _, _, _ => .blocked

def userStore (c : Config) (p : Slot) (va : Nat) (b : Byte) : Outcome Config :=
  match c.sys.userTable p with
  | none => .blocked
  | some T =>
    match storeAddr T va with
    | none => .blocked
    | some a => .next { c with sys := c.sys.setMem (Function.update c.sys.kmem.mem a b) }

def step (c : Config) : Event → Outcome Config
  | .call p k => enter L c p k
  | .action i => stepThread (sem L) gain loss c i
  | .store p va b => userStore c p va b

/-- a kernel image that leaves 96 pages of memory -/
def smallLayout : Layout where
  kend := PHYSTOP - 96 * PGSIZE
  trampoline := KERNBASE
  kernbase_le := le_rfl
  trampoline_aligned := by decide
  trampoline_lt := by decide
  kend_le := by decide

/-- after `kinit`, with nothing in the tables of the kernel -/
def Sys.start (k : Kmem) : Sys :=
  ⟨k, [], fun _ => Proc.free, fun _ => false, fun _ => none, fun _ => ⟨0, .none⟩, []⟩

def bootThread (kpages : Nat) (initcode : Buf) : Kernel PUnit := do
  let _ ← boot L kpages initcode
  pure PUnit.unit

def Config.start (k : Kmem) (kpages : Nat) (initcode : Buf) : Config :=
  ⟨Sys.start k, Function.update (fun _ => none) none (some ⟨bootThread L kpages initcode, 0⟩)⟩

/-- something refers to the page `pa` -/
inductive InUse (c : Config) (pa : Nat) : Prop where
  /-- the root of a page table, or a page that an interior PTE points to -/
  | table {q : Slot} {T : Table 2} : c.sys.out q = false → (c.sys.proc q).pagetable = some T →
      pa ∈ T.sys → InUse c pa
  | leaf {q : Slot} {T : Table 2} {va : Nat} : c.sys.out q = false →
      (c.sys.proc q).pagetable = some T → va < 2 ^ 39 → (T.leaf va).has PTE_V →
      (T.leaf va).pa = pa → InUse c pa
  | trapframe {q : Slot} : c.sys.out q = false → (c.sys.proc q).trapframe = some pa → InUse c pa
  /-- a page of the kernel page table or a kernel stack -/
  | kernel : pa ∈ c.sys.kernel → InUse c pa
  | pipe {x : Pipe} : x ∈ c.sys.pipes → x.pa = pa → InUse c pa
  /-- a thread works with it: the address space it runs in, a page table that it builds or takes
  apart, an argument of `exec` -/
  | held {i : Option Slot} {t : Thread Op Op.Res Nat} : c.thread i = some t → pa ∈ t.held → InUse c pa

/-! ## threads are safe -/

section
variable {L} {m : Mode} {sh : Bool} {B : Ledger} {T : Table 2} {tf : Nat} {p : Slot} {x : Proc}
  {c c' : Config}

variable {s : Sys} {mem : Nat → Byte} {k : Kmem} {pa : Nat}

theorem Inv.forget {X f : Ledger} (hX : Leftover m X) (h : Inv L m s (X + f) sh) : Inv L m s f sh := by
  cases hl : m.leak with
  | false =>
    rwa [hX.none hl, zero_add] at h
  | true =>
    have hpage := hX.page
    clear hX
    induction X using Multiset.induction with
    | empty => rwa [zero_add] at h
    | cons t X ih =>
      obtain ⟨pa, ht⟩ := hpage t (Multiset.mem_cons_self t X)
      refine ih ?_ fun u hu => hpage u (Multiset.mem_cons_of_mem hu)
      rw [← Multiset.singleton_add, add_comm ({t} : Ledger) X] at h
      have hk := h.kmem_token
      rw [hl] at hk
      have hk' : KInv L m.leak s.kmem (X + f + stored s) := by
        rw [hl]
        exact hk.forget
      exact h.sub_page ht hk'

/-- in the mode without leaks, no fault of copy-on-write is taken -/
def Call.Fits (m : Mode) (T : Table 2) : Call → Prop
  | .storeFault stval => m.leak = true ∨ ¬ CowFault T (PGROUNDDOWN stval)
  | _ => True

theorem goes_end {y : Proc} {r : Ledger} (h : Goes L tf y r sh) :
    ∃ X, r = recTok y + X ∧ RecOk L y sh ∧ Leftover m X := by
  obtain ⟨hr, T', hT'⟩ := h
  exact ⟨0, hr.trans (add_zero _).symm, hT'.recOk, Leftover.zero⟩

theorem sameTok_end {y : Proc × Int} {r : Ledger} (hx : Live L x T tf sh) (h : SameTok x y r) :
    ∃ X, r = recTok y.1 + X ∧ RecOk L y.1 sh ∧ Leftover m X :=
  ⟨0, h.1.trans (add_zero _).symm, (h.2.live hx).recOk, Leftover.zero⟩

theorem call_safe {call : Call} (hm : m.strict = false) (h : Live L x T tf sh) (hc : call.Fits m T) :
    Safe (machine L m sh) B (call.run L p x T tf) (recTok x) fun y r =>
      ∃ X, r = recTok y + X ∧ RecOk L y sh ∧ Leftover m X := by
  have hx : ∃ X, recTok x = recTok x + X ∧ RecOk L x sh ∧ Leftover m X := goes_end h.goes
  cases call with
  | fork =>
    have hB : T.users.map Token.user ≤ B + recTok x := h.users_le.trans (Multiset.le_add_left _ B)
    refine Safe.callLend (fork_safe hm hB h.space.leafy h.size h.shape) (zero_add _).symm ?_
    rintro _ _ rfl
    rw [zero_add]
    exact Safe.ret hx
  | exec path uargv ip =>
    refine Safe.bind (sysExec_safe h) ?_
    intro y r hy
    exact Safe.ret (goes_end hy)
  | exit status =>
    refine (exit_safe hm h).mono fun y r hy => ⟨0, hy.1.trans (add_zero _).symm, hy.2, Leftover.zero⟩
  | wait addr =>
    refine Safe.call (waitFrom_safe hm _ _) (zero_add _).symm ?_
    rintro _ _ rfl
    rw [zero_add]
    exact Safe.ret hx
  | sbrk n =>
    refine Safe.bind (sysSbrk_safe h) ?_
    intro y r hy
    exact Safe.ret (goes_end hy)
  | pipe fdarray =>
    refine Safe.bind (sysPipe_safe hm) ?_
    intro y r hy
    exact Safe.ret (sameTok_end h hy)
  | close fd =>
    refine Safe.bind (sysClose_safe hm) ?_
    intro y r hy
    exact Safe.ret (sameTok_end h hy)
  | dup fd =>
    refine Safe.bind sysDup_safe ?_
    intro y r hy
    exact Safe.ret (sameTok_end h hy)
  | openFile =>
    refine Safe.bind sysOpen_safe ?_
    intro y r hy
    exact Safe.ret (sameTok_end h hy)
  | storeFault stval =>
    refine (usertrapStore_safe h hc).mono ?_
    rintro y _ ⟨X, rfl, ⟨T', hT'⟩, hX⟩
    exact ⟨X, rfl, hT'.recOk, hX⟩

theorem kernelThread_safe {call : Call} (hm : m.strict = false) (h : Live L x T tf sh)
    (hc : call.Fits m T) :
    Safe (machine L m sh) B (kernelThread L p x T tf call) ({.slot p} + recTok x) fun _ r =>
      Leftover m r := by
  refine Safe.call (call_safe hm h hc) (add_comm _ _) ?_
  rintro y _ ⟨X, rfl, hy, hX⟩
  have e : recTok y + X + {.slot p} = {.slot p} + recTok y + X := by abel
  rw [e]
  refine ((putback_safe hy (not_strict hm)).frame X).mono ?_
  rintro _ _ ⟨r0, rfl, rfl⟩
  rwa [zero_add]

theorem bootThread_safe {kpages : Nat} {initcode : Buf} (hm : m.strict = false) (hl : m.leak = true) :
    Safe (machine L m) B (bootThread L kpages initcode) 0 fun _ r => Leftover m r := by
  refine Safe.bind (boot_safe hm) ?_
  rintro T r ⟨-, hr⟩
  refine Safe.ret ⟨fun h => ?_, fun t ht => ?_⟩
  · rw [hl] at h
    cases h
  · obtain ⟨pa, rfl⟩ := hr t ht
    exact ⟨pa, .inl rfl⟩

/-! ## runs -/

/-- the threads own shares of the pages, slots and open files -/
def Owned (L : Layout) (m : Mode) (c : Config) (sh : Bool := false) : Prop :=
  ∃ r, Shares (machine L m sh) (Leftover m) c r

/-- the event fits the mode -/
def Event.Fits (m : Mode) (c : Config) : Event → Prop
  | .call p k => ∀ T, c.sys.userTable p = some T → k.Fits m T
  | _ => True

theorem fits_leaky (e : Event) : e.Fits ⟨true, false⟩ c := by
  cases e with
  | call p k =>
    intro T _
    cases k with
    | storeFault stval => exact .inl rfl
    | _ => exact trivial
  | _ => exact trivial

theorem userTable_some (h : s.userTable p = some T) :
    s.out p = false ∧ (s.proc p).state = .runnable ∧ (s.proc p).pagetable = some T := by
  obtain ⟨hc, h⟩ := Option.ite_none_right_eq_some.mp h
  exact ⟨hc.1, hc.2, h⟩

theorem RecOk.live_of (h : RecOk L x sh) (hs : x.state = .runnable) (hT : x.pagetable = some T)
    (htf : x.trapframe = some tf) : Live L x T tf sh := by
  obtain ⟨T', tf', hl⟩ := h.live hs
  have eT : T' = T := Option.some.inj (hl.pagetable.symm.trans hT)
  have etf : tf' = tf := Option.some.inj (hl.trapframe.symm.trans htf)
  rwa [eT, etf] at hl

theorem Owned.enter {k : Call} (hm : m.strict = false) (h : Owned L m c sh)
    (hk : (Event.call p k).Fits m c) (hs : enter L c p k = .next c') : Owned L m c' sh := by
  obtain ⟨r, hr⟩ := h
  unfold Vm.enter at hs
  split at hs
  · rename_i T tf hthread hT htf
    cases hs
    obtain ⟨hout, hstate, hpt⟩ := userTable_some hT
    have hinv : Inv L m c.sys (0 + ∑ i, r i) sh := by
      rw [zero_add]
      exact hr.inv
    have hlive := (hinv.slots.ok p hout).live_of hstate hpt htf
    have hrun : (c.sys.proc p).state ≠ .unused := by
      rw [hstate]
      decide
    obtain ⟨hi, -⟩ := hinv.take hout hrun
    rw [zero_add] at hi
    refine hr.spawn hthread hi ?_ (kernelThread_safe hm hlive (hk T hT))
    show pages ({.slot p} + recTok (c.sys.proc p)) = pages (recTok (c.sys.proc p))
    rw [map_add, pages_singleton]
    exact zero_add _
  · cases hs

theorem Owned.userStore {va : Nat} {b : Byte} (h : Owned L m c sh)
    (hs : userStore c p va b = .next c') : Owned L m c' sh := by
  obtain ⟨r, hr⟩ := h
  unfold Vm.userStore at hs
  split at hs
  · cases hs
  · split at hs
    · cases hs
    · cases hs
      exact ⟨r, Inv.set_mem hr.inv _, hr.share⟩

theorem Owned.step {e : Event} (hm : m.strict = false) (h : Owned L m c sh) (he : e.Fits m c)
    (hs : step L c e = .next c') : Owned L m c' sh := by
  cases e with
  | call p k => exact h.enter hm he hs
  | action i =>
    obtain ⟨r, hr⟩ := h
    exact stepThread_shares (fun s X f hX hf => Inv.forget hX hf) hr hs
  | store p va b => exact h.userStore hs

theorem Owned.ne_panic {msg : String} (h : Owned L m c sh) (hmsg : Fatal sh msg) (e : Event) :
    Vm.step L c e ≠ .panic msg := by
  obtain ⟨r, hr⟩ := h
  cases e with
  | call p k =>
    show Vm.enter L c p k ≠ _
    unfold Vm.enter
    split
    · exact next_ne_panic
    · exact blocked_ne_panic
  | action i => exact stepThread_ne_panic hr hmsg
  | store p va b =>
    show Vm.userStore c p va b ≠ _
    unfold Vm.userStore
    split
    · exact blocked_ne_panic
    · split
      · exact blocked_ne_panic
      · exact next_ne_panic

/-! ## the start -/

theorem stored_start (k : Kmem) : stored (Sys.start k) = 0 := by
  have h : ∑ q, slotTok (Sys.start k) q = 0 := Finset.sum_eq_zero fun q _ => recTok_free
  show ∑ q, slotTok (Sys.start k) q + 0 + 0 = 0
  rw [h]
  rfl

theorem inv_start (hk : kinit L mem = .next k) : Inv L m (Sys.start k) 0 sh := by
  obtain ⟨k', hk', hfree, href⟩ := kinit_next mem
  obtain rfl : k' = k := Outcome.next.inj (hk'.symm.trans hk)
  have hmem : ∀ pa, pa ∈ k'.freelist ↔ L.Page pa := by
    intro pa
    rw [hfree, List.mem_reverse, mem_pages]
  refine ⟨?_, ⟨fun q => rfl, fun q _ => recOk_free, fun q _ => rfl⟩, ?_⟩
  · rw [stored_start, add_zero]
    refine ⟨?_, fun pa hpa => (hmem pa).mp hpa, fun pa hpa => ?_, fun pa hpa => ?_⟩
    · show k'.freelist.Nodup
      rw [hfree]
      exact List.nodup_reverse.mpr nodup_pages
    · rw [map_zero] at hpa
      exact absurd hpa (Multiset.notMem_zero pa)
    · have hz : (pages 0).count pa = 0 := by rw [map_zero, Multiset.count_zero]
      have hr : (Sys.start k').kmem.refOf L pa = 0 := href pa hpa
      rw [hz, hr]
      exact ⟨fun _ => ⟨rfl, rfl⟩, le_rfl, fun h => absurd h (Multiset.notMem_zero _),
        fun _ => ⟨rfl, fun _ => (hmem pa).mpr hpa⟩⟩
  · rw [stored_start, add_zero]
    refine ⟨fun f => rfl, fun f hf => absurd hf (Multiset.notMem_zero _), fun f _ => rfl, ?_,
      fun x hx => absurd hx List.not_mem_nil⟩
    have hf : fileEnds (Sys.start k') = 0 := Finset.sum_eq_zero fun f _ => rfl
    rw [hf, map_zero]
    rfl

theorem owned_start {kpages : Nat} {initcode : Buf}
    (hk : kinit L mem = .next k) : Owned L ⟨true, false⟩ (Config.start L k kpages initcode) := by
  have h0 : Shares (machine L ⟨true, false⟩) (Leftover ⟨true, false⟩)
      (⟨Sys.start k, fun _ => none⟩ : Config) fun _ => 0 := by
    refine ⟨?_, fun i => rfl⟩
    rw [Finset.sum_const_zero]
    exact inv_start hk
  refine h0.spawn rfl ?_ (map_zero _) (bootThread_safe rfl rfl)
  rw [Finset.sum_const_zero]
  exact inv_start hk

theorem owned_run (hk : kinit L mem = .next k) {kpages : Nat} {initcode : Buf} {es : List Event}
    (hc : Run.exec (Vm.step L) (Config.start L k kpages initcode) es = .next c) :
    Owned L ⟨true, false⟩ c :=
  exec_inv (Owned L ⟨true, false⟩)
    (fun _ e _ h _ hs => h.step rfl (fits_leaky e) hs)
    (owned_start hk) (along_of_forall (fun _ _ => trivial) _ _) hc

/-! ## what is in use -/

theorem pa_mem_sys (T : Table 2) : T.pa ∈ T.sys := by
  rw [Table.sys]
  exact Multiset.mem_add.mpr (.inl (Multiset.mem_singleton_self _))

theorem mem_stored {q : Slot} {t : Token} (hout : s.out q = false)
    (ht : t ∈ recTok (s.proc q)) : t ∈ stored s := by
  have h1 : t ∈ slotTok s q := by
    rwa [slotTok, hout]
  have h2 : slotTok s q ≤ ∑ q, slotTok s q :=
    Finset.single_le_sum (fun j _ => Multiset.zero_le _) (Finset.mem_univ q)
  exact Multiset.mem_add.mpr (.inl (Multiset.mem_add.mpr (.inl (Multiset.mem_of_le h2 h1))))

theorem mem_recTok_sys (hT : x.pagetable = some T) (h : pa ∈ T.sys) : Token.priv pa ∈ recTok x := by
  rw [recTok, hT]
  simp [tableTokOpt, tableTok, h]

theorem mem_recTok_user (hT : x.pagetable = some T) (h : pa ∈ T.users) : Token.user pa ∈ recTok x := by
  rw [recTok, hT]
  simp [tableTokOpt, tableTok, h]

theorem RecOk.of_table (h : RecOk L x sh) (hT : x.pagetable = some T) :
    ∃ tf, x.trapframe = some tf ∧ Space L tf T := by
  have hne : recTok x ≠ 0 := by
    intro h0
    have := mem_recTok_sys hT (pa_mem_sys T)
    rw [h0] at this
    exact Multiset.notMem_zero _ this
  have hs : x.state = .runnable ∨ x.state = .zombie := by
    cases hst : x.state with
    | unused => exact absurd (h.empty (.inl hst)) hne
    | used => exact absurd (h.empty (.inr hst)) hne
    | runnable => exact .inl rfl
    | zombie => exact .inr rfl
  obtain ⟨T', tf, hT', htf, hS, -⟩ := h.space hs
  obtain rfl : T' = T := Option.some.inj (hT'.symm.trans hT)
  exact ⟨tf, htf, hS⟩

/-- a leaf points to a user page, to the trapframe or to the trampoline -/
theorem Space.leaf_pa {va : Nat} (h : Space L tf T) (htf : tf % PGSIZE = 0) (hva : va < 2 ^ 39)
    (hv : (T.leaf va).has PTE_V) (hpa : (T.leaf va).pa = pa) :
    pa ∈ T.users ∨ pa = tf ∨ pa = L.trampoline := by
  by_cases h1 : va < TRAPFRAME
  · exact .inl (hpa ▸ mem_users hv h1)
  by_cases h2 : MAXVA ≤ va
  · rw [h.high va h2 hva] at hv
    cases hv
  have hpages : va / PGSIZE = TRAPFRAME / PGSIZE ∨ va / PGSIZE = TRAMPOLINE / PGSIZE := by
    simp only [TRAPFRAME, TRAMPOLINE, MAXVA, PGSIZE] at *
    omega
  rcases hpages with e | e
  · rw [leaf_page hva (by decide) e, h.trapframe, Pte.ofPa_pa htf] at hpa
    exact .inr (.inl hpa.symm)
  · rw [leaf_page hva (by decide) e, h.trampoline, Pte.ofPa_pa L.trampoline_aligned] at hpa
    exact .inr (.inr hpa.symm)

/-- a page in use is named by a token, or is the page of the trampoline -/
theorem InUse.mem_pages {r : Option Slot → Ledger}
    (h : Shares (machine L m sh) (Leftover m) c r) (hu : InUse c pa) :
    pa ∈ pages (∑ i, r i + stored c.sys) ∨ pa = L.trampoline := by
  have hinv : Inv L m c.sys (∑ i, r i) sh := h.inv
  have hstored : ∀ t ∈ stored c.sys, pa ∈ t.pageOf → pa ∈ pages (∑ i, r i + stored c.sys) :=
    fun t ht hp => mem_pages_of_mem (Multiset.mem_add.mpr (.inr ht)) hp
  cases hu with
  | table hout hT hmem =>
    exact .inl (hstored _ (mem_stored hout (mem_recTok_sys hT hmem)) (Multiset.mem_singleton_self pa))
  | leaf hout hT hva hv hpa =>
    obtain ⟨tf, htf, hS⟩ := (hinv.slots.ok _ hout).of_table hT
    have hmem : Token.priv tf ∈ stored c.sys := by
      refine mem_stored hout ?_
      rw [recTok, htf]
      simp [frameTokOpt]
    have hpage : L.Page tf := hinv.kmem.owned tf
      (mem_pages_of_mem (Multiset.mem_add.mpr (.inr hmem)) (Multiset.mem_singleton_self tf))
    rcases hS.leaf_pa hpage.1 hva hv hpa with h1 | rfl | h1
    · exact .inl (hstored _ (mem_stored hout (mem_recTok_user hT h1)) (Multiset.mem_singleton_self pa))
    · exact .inl (hstored _ hmem (Multiset.mem_singleton_self pa))
    · exact .inr h1
  | trapframe hout htf =>
    refine .inl (hstored (.priv pa) (mem_stored hout ?_) (Multiset.mem_singleton_self pa))
    rw [recTok, htf]
    simp [frameTokOpt]
  | kernel hmem =>
    refine .inl (hstored (.priv pa) ?_ (Multiset.mem_singleton_self pa))
    exact Multiset.mem_add.mpr (.inl (Multiset.mem_add.mpr (.inr (Multiset.mem_map_of_mem _ hmem))))
  | pipe hx hpa =>
    refine .inl (hstored (.priv pa) ?_ (Multiset.mem_singleton_self pa))
    exact Multiset.mem_add.mpr (.inr (Multiset.mem_map.mpr ⟨_, hx, congrArg _ hpa⟩))
  | @held i t ht hmem =>
    have hi := h.share i
    rw [ht] at hi
    have hle : r i ≤ ∑ i, r i := Finset.single_le_sum (fun j _ => Multiset.zero_le _) (Finset.mem_univ i)
    obtain ⟨R, hR⟩ := Multiset.le_iff_exists_add.mp hle
    left
    rw [map_add, hR, map_add]
    have hp : pages (r i) = t.held := hi.1
    rw [hp]
    exact Multiset.mem_add.mpr (.inl (Multiset.mem_add.mpr (.inl hmem)))

theorem Owned.not_inUse (h : Owned L m c sh) (hpa : pa ∈ c.sys.kmem.freelist) : ¬ InUse c pa := by
  obtain ⟨r, hr⟩ := h
  have hinv : Inv L m c.sys (∑ i, r i) sh := hr.inv
  have hpage := hinv.kmem.range pa hpa
  intro hu
  rcases hu.mem_pages hr with hm | hm
  · have := ((hinv.kmem.page pa hpage).free hpa).1
    rw [← Multiset.count_pos] at hm
    omega
  · exact hpage.ne_trampoline hm

end

end Vm
