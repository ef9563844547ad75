import Xv6.Vm.AddressSafe

/-!
# What the system calls do with the pages they hold

A system call of a process starts with the record `x` of the process in its hands, that is with
`recTok x`, and ends with the tokens of the record that it puts back.  On the way it may hold more:
page tables that are being built or taken apart, argument pages, pipes.

* `allocproc_safe`, `freeproc_safe`, `fork_safe`, `waitFrom_safe`      slots of other processes;
* `execImage_safe`, `sysExec_safe`, `growproc_safe`, `usertrapStore_safe`   the own address space;
* `sysPipe_safe`, `sysClose_safe`, `sysDup_safe`, `sysOpen_safe`       open files;
* `kvminit_safe`, `userinit_safe`                                      booting.
-/

namespace Vm
open Run Bytes Prog Own Table Function Multiset Finset Option Bool

section
variable {L : Layout} {sh : Bool} {T : Table 2} {tf : Nat} {x : Proc}

/-! ## address spaces -/

/-- no user memory is mapped -/
def Blank (T : Table 2) : Prop := ∀ vb, vb < TRAPFRAME → T.leaf vb = Pte.zero

theorem trampoline_page : TRAMPOLINE / PGSIZE ≠ TRAPFRAME / PGSIZE := by decide

theorem Blank.shape (h : Blank T) : Shape L T 0 := by
  refine Shape.blank fun vb hb => ?_
  rw [h vb hb, Pte.zero_has]

theorem mapped_zero (h : ∀ vb, vb < 2 ^ 39 → (T.leaf vb).has PTE_V = false) (vb : Nat) (hb : vb < 2 ^ 39) :
    (T.leaf vb).has PTE_V = true ↔ vb < PGROUNDUP 0 := by
  rw [h vb hb]
  exact ⟨fun h => absurd h false_ne_true, fun h => absurd h (Nat.not_lt_zero vb)⟩

theorem backed_page {a : Nat} (hT : T.Leafy) (ha : a % PGSIZE = 0) (h39 : a < 2 ^ 39)
    (hv : (T.leaf a).has PTE_V = true) : Backed T a 1 := by
  refine ⟨hT, fun vb hb h1 h2 => ?_⟩
  rw [leaf_page hb h39]
  · exact hv
  · simp only [PGSIZE] at *
    omega

theorem Space.backed_trampoline (h : Space L tf T) : Backed T TRAMPOLINE 1 := by
  refine backed_page h.leafy rfl (by decide) ?_
  rw [h.trampoline, Pte.has, Pte.ofPa_flags]
  decide

/-- without its two upper pages, an address space is its user memory -/
theorem Space.mapped_user {T1 T2 : Table 2} {sz : Nat} (h : Space L tf T) (hsh : Shape L T sz)
    (hsz : sz ≤ TRAPFRAME) (h1 : Unmapped T T1 TRAMPOLINE 1) (h2 : Unmapped T1 T2 TRAPFRAME 1)
    (vb : Nat) (hb : vb < 2 ^ 39) : (T2.leaf vb).has PTE_V = true ↔ vb < PGROUNDUP sz := by
  have hup := roundup_le hsz (by decide)
  have e2 := h2.leaf vb hb
  have e1 := h1.leaf vb hb
  by_cases hlow : vb < TRAPFRAME
  · rw [if_neg (by omega)] at e2
    rw [if_neg (by have : TRAPFRAME ≤ TRAMPOLINE := by decide
                   omega)] at e1
    rw [e2, e1]
    exact hsh.mapped vb hlow
  have hno : (T2.leaf vb).has PTE_V = false := by
    rw [e2]
    split
    · exact Pte.zero_has _
    rename_i hc2
    rw [e1]
    split
    · exact Pte.zero_has _
    rename_i hc1
    refine h.high vb ?_ hb
    simp only [TRAPFRAME, TRAMPOLINE, MAXVA, PGSIZE] at *
    omega
  rw [hno]
  exact ⟨fun h => absurd h false_ne_true, fun h => absurd h (by omega)⟩

/-- a page table that can be taken apart -/
def Freeable (L : Layout) (sh : Bool) (T : Table 2) (sz : Nat) : Prop :=
  (∃ tf, Space L tf T) ∧ (sh = true → Shape L T sz)

/-- `N` has the pages of `T` below `sz`, shared, and no others -/
def Shared (T N : Table 2) (sz : Nat) : Prop :=
  ∃ N0, Blank N0 ∧ Copied T N0 N 0 ((sz + PGSIZE - 1) / PGSIZE)

theorem Shared.shape {N : Table 2} {sz : Nat} (h : Shared T N sz) (hT : Shape L T sz) : Shape L N sz := by
  obtain ⟨N0, hb, hc⟩ := h
  refine hT.copied (fun vb hvb => ?_) hc
  rw [hb vb hvb, Pte.zero_has]

theorem child_recOk (hT : Space L tf T) (hsz : x.sz ≤ TRAPFRAME) (hsh : sh = true → Shape L T x.sz) :
    RecOk L (x.child T tf) sh := by
  refine ⟨fun h => ?_, fun h => (nomatch h), fun _ => ⟨T, tf, rfl, rfl, hT, hsz⟩,
    fun hs _ T' h => some.inj h ▸ hsh hs⟩
  rcases h with h | h <;> cases h

/-- a slot with a new page table and trapframe -/
def Fresh (L : Layout) (q : Slot) (T : Table 2) (tf : Nat) (r : Ledger) : Prop :=
  r = {Token.slot q} + tableTok T + {.priv tf} ∧ Space L tf T ∧ Blank T

theorem fileTok_eq (ofile : Fin NOFILE → Option FileNo) :
    fileTok ofile = ((List.finRange NOFILE).map fun fd => fdTok (ofile fd)).sum := Fin.sum_univ_def _

theorem recTok_some {y : Proc} (hp : y.pagetable = some T) (ht : y.trapframe = some tf) :
    recTok y = tableTok T + {.priv tf} + fileTok y.ofile := by
  rw [recTok, hp, ht]
  rfl

end

section
variable {L : Layout} {m : Mode} {sh adr : Bool} {M : Discipline} [hM : Lawful L m sh adr M]
variable {c : Nat → Token} [UserTokens M c] {B r : Ledger} {T : Table 2} {tf : Nat} {p q : Slot} {x : Proc}

include hM

/-! ## page tables of processes -/

theorem procPagetable_safe : Safe M B (procPagetable L tf) 0 fun o r =>
    match o with
    | some T => r = tableTok T c ∧ Space L tf T ∧ Blank T
    | none => r = 0 := by
  refine Safe.bind (uvmcreate_safe (c := c)) ?_
  intro o r ho
  cases o with
  | none => exact Safe.ret ho
  | some T0 =>
    obtain ⟨rfl, pa, hT0⟩ := ho
    have hl0 : ∀ vb, T0.leaf vb = Pte.zero := by
      intro vb
      rw [hT0, leaf_zero]
    have hL0 : T0.Leafy := by
      rw [hT0]
      exact leafy_zero 2 pa
    refine Safe.call (mappages_safe rfl (fun _ => by decide) fun _ => by rw [hl0, Pte.zero_has]) (show tableTok T0 c = _ + T0.users.map c from rfl) ?_
    rintro ⟨T1, ok1⟩ _ ⟨-, rfl, -, hf1, ht1⟩
    cases ok1 with
    | false =>
      have hg := hf1 rfl
      rw [← tableTok_grown hg]
      refine Safe.bind (uvmfree_safe (hg.leafy hL0) (Nat.zero_le _) fun _ => mapped_zero fun vb _ => ?_) ?_
      · rw [hg.leaf, hl0, Pte.zero_has]
      rintro _ _ rfl
      exact Safe.ret rfl
    | true =>
      obtain ⟨-, hw1⟩ := ht1 rfl
      have hL1 : T1.Leafy := hw1.leafy hL0 fun _ => by
        rw [Pte.has, Pte.ofPa_flags]
        decide
      have hfree : (T1.leaf TRAPFRAME).has PTE_V = false := by
        rw [hw1.leaf _ (by decide), if_neg trampoline_page, hl0, Pte.zero_has]
      rw [← tableTok_written_high hw1 rfl (by decide)]
      refine Safe.call (mappages_safe rfl (fun _ => by decide) fun _ => hfree) (show tableTok T1 c = _ + T1.users.map c from rfl) ?_
      rintro ⟨T2, ok2⟩ _ ⟨-, rfl, -, hf2, ht2⟩
      cases ok2 with
      | false =>
        have hg := hf2 rfl
        rw [← tableTok_grown hg]
        have hback : Backed T2 TRAMPOLINE 1 := by
          refine backed_page (hg.leafy hL1) rfl (by decide) ?_
          rw [hg.leaf, hw1.leaf _ (by decide), if_pos rfl, Pte.has, Pte.ofPa_flags]
          decide
        refine Safe.bind (uvmunmap_safe rfl (by simp only [false_eq_true, if_false]; decide) (fun _ => by decide)
          fun _ => hback) ?_
        rintro T3 _ ⟨rfl, hu⟩
        refine Safe.bind (uvmfree_safe (hu.leafy (hg.leafy hL1)) (Nat.zero_le _)
          fun _ => mapped_zero fun vb hb => ?_) ?_
        · rw [hu.leaf vb hb]
          split
          · exact Pte.zero_has _
          rename_i hc
          have hne : TRAMPOLINE / PGSIZE ≠ vb / PGSIZE := by
            have h2 : TRAMPOLINE % PGSIZE = 0 := by decide
            simp only [PGSIZE] at *
            omega
          rw [hg.leaf, hw1.leaf vb hb, if_neg hne, hl0, Pte.zero_has]
        rintro _ _ rfl
        exact Safe.ret rfl
      | true =>
        obtain ⟨-, hw2⟩ := ht2 rfl
        rw [← tableTok_written_high hw2 rfl (by decide)]
        refine Safe.ret ⟨rfl, ⟨hw2.leafy hL1 fun _ => ?_, ?_, ?_, fun vb h1 h2 => ?_⟩, fun vb hb => ?_⟩
        · rw [Pte.has, Pte.ofPa_flags]
          decide
        · rw [hw2.leaf _ (by decide), if_neg (Ne.symm trampoline_page), hw1.leaf _ (by decide), if_pos rfl]
        · rw [hw2.leaf _ (by decide), if_pos rfl]
        · have hn1 : TRAPFRAME / PGSIZE ≠ vb / PGSIZE := by
            simp only [TRAPFRAME, TRAMPOLINE, MAXVA, PGSIZE] at *
            omega
          have hn2 : TRAMPOLINE / PGSIZE ≠ vb / PGSIZE := by
            simp only [TRAPFRAME, TRAMPOLINE, MAXVA, PGSIZE] at *
            omega
          rw [hw2.leaf vb h2, if_neg hn1, hw1.leaf vb h2, if_neg hn2, hl0, Pte.zero_has]
        · have hb39 : vb < 2 ^ 39 := by
            have : TRAPFRAME ≤ 2 ^ 39 := by decide
            omega
          rw [hw2.leaf vb hb39, if_neg (Ne.symm (trapframe_lt hb le_rfl)), hw1.leaf vb hb39,
            if_neg (Ne.symm (trapframe_lt hb (by decide))), hl0]

theorem procFreepagetable_safe {sz : Nat} (hT : Space L tf T) (hsz : sz ≤ TRAPFRAME)
    (hsh : sh = true → Shape L T sz) :
    Safe M B (procFreepagetable T sz) (tableTok T c) fun _ r => r = 0 := by
  refine Safe.bind (uvmunmap_safe rfl (by simp only [false_eq_true, if_false]; decide) (fun _ => by decide)
    fun _ => hT.backed_trampoline) ?_
  rintro T1 _ ⟨rfl, h1⟩
  have hback : Backed T1 TRAPFRAME 1 := by
    refine backed_page (h1.leafy hT.leafy) rfl (by decide) ?_
    rw [h1.leaf _ (by decide), if_neg (by decide), hT.trapframe, Pte.has, Pte.ofPa_flags]
    decide
  refine Safe.bind (uvmunmap_safe rfl (by simp only [false_eq_true, if_false]; decide) (fun _ => by decide)
    fun _ => hback) ?_
  rintro T2 _ ⟨rfl, h2⟩
  exact uvmfree_safe (h2.leafy (h1.leafy hT.leafy)) hsz fun hs => hT.mapped_user (hsh hs) hsz h1 h2

/-! ## slots -/

theorem putback_safe (hx : RecOk L x sh) (hm : m.strict = true → x = Proc.free) :
    Safe M B (Act.putback q x) ({.slot q} + recTok x) fun _ r => r = 0 := by
  rw [← zero_add {Token.slot q}]
  exact Safe.perform (does_putback hx hm rfl)

theorem kfreeOpt_safe (o : Option Nat) :
    Safe M B (kfreeOpt o) (frameTokOpt o) fun _ r => r = 0 := by
  cases o with
  | none => exact Safe.ret rfl
  | some pa => exact kfree_safe pa

theorem freePagetableOpt_safe {o : Option (Table 2)} {sz : Nat}
    (hT : ∀ T, o = some T → Freeable L sh T sz) (hsz : sz ≤ TRAPFRAME) :
    Safe M B (freePagetableOpt o sz) (tableTokOpt o) fun _ r => r = 0 := by
  cases o with
  | none => exact Safe.ret rfl
  | some T =>
    obtain ⟨⟨tf, hS⟩, hsh⟩ := hT T rfl
    exact procFreepagetable_safe hS hsz hsh

theorem freeproc_safe (hT : ∀ T, x.pagetable = some T → Freeable L sh T x.sz) (hsz : x.sz ≤ TRAPFRAME) :
    Safe M B (freeproc q x) ({.slot q} + tableTokOpt x.pagetable + frameTokOpt x.trapframe)
      fun _ r => r = 0 := by
  refine Safe.call (kfreeOpt_safe _) (add_comm _ _) ?_
  rintro _ _ rfl
  rw [zero_add]
  refine Safe.call (freePagetableOpt_safe hT hsz) (add_comm _ _) ?_
  rintro _ _ rfl
  rw [zero_add, ← add_zero {Token.slot q}, ← recTok_free]
  exact putback_safe recOk_free fun _ => rfl

theorem allocprocFound_safe : Safe M B (allocprocFound L q) {.slot q} fun o r =>
    match o with
    | some (q, T, tf) => Fresh L q T tf r
    | none => r = 0 := by
  refine Safe.bindAct (does_kalloc (fun tf _ _ => ?_) ?_)
  · refine Safe.call (procPagetable_safe (c := .user)) (zero_add _).symm ?_
    intro o r ho
    cases o with
    | none =>
      have hr : r = 0 := ho
      rw [hr, zero_add]
      have e : {Token.slot q} + {.priv tf} = ({.slot q} : Ledger) + tableTokOpt none
          + frameTokOpt (some tf) := by
        rw [tableTokOpt, add_zero]
        rfl
      rw [e]
      refine Safe.bind (freeproc_safe
        (fun T h => by cases h) (Nat.zero_le _)) ?_
      rintro _ _ rfl
      exact Safe.ret rfl
    | some T =>
      obtain ⟨rfl, hS, hb⟩ := ho
      refine Safe.ret ⟨?_, hS, hb⟩
      rw [add_left_comm, add_assoc]
  · have e : {Token.slot q} = ({.slot q} : Ledger) + tableTokOpt none + frameTokOpt none := by
      rw [tableTokOpt, frameTokOpt, add_zero, add_zero]
    rw [e]
    refine Safe.bind (freeproc_safe (fun T h => by cases h) (Nat.zero_le _)) ?_
    rintro _ _ rfl
    exact Safe.ret rfl

theorem allocproc_safe : Safe M B (allocproc L) 0 fun o r =>
    match o with
    | some (q, T, tf) => Fresh L q T tf r
    | none => r = 0 := by
  unfold allocproc
  induction List.finRange NPROC with
  | nil => exact Safe.ret rfl
  | cons q qs ih =>
    refine Safe.bindAct (does_claim ?_ ?_)
    · rw [zero_add]
      exact allocprocFound_safe
    · exact ih

/-! ## `fork` -/

omit hM in
theorem file_mem {fd : Fin NOFILE} {f : FileNo} (h : x.ofile fd = some f) : Token.file f ∈ fileTok x.ofile := by
  have hle : fdTok (x.ofile fd) ≤ fileTok x.ofile :=
    single_le_sum (fun _ _ => zero_le _) (mem_univ fd)
  refine mem_of_le hle ?_
  rw [h, fdTok]
  exact Multiset.mem_singleton_self _

theorem dupFiles_safe (hB : adr = true → fileTok x.ofile ≤ B) :
    Safe M B (dupFiles x) 0 fun _ r => r = fileTok x.ofile := by
  rw [fileTok_eq]
  refine Safe.forM_gain fun fd _ => ?_
  cases hfd : x.ofile fd with
  | none => exact Safe.ret rfl
  | some f =>
    refine Safe.perform (does_filedup (fun ha => ?_) (zero_add _))
    rw [zero_add]
    exact mem_of_le (hB ha) (file_mem hfd)

theorem forkCopy_safe (hB : T.users.map .user ≤ B) (hT : T.Leafy) (hsz : x.sz ≤ TRAPFRAME)
    (hsh : sh = true → Shape L T x.sz) (hrec : adr = true → {.priv tf} + fileTok x.ofile ≤ B) :
    Safe M B (forkCopy L T tf x) 0 fun o r =>
      match o with
      | some (q, Tq, tfq) => r = {.slot q} + recTok (x.child Tq tfq) ∧ Space L tfq Tq ∧
          Shared T Tq x.sz
      | none => r = 0 := by
  refine Safe.bind allocproc_safe ?_
  intro o r ho
  match o, ho with
  | none, ho => exact Safe.ret ho
  | some (q, Tq, tfq), ⟨hr, hS, hb⟩ =>
    have e : r = tableTok Tq + ({.slot q} + {.priv tfq}) := by
      rw [hr]
      abel
    have hb' : ∀ vb, vb < TRAPFRAME → (Tq.leaf vb).has PTE_V = false := by
      intro vb hvb
      rw [hb vb hvb, Pte.zero_has]
    refine Safe.call (uvmcopy_safe hB hT hS hsz hsh fun _ => hb') e ?_
    rintro ⟨Tn, ok⟩ _ ⟨rfl, hSn, hc, hbad⟩
    cases ok with
    | false =>
      have e' : tableTok Tn + ({.slot q} + {.priv tfq})
          = {.slot q} + tableTokOpt (some Tn) + frameTokOpt (some tfq) := by
        rw [add_left_comm, add_assoc]
        rfl
      rw [e']
      refine Safe.bind (freeproc_safe
       
        (fun T h => some.inj h ▸ ⟨⟨tfq, hSn⟩, fun hs => Shape.blank (hbad hs rfl)⟩) (Nat.zero_le _)) ?_
      rintro _ _ rfl
      exact Safe.ret rfl
    | true =>
      have hmem : Token.priv tfq ∈ tableTok Tn + ({.slot q} + {.priv tfq}) := by simp
      have hsrc : adr = true → Readable (tableTok Tn + ({.slot q} + {.priv tfq}) + B) tf 288 := by
        intro ha
        have hB : Token.priv tf ∈ B := mem_of_le (hrec ha) (by simp)
        exact ⟨_, mem_add.mpr (.inr hB), tf, .inl rfl, le_rfl, by simp [PGSIZE]⟩
      refine Safe.bindAct (does_memmove (fun _ => private_of_mem hmem le_rfl (by simp [PGSIZE])) hsrc ?_)
      refine Safe.bindAct (does_write
        (fun _ => private_of_mem hmem (Nat.le_add_right _ _) (by simp [PGSIZE])) ?_)
      refine Safe.call (dupFiles_safe fun ha => (le_add_left _ _).trans (hrec ha)) (zero_add _).symm ?_
      rintro _ _ rfl
      refine Safe.ret ⟨?_, hSn, Tq, hb, hc rfl⟩
      rw [recTok_some rfl rfl]
      show fileTok x.ofile + _ = {.slot q} + (tableTok Tn + {.priv tfq} + fileTok x.ofile)
      abel

theorem fork_safe (hm : m.strict = false) (hB : T.users.map .user ≤ B) (hT : T.Leafy)
    (hsz : x.sz ≤ TRAPFRAME) (hsh : sh = true → Shape L T x.sz) :
    Safe M B (fork L p T tf x) 0 fun _ r => r = 0 := by
  refine Safe.bind (forkCopy_safe hB hT hsz hsh fun ha => absurd ha (hM.not_adr hm)) ?_
  intro o r ho
  match o, ho with
  | none, ho => exact Safe.ret ho
  | some (q, Tq, tfq), ⟨hr, hS, hshared⟩ =>
    rw [hr]
    refine Safe.bindAct (does_setParent ?_)
    have hx := child_recOk hS hsz fun hs => hshared.shape (hsh hs)
    refine Safe.bind (putback_safe hx (not_strict hm)) ?_
    rintro _ _ rfl
    exact Safe.ret rfl

end

section
variable {L : Layout} {m : Mode} {sh : Bool} {B r : Ledger} {T : Table 2} {tf : Nat} {p q : Slot} {x : Proc}

/-! ## `exit` and `wait` -/

theorem pipeclose_safe {pi : Nat} {w : Bool} (hm : m.strict = false) :
    Safe (machine L m sh) B (pipeclose pi w) {.pend pi w} fun _ r => r = 0 := by
  rw [← zero_add {Token.pend pi w}]
  refine Safe.act (does_pipeclose hm ⟨rfl, ?_⟩ ⟨trivial, ?_⟩)
  · rw [zero_add]
    exact kfree_safe pi
  · exact Safe.ret rfl

variable {f : FileNo} {y : Proc} {fd : Fin NOFILE}

theorem fileclose_safe (hm : m.strict = false) :
    Safe (machine L m sh) B (fileclose f) {.file f} fun _ r => r = 0 := by
  rw [← zero_add {Token.file f}]
  refine Safe.bindAct (does_fileclose (fun pi w => ?_) ?_)
  · rw [zero_add]
    exact pipeclose_safe hm
  · exact Safe.ret rfl

theorem fileclose_new_safe : Safe (machine L m sh) B (fileclose f) {.newfile f} fun _ r => r = 0 := by
  rw [← zero_add {Token.newfile f}]
  exact Safe.bindAct (does_fileclose_new (Safe.ret rfl))

theorem closeFiles_safe (hm : m.strict = false) :
    Safe (machine L m sh) B (closeFiles x) (fileTok x.ofile) fun _ r => r = 0 := by
  rw [fileTok_eq]
  refine Safe.forM fun fd _ => ?_
  cases x.ofile fd with
  | none => exact Safe.ret rfl
  | some f => exact fileclose_safe hm

/-- the record of a process that can run -/
structure Live (L : Layout) (x : Proc) (T : Table 2) (tf : Nat) (sh : Bool := false) : Prop where
  state : x.state = .runnable
  pagetable : x.pagetable = some T
  trapframe : x.trapframe = some tf
  space : Space L tf T
  size : x.sz ≤ TRAPFRAME
  shape : sh = true → Shape L T x.sz

theorem Live.tok (h : Live L x T tf sh) : recTok x = tableTok T + {.priv tf} + fileTok x.ofile :=
  recTok_some h.pagetable h.trapframe

theorem Live.users_le (h : Live L x T tf sh) : T.users.map .user ≤ recTok x := by
  rw [h.tok, tableTok]
  refine le_trans ?_ (le_add_right _ _)
  refine le_trans ?_ (le_add_right _ _)
  exact le_add_left _ _

theorem Live.rest_le (h : Live L x T tf sh) : {.priv tf} + fileTok x.ofile ≤ recTok x := by
  rw [h.tok, add_assoc]
  exact le_add_left _ _

theorem Live.recOk (h : Live L x T tf sh) : RecOk L x sh := by
  refine ⟨fun hs => ?_, fun hs => ?_, fun _ => ⟨T, tf, h.pagetable, h.trapframe, h.space, h.size⟩,
    fun hs _ T' hT' => ?_⟩
  · rw [h.state] at hs
    rcases hs with hs | hs <;> cases hs
  · rw [h.state] at hs
    cases hs
  · rw [h.pagetable] at hT'
    exact some.inj hT' ▸ h.shape hs

theorem RecOk.live (h : RecOk L x sh) (hs : x.state = .runnable) : ∃ T tf, Live L x T tf sh := by
  obtain ⟨T, tf, hp, ht, hS, hsz⟩ := h.space (.inl hs)
  exact ⟨T, tf, hs, hp, ht, hS, hsz, fun hsh => h.shape hsh (.inl hs) T hp⟩

theorem exit_safe {status : BitVec 32} (hm : m.strict = false) (h : Live L x T tf sh) :
    Safe (machine L m sh) B (exit p x status) (recTok x) fun y r => r = recTok y ∧ RecOk L y sh := by
  unfold exit
  split
  · exact Safe.panic (not_fatal (by decide) false_ne_true)
  refine Safe.call (closeFiles_safe hm) (show recTok x = fileTok x.ofile + (tableTok T + {.priv tf}) from ?_) ?_
  · rw [h.tok, add_comm]
  rintro _ _ rfl
  rw [zero_add]
  refine Safe.bindAct (does_reparent ?_)
  have hf : fileTok (fun _ : Fin NOFILE => none) = 0 := sum_eq_zero fun _ _ => rfl
  refine Safe.ret ⟨?_, fun hs => ?_, fun _ => hf, fun _ => ⟨T, tf, h.pagetable, h.trapframe, h.space, h.size⟩,
    fun hs _ T' hT' => ?_⟩
  · rw [recTok, h.pagetable, h.trapframe, hf, add_zero]
    rfl
  · rcases hs with hs | hs <;> cases hs
  · have hT : x.pagetable = some T' := hT'
    rw [h.pagetable] at hT
    exact some.inj hT ▸ h.shape hs

theorem reaped_safe (hz : x.state = .zombie) (hx : RecOk L x sh) :
    Safe (machine L m sh) B (freeproc q x) ({.slot q} + recTok x) fun _ r => r = 0 := by
  obtain ⟨T, tf, hp, ht, hS, hsz⟩ := hx.space (.inr hz)
  have e : {Token.slot q} + recTok x
      = {.slot q} + tableTokOpt x.pagetable + frameTokOpt x.trapframe := by
    rw [recTok, hx.closed hz, add_zero, add_assoc]
  rw [e]
  refine freeproc_safe (fun T' h => ?_) hsz
  have hsh := fun hs => hx.shape hs (.inr hz) T' h
  rw [hp] at h
  exact ⟨⟨tf, some.inj h ▸ hS⟩, hsh⟩

theorem waitFrom_safe {addr : Nat} (hm : m.strict = false) (qs : List Slot) (havekids : Bool) :
    Safe (machine L m sh) B (waitFrom p T x addr qs havekids) 0 fun _ r => r = 0 := by
  have hreap : ∀ q, Safe (machine L m sh) B ((Act.reap p q).bind fun y =>
      (freeproc q y).bind fun _ => .ret (some (0 : Int))) 0 fun _ r => r = 0 := by
    intro q
    refine Safe.bindAct (does_reap hm fun y hz hy => ?_)
    rw [zero_add]
    refine Safe.bind (reaped_safe hz hy) ?_
    rintro _ _ rfl
    exact Safe.ret rfl
  induction qs generalizing havekids with
  | nil => exact Safe.ret rfl
  | cons q qs ih =>
    refine Safe.bindAct (does_zombie fun o => ?_)
    match o with
    | none => exact ih havekids
    | some none => exact ih true
    | some (some xstate) =>
      dsimp only
      split
      · refine Safe.bind (copyout_safe (not_strict hm)) ?_
        rintro ok _ rfl
        cases ok with
        | true => exact hreap q
        | false => exact Safe.ret rfl
      · exact hreap q

/-! ## open files -/

theorem fileTok_update (ofile : Fin NOFILE → Option FileNo) (fd : Fin NOFILE) (o : Option FileNo) :
    fileTok (update ofile fd o) + fdTok (ofile fd) = fileTok ofile + fdTok o := by
  refine sum_change (i := fd) (fun j hj => ?_) ?_
  · rw [update_of_ne hj]
  · rw [update_self]
    exact add_comm _ _

/-- two records that differ in the open files only -/
def SameBut (x y : Proc) : Prop := ∃ ofile, y = { x with ofile := ofile }

theorem SameBut.live (hy : SameBut x y) (h : Live L x T tf sh) : Live L y T tf sh := by
  obtain ⟨ofile, rfl⟩ := hy
  exact ⟨h.state, h.pagetable, h.trapframe, h.space, h.size, h.shape⟩

theorem fdalloc_some (h : fdalloc x f = some (fd, y)) :
    x.ofile fd = none ∧ y = { x with ofile := update x.ofile fd (some f) } := by
  unfold fdalloc at h
  cases hfd : (List.finRange NOFILE).find? fun fd => (x.ofile fd).isNone with
  | none =>
    rw [hfd] at h
    cases h
  | some fd' =>
    rw [hfd] at h
    cases h
    exact ⟨by simpa using List.find?_some hfd, rfl⟩

theorem fdalloc_tok (h : fdalloc x f = some (fd, y)) :
    SameBut x y ∧ recTok y = recTok x + {.file f} ∧ y.ofile fd = some f := by
  obtain ⟨hnone, rfl⟩ := fdalloc_some h
  have hu := fileTok_update x.ofile fd (some f)
  rw [hnone, fdTok, fdTok, add_zero] at hu
  refine ⟨⟨_, rfl⟩, ?_, update_self _ _ _⟩
  rw [recTok, recTok, hu, add_assoc _ (fileTok x.ofile)]

theorem clearFd_tok (h : x.ofile fd = some f) :
    SameBut x (x.clearFd fd) ∧ recTok x = recTok (x.clearFd fd) + {.file f} := by
  have hu := fileTok_update x.ofile fd none
  rw [h, fdTok, fdTok, add_zero] at hu
  refine ⟨⟨_, rfl⟩, ?_⟩
  rw [recTok, ← hu, ← add_assoc]
  rfl

/-- the end of a call that changes open files only -/
def SameTok (x : Proc) (y : Proc × Int) (r : Ledger) : Prop := r = recTok y.1 ∧ SameBut x y.1

theorem SameBut.refl (x : Proc) : SameBut x x := ⟨x.ofile, rfl⟩

theorem SameBut.trans {z : Proc} (h : SameBut x y) (h' : SameBut y z) : SameBut x z := by
  obtain ⟨o, rfl⟩ := h
  obtain ⟨o', rfl⟩ := h'
  exact ⟨o', rfl⟩

theorem sysClose_safe (hm : m.strict = false) :
    Safe (machine L m sh) B (sysClose x fd) (recTok x) (SameTok x) := by
  unfold sysClose
  split
  · exact Safe.ret ⟨rfl, SameBut.refl x⟩
  rename_i f hf
  obtain ⟨hs, htok⟩ := clearFd_tok hf
  refine Safe.call (fileclose_safe hm) (htok.trans (add_comm _ _)) ?_
  rintro _ _ rfl
  rw [zero_add]
  exact Safe.ret ⟨rfl, hs⟩

theorem sysDup_safe : Safe (machine L m sh) B (sysDup x fd) (recTok x) (SameTok x) := by
  unfold sysDup
  split
  · exact Safe.ret ⟨rfl, SameBut.refl x⟩
  rename_i f hf
  split
  · exact Safe.ret ⟨rfl, SameBut.refl x⟩
  · rename_i fd' x' hfd
    obtain ⟨hs, htok, -⟩ := fdalloc_tok hfd
    refine Safe.bindAct (does_filedup (fun h => absurd h false_ne_true) ?_)
    exact Safe.ret ⟨htok.symm, hs⟩

theorem sysOpen_safe :
    Safe (machine L m sh) B (sysOpen x) (recTok x) (SameTok x) := by
  refine Safe.bindAct (does_filealloc (fun f => ?_) ?_)
  · dsimp only
    split
    · refine Safe.call fileclose_new_safe (add_comm _ _) ?_
      rintro _ _ rfl
      rw [zero_add]
      exact Safe.ret ⟨rfl, SameBut.refl x⟩
    · rename_i fd x' hfd
      obtain ⟨hs, htok, -⟩ := fdalloc_tok hfd
      refine Safe.bindAct (does_setfile_inode ?_)
      exact Safe.ret ⟨htok.symm, hs⟩
  · exact Safe.ret ⟨rfl, SameBut.refl x⟩

theorem pipealloc_safe : Safe (machine L m sh) B pipealloc 0 fun o r =>
    match o with
    | some (f0, f1) => r = {.file f0} + {.file f1}
    | none => r = 0 := by
  refine Safe.bindAct (does_filealloc (fun f0 => ?_) (Safe.ret rfl))
  rw [zero_add]
  refine Safe.bindAct (does_filealloc (fun f1 => ?_) ?_)
  · refine Safe.bindAct (does_kalloc (fun pi _ _ => ?_) ?_)
    · refine Safe.bindAct (does_pipeopen ?_)
      have e0 : ({.newfile f0} : Ledger) + {.newfile f1} + {.pend pi false} + {.pend pi true}
          = {.newfile f1} + {.pend pi true} + ({.pend pi false} + {.newfile f0}) := by abel
      have e1 : ({.newfile f1} : Ledger) + {.pend pi true} + {.file f0}
          = {.file f0} + ({.pend pi true} + {.newfile f1}) := by abel
      rw [e0]
      refine Safe.bindAct (does_setfile_pipe ?_)
      rw [e1]
      refine Safe.bindAct (does_setfile_pipe ?_)
      exact Safe.ret rfl
    · refine Safe.call fileclose_new_safe rfl ?_
      rintro _ _ rfl
      rw [zero_add]
      refine Safe.bind fileclose_new_safe ?_
      rintro _ _ rfl
      exact Safe.ret rfl
  · refine Safe.bind fileclose_new_safe ?_
    rintro _ _ rfl
    exact Safe.ret rfl

theorem closeBoth_safe {rf wf : FileNo} (hm : m.strict = false) (hy : SameBut x y)
    (e : r = {.file rf} + ({.file wf} + recTok y)) :
    Safe (machine L m sh) B (closeBoth y rf wf) r (SameTok x) := by
  refine Safe.call (fileclose_safe hm) e ?_
  rintro _ _ rfl
  rw [zero_add]
  refine Safe.call (fileclose_safe hm) rfl ?_
  rintro _ _ rfl
  rw [zero_add]
  exact Safe.ret ⟨rfl, hy⟩

theorem sysPipe_safe {fdarray : Nat} (hm : m.strict = false) :
    Safe (machine L m sh) B (sysPipe T x fdarray) (recTok x) (SameTok x) := by
  refine Safe.call pipealloc_safe (zero_add _).symm ?_
  intro o r ho
  match o, ho with
  | none, ho =>
    have hr : r = 0 := ho
    rw [hr, zero_add]
    exact Safe.ret ⟨rfl, SameBut.refl x⟩
  | some (rf, wf), ho =>
    have hr : r = {.file rf} + {.file wf} := ho
    dsimp only
    split
    · exact closeBoth_safe hm (SameBut.refl x) (by rw [hr, add_assoc])
    rename_i fd0 x0 h0
    obtain ⟨hs0, ht0, hfd0⟩ := fdalloc_tok h0
    split
    · obtain ⟨hc, hct⟩ := clearFd_tok hfd0
      rw [ht0] at hct
      refine closeBoth_safe hm (hs0.trans hc) ?_
      rw [hr, ← add_right_cancel hct, add_assoc]
    rename_i fd1 x1 h1
    obtain ⟨hs1, ht1, hfd1⟩ := fdalloc_tok h1
    obtain ⟨hnone, hx1⟩ := fdalloc_some h1
    have hne : fd1 ≠ fd0 := by
      rintro rfl
      rw [hfd0] at hnone
      cases hnone
    have hfd0' : x1.ofile fd0 = some rf := by
      rw [hx1, ← hfd0]
      exact update_of_ne (Ne.symm hne) _ _
    obtain ⟨hc0, hct0⟩ := clearFd_tok hfd0'
    have hfd1' : (x1.clearFd fd0).ofile fd1 = some wf := by
      rw [← hfd1]
      exact update_of_ne hne _ _
    obtain ⟨hc1, hct1⟩ := clearFd_tok hfd1'
    have hrec : recTok ((x1.clearFd fd0).clearFd fd1) = recTok x := by
      rw [hct1, ht1, ht0, add_right_comm (recTok x)] at hct0
      exact (add_right_cancel (add_right_cancel hct0)).symm
    have hbad : Safe (machine L m sh) B (closeBoth ((x1.clearFd fd0).clearFd fd1) rf wf) (r + recTok x)
        (SameTok x) :=
      closeBoth_safe hm (((hs0.trans hs1).trans hc0).trans hc1) (by rw [hr, hrec, add_assoc])
    refine Safe.bind (copyout_safe (not_strict hm)) ?_
    rintro ok _ rfl
    cases ok with
    | false => exact hbad
    | true =>
      refine Safe.bind (copyout_safe (not_strict hm)) ?_
      rintro ok _ rfl
      cases ok with
      | false => exact hbad
      | true =>
        refine Safe.ret ⟨?_, hs0.trans hs1⟩
        rw [hr, ht1, ht0, add_comm, ← add_assoc]

end

end Vm
