import Xv6.Vm.Leak

/-!
# Isolation of processes after `fork`

Processes fork and store, one event after the other.  What they ought to read is kept beside the
state: a child inherits what its parent reads, and a store changes what the storing process reads
and nothing else (`watch`).

* `cow_isolation`            as long as no store goes directly to a page that another process maps,
                             every process reads what it ought to;
* `fork_leaves_writable`     `uvmcopy` leaves the PTEs of the parent writable, so a store of the
                             parent changes what the child reads.
-/

namespace Vm
open Run Bytes Prog Own Table Function

variable (L : Layout)

/-! ## what processes read -/

/-- the byte at `va` of an address space of the size `sz` -/
def readByte (T : Table 2) (sz : Nat) (mem : Nat → Byte) (va : Nat) : Option Byte :=
  if va < sz ∧ (T.leaf va).has PTE_V ∧ (T.leaf va).has PTE_U then
    some (mem ((T.leaf va).pa + va % PGSIZE))
  else none

/-- what the process in the slot `q` reads at `va` -/
def view (s : Sys) (q : Slot) (va : Nat) : Option Byte :=
  match s.userTable q with
  | none => none
  | some T => readByte T (s.proc q).sz s.kmem.mem va

inductive Access where
  | fork (p : Slot)
  | store (p : Slot) (va : Nat) (b : Byte)

/-- `fork` of the process `p`; the child -/
def forkAlone (s : Sys) (p : Slot) : Outcome (Option Slot × Sys) :=
  match s.userTable p, (s.proc p).trapframe with
  | some T, some tf =>
    ((fork L p T tf (s.proc p)).bind fun o => (Act.putback p (s.proc p)).bind fun _ => .ret o).run
      (sem L) (s.setOut p true (s.proc p))
  | _, _ => .blocked

/-- a store of the process `p`: it is done, or its fault is handled and it is tried again -/
def storeAlone (s : Sys) (p : Slot) (va : Nat) (b : Byte) : Outcome (Bool × Sys) :=
  match s.userTable p, (s.proc p).trapframe with
  | some T, some tf =>
    match storeAddr T va with
    | some a => .next (true, s.setMem (Function.update s.kmem.mem a b))
    | none =>
      ((kernelThread L p (s.proc p) T tf (.storeFault va)).bind fun _ => .ret false).run
        (sem L) (s.setOut p true (s.proc p))
  | _, _ => .blocked

/-- the state, and what the processes ought to read -/
structure Watched where
  sys : Sys
  expect : Slot → Nat → Option Byte

/-- a child reads what its parent reads -/
def inherit (e : Slot → Nat → Option Byte) (p : Slot) : Option Slot → Slot → Nat → Option Byte
  | some q => Function.update e q (e p)
  | none => e

def watch (w : Watched) : Access → Outcome Watched
  | .fork p =>
    match forkAlone L w.sys p with
    | .next (o, s) => .next ⟨s, inherit w.expect p o⟩
    | .panic msg => .panic msg
    | .blocked => .blocked
  | .store p va b =>
    match storeAlone L w.sys p va b with
    | .next (true, s) => .next ⟨s, Function.update w.expect p
        (Function.update (w.expect p) va ((w.expect p va).map fun _ => b))⟩
    | .next (false, s) => .next ⟨s, w.expect⟩
    | .panic msg => .panic msg
    | .blocked => .blocked

/-- the pages that the process in the slot `q` maps -/
def Sys.mapped (s : Sys) (q : Slot) : Multiset Nat :=
  match s.userTable q with
  | none => 0
  | some T => T.users

/-- a store that is done directly goes to a page that no other process maps -/
def Unshared (s : Sys) : Access → Prop
  | .fork _ => True
  | .store p va _ => ∀ T ∈ s.userTable p, (storeAddr T va).isSome →
      ∀ q, q ≠ p → (T.leaf va).pa ∉ s.mapped q

instance (s : Sys) (e : Access) : Decidable (Unshared s e) :=
  match e with
  | .fork _ => inferInstanceAs (Decidable True)
  | .store p _ _ => inferInstanceAs (Decidable (∀ T ∈ s.userTable p, _))

/-- different user pages of a process are different pages of memory -/
def Inj (T : Table 2) : Prop := ∀ va vb, va < TRAPFRAME → vb < TRAPFRAME → (T.leaf va).has PTE_V →
  (T.leaf vb).has PTE_V → (T.leaf va).pa = (T.leaf vb).pa → va / PGSIZE = vb / PGSIZE

structure WellFormed (s : Sys) : Prop where
  inv : Inv L ⟨true, true⟩ s 0
  inj : ∀ q T, s.userTable q = some T → Inj T

section
variable {L} {s t : Sys} {T : Table 2} {tf va : Nat} {p q : Slot} {x : Proc}

/-! ## the pages that a process reads -/

variable {r : Ledger} {m : Mode} {a n pa sz v : Nat} {mem : Nat → Byte} {b : Byte} {y : Proc} {N T' : Table 2}
  {u : Sys} {o : Option Slot}

theorem userTable_live (h : Inv L m s r) (hT : s.userTable q = some T) : ∃ tf, Live L (s.proc q) T tf := by
  obtain ⟨hout, hst, hpt⟩ := userTable_some hT
  obtain ⟨T', tf, hl⟩ := (h.slots.ok q hout).live hst
  obtain rfl : T' = T := Option.some.inj (hl.pagetable.symm.trans hpt)
  exact ⟨tf, hl⟩

theorem user_mem_stored (hT : s.userTable q = some T) (hva : va < TRAPFRAME)
    (hv : (T.leaf va).has PTE_V) : Token.user (T.leaf va).pa ∈ stored s := by
  obtain ⟨hout, -, hpt⟩ := userTable_some hT
  exact mem_stored hout (mem_recTok_user hpt (mem_users hv hva))

theorem mapped_some (hT : s.userTable q = some T) : s.mapped q = T.users := by
  rw [Sys.mapped, hT]

theorem mem_pages_stored (hT : s.userTable q = some T) (hva : va < TRAPFRAME)
    (hv : (T.leaf va).has PTE_V) : (T.leaf va).pa ∈ pages (stored s) :=
  mem_pages_of_mem (user_mem_stored hT hva hv) (Multiset.mem_singleton_self _)

theorem pa_aligned (p : Pte) : p.pa % PGSIZE = 0 := Nat.mul_mod_left _ _

theorem rounddown_add {off : Nat} (h : pa % PGSIZE = 0) (ho : off < PGSIZE) :
    PGROUNDDOWN (pa + off) = pa := by
  rw [rounddown_eq_iff h]
  omega

theorem mod_lt_pgsize (va : Nat) : va % PGSIZE < PGSIZE := Nat.mod_lt _ (by decide)

theorem rounddown_byte (p : Pte) (va : Nat) : PGROUNDDOWN (p.pa + va % PGSIZE) = p.pa :=
  rounddown_add (pa_aligned p) (mod_lt_pgsize va)

/-! ## a store that is done -/

theorem storeAddr_some (h : storeAddr T va = some a) :
    va < MAXVA ∧ (T.leaf va).has PTE_V ∧ (T.leaf va).has PTE_U ∧ a = (T.leaf va).pa + va % PGSIZE := by
  obtain ⟨hc, h⟩ := Option.ite_none_right_eq_some.mp h
  exact ⟨hc.1, hc.2.1, hc.2.2.1, (Option.some.inj h).symm⟩

theorem view_some (h : s.userTable q = some T) : view s q v = readByte T (s.proc q).sz s.kmem.mem v := by
  rw [view, h]

theorem readByte_congr {mem' : Nat → Byte} (h : v < sz → (T.leaf v).has PTE_V →
      mem' ((T.leaf v).pa + v % PGSIZE) = mem ((T.leaf v).pa + v % PGSIZE)) :
    readByte T sz mem' v = readByte T sz mem v := by
  unfold readByte
  split
  · rename_i hc
    rw [h hc.1 hc.2.1]
  · rfl

theorem readByte_update : readByte T sz (update mem ((T.leaf v).pa + v % PGSIZE) b) v
      = (readByte T sz mem v).map fun _ => b := by
  unfold readByte
  split
  · rw [update_self]
    rfl
  · rfl

/-- a process reads the same when its record and the contents of its pages have not changed -/
theorem view_congr (hu : t.userTable q = s.userTable q) (hsz : (t.proc q).sz = (s.proc q).sz)
    (hm : ∀ T, s.userTable q = some T → v < (s.proc q).sz → (T.leaf v).has PTE_V →
      t.kmem.mem ((T.leaf v).pa + v % PGSIZE) = s.kmem.mem ((T.leaf v).pa + v % PGSIZE)) :
    view t q v = view s q v := by
  cases hT : s.userTable q with
  | none =>
    unfold view
    rw [hu, hT]
  | some T =>
    rw [view_some hT, view_some (hu.trans hT), hsz]
    exact readByte_congr (hm T hT)

theorem view_setMem
    (h : ∀ T, s.userTable q = some T → v < (s.proc q).sz → (T.leaf v).has PTE_V →
      mem ((T.leaf v).pa + v % PGSIZE) = s.kmem.mem ((T.leaf v).pa + v % PGSIZE)) :
    view (s.setMem mem) q v = view s q v := by
  exact view_congr rfl rfl h

theorem Space.lt_trapframe_of_user (h : Space L tf T) (hva : va < MAXVA)
    (hu : (T.leaf va).has PTE_U) : va < TRAPFRAME := by
  have hle : PGROUNDDOWN va ≤ va := Nat.div_mul_le_self va PGSIZE
  have hpage : PGROUNDDOWN va / PGSIZE = va / PGSIZE := Nat.mul_div_cancel _ (by decide)
  have h39 := lt_of_maxva hva
  have hlt := h.lt_of_user (lt_of_le_of_lt hle hva) (rounddown_mod va)
    (by rw [leaf_page (lt_of_le_of_lt hle h39) h39 hpage]; exact hu)
  by_contra hc
  exact trapframe_lt hlt (Nat.le_of_not_lt hc) hpage

theorem view_store (hs : WellFormed L s) (hT : s.userTable p = some T) (ha : storeAddr T va = some a)
    (hun : ∀ q, q ≠ p → (T.leaf va).pa ∉ s.mapped q) :
    view (s.setMem (update s.kmem.mem a b)) = update (view s) p
      (update (view s p) va ((view s p va).map fun _ => b)) := by
  obtain ⟨hmax, hv, hu, rfl⟩ := storeAddr_some ha
  obtain ⟨tf, hl⟩ := userTable_live hs.inv hT
  -- two bytes at one place of memory are on one page
  have hsame : ∀ (T' : Table 2) v, (T'.leaf v).pa + v % PGSIZE = (T.leaf va).pa + va % PGSIZE →
      (T'.leaf v).pa = (T.leaf va).pa := by
    intro T' v e
    rw [← rounddown_byte (T'.leaf v) v, e, rounddown_byte]
  funext q v
  by_cases hq : q = p
  · subst hq
    rw [update_self]
    by_cases hva : v = va
    · subst hva
      rw [update_self, view_some hT]
      have hT' : (s.setMem (update s.kmem.mem ((T.leaf v).pa + v % PGSIZE) b)).userTable q
          = some T := hT
      exact (view_some hT').trans readByte_update
    · rw [update_of_ne hva]
      refine view_setMem fun T' hT' hsz hv' => update_of_ne (fun e => hva ?_) _ _
      obtain rfl : T' = T := Option.some.inj (hT'.symm.trans hT)
      have hpa := hsame T' v e
      have hpage := hs.inj q T' hT v va (lt_of_lt_of_le hsz hl.size)
        (hl.space.lt_trapframe_of_user hmax hu) hv' hv hpa
      rw [hpa] at e
      simp only [PGSIZE] at *
      omega
  · rw [update_of_ne hq]
    refine view_setMem fun T' hT' hsz hv' => update_of_ne (fun e => ?_) _ _
    obtain ⟨tf', hl'⟩ := userTable_live hs.inv hT'
    refine hun q hq ?_
    rw [mapped_some hT', ← hsame T' v e]
    exact mem_users hv' (lt_of_lt_of_le hsz hl'.size)

theorem WellFormed.setMem (h : WellFormed L s) (mem : Nat → Byte) : WellFormed L (s.setMem mem) :=
  ⟨h.inv.set_mem mem, h.inj⟩

/-! ## a store fault -/

theorem graft_self {C : Table (n + 1)} {D : Table n} {i : Fin NPTE}
    (h : Node.ent C i = some D) : C.graft i D = C := by
  rw [Table.graft, ← h, update_eq_self]
  rfl

theorem walkFrom_present {C : Table n} (h : (C.get va).isSome) : walkFrom C va = .ret (C, true) := by
  induction n with
  | zero => rfl
  | succ n ih =>
    cases hC : Node.ent C (PX (n + 1) va) with
    | none => simp [Table.get, hC] at h
    | some D =>
      simp only [Table.get, hC] at h
      simp only [walkFrom, hC]
      rw [ih h]
      exact congrArg (fun X => Prog.ret (X, true)) (graft_self hC)

theorem mappages_present {perm : BitVec 10} (ha : va % PGSIZE = 0) (hmax : va < MAXVA)
    (h : (T.get va).isSome) (hv : (T.leaf va).has PTE_V = false) :
    mappages T va PGSIZE pa perm = .ret (T.put va (Pte.ofPa pa (perm ||| PTE_V)), true) := by
  rw [mappages_page ha]
  rw [mapLoop, walkAlloc, if_neg (Nat.not_le.mpr hmax), walkFrom_present h]
  simp only [pure_eq, bind_eq, ret_bind, hv]
  rfl

theorem memmove_next {dst src : Nat} {u : Unit} (h : sem L (.memmove dst src n) s = .next (u, t)) :
    ram dst n ∧ t = s.setMem (splice s.kmem.mem dst n fun i => s.kmem.mem (src + i)) := by
  have hsem : sem L (.memmove dst src n) s = if ram src n then
      touch dst n ((), s.setMem (splice s.kmem.mem dst n fun i => s.kmem.mem (src + i)))
      else .panic "kerneltrap" := rfl
  rw [hsem] at h
  unfold touch at h
  split at h
  · split at h
    · cases h
      exact ⟨‹_›, rfl⟩
    · cases h
  · cases h

theorem kalloc_mem {mem : Nat} {rest : List Nat} {k : Kmem} (h : k.freelist = mem :: rest)
    (hm : mem % PGSIZE = 0) (ha : PGROUNDDOWN a ≠ mem) : (kalloc L k).2.mem a = k.mem a := by
  have hk : (kalloc L k).2.mem = splice k.mem mem PGSIZE fun _ => 5 := by
    rw [kalloc, h]
    rfl
  rw [hk]
  rw [Ne, rounddown_eq_iff hm] at ha
  exact splice_out (by omega)

/-- what the fault handler does to memory when it copies the page at `va` to `mem` -/
structure PageCopy (s t : Sys) (T : Table 2) (va mem : Nat) : Prop where
  free : mem ∈ s.kmem.freelist
  proc : t.proc = s.proc
  out : t.out = s.out
  other : ∀ a, PGROUNDDOWN a ≠ mem → t.kmem.mem a = s.kmem.mem a
  copy : ∀ i, i < PGSIZE → t.kmem.mem (mem + i) = s.kmem.mem ((T.leaf va).pa + i)

theorem usertrapStore_run {stval : Nat} (hva : PGROUNDDOWN stval = va)
    (hfree : ∀ pa ∈ s.kmem.freelist, pa % PGSIZE = 0) (hleaf : va < MAXVA → CowFault T va → (T.leaf va).pa ∉ s.kmem.freelist)
    (h : (usertrapStore T x stval).run (sem L) s = .next (y, t)) :
    (y = x ∧ t = s) ∨ ∃ mem, va < MAXVA ∧ (T.get va).isSome ∧ CowFault T va ∧ PageCopy s t T va mem ∧
      y = { x with pagetable := some ((T.put va Pte.zero).put va ((T.leaf va).copied mem)) } := by
  have ha : va % PGSIZE = 0 := hva ▸ rounddown_mod stval
  unfold usertrapStore at h
  rw [hva] at h
  unfold walk at h
  split at h
  · cases h
  rename_i hmax
  have hmax' := Nat.lt_of_not_le hmax
  cases hg : T.get va with
  | none =>
    simp only [pure_eq, bind_eq, ret_bind, hg] at h
    cases h
  | some pte =>
    have hpte := leaf_of_get hg
    simp only [pure_eq, bind_eq, ret_bind, hg] at h
    split at h
    · rename_i hc
      simp only [Bool.and_eq_true] at hc
      obtain ⟨o, s1, h1, h⟩ := run_act h
      cases h1
      obtain ⟨u, s2, h2, h⟩ := run_act h
      obtain ⟨hram, rfl⟩ := memmove_next h2
      cases hfl : s.kmem.freelist with
      | nil =>
        have hnone : (kalloc L s.kmem).1 = none := by
          rw [kalloc, hfl]
        rw [hnone] at hram
        exact absurd hram.1 (by decide)
      | cons mem rest =>
        have hsome : (kalloc L s.kmem).1 = some mem := by
          rw [kalloc, hfl]
        have hin : mem ∈ s.kmem.freelist := hfl ▸ List.mem_cons_self
        rw [hsome] at h
        obtain ⟨u1, s3, h3, h⟩ := run_act h
        cases h3
        rw [Option.getD_some, mappages_present ha hmax' (by rw [isSome_get_put, hg]; rfl)
          (by rw [leaf_put (by rw [hg]; rfl) (lt_of_maxva hmax') (lt_of_maxva hmax'), if_pos rfl]
              exact Pte.zero_has _)] at h
        obtain ⟨u2, s4, h4, h⟩ := run_act h
        cases h4
        cases h
        have hcow : CowFault T va := by
          rw [CowFault, hpte]
          exact ⟨hc.1.1, hc.1.2, hc.2⟩
        refine .inr ⟨mem, hmax', rfl, hcow, ⟨hin, rfl, rfl, ?_, ?_⟩, ?_⟩
        · intro a ha'
          show splice (kalloc L s.kmem).2.mem mem PGSIZE
            (fun i => (kalloc L s.kmem).2.mem (pte.pa + i)) a = _
          rw [splice_out, kalloc_mem hfl (hfree mem hin) ha']
          rw [Ne, rounddown_eq_iff (hfree mem hin)] at ha'
          omega
        · intro i hi
          show splice (kalloc L s.kmem).2.mem mem PGSIZE
            (fun i => (kalloc L s.kmem).2.mem (pte.pa + i)) (mem + i) = _
          rw [splice_in (Nat.le_add_right _ _) (Nat.add_lt_add_left hi mem), Nat.add_sub_cancel_left,
            kalloc_mem hfl (hfree mem hin), hpte]
          rw [rounddown_add (pa_aligned pte) hi, ← hpte]
          exact fun e => hleaf hmax' hcow (e ▸ hin)
        · rw [hpte]
          simp [Pte.copied]
    · cases h
      exact .inl ⟨rfl, rfl⟩

theorem free_notMem (h : Inv L m s r) (hpa : pa ∈ s.kmem.freelist) : pa ∉ pages (r + stored s) := by
  intro hm
  have := ((h.kmem.page pa (h.kmem.range pa hpa)).free hpa).1
  exact absurd (Multiset.count_pos.mpr hm) (by omega)

theorem Pte.copied_has_u {p : Pte} (mem : Nat) (h : p.has PTE_U) : (p.copied mem).has PTE_U := by
  rw [p.copied_has mem (by decide), h]
  rfl

/-- the page at `va` has moved to `mem` -/
structure Moved (T T' : Table 2) (va mem : Nat) : Prop where
  here : ∀ v, v < 2 ^ 39 → va / PGSIZE = v / PGSIZE → T'.leaf v = (T.leaf v).copied mem
  other : ∀ v, v < 2 ^ 39 → va / PGSIZE ≠ v / PGSIZE → T'.leaf v = T.leaf v

theorem moved_put {mem : Nat} (hg : (T.get va).isSome) (hmax : va < MAXVA) :
    Moved T ((T.put va Pte.zero).put va ((T.leaf va).copied mem)) va mem := by
  have h39 := lt_of_maxva hmax
  have hg' : ((T.put va Pte.zero).get va).isSome := by
    rwa [isSome_get_put]
  refine ⟨fun v hv e => ?_, fun v hv e => ?_⟩
  · rw [leaf_put hg' h39 hv, if_pos e, leaf_page h39 hv e]
  · rw [leaf_put hg' h39 hv, if_neg e, leaf_put hg h39 hv, if_neg e]

theorem Inj.moved {mem : Nat} (h : Inj T) (hm : Moved T T' va mem)
    (hal : mem % PGSIZE = 0) (hnew : ∀ v, v < TRAPFRAME → (T.leaf v).has PTE_V → (T.leaf v).pa ≠ mem) :
    Inj T' := by
  intro v w hv hw hvv hwv e
  have h39 : TRAPFRAME < 2 ^ 39 := by decide
  have hpa : ∀ p : Pte, (p.copied mem).pa = mem := fun p => Pte.ofPa_pa hal
  by_cases h1 : va / PGSIZE = v / PGSIZE
  · by_cases h2 : va / PGSIZE = w / PGSIZE
    · exact h1.symm.trans h2
    · rw [hm.other w (hw.trans h39) h2] at e hwv
      rw [hm.here v (hv.trans h39) h1, hpa] at e
      exact absurd e.symm (hnew w hw hwv)
  · rw [hm.other v (hv.trans h39) h1] at e hvv
    by_cases h2 : va / PGSIZE = w / PGSIZE
    · rw [hm.here w (hw.trans h39) h2, hpa] at e
      exact absurd e (hnew v hv hvv)
    · rw [hm.other w (hw.trans h39) h2] at e hwv
      exact h v w hv hw hvv hwv e

theorem readByte_moved {mem : Nat} (hm : Moved T T' va mem)
    (hal : mem % PGSIZE = 0) (hcow : CowFault T va) (hmax : va < MAXVA) (hsz : sz ≤ TRAPFRAME)
    (hc : PageCopy s t T va mem)
    (hnew : ∀ v, v < TRAPFRAME → (T.leaf v).has PTE_V → (T.leaf v).pa ≠ mem) :
    readByte T' sz t.kmem.mem v = readByte T sz s.kmem.mem v := by
  have h39 : TRAPFRAME < 2 ^ 39 := by decide
  unfold readByte
  by_cases hv : v < sz
  · have hvt : v < TRAPFRAME := lt_of_lt_of_le hv hsz
    by_cases h1 : va / PGSIZE = v / PGSIZE
    · have hleaf : T.leaf v = T.leaf va := leaf_page (hvt.trans h39) (lt_of_maxva hmax) h1.symm
      rw [hm.here v (hvt.trans h39) h1, hleaf,
        if_pos ⟨hv, Pte.copied_has_v _ _, Pte.copied_has_u _ hcow.2.1⟩, if_pos ⟨hv, hcow.1, hcow.2.1⟩,
        show ((T.leaf va).copied mem).pa = mem from Pte.ofPa_pa hal, hc.copy _ (mod_lt_pgsize v)]
    · rw [hm.other v (hvt.trans h39) h1]
      exact readByte_congr fun _ hV => hc.other _ (by rw [rounddown_byte]; exact hnew v hvt hV)
  · rw [if_neg fun h => hv h.1, if_neg fun h => hv h.1]

theorem setOut_back (h : s.out p = false) :
    (s.setOut p true (s.proc p)).setOut p false (s.proc p) = s := by
  have ho : update (update s.out p true) p false = s.out := by
    rw [update_idem, ← h, update_eq_self]
  have hp : update (update s.proc p (s.proc p)) p (s.proc p) = s.proc := by
    rw [update_idem, update_eq_self]
  unfold Sys.setOut
  rw [ho, hp]

theorem Inv.mode {m' : Mode} {sh : Bool} (h : Inv L m s r sh) (hl : m.leak = m'.leak) : Inv L m' s r sh :=
  ⟨hl ▸ h.kmem, h.slots, h.files⟩

theorem Inv.enter (h : Inv L m s 0) (hT : s.userTable p = some T) (htf : (s.proc p).trapframe = some tf) :
    Live L (s.proc p) T tf ∧
      Inv L m (s.setOut p true (s.proc p)) ({.slot p} + recTok (s.proc p) + (0 + 0)) := by
  obtain ⟨hout, hst, hpt⟩ := userTable_some hT
  have hrun : (s.proc p).state ≠ .unused := by
    rw [hst]
    decide
  have hinv : Inv L m s (0 + 0) := h
  obtain ⟨hi, -⟩ := hinv.take hout hrun
  rw [zero_add] at hi
  rw [add_zero]
  exact ⟨(h.slots.ok p hout).live_of hst hpt htf, hi⟩

theorem setOut_proc_self {b : Bool} : (s.setOut p b y).proc p = y := update_self ..

theorem setOut_proc_of_ne {b : Bool} (hq : q ≠ p) : (s.setOut p b y).proc q = s.proc q :=
  update_of_ne hq ..

theorem userTable_setOut {b : Bool} (hq : q ≠ p) : (s.setOut p b y).userTable q = s.userTable q := by
  unfold Sys.userTable Sys.setOut
  simp only [update_of_ne hq]

theorem userTable_setOut_self (hst : y.state = .runnable) :
    (s.setOut p false y).userTable p = y.pagetable := by
  unfold Sys.userTable Sys.setOut
  simp only [update_self]
  rw [if_pos ⟨trivial, hst⟩]

theorem WellFormed.free_notMem (hs : WellFormed L s) (hpa : pa ∈ s.kmem.freelist)
    (hT : s.userTable q = some T) (hva : va < TRAPFRAME) (hv : (T.leaf va).has PTE_V) :
    (T.leaf va).pa ≠ pa := by
  intro e
  have h := Vm.free_notMem hs.inv hpa
  rw [zero_add] at h
  exact h (e ▸ mem_pages_stored hT hva hv)

theorem copy_view {mem : Nat} (hs : WellFormed L s)
    (hT : s.userTable p = some T) (hc : PageCopy (s.setOut p true (s.proc p)) u T va mem)
    (hm : Moved T T' va mem) (hcow : CowFault T va) (hmax : va < MAXVA) (hst : y.state = .runnable)
    (hpt : y.pagetable = some T') (hsz : y.sz = (s.proc p).sz) :
    (∀ q Tq, (u.setOut p false y).userTable q = some Tq → Inj Tq) ∧
      view (u.setOut p false y) = view s := by
  have hin : mem ∈ s.kmem.freelist := hc.free
  have hal : mem % PGSIZE = 0 := (hs.inv.kmem.range mem hin).1
  have hnew : ∀ {q Tq}, s.userTable q = some Tq → ∀ v, v < TRAPFRAME → (Tq.leaf v).has PTE_V →
      (Tq.leaf v).pa ≠ mem := fun hTq v hv hV => hs.free_notMem hin hTq hv hV
  have hother : ∀ q, q ≠ p → (u.setOut p false y).userTable q = s.userTable q := by
    intro q hq
    rw [userTable_setOut hq, ← userTable_setOut (s := s) hq]
    unfold Sys.userTable
    rw [hc.proc, hc.out]
  have hself : (u.setOut p false y).userTable p = some T' := (userTable_setOut_self hst).trans hpt
  refine ⟨fun q Tq hTq => ?_, funext fun q => funext fun v => ?_⟩
  · by_cases hq : q = p
    · subst hq
      cases hself.symm.trans hTq
      exact (hs.inj q T hT).moved hm hal (hnew hT)
    · rw [hother q hq] at hTq
      exact hs.inj q Tq hTq
  · by_cases hq : q = p
    · subst hq
      obtain ⟨tf, hl⟩ := userTable_live hs.inv hT
      rw [view_some hT, view_some hself, setOut_proc_self, hsz]
      exact readByte_moved (s := s.setOut q true (s.proc q)) (t := u) hm hal hcow hmax hl.size hc
        (hnew hT)
    · refine view_congr (hother q hq) ?_ fun Tq hTq hv hV => hc.other _ ?_
      · rw [setOut_proc_of_ne hq, hc.proc, setOut_proc_of_ne hq]
      · obtain ⟨tfq, hlq⟩ := userTable_live hs.inv hTq
        rw [rounddown_byte]
        exact hnew hTq v (lt_of_lt_of_le hv hlq.size) hV

/-- what a fault comes to: nothing, or a copy of the page in the table of `p` -/
theorem fault_cases {stval : Nat} (hs : WellFormed L s) (hT : s.userTable p = some T)
    (hl : Live L (s.proc p) T tf)
    (h : (kernelThread L p (s.proc p) T tf (.storeFault stval)).run (sem L)
      (s.setOut p true (s.proc p)) = .next (PUnit.unit, t)) :
    t = s ∨ ∃ mem u, PGROUNDDOWN stval < MAXVA ∧ CowFault T (PGROUNDDOWN stval) ∧
      PageCopy (s.setOut p true (s.proc p)) u T (PGROUNDDOWN stval) mem ∧
      ∃ T', Moved T T' (PGROUNDDOWN stval) mem ∧
        t = u.setOut p false { s.proc p with pagetable := some T' } := by
  obtain ⟨y, u, h1, h2⟩ := run_bind h
  obtain ⟨_, t', h3, h4⟩ := run_act h2
  cases h3
  cases h4
  rcases usertrapStore_run (s := s.setOut p true (s.proc p)) rfl
    (fun pa hpa => (hs.inv.kmem.range pa hpa).1)
    (fun hmax hc hin => hs.free_notMem hin hT (hl.space.lt_trapframe_of_user hmax hc.2.1) hc.1 rfl) h1
    with ⟨rfl, rfl⟩ | ⟨mem, hmax, hg, hcow, hc, rfl⟩
  · exact .inl (setOut_back (userTable_some hT).1)
  · exact .inr ⟨mem, u, hmax, hcow, hc, _, moved_put hg hmax, rfl⟩

theorem fault_view {stval : Nat} (hs : WellFormed L s) (hT : s.userTable p = some T)
    (htf : (s.proc p).trapframe = some tf)
    (h : (kernelThread L p (s.proc p) T tf (.storeFault stval)).run (sem L)
      (s.setOut p true (s.proc p)) = .next (PUnit.unit, t)) : WellFormed L t ∧ view t = view s := by
  obtain ⟨hlive, hi⟩ := hs.inv.enter hT htf
  have hinv : Inv L ⟨true, true⟩ t 0 := by
    have hi' : Inv L ⟨true, false⟩ _ _ := hi.mode rfl
    have hfits : (Call.storeFault stval).Fits ⟨true, false⟩ T := .inl rfl
    obtain ⟨r', hX, hit, -⟩ := (kernelThread_safe rfl hlive hfits).run hi' h
    exact (hit.forget hX).mode rfl
  rcases fault_cases hs hT hlive h with rfl | ⟨mem, u, hmax, hcow, hc, T', hm, rfl⟩
  · exact ⟨hs, rfl⟩
  · obtain ⟨hinj, hview⟩ := copy_view (y := { s.proc p with pagetable := some T' }) hs hT hc hm hcow
      hmax hlive.state rfl rfl
    exact ⟨⟨hinv, hinj⟩, hview⟩

/-! ## `fork` -/

theorem WellFormed.out (hs : WellFormed L s) (q : Slot) : s.out q = false := by
  have h := hs.inv.slots.out q
  rw [Multiset.count_zero] at h
  cases ho : s.out q with
  | false => rfl
  | true =>
    rw [ho, if_pos rfl] at h
    omega

theorem setOut_out_of_ne {b : Bool} (hq : q ≠ p) : (s.setOut p b y).out q = s.out q :=
  update_of_ne hq ..

section
variable {w : Sys} {B : Ledger}

theorem kept_userTable (hs : WellFormed L s) (hk : Kept B (s.setOut p true (s.proc p)) w) (hq : q ≠ p) :
    w.userTable q = s.userTable q ∧ ∀ T, s.userTable q = some T → w.proc q = s.proc q := by
  have hslots := hk.slots q
  rw [setOut_out_of_ne hq, setOut_proc_of_ne hq] at hslots
  cases hT : s.userTable q with
  | some T =>
    have hst := (userTable_some hT).2.1
    obtain ⟨ho, hp⟩ := hslots (hs.out q) (by rw [hst]; decide)
    refine ⟨?_, fun _ _ => hp⟩
    unfold Sys.userTable at hT ⊢
    rw [hp, ho]
    rwa [hs.out q] at hT
  | none =>
    refine ⟨?_, fun T h => (nomatch h)⟩
    have hother := hk.other q
    rw [setOut_proc_of_ne hq] at hother
    unfold Sys.userTable at hT ⊢
    rcases hother with e | e | e
    · rw [e]
      rw [hs.out q] at hT
      split
      · rename_i hc
        rwa [if_pos ⟨rfl, hc.2⟩] at hT
      · rfl
    · rw [e, if_neg fun h => (nomatch h.2)]
    · rw [e, if_neg fun h => (nomatch h.2)]

theorem kept_view (hs : WellFormed L s) (hk : Kept B (s.setOut p true (s.proc p)) w) (hq : q ≠ p) :
    view w q = view s q := by
  obtain ⟨hu, hp⟩ := kept_userTable hs hk hq
  funext v
  cases hT : s.userTable q with
  | none =>
    unfold view
    rw [hu, hT]
  | some T =>
    obtain ⟨tf, hl⟩ := userTable_live hs.inv hT
    refine view_congr hu (by rw [hp T hT]) fun T' hT' hv hV => hk.mem _ ?_
    rw [rounddown_byte, map_add]
    refine Multiset.mem_add.mpr (.inr (mem_pages_stored (q := q) ?_ (lt_of_lt_of_le ?_ hl.size) hV))
    · rwa [userTable_setOut hq]
    · exact hv

theorem kept_readByte {sz v : Nat} (hl : Live L (s.proc p) T tf) (hB : recTok (s.proc p) ≤ B)
    (hk : Kept B (s.setOut p true (s.proc p)) w) (hsz : sz ≤ TRAPFRAME) :
    readByte T sz w.kmem.mem v = readByte T sz s.kmem.mem v := by
  refine readByte_congr fun hv hV => hk.mem _ ?_
  have hmem : Token.user (T.leaf v).pa ∈ B :=
    Multiset.mem_of_le hB (mem_recTok_user hl.pagetable (mem_users hV (lt_of_lt_of_le hv hsz)))
  rw [rounddown_byte]
  exact mem_pages_of_mem (Multiset.mem_add.mpr (.inl hmem)) (Multiset.mem_singleton_self _)

end

theorem Pte.shared_has_u (p : Pte) : p.shared.has PTE_U = p.has PTE_U := by
  rw [p.shared_has (by decide), Bool.or_assoc]
  exact Bool.or_false _

theorem le_pages (sz : Nat) : sz ≤ (sz + PGSIZE - 1) / PGSIZE * PGSIZE := le_roundup sz

/-- a PTE of the child below `TRAPFRAME` is that of the parent, or none -/
theorem Shared.leaf (h : Shared T N sz) (hv : v < TRAPFRAME)
    (hV : (N.leaf v).has PTE_V) : (N.leaf v).pa = (T.leaf v).pa ∧ (T.leaf v).has PTE_V := by
  obtain ⟨N0, hb, hc⟩ := h
  have h39 : TRAPFRAME < 2 ^ 39 := by decide
  have hleaf := hc.leaf v (hv.trans h39)
  split at hleaf
  · rename_i hr
    rw [hleaf, Pte.shared_pa]
    exact ⟨rfl, hc.valid v hr.1 hr.2⟩
  · rw [hleaf, hb v hv, Pte.zero_has] at hV
    cases hV

theorem Inj.shared (h : Inj T) (hc : Shared T N sz) : Inj N := by
  intro v w hv hw hvv hwv e
  obtain ⟨e1, h1⟩ := hc.leaf hv hvv
  obtain ⟨e2, h2⟩ := hc.leaf hw hwv
  rw [e1, e2] at e
  exact h v w hv hw h1 h2 e

theorem readByte_shared (h : Shared T N sz)
    (hsz : sz ≤ TRAPFRAME) : readByte N sz mem v = readByte T sz mem v := by
  obtain ⟨N0, -, hc⟩ := h
  have h39 : TRAPFRAME < 2 ^ 39 := by decide
  unfold readByte
  by_cases hv : v < sz
  · have hr := lt_of_lt_of_le hv (le_pages sz)
    have hleaf := hc.leaf v (by omega)
    rw [if_pos ⟨Nat.zero_le v, by omega⟩] at hleaf
    have hV := hc.valid v (Nat.zero_le v) (by omega)
    rw [hleaf, Pte.shared_has_u, Pte.shared_pa]
    simp only [Pte.shared_has_v, hV]
  · rw [if_neg fun h => hv h.1, if_neg fun h => hv h.1]

theorem view_setOut {b : Bool} (hq : q ≠ p) : view (s.setOut p b y) q = view s q := by
  funext v
  rw [view, userTable_setOut hq, setOut_proc_of_ne hq]
  rfl

theorem forkAlone_inv (hs : WellFormed L s) (hT : s.userTable p = some T)
    (htf : (s.proc p).trapframe = some tf)
    (h : ((fork L p T tf (s.proc p)).bind fun o => (Act.putback p (s.proc p)).bind fun _ => .ret o).run
      (sem L) (s.setOut p true (s.proc p)) = .next (o, t)) : Inv L ⟨true, true⟩ t 0 := by
  obtain ⟨hlive, hi⟩ := hs.inv.enter hT htf
  have hB : T.users.map .user ≤ 0 + ({.slot p} + recTok (s.proc p)) := by
    rw [zero_add]
    exact hlive.users_le.trans (Multiset.le_add_left _ _)
  have hsafe : Safe (machine L ⟨true, false⟩) 0
      ((fork L p T tf (s.proc p)).bind fun o => (Act.putback p (s.proc p)).bind fun _ => .ret o)
      ({.slot p} + recTok (s.proc p)) fun _ r => r = 0 := by
    refine Safe.callLend (fork_safe rfl hB hlive.space.leafy hlive.size hlive.shape) (zero_add _).symm ?_
    rintro o _ rfl
    rw [zero_add]
    refine Safe.bind (putback_safe hlive.recOk (not_strict rfl)) ?_
    rintro _ _ rfl
    exact Safe.ret rfl
  have hi' : Inv L ⟨true, false⟩ _ _ := hi.mode rfl
  obtain ⟨_, rfl, hit, -⟩ := hsafe.run hi' h
  exact hit.mode rfl

theorem back_view {V : Slot → Nat → Option Byte} (hT : s.userTable p = some T)
    (hother : ∀ q, q ≠ p → view u q = V q) (hp : V p = view s p)
    (hmem : ∀ v, readByte T (s.proc p).sz u.kmem.mem v = readByte T (s.proc p).sz s.kmem.mem v) :
    view (u.setOut p false (s.proc p)) = V := by
  obtain ⟨-, hst, hpt⟩ := userTable_some hT
  funext q
  by_cases hq : q = p
  · subst hq
    have hself := (userTable_setOut_self (s := u) (p := q) hst).trans hpt
    funext v
    rw [hp, view_some hT, view_some hself, setOut_proc_self]
    exact hmem v
  · rw [view_setOut hq]
    exact hother q hq

theorem back_inj (hs : WellFormed L s) (hT : s.userTable p = some T)
    (hother : ∀ q Tq, q ≠ p → u.userTable q = some Tq → Inj Tq) (q : Slot) (Tq : Table 2)
    (hTq : (u.setOut p false (s.proc p)).userTable q = some Tq) : Inj Tq := by
  by_cases hq : q = p
  · subst hq
    obtain ⟨-, hst, hpt⟩ := userTable_some hT
    cases ((userTable_setOut_self hst).trans hpt).symm.trans hTq
    exact hs.inj q T hT
  · rw [userTable_setOut hq] at hTq
    exact hother q Tq hq hTq

/-- what `forkAlone` comes to: the parent gets its record back, and before that the child its own -/
theorem forkAlone_cases (hs : WellFormed L s) (h : forkAlone L s p = .next (o, t)) :
    ∃ T tf w, s.userTable p = some T ∧ Live L (s.proc p) T tf ∧ Inv L ⟨true, true⟩ t 0 ∧
      Kept ({.slot p} + recTok (s.proc p)) (s.setOut p true (s.proc p)) w ∧
      ((o = none ∧ t = w.setOut p false (s.proc p)) ∨
        ∃ q Tq tfq, o = some q ∧ q ≠ p ∧ Shared T Tq (s.proc p).sz ∧
          t = ({ w with parent := update w.parent q (some p) }.setOut q false
            ((s.proc p).child Tq tfq)).setOut p false (s.proc p)) := by
  unfold forkAlone at h
  split at h
  swap
  · cases h
  rename_i T tf hT htf
  have hinv := forkAlone_inv hs hT htf h
  obtain ⟨hlive, hi⟩ := hs.inv.enter hT htf
  obtain ⟨_, u, h1, h2⟩ := run_bind h
  obtain ⟨_, _, h3, h4⟩ := run_act h2
  cases h3
  cases h4
  obtain ⟨c, w, h1, h2⟩ := run_bind h1
  have hB : T.users.map .user ≤ {.slot p} + recTok (s.proc p) :=
    hlive.users_le.trans (Multiset.le_add_left _ _)
  have hi0 : Inv L ⟨true, true⟩ (s.setOut p true (s.proc p))
      (0 + ({.slot p} + recTok (s.proc p) + 0)) := by
    rw [zero_add]
    exact hi
  obtain ⟨r, hc, hiw, hk⟩ := (forkCopy_safe (M := machine L ⟨true, true⟩) hB hlive.space.leafy hlive.size
    hlive.shape fun h => absurd h Bool.false_ne_true).run hi0 h1
  have hk := hk rfl
  rw [add_zero] at hk
  refine ⟨T, tf, w, hT, hlive, hinv, hk, ?_⟩
  match c, hc with
  | none, _ =>
    cases h2
    exact .inl ⟨rfl, rfl⟩
  | some (q, Tq, tfq), ⟨hr, _, hsh⟩ =>
    obtain ⟨_, _, h3, h2⟩ := run_act h2
    cases h3
    obtain ⟨_, _, h3, h2⟩ := run_act h2
    cases h3
    cases h2
    have hqp : q ≠ p := by
      rintro rfl
      have hcount := hiw.slots.out q
      rw [hr] at hcount
      simp only [Multiset.count_add, Multiset.count_singleton_self] at hcount
      split at hcount <;> omega
    exact .inr ⟨q, Tq, tfq, rfl, hqp, hsh, rfl⟩

theorem userTable_child {w : Sys} {x : Proc} {f : Slot → Option Slot} {Tq : Table 2} {tfq : Nat} :
    ({ w with parent := f }.setOut q false (x.child Tq tfq)).userTable q = some Tq :=
  userTable_setOut_self rfl

theorem fork_view (hs : WellFormed L s) (h : forkAlone L s p = .next (o, t)) :
    WellFormed L t ∧ view t = inherit (view s) p o := by
  obtain ⟨T, tf, w, hT, hlive, hinv, hk, hcase⟩ := forkAlone_cases hs h
  have hmem : ∀ v, readByte T (s.proc p).sz w.kmem.mem v = readByte T (s.proc p).sz s.kmem.mem v := by
    intro v
    exact kept_readByte hlive (Multiset.le_add_left _ _) hk hlive.size
  have hinj : ∀ q Tq, q ≠ p → w.userTable q = some Tq → Inj Tq := by
    intro q Tq hq hTq
    rw [(kept_userTable hs hk hq).1] at hTq
    exact hs.inj q Tq hTq
  rcases hcase with ⟨rfl, rfl⟩ | ⟨q, Tq, tfq, rfl, hqp, hsh, rfl⟩
  · exact ⟨⟨hinv, back_inj hs hT hinj⟩, back_view hT (fun q hq => kept_view hs hk hq) rfl hmem⟩
  refine ⟨⟨hinv, back_inj hs hT fun j Tj hj hTj => ?_⟩,
    back_view hT (fun j hj => ?_) (update_of_ne hqp.symm ..) hmem⟩
  · by_cases hjq : j = q
    · subst hjq
      cases userTable_child.symm.trans hTj
      exact (hs.inj p T hT).shared hsh
    · rw [userTable_setOut hjq] at hTj
      exact hinj j Tj hj hTj
  · show _ = update (view s) q (view s p) j
    by_cases hjq : j = q
    · subst hjq
      rw [update_self]
      funext v
      rw [view_some userTable_child, setOut_proc_self, view_some hT]
      exact (readByte_shared hsh hlive.size).trans (hmem v)
    · rw [update_of_ne hjq, view_setOut hjq]
      exact kept_view (w := w) hs hk hj

/-! ## runs -/

theorem storeAlone_cases {o : Bool} (h : storeAlone L s p va b = .next (o, t)) :
    ∃ T tf, s.userTable p = some T ∧ (s.proc p).trapframe = some tf ∧
      ((∃ a, storeAddr T va = some a ∧ o = true ∧ t = s.setMem (update s.kmem.mem a b)) ∨
        (storeAddr T va = none ∧ o = false ∧ (kernelThread L p (s.proc p) T tf (.storeFault va)).run
          (sem L) (s.setOut p true (s.proc p)) = .next (PUnit.unit, t))) := by
  unfold storeAlone at h
  split at h
  swap
  · cases h
  rename_i T tf hT htf
  refine ⟨T, tf, hT, htf, ?_⟩
  split at h
  · rename_i a ha
    cases h
    exact .inl ⟨a, ha, rfl, rfl⟩
  · rename_i ha
    obtain ⟨_, u, h1, h2⟩ := run_bind h
    cases h2
    exact .inr ⟨ha, rfl, h1⟩

theorem storeAlone_wellFormed {o : Bool} (hs : WellFormed L s)
    (h : storeAlone L s p va b = .next (o, t)) : WellFormed L t := by
  obtain ⟨T, tf, hT, htf, ⟨a, -, -, rfl⟩ | ⟨-, -, hrun⟩⟩ := storeAlone_cases h
  · exact hs.setMem _
  · exact (fault_view hs hT htf hrun).1

theorem store_view {o : Bool} (hs : WellFormed L s)
    (hun : Unshared s (.store p va b)) (h : storeAlone L s p va b = .next (o, t)) :
    view t = if o then update (view s) p
      (update (view s p) va ((view s p va).map fun _ => b)) else view s := by
  obtain ⟨T, tf, hT, htf, ⟨a, ha, rfl, rfl⟩ | ⟨-, rfl, hrun⟩⟩ := storeAlone_cases h
  · exact view_store hs hT ha (hun T hT (by rw [ha]; rfl))
  · exact (fault_view hs hT htf hrun).2

theorem watch_view {w w' : Watched} {e : Access} (hs : WellFormed L w.sys) (he : view w.sys = w.expect)
    (hun : Unshared w.sys e) (h : watch L w e = .next w') :
    WellFormed L w'.sys ∧ view w'.sys = w'.expect := by
  cases e with
  | fork p =>
    simp only [watch] at h
    split at h
    · rename_i hf
      cases h
      rw [← he]
      exact fork_view hs hf
    · cases h
    · cases h
  | store p va b =>
    simp only [watch] at h
    split at h
    · rename_i hf
      cases h
      rw [← he]
      exact ⟨storeAlone_wellFormed hs hf, store_view hs hun hf⟩
    · rename_i hf
      cases h
      rw [← he]
      exact ⟨storeAlone_wellFormed hs hf, store_view hs hun hf⟩
    · cases h
    · cases h

theorem watch_run {w : Watched} {es : List Access} (hs : WellFormed L s)
    (hes : Along (watch L) (fun w e => Unshared w.sys e) ⟨s, view s⟩ es)
    (h : Run.exec (watch L) ⟨s, view s⟩ es = .next w) : WellFormed L w.sys ∧ view w.sys = w.expect :=
  exec_inv (fun w => WellFormed L w.sys ∧ view w.sys = w.expect)
    (fun _ _ _ hw hun hstep => watch_view hw.1 hw.2 hun hstep) ⟨hs, rfl⟩ hes h

/-- **Isolation.**  After any run of forks and stores in which a store that is done directly never
goes to a page of another process, every process reads what it inherited or stored itself. -/
theorem cow_isolation {w : Watched} {es : List Access} (hs : WellFormed L s)
    (hes : Along (watch L) (fun w e => Unshared w.sys e) ⟨s, view s⟩ es)
    (h : Run.exec (watch L) ⟨s, view s⟩ es = .next w) : view w.sys = w.expect :=
  (watch_run hs hes h).2

/-! ## the small machine -/

theorem inj_of_nodup (h : T.users.Nodup) : Inj T := by
  intro v w hv hw hvv hwv e
  by_contra hne
  have h39 : TRAPFRAME < 2 ^ 39 := by decide
  obtain ⟨hs, hu⟩ := users_put_zero hvv hv
  have hleaf : (T.put v Pte.zero).leaf w = T.leaf w := by
    rw [leaf_put hs (hv.trans h39) (hw.trans h39), if_neg hne]
  have hmem := mem_users (hleaf.symm ▸ hwv) hw
  rw [hleaf] at hmem
  rw [← hu, e] at h
  exact Multiset.disjoint_left.mp (Multiset.disjoint_of_nodup_add h) hmem (Multiset.mem_singleton_self _)

theorem Inv.leaky (h : Inv L m s r) : Inv L ⟨true, true⟩ s r := by
  refine ⟨⟨h.kmem.nodup, h.kmem.range, h.kmem.owned, fun pa hpa => ?_⟩, h.slots, h.files⟩
  have hp := h.kmem.page pa hpa
  exact ⟨hp.free, hp.counted, hp.single, fun hl => (nomatch hl)⟩

theorem wellFormed_boot {k : Kmem} {kpages : Nat} {initcode : Buf} (hk : kinit L mem = .next k)
    (hb : (boot L kpages initcode).run (sem L) (Sys.start k) = .next (T, s))
    (hT : (T.leaf 0).has PTE_V) (hm : ∀ q, (s.mapped q).Nodup) : WellFormed L s := by
  refine ⟨(inv_boot hk hb hT).leaky, fun q T' hT' => inj_of_nodup ?_⟩
  rw [← mapped_some hT']
  exact hm q

def Booted (s : Sys) : Prop := ∃ k T, kinit smallLayout (fun _ => 0) = .next k ∧
  (boot smallLayout 3 fun _ => 0).run (sem smallLayout) (Sys.start k) = .next (T, s)

theorem booted_of_check {p : Sys → Prop} [DecidablePred p]
    (h : (bootRun smallLayout 3 (fun _ => 0) (fun _ => 0) []).check (fun x => (x.2.1.leaf 0).has PTE_V ∧
      (∀ q, (x.2.2.1.mapped q).Nodup) ∧ p x.2.2.1) = true) : ∃ s, Booted s ∧ WellFormed smallLayout s ∧ p s := by
  obtain ⟨⟨k, T, s, c⟩, hrun, hT, hm, hp⟩ := exists_of_check h
  obtain ⟨hk, hb, -⟩ := bootRun_next hrun
  exact ⟨s, ⟨k, T, hk, hb⟩, wellFormed_boot hk hb hT hm, hp⟩

/-- the child of the first process stores twice: the first time it faults -/
theorem cow_isolation_child : ∃ s w, Booted s ∧
    Run.exec (watch smallLayout) ⟨s, view s⟩ [.fork initproc, .store child 0 7, .store child 0 7] = .next w ∧
    view w.sys child 0 = some 7 ∧ view w.sys = w.expect := by
  obtain ⟨s, hb, hwell, hal, hw⟩ := booted_of_check
    (p := fun s => alongCheck (watch smallLayout) (fun w e => Unshared w.sys e) ⟨s, view s⟩
        [.fork initproc, .store child 0 7, .store child 0 7] ∧
      (Run.exec (watch smallLayout) ⟨s, view s⟩ [.fork initproc, .store child 0 7, .store child 0 7]).check
        (fun w => view w.sys child 0 = some 7)) (by decide +kernel)
  obtain ⟨w, hw, hv⟩ := exists_of_check hw
  exact ⟨s, w, hb, hw, hv, cow_isolation hwell (along_of_check hal) hw⟩

/-- the first process forks and stores: its child reads the byte -/
theorem fork_leaves_writable : ∃ s w, Booted s ∧ WellFormed smallLayout s ∧
    Run.exec (watch smallLayout) ⟨s, view s⟩ [.fork initproc, .store initproc 0 7] = .next w ∧
    w.expect child 0 = some 0 ∧ view w.sys child 0 = some 7 := by
  obtain ⟨s, hb, hwell, hw⟩ := booted_of_check
    (p := fun s => (Run.exec (watch smallLayout) ⟨s, view s⟩ [.fork initproc, .store initproc 0 7]).check
      (fun w : Watched => w.expect child 0 = some 0 ∧ view w.sys child 0 = some 7)) (by decide +kernel)
  obtain ⟨w, hw, hv⟩ := exists_of_check hw
  exact ⟨s, w, hb, hwell, hw, hv.1, hv.2⟩

end

end Vm
