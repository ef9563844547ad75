import Xv6.Vm.ProcessSafe

/-!
# What the system calls do with the address space they run in

`exec` builds a second address space and then takes one of the two apart; `sbrk` and the store fault
change the one the process has.

* `sysExec_safe`, `sysSbrk_safe`    give the record back with all its pages;
* `usertrapStore_safe`              keeps one reference to the copied page too many;
* `kvminit_safe`, `userinit_safe`   booting.
-/

namespace Vm
open Run Bytes Prog Own Table List Multiset Bool

section
variable {L : Layout} {sh : Bool} {T : Table 2} {tf : Nat} {x : Proc}

/-- the record `y` of a process that goes on, with its tokens -/
def Goes (L : Layout) (tf : Nat) (y : Proc) (r : Ledger) (sh : Bool := false) : Prop :=
  r = recTok y ∧ ∃ T, Live L y T tf sh

theorem Live.goes (h : Live L x T tf sh) : Goes L tf x (recTok x) sh := ⟨rfl, T, h⟩

theorem Live.setTable {T' : Table 2} {sz : Nat} (h : Live L x T tf sh) (hS : Space L tf T')
    (hsz : sz ≤ TRAPFRAME) (hsh : sh = true → Shape L T' sz) :
    Live L { x with pagetable := some T', sz := sz } T' tf sh :=
  ⟨h.state, rfl, h.trapframe, hS, hsz, hsh⟩

theorem Live.tok_setTable {T' : Table 2} {sz : Nat} (h : Live L x T tf sh) :
    recTok { x with pagetable := some T', sz := sz } = tableTok T' + ({.priv tf} + fileTok x.ofile) := by
  rw [recTok, h.trapframe, add_assoc]
  rfl

theorem Live.tok_table (h : Live L x T tf sh) :
    recTok x = tableTok T + ({.priv tf} + fileTok x.ofile) := by
  rw [h.tok, add_assoc]

end

/-! ## `sbrk` -/

section
variable {L : Layout} {m : Mode} {sh adr : Bool} {M : Discipline} [hM : Lawful L m sh adr M]
variable {B r : Ledger} {T : Table 2} {tf : Nat} {x : Proc}

include hM

theorem growproc_safe {n : Int} (h : Live L x T tf sh) :
    Safe M B (growproc T x n) (recTok x) fun y r => Goes L tf y.1 r sh := by
  unfold growproc
  split
  · refine Safe.call (uvmalloc_safe h.space h.size h.shape) h.tok_table ?_
    rintro ⟨T', sz⟩ _ ⟨rfl, hS, hsz, hsh, -⟩
    dsimp only at hsh ⊢
    split
    · rename_i h0
      rw [if_pos h0] at hsh
      have htok : recTok { x with pagetable := some T', sz := x.sz } = _ := h.tok_setTable
      exact Safe.ret ⟨htok.symm, T', h.setTable hS h.size hsh⟩
    · rename_i h0
      rw [if_neg h0] at hsh
      exact Safe.ret ⟨h.tok_setTable.symm, T', h.setTable hS hsz hsh⟩
  · split
    · refine Safe.call (uvmdealloc_safe h.space h.size h.shape) h.tok_table ?_
      rintro ⟨T', sz⟩ _ ⟨rfl, hS, hmin, hsh, -⟩
      have hsz : sz ≤ TRAPFRAME := (hmin.trans_le (Nat.min_le_left _ _)).trans h.size
      exact Safe.ret ⟨h.tok_setTable.symm, T', h.setTable hS hsz hsh⟩
    · exact Safe.ret h.goes

theorem sysSbrk_safe {n : Int} (h : Live L x T tf sh) :
    Safe M B (sysSbrk T x n) (recTok x) fun y r => Goes L tf y.1 r sh := by
  refine Safe.bind (growproc_safe h) ?_
  rintro ⟨y, ok⟩ r hy
  exact Safe.ret hy

end

/-! ## the store fault -/

section
variable {L : Layout} {m : Mode} {sh : Bool} {B r : Ledger} {T : Table 2} {tf : Nat} {p q : Slot} {x : Proc}

/-- what a thread may leave behind -/
structure Leftover (m : Mode) (X : Ledger) : Prop where
  none : m.leak = false → X = 0
  page : ∀ t ∈ X, ∃ pa, t.IsPage pa

theorem Leftover.zero : Leftover m 0 := ⟨fun _ => rfl, fun t ht => absurd ht (Multiset.notMem_zero t)⟩

/-- the store fault at `va` is one of copy-on-write -/
def CowFault (T : Table 2) (va : Nat) : Prop :=
  (T.leaf va).has PTE_V ∧ (T.leaf va).has PTE_U ∧ (T.leaf va).has PTE_COW

theorem Space.lt_of_user {va : Nat} (h : Space L tf T) (hva : va < MAXVA) (ha : va % PGSIZE = 0)
    (hu : (T.leaf va).has PTE_U) : va < TRAPFRAME := by
  by_contra hc
  rw [(h.high_page hva ha hc).2] at hu
  cases hu

/-- the PTE of the copy -/
def Pte.copied (p : Pte) (mem : Nat) : Pte :=
  Pte.ofPa mem ((p.flags ||| PTE_W) &&& ~~~PTE_COW ||| PTE_V)

theorem Pte.copied_has (p : Pte) (mem : Nat) {b : BitVec 10} (hb : ~~~PTE_COW &&& b = b) :
    (p.copied mem).has b = (p.has b || PTE_W &&& b != 0 || PTE_V &&& b != 0) := by
  rw [Pte.has, Pte.copied, Pte.ofPa_flags, flags_or, flags_keep _ hb, flags_or]
  rfl

theorem Pte.copied_has_v (p : Pte) (mem : Nat) : (p.copied mem).has PTE_V := by
  rw [p.copied_has mem (by decide)]
  exact or_eq_true_iff.mpr (.inr (by decide))

theorem Pte.copied_has_r {p : Pte} (mem : Nat) (h : p.has PTE_R) : (p.copied mem).has PTE_R := by
  rw [p.copied_has mem (by decide), h]
  rfl

theorem rounddown_mod (a : Nat) : PGROUNDDOWN a % PGSIZE = 0 := Nat.mul_mod_left _ _

theorem usertrapStore_safe {stval : Nat} (h : Live L x T tf sh)
    (hm : m.leak = true ∨ ¬ CowFault T (PGROUNDDOWN stval)) :
    Safe (machine L m sh) B (usertrapStore T x stval) (recTok x) fun y r =>
      ∃ X, r = recTok y + X ∧ (∃ T, Live L y T tf sh) ∧ Leftover m X := by
  unfold usertrapStore
  have ha := rounddown_mod stval
  generalize hva : PGROUNDDOWN stval = va at *
  refine Safe.bind (walk_safe (Q := fun o r => o = T.get va ∧ r = recTok x ∧ va < MAXVA)
    (fun h => absurd h false_ne_true) fun h => ⟨rfl, rfl, h⟩) ?_
  rintro o _ ⟨rfl, rfl, hmax⟩
  cases hg : T.get va with
  | none => exact Safe.panic (not_fatal (by decide) false_ne_true)
  | some pte =>
    have hsome : (T.get va).isSome := by rw [hg]; rfl
    have hleaf := leaf_of_get hg
    dsimp only
    split
    · rename_i hc
      simp only [and_eq_true] at hc
      obtain ⟨⟨hv, hu⟩, hcow⟩ := hc
      have hleak : m.leak = true := hm.resolve_right fun hn => hn (by
        rw [CowFault, hleaf]
        exact ⟨hv, hu, hcow⟩)
      have hlt := h.space.lt_of_user hmax ha (by rw [hleaf]; exact hu)
      refine Safe.bindAct (does_kalloc (fun mem hmem hnew => ?_) ?_)
      · refine Safe.bindAct (does_memmove (fun _ => private_of_mem (by simp) le_rfl le_rfl)
          (fun h => absurd h false_ne_true) ?_)
        have e : recTok x + {.priv mem}
            = tableTok (T.put va Pte.zero) + {.priv tf} + fileTok x.ofile + {.priv mem} + {.user pte.pa} := by
          rw [h.tok, tableTok_put_zero hg ha hlt hv]
          abel
        rw [e]
        refine Safe.bindAct (does_deckref hleak ?_)
        have hsome1 : ((T.put va Pte.zero).get va).isSome := by
          rwa [isSome_get_put]
        have e1 : tableTok (T.put va Pte.zero) + {.priv tf} + fileTok x.ofile + {.priv mem}
            = (T.put va Pte.zero).sys.map .priv
              + ((T.put va Pte.zero).users.map .user + {.priv tf} + fileTok x.ofile + {.priv mem}) := by
          rw [tableTok]
          abel
        have hw' : Written T (T.put va Pte.zero) va Pte.zero := written_put hsome (lt_of_maxva hmax)
        have hfree : ((T.put va Pte.zero).leaf va).has PTE_V = false := by
          rw [hw'.leaf va (lt_of_maxva hmax), if_pos rfl, Pte.zero_has]
        refine Safe.call (mappages_safe ha (fun _ => hmax) fun _ => hfree) e1 ?_
        rintro ⟨T', ok⟩ _ ⟨-, rfl, hok, -, ht⟩
        obtain rfl : ok = true := hok hsome1
        obtain ⟨hv1, hw⟩ := ht rfl
        have htok := tableTok_written (c := .user) (p := pte.copied mem) hw ha hlt hv1 (pte.copied_has_v mem)
        rw [show (pte.copied mem).pa = mem from Pte.ofPa_pa hmem.1] at htok
        have hr : pte.has PTE_R := hleaf ▸ leafy_leaf h.space.leafy (hleaf.symm ▸ hv)
        have hS1 : Space L tf (T.put va Pte.zero) := h.space.written hw' hlt fun h0 => by
          rw [Pte.zero_has] at h0
          cases h0
        have hS : Space L tf T' := hS1.written hw hlt fun _ => pte.copied_has_r mem hr
        have hsh : sh = true → Shape L T' x.sz := by
          intro hs
          have hpa : (pte.copied mem).pa = mem := Pte.ofPa_pa hmem.1
          refine (h.shape hs).replaced ha hlt (by rw [hleaf]; exact hv) (fun vb hb => ?_)
            (pte.copied_has_v mem) (by rw [hpa]; exact hmem)
            (by rw [hpa]; exact notMapped_new hnew (fun _ => .inr rfl) h.users_le)
          rw [hw.leaf vb hb, hw'.leaf vb hb]
          split <;> rfl
        have e2 : T'.sys.map Token.priv
              + ((T.put va Pte.zero).users.map .user + {.priv tf} + fileTok x.ofile + {.priv mem})
            = T'.sys.map .priv + (T.put va Pte.zero).users.map .user + {.priv tf} + fileTok x.ofile
              + {.priv mem} := by abel
        have e3 : T'.sys.map Token.priv + (T.put va Pte.zero).users.map .user + {.priv tf}
              + fileTok x.ofile + {.user mem} = tableTok T' + ({.priv tf} + fileTok x.ofile) := by
          rw [htok]
          abel
        rw [e2]
        refine Safe.shift (machine_share _ _) ?_
        rw [e3]
        refine Safe.bindAct (does_inckref (by rw [htok]; simp) ?_)
        refine Safe.ret ⟨{.user mem}, ?_, ⟨T', h.state, rfl, h.trapframe, hS, h.size, hsh⟩, ?_⟩
        · rw [recTok, h.trapframe, add_assoc (tableTokOpt _)]
          rfl
        · refine ⟨fun hl => ?_, fun t ht => ⟨mem, .inr (Multiset.mem_singleton.mp ht)⟩⟩
          rw [hleak] at hl
          cases hl
      · exact Safe.bindAct does_memmove_null
    · exact Safe.ret ⟨0, (add_zero _).symm, ⟨T, h⟩, Leftover.zero⟩

end

/-! ## `exec` -/

section
variable {L : Layout} {T : Table 2} {tf : Nat}

theorem Space.walkaddr_mem {va : Nat} (h : Space L tf T) (hne : walkaddr T va ≠ 0) :
    va < TRAPFRAME ∧ (T.leaf va).has PTE_V = true ∧ walkaddr T va = (T.leaf va).pa := by
  obtain ⟨hmax, hv, hu, e⟩ := walkaddr_ne_zero hne
  refine ⟨?_, hv, e⟩
  have hle : PGROUNDDOWN va ≤ va := Nat.div_mul_le_self _ _
  rw [← leaf_page (hle.trans_lt (lt_of_maxva hmax)) (lt_of_maxva hmax) (Nat.mul_div_cancel _ (by decide))] at hu
  have hlt := h.lt_of_user (hle.trans_lt hmax) (rounddown_mod va) hu
  have h1 : TRAPFRAME % PGSIZE = 0 := by decide
  simp only [PGROUNDDOWN, PGSIZE] at *
  omega

theorem Space.ownsUser {m : Mode} {r : Ledger} (h : Space L tf T) (hr : tableTok T .priv ≤ r) : OwnsUser m T r := by
  intro _ va hne
  obtain ⟨hlt, hv, e⟩ := h.walkaddr_mem hne
  rw [e]
  refine mem_of_le hr (mem_add.mpr (.inr (mem_map_of_mem _ ?_)))
  exact mem_users hv hlt

theorem HasUser.mono {R R' : Ledger} (h : HasUser T R) (hR : R ≤ R') : HasUser T R' := by
  intro va hne
  obtain ⟨t, ht, hp⟩ := h va hne
  exact ⟨t, mem_of_le hR ht, hp⟩

theorem Space.hasUser {R : Ledger} {c : Nat → Token} (h : Space L tf T) (hc : ∀ pa, (c pa).IsPage pa)
    (hR : T.users.map c ≤ R) : HasUser T R := by
  intro va hne
  obtain ⟨hlt, hv, e⟩ := h.walkaddr_mem hne
  rw [e]
  exact ⟨_, mem_of_le hR (mem_map_of_mem _ (mem_users hv hlt)), hc _⟩

theorem Live.hasUser {x : Proc} {sh : Bool} (h : Live L x T tf sh) : HasUser T (recTok x) :=
  h.space.hasUser (fun _ => .inr rfl) h.users_le

theorem Shape.walkaddr_ne {sz va : Nat} (h : Shape L T sz) (hu : UserPages T) (hsz : sz ≤ TRAPFRAME) (hva : va < sz) :
    walkaddr T va ≠ 0 := by
  have hlt : va < TRAPFRAME := lt_of_lt_of_le hva hsz
  have hv := (h.mapped va hlt).mpr (lt_of_lt_of_le hva (le_roundup sz))
  have hpage := h.page va hlt hv
  have hU := hu va hlt hv
  rw [walkaddr_eq, if_pos ⟨hlt.trans (by decide), hv, hU⟩]
  have h2 := hpage.2.1
  have h3 := L.kernbase_le
  have h4 := L.trampoline_lt
  have h5 : 0 < KERNBASE := by decide
  have h6 := le_roundup L.kend
  omega

end

section
variable {L : Layout} {m : Mode} {sh adr : Bool} {M : Discipline} [hM : Lawful L m sh adr M]
variable {B r : Ledger} {T : Table 2} {tf : Nat} {x : Proc}

include hM

theorem shift_users (s : Multiset Nat) (r : Ledger) : Shift M (r + s.map .priv) (r + s.map .user) := by
  induction s using Multiset.induction generalizing r with
  | empty => exact Shift.rfl
  | cons pa s ih =>
    have e : ∀ c : Nat → Token, r + (pa ::ₘ s).map c = r + {c pa} + s.map c := fun c => by
      rw [Multiset.map_cons, ← Multiset.singleton_add, add_assoc]
    rw [e, e]
    exact ((Lawful.share r pa).frame _).trans (ih _)

theorem loadsegLoop_safe {va offset sz n i : Nat} {ip : Inode} (hw : OwnsUser m T r)
    (hadr : adr = true → ∀ j, j < n → walkaddr T (va + (i + j * PGSIZE)) ≠ 0) :
    Safe M B (loadsegLoop T va ip offset sz n i) r fun _ r' => r' = r := by
  induction n generalizing i with
  | zero => exact Safe.ret rfl
  | succ n ih =>
    unfold loadsegLoop
    split
    · rename_i h0
      refine Safe.panic (not_fatal (by decide) fun ha => ?_)
      have := hadr ha 0 (Nat.succ_pos n)
      rw [Nat.zero_mul, Nat.add_zero] at this
      exact this h0
    · rename_i hne
      refine Safe.bindAct (does_write (fun h => private_of_mem (hw h _ hne) le_rfl ?_) ?_)
      · have h2 := Nat.min_le_right (ip ((offset + i) % 2 ^ 32) (min PGSIZE (sz - i))).1 (min PGSIZE (sz - i))
        omega
      split
      · exact Safe.ret rfl
      · refine ih fun ha j hj => ?_
        have := hadr ha (j + 1) (Nat.succ_lt_succ hj)
        rwa [Nat.succ_mul, Nat.add_comm (j * PGSIZE), ← Nat.add_assoc i] at this

/-- a page table of the size `sz` with its tokens, which nobody shares -/
def Sized (L : Layout) (tf : Nat) (T : Table 2) (sz : Nat) (r : Ledger) (sh : Bool := false) : Prop :=
  r = tableTok T .priv ∧ Space L tf T ∧ sz ≤ TRAPFRAME ∧ (sh = true → Shape L T sz)

theorem loadLoop_safe {ip : Inode} {n sz : Nat} {off : BitVec 32} (hT : Space L tf T) (hU : UserPages T)
    (hsz : sz ≤ TRAPFRAME) (hsh : sh = true → Shape L T sz) :
    Safe M B (loadLoop ip n T sz off) (tableTok T .priv) fun y r =>
      Sized L tf y.1 y.2.1 r sh ∧ UserPages y.1 := by
  induction n generalizing T sz off with
  | zero => exact Safe.ret ⟨⟨rfl, hT, hsz, hsh⟩, hU⟩
  | succ n ih =>
    unfold loadLoop
    dsimp only
    split
    · exact Safe.ret ⟨⟨rfl, hT, hsz, hsh⟩, hU⟩
    split
    · exact ih hT hU hsz hsh
    split
    · exact Safe.ret ⟨⟨rfl, hT, hsz, hsh⟩, hU⟩
    rename_i hmem
    split
    · exact Safe.ret ⟨⟨rfl, hT, hsz, hsh⟩, hU⟩
    split
    · exact Safe.ret ⟨⟨rfl, hT, hsz, hsh⟩, hU⟩
    refine Safe.bind (uvmalloc_safe hT hsz hsh) ?_
    rintro ⟨T', sz'⟩ _ ⟨rfl, hT', hsz', hsh', hge, hU'⟩
    split
    · rename_i h0
      rw [if_pos h0] at hsh'
      exact Safe.ret ⟨⟨rfl, hT', hsz, hsh'⟩, hU' hU⟩
    rename_i h0
    rw [if_neg h0] at hsh'
    have hge' := hge h0
    refine Safe.bind (loadsegLoop_safe (hT'.ownsUser le_rfl) fun ha j hj => ?_) ?_
    -- the file part of the segment is in the memory part
    · refine (hsh' (hM.shaped ha)).walkaddr_ne (hU' hU) hsz' (lt_of_lt_of_le ?_ hge')
      rw [BitVec.toNat_setWidth] at hj
      simp only [PGSIZE] at hj ⊢
      omega
    rintro ok _ rfl
    cases ok with
    | true => exact ih hT' (hU' hU) hsz' hsh'
    | false => exact Safe.ret ⟨⟨rfl, hT', hsz', hsh'⟩, hU' hU⟩

theorem argLoop_safe {stackbase argc sp : Nat} {argv ustack : List Nat} (hw : OwnsUser m T r)
    (hargs : adr = true → ∀ pg ∈ argv, Token.priv pg ∈ B) :
    Safe M B (argLoop T stackbase argv argc sp ustack) r fun _ r' => r' = r := by
  induction argv generalizing argc sp ustack with
  | nil => exact Safe.ret rfl
  | cons pg argv ih =>
    have hpg : adr = true → Readable (r + B) pg PGSIZE := fun ha =>
      ⟨_, mem_add.mpr (.inr (hargs ha pg mem_cons_self)), pg, .inl rfl, le_rfl, le_rfl⟩
    unfold argLoop
    split
    · exact Safe.ret rfl
    refine Safe.bindAct (does_read hpg fun b => ?_)
    dsimp only
    split
    · exact Safe.ret rfl
    refine Safe.bind (copyout_safe hw) ?_
    rintro ok _ rfl
    cases ok with
    | true => exact ih fun ha q hq => hargs ha q (mem_cons_of_mem _ hq)
    | false => exact Safe.ret rfl

theorem pushArgs_safe {sz : Nat} {argv : List Nat} (hw : OwnsUser m T r)
    (hargs : adr = true → ∀ pg ∈ argv, Token.priv pg ∈ B) :
    Safe M B (pushArgs T sz argv) r fun _ r' => r' = r := by
  unfold pushArgs
  generalize sz - PGSIZE = stackbase
  refine Safe.bind (argLoop_safe hw hargs) ?_
  rintro o _ rfl
  match o with
  | none => exact Safe.ret rfl
  | some (sp, ustack) =>
    refine Safe.ite (fun _ => Safe.ret rfl) fun _ => ?_
    refine Safe.bind (copyout_safe hw) ?_
    rintro ok _ rfl
    cases ok with
    | true | false => exact Safe.ret rfl

theorem execImage_safe {elf : Buf} {ip : Inode} {argv : List Nat} (hT : Space L tf T) (hU : UserPages T)
    (hsh : sh = true → Shape L T 0) (hargs : adr = true → ∀ pg ∈ argv, Token.priv pg ∈ B) :
    Safe M B (execImage T elf ip argv) (tableTok T .priv) fun o r =>
      match o with
      | some (T, sz, _) => Sized L tf T sz r sh
      | none => r = 0 := by
  have hbad : ∀ T' sz', Space L tf T' → sz' ≤ TRAPFRAME → (sh = true → Shape L T' sz') →
      Safe M B ((procFreepagetable T' sz').bind fun _ => .ret none) (tableTok T' .priv)
        fun (o : Option (Table 2 × Nat × Nat)) r =>
          match o with
          | some (T, sz, _) => Sized L tf T sz r sh
          | none => r = 0 := by
    intro T' sz' hT' hsz' hsh'
    refine Safe.bind (procFreepagetable_safe hT' hsz' hsh') ?_
    rintro _ _ rfl
    exact Safe.ret rfl
  refine Safe.bind (loadLoop_safe hT hU (Nat.zero_le _) hsh) ?_
  rintro ⟨T1, sz1, ok⟩ _ ⟨⟨rfl, hT1, hsz1, hsh1⟩, -⟩
  cases ok with
  | false => exact hbad T1 sz1 hT1 hsz1 hsh1
  | true =>
    have hup := roundup_le hsz1 (by decide)
    have hround : sh = true → Shape L T1 (PGROUNDUP sz1) :=
      fun hs => (hsh1 hs).resize (roundup_of_aligned (roundup_aligned sz1))
    refine Safe.bind (uvmalloc_safe hT1 hup hround) ?_
    rintro ⟨T2, sz2⟩ _ ⟨rfl, hT2, hsz2, hsh2, -⟩
    dsimp only at hT2 hsz2 hsh2 ⊢
    split
    · rename_i h0
      rw [if_pos h0] at hsh2
      exact hbad T2 (PGROUNDUP sz1) hT2 hup hsh2
    rename_i hne
    rw [if_neg hne] at hsh2
    have hclear : sz2 - 2 * PGSIZE < TRAPFRAME := by
      have : 0 < PGSIZE := by decide
      omega
    have hget : adr = true → (T2.get (sz2 - 2 * PGSIZE)).isSome := by
      intro ha
      have hlt : sz2 - 2 * PGSIZE < sz2 := by
        have : 0 < PGSIZE := by decide
        omega
      have hs := hsh2 (hM.shaped ha)
      obtain ⟨_, e, -⟩ := get_of_valid ((hs.mapped _ hclear).mpr (lt_of_lt_of_le hlt (le_roundup sz2)))
      rw [e]
      rfl
    generalize sz2 - 2 * PGSIZE = guard at hclear hget ⊢
    refine Safe.bind (uvmclear_safe hT2 hclear hget) ?_
    rintro T3 _ ⟨rfl, hT3, hkeep⟩
    have hsh3 := fun hs => hkeep sz2 (hsh2 hs)
    refine Safe.bind (pushArgs_safe (hT3.ownsUser le_rfl) hargs) ?_
    rintro o _ rfl
    match o with
    | none => exact hbad T3 sz2 hT3 hsz2 hsh3
    | some sp => exact Safe.ret ⟨rfl, hT3, hsz2, hsh3⟩

omit hM in
theorem Blank.userPages (h : Blank T) : UserPages T := by
  intro vb hb hv
  rw [h vb hb, Pte.zero_has] at hv
  cases hv

theorem exec_safe {ip : Option Inode} {argv : List Nat} (h : Live L x T tf sh)
    (hargs : adr = true → ∀ pg ∈ argv, Token.priv pg ∈ B) :
    Safe M B (exec L T tf x ip argv) (recTok x) fun y r => Goes L tf y.1 r sh := by
  unfold exec
  match ip with
  | none => exact Safe.ret h.goes
  | some ip =>
    dsimp only
    split
    · exact Safe.ret h.goes
    split
    · exact Safe.ret h.goes
    refine Safe.call (procPagetable_safe (c := .priv)) (zero_add _).symm ?_
    intro o r ho
    match o, ho with
    | none, ho =>
      have hr : r = 0 := ho
      rw [hr, zero_add]
      exact Safe.ret h.goes
    | some Tn, ho =>
      obtain ⟨rfl, hS, hblank⟩ := ho
      refine Safe.call (execImage_safe hS hblank.userPages (fun _ => hblank.shape) hargs) rfl ?_
      intro o r ho
      match o, ho with
      | none, ho =>
        have hr : r = 0 := ho
        rw [hr, zero_add]
        exact Safe.ret h.goes
      | some (T', sz, sp), ho =>
        obtain ⟨rfl, hS', hsz, hsh⟩ := ho
        have hmem : Token.priv tf ∈ tableTok T' .priv + recTok x := by
          rw [h.tok]
          simp
        refine Safe.bindAct (does_write (fun _ => private_of_mem hmem (Nat.le_add_right _ _) (by simp [PGSIZE])) ?_)
        refine Safe.bindAct (does_write (fun _ => private_of_mem hmem (Nat.le_add_right _ _) (by simp [PGSIZE])) ?_)
        refine Safe.bindAct (does_write (fun _ => private_of_mem hmem (Nat.le_add_right _ _) (by simp [PGSIZE])) ?_)
        have e : tableTok T' .priv + recTok x
            = tableTok T + (({.priv tf} + fileTok x.ofile) + T'.sys.map .priv + T'.users.map .priv) := by
          rw [h.tok_table, tableTok]
          abel
        have e' : ({.priv tf} + fileTok x.ofile) + T'.sys.map Token.priv + T'.users.map .user
            = tableTok T' + ({.priv tf} + fileTok x.ofile) := by
          rw [tableTok]
          abel
        refine Safe.call (procFreepagetable_safe h.space h.size h.shape) e ?_
        rintro _ _ rfl
        rw [zero_add]
        refine Safe.shift (shift_users _ _) ?_
        rw [e']
        exact Safe.ret ⟨h.tok_setTable.symm, T', h.setTable hS' hsz hsh⟩

omit hM in
/-- the tokens of pages with one owner -/
def privTok (l : List Nat) : Ledger := (l : Multiset Nat).map .priv

omit hM in
theorem privTok_cons (pa : Nat) (l : List Nat) : privTok (pa :: l) = {.priv pa} + privTok l := by
  unfold privTok
  rw [← Multiset.cons_coe, Multiset.map_cons, Multiset.singleton_add]

omit hM in
theorem privTok_append (l l' : List Nat) : privTok (l ++ l') = privTok l + privTok l' := by
  unfold privTok
  rw [← coe_add, map_add]

omit hM in
theorem privTok_sum (l : List Nat) : privTok l = (l.map fun pa => ({Token.priv pa} : Ledger)).sum := by
  induction l with
  | nil => rfl
  | cons pa l ih => rw [privTok_cons, ih, List.map_cons, List.sum_cons]

omit hM in
theorem mem_privTok {pa : Nat} {l : List Nat} (h : pa ∈ l) : Token.priv pa ∈ privTok l :=
  mem_map_of_mem _ h

theorem kfrees_safe (l : List Nat) :
    Safe M B (l.forM Act.kfree) (privTok l) fun _ r => r = 0 := by
  rw [privTok_sum]
  exact Safe.forM fun pa _ => kfree_safe pa

theorem fetchaddr_safe {addr : Nat} (hr : adr = true → HasUser T (r + B)) :
    Safe M B (fetchaddr T x addr) r fun _ r' => r' = r := by
  unfold fetchaddr
  split
  · exact Safe.ret rfl
  refine Safe.bind (copyin_safe hr) ?_
  rintro o _ rfl
  cases o with
  | none | some b => exact Safe.ret rfl

theorem argvLoop_safe {uargv n i : Nat} (argv : List Nat) (hr : adr = true → HasUser T B) :
    Safe M B (argvLoop T x uargv n i argv) (privTok argv) fun y r => r = privTok y.1 := by
  have hr' : ∀ r : Ledger, adr = true → HasUser T (r + B) :=
    fun r ha => (hr ha).mono (le_add_left _ _)
  induction n generalizing i argv with
  | zero => exact Safe.ret rfl
  | succ n ih =>
    refine Safe.bind (fetchaddr_safe (hr' _)) ?_
    rintro o _ rfl
    cases o with
    | none => exact Safe.ret rfl
    | some uarg =>
      dsimp only
      split
      · exact Safe.ret rfl
      refine Safe.bindAct (does_kalloc (fun pg _ _ => ?_) (Safe.ret rfl))
      have e : privTok argv + {.priv pg} = privTok (argv ++ [pg]) := by
        rw [privTok_append]
        rfl
      have hmem : Token.priv pg ∈ privTok (argv ++ [pg]) := by
        rw [← e]
        simp
      rw [e]
      refine Safe.bind (copyinstr_safe (hr' _) fun _ => private_of_mem hmem le_rfl le_rfl) ?_
      rintro ok _ rfl
      cases ok with
      | true => exact ih _
      | false => exact Safe.ret rfl

theorem sysExec_safe {path : Bool} {uargv : Nat} {ip : Option Inode} (h : Live L x T tf sh) :
    Safe M B (sysExec L T tf x path uargv ip) (recTok x) fun y r => Goes L tf y.1 r sh := by
  unfold sysExec
  split
  · exact Safe.ret h.goes
  have hread : adr = true → HasUser T (B + recTok x) :=
    fun _ => h.hasUser.mono (le_add_left _ _)
  refine Safe.callLend (argvLoop_safe [] hread) (zero_add _).symm ?_
  rintro ⟨argv, ok⟩ _ rfl
  cases ok with
  | false =>
    refine Safe.call (kfrees_safe argv) rfl ?_
    rintro _ _ rfl
    rw [zero_add]
    exact Safe.ret h.goes
  | true =>
    have hargs : adr = true → ∀ pg ∈ argv, Token.priv pg ∈ B + privTok argv :=
      fun _ pg hpg => mem_add.mpr (.inr (mem_privTok hpg))
    refine Safe.callLend (exec_safe h hargs) (add_comm _ _) ?_
    rintro y _ ⟨rfl, hy⟩
    refine Safe.call (kfrees_safe argv) (add_comm _ _) ?_
    rintro _ _ rfl
    rw [zero_add]
    exact Safe.ret ⟨rfl, hy⟩

end

section
variable {L : Layout} {m : Mode} {sh : Bool} {B r : Ledger} {T : Table 2} {tf : Nat} {p q : Slot} {x : Proc}

/-! ## booting -/

theorem kallocs_safe {msg : String} {n : Nat} (hmsg : ¬ (machine L m sh).fatal msg) :
    Safe (machine L m sh) B (kallocs msg n) 0 fun l r => r = privTok l := by
  induction n with
  | zero => exact Safe.ret rfl
  | succ n ih =>
    refine Safe.bindAct (does_kalloc (fun pa _ _ => ?_) (Safe.panic hmsg))
    refine Safe.call ih rfl ?_
    rintro l _ rfl
    refine Safe.ret ?_
    rw [privTok_cons, add_comm]

theorem kvminit_safe {kpages : Nat} : Safe (machine L m sh) B (kvminit kpages) 0 fun _ r => r = 0 := by
  refine Safe.bind (kallocs_safe (not_fatal (by decide) false_ne_true)) ?_
  rintro tables _ rfl
  refine Safe.call (kallocs_safe (not_fatal (by decide) false_ne_true)) (zero_add _).symm ?_
  rintro kstacks _ rfl
  have e : privTok kstacks + privTok tables = 0 + privTok (tables ++ kstacks) := by
    rw [zero_add, privTok_append, add_comm]
  rw [e]
  exact Safe.perform (does_keep rfl)

theorem userinitEnd_safe {X : Ledger} (hm : m.strict = false) (hS : Space L tf T)
    (hsh : sh = true → Shape L T PGSIZE) :
    Safe (machine L m sh) B (do
      Act.write (tf + 24) 8 fun _ => 0
      Act.write (tf + 48) 8 (le64 (BitVec.ofNat 64 PGSIZE))
      Act.putback q { Proc.free with
        state := .runnable, pagetable := some T, trapframe := some tf, sz := PGSIZE }
      pure T) (tableTok T + X + ({.slot q} + {.priv tf})) fun T' r => T' = T ∧ r = X := by
  refine Safe.bindAct (does_write (not_strict hm) ?_)
  refine Safe.bindAct (does_write (not_strict hm) ?_)
  have hlive : Live L { Proc.free with
      state := .runnable, pagetable := some T, trapframe := some tf, sz := PGSIZE } T tf sh :=
    ⟨rfl, rfl, rfl, hS, (by decide : PGSIZE ≤ TRAPFRAME), hsh⟩
  have hf : fileTok (fun _ : Fin NOFILE => none) = 0 := Finset.sum_eq_zero fun _ _ => rfl
  have hrec : recTok { Proc.free with
      state := .runnable, pagetable := some T, trapframe := some tf, sz := PGSIZE }
      = tableTok T + {.priv tf} := by
    rw [hlive.tok]
    exact (congrArg _ hf).trans (add_zero _)
  have e' : tableTok T + X + ({.slot q} + {.priv tf})
      = {.slot q} + (tableTok T + {.priv tf}) + X := by abel
  rw [e', ← hrec]
  refine Safe.call (putback_safe hlive.recOk (not_strict hm)) rfl ?_
  rintro _ _ rfl
  rw [zero_add]
  exact Safe.ret ⟨rfl, rfl⟩

theorem Blank.leaf_zero (h : Blank T) : (T.leaf 0).has PTE_V = false := by
  rw [h 0 (by decide), Pte.zero_has]

theorem fresh_tok {r : Ledger} (h : Fresh L q T tf r) : r = tableTok T + ({.slot q} + {.priv tf}) := by
  rw [h.1]
  abel

theorem userinit_safe {initcode : Buf} (hm : m.strict = false) :
    Safe (machine L m) B (userinit L initcode) 0 fun T r =>
      ((T.leaf 0).has PTE_V → r = 0) ∧ ∀ t ∈ r, ∃ pa, t = Token.priv pa := by
  refine Safe.bind allocproc_safe ?_
  intro o r ho
  match o, ho with
  | none, _ => exact Safe.panic (not_fatal (by decide) false_ne_true)
  | some (q, T, tf), ho =>
    obtain ⟨-, hS, hb⟩ := id ho
    refine Safe.call (uvmfirst_safe hm hS hb.leaf_zero fun _ => hb.shape) (fresh_tok ho) ?_
    rintro T' _ ⟨X, rfl, hS', hX0, hX, -⟩
    refine (userinitEnd_safe hm hS' fun h => absurd h false_ne_true).mono ?_
    rintro _ _ ⟨rfl, rfl⟩
    exact ⟨hX0, hX⟩

theorem boot_safe {kpages : Nat} {initcode : Buf} (hm : m.strict = false) :
    Safe (machine L m) B (boot L kpages initcode) 0 fun T r =>
      ((T.leaf 0).has PTE_V → r = 0) ∧ ∀ t ∈ r, ∃ pa, t = Token.priv pa := by
  refine Safe.bind kvminit_safe ?_
  rintro _ _ rfl
  exact userinit_safe hm

end

end Vm
