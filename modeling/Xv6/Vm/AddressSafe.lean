import Xv6.Vm.Lawful
import Xv6.Vm.Shape

/-!
# What the functions of `vm.c` do with the pages of a page table

A thread that builds or changes a page table `T` owns `tableTok T`: its page-table pages alone and a
reference to every page mapped below `TRAPFRAME`.

* `mappages_safe`, `unmapLoop_safe`, `uvmalloc_safe`, `uvmdealloc_safe`   keep that;
* `uvmfree_safe`       uses it up;
* `uvmcopy_safe`       gives the new table references to the pages of the old one.
-/

namespace Vm
open Run Bytes Prog Own Table Multiset Bool

section
variable {L : Layout} {m : Mode} {c : Nat → Token} {r : Ledger} {T : Table 2} {va pa : Nat}

/-! ## the tokens of a table -/

variable {a n tf : Nat} {T' : Table 2} {p : Pte}

theorem private_of_mem {r : Ledger} (h : Token.priv pa ∈ r) (ha : pa ≤ a)
    (hn : a + n ≤ pa + PGSIZE) : Private r a n := ⟨pa, h, ha, hn⟩

theorem not_strict {P : Prop} (hm : m.strict = false) : m.strict = true → P :=
  fun h => absurd h (by rw [hm]; exact false_ne_true)

theorem tableTok_written (h : Written T T' va p) (ha : va % PGSIZE = 0)
    (hva : va < TRAPFRAME) (hv : (T.leaf va).has PTE_V = false) (hp : p.has PTE_V) :
    tableTok T' c = T'.sys.map .priv + T.users.map c + {c p.pa} := by
  have hu := h.users
  rw [rounddown_aligned ha, userPage_invalid (.inr hv), userPage_valid hva hp, add_zero] at hu
  rw [tableTok, hu, map_add, map_singleton, add_assoc]

theorem tableTok_written_high (h : Written T T' va p) (ha : va % PGSIZE = 0)
    (hva : TRAPFRAME ≤ va) : tableTok T' c = T'.sys.map .priv + T.users.map c := by
  have hu := h.users
  rw [rounddown_aligned ha, userPage_invalid (.inl hva), userPage_invalid (.inl hva)] at hu
  rw [tableTok, add_right_cancel hu]

theorem tableTok_grown (h : Grown T T') : tableTok T' c = T'.sys.map .priv + T.users.map c := by
  have hu : T'.users = T.users := by
    unfold Table.users
    exact h.users 0
  rw [tableTok, hu]

/-- a valid mapping below `TRAPFRAME` that goes leaves its reference -/
theorem tableTok_put_zero {pte : Pte} (hg : T.get va = some pte) (ha : va % PGSIZE = 0)
    (hva : va < TRAPFRAME) (hv : pte.has PTE_V) :
    tableTok T c = tableTok (T.put va Pte.zero) c + {c pte.pa} := by
  have h39 : va < 2 ^ 39 := by
    have : TRAPFRAME ≤ 2 ^ 39 := by decide
    omega
  have hu := users_put (p := Pte.zero) hg h39
  rw [rounddown_aligned ha, userPage_valid hva hv, userPage_invalid (.inr (Pte.zero_has _)), add_zero] at hu
  rw [tableTok, tableTok, sys_put, ← hu, map_add, map_singleton, add_assoc]

theorem tableTok_put_zero_high {pte : Pte} (hg : T.get va = some pte) (ha : va % PGSIZE = 0)
    (h39 : va < 2 ^ 39) (hva : TRAPFRAME ≤ va) : tableTok T c = tableTok (T.put va Pte.zero) c := by
  have hu := users_put (p := Pte.zero) hg h39
  rw [rounddown_aligned ha, userPage_invalid (.inl hva), userPage_invalid (.inl hva)] at hu
  rw [tableTok, tableTok, sys_put, add_right_cancel hu]

theorem users_le_tableTok : T.users.map c ≤ tableTok T c := by
  rw [tableTok]
  exact le_add_left _ _

theorem notMapped_new (h : pa ∉ pages r) (hc : ∀ pa, (c pa).IsPage pa) (hr : T.users.map c ≤ r) :
    NotMapped T pa := by
  refine notMapped_of_users fun hm => h ?_
  refine mem_pages_of_mem (mem_of_le hr (mem_map_of_mem c hm)) ?_
  rcases hc pa with e | e <;> rw [e] <;> exact mem_singleton_self pa

theorem tableTok_zero (pa : Nat) : tableTok (Table.zero 2 pa) c = {.priv pa} := by
  rw [tableTok_eq_part, partTok, sys_zero, usersAt_zero, map_zero, add_zero,
    map_singleton]

/-! ## address spaces -/

/-- the pages of user memory are accessible to user code -/
def UserPages (T : Table 2) : Prop :=
  ∀ vb, vb < TRAPFRAME → (T.leaf vb).has PTE_V = true → (T.leaf vb).has PTE_U = true

theorem UserPages.grown (h : UserPages T) (hg : Grown T T') : UserPages T' := by
  intro vb hb
  rw [hg.leaf]
  exact h vb hb

theorem UserPages.written (h : UserPages T) (hw : Written T T' va p)
    (hp : p.has PTE_U = true) : UserPages T' := by
  intro vb hb
  rw [hw.leaf vb (lt_of_maxva (hb.trans (by decide)))]
  split
  · exact fun _ => hp
  · exact h vb hb

theorem UserPages.unmapped (h : UserPages T) (hu : Unmapped T T' a n) : UserPages T' := by
  intro vb hb
  rw [hu.leaf vb (lt_of_maxva (hb.trans (by decide)))]
  split
  · intro hv
    rw [Pte.zero_has] at hv
    cases hv
  · exact h vb hb

theorem Space.congr (h : Space L tf T) (hl : T.Leafy → T'.Leafy)
    (hleaf : ∀ vb, vb < 2 ^ 39 → TRAPFRAME ≤ vb → T'.leaf vb = T.leaf vb) : Space L tf T' := by
  refine ⟨hl h.leafy, ?_, ?_, fun vb h1 h2 => ?_⟩
  · rw [hleaf _ (by decide) (by decide)]
    exact h.trampoline
  · rw [hleaf _ (by decide) (by decide)]
    exact h.trapframe
  · rw [hleaf vb h2 (le_trans (by decide) h1)]
    exact h.high vb h1 h2

theorem Space.grown (h : Space L tf T) (hg : Grown T T') : Space L tf T' :=
  h.congr hg.leafy fun vb _ _ => hg.leaf vb

theorem Space.written (h : Space L tf T) (hw : Written T T' va p)
    (hva : va < TRAPFRAME) (hp : p.has PTE_V → p.has PTE_R) : Space L tf T' := by
  refine h.congr (fun hT => hw.leafy hT hp) fun vb h1 h2 => ?_
  rw [hw.leaf vb h1, if_neg (trapframe_lt hva h2)]

theorem Space.unmapped (h : Space L tf T)
    (hu : Unmapped T T' a n) (hn : a + n * PGSIZE ≤ TRAPFRAME) : Space L tf T' := by
  refine h.congr hu.leafy fun vb h1 h2 => ?_
  rw [hu.leaf vb h1, if_neg (by omega)]

theorem Space.high_page (h : Space L tf T) (hva : va < MAXVA) (ha : va % PGSIZE = 0) (hc : ¬ va < TRAPFRAME) :
    (T.leaf va).has PTE_V = true ∧ (T.leaf va).has PTE_U = false := by
  have e : va = TRAPFRAME ∨ va = TRAMPOLINE := by
    have h1 : TRAPFRAME % PGSIZE = 0 := by decide
    have h2 : TRAMPOLINE = TRAPFRAME + PGSIZE := by decide
    have h3 : MAXVA = TRAMPOLINE + PGSIZE := by decide
    simp only [PGSIZE] at *
    omega
  rcases e with rfl | rfl
  · rw [h.trapframe, Pte.has, Pte.has, Pte.ofPa_flags]
    decide
  · rw [h.trampoline, Pte.has, Pte.has, Pte.ofPa_flags]
    decide

theorem Space.lt_trapframe (h : Space L tf T) (hva : va < MAXVA) (ha : va % PGSIZE = 0)
    (hv : (T.leaf va).has PTE_V = false) : va < TRAPFRAME := by
  by_contra hc
  rw [(h.high_page hva ha hc).1] at hv
  cases hv

theorem walkaddr_eq (T : Table 2) (va : Nat) : walkaddr T va =
    if va < MAXVA ∧ (T.leaf va).has PTE_V = true ∧ (T.leaf va).has PTE_U = true then (T.leaf va).pa else 0 := by
  unfold walkaddr
  by_cases hmax : va < MAXVA
  · rw [if_neg (Nat.not_le.mpr hmax)]
    cases hg : T.get va with
    | none =>
      rw [Table.leaf, hg]
      exact (if_neg fun h => absurd h.2.1 (by decide)).symm
    | some pte =>
      rw [leaf_of_get hg]
      cases hv : pte.has PTE_V <;> cases hu : pte.has PTE_U <;> simp [hmax, hv, hu]
  · rw [if_pos (Nat.le_of_not_lt hmax), if_neg fun h => hmax h.1]

theorem walkaddr_ne_zero (h : walkaddr T va ≠ 0) :
    va < MAXVA ∧ (T.leaf va).has PTE_V ∧ (T.leaf va).has PTE_U ∧ walkaddr T va = (T.leaf va).pa := by
  rw [walkaddr_eq] at h ⊢
  by_cases hc : va < MAXVA ∧ (T.leaf va).has PTE_V = true ∧ (T.leaf va).has PTE_U = true
  · exact ⟨hc.1, hc.2.1, hc.2.2, if_pos hc⟩
  · exact absurd (if_neg hc) h

end

section
variable {L : Layout} {m : Mode} {sh adr : Bool} {M : Discipline} [hM : Lawful L m sh adr M]
variable {c : Nat → Token} [UserTokens M c] {B r : Ledger} {T : Table 2} {va pa : Nat}

include hM

/-! ## walking -/

variable {a len n sz tf : Nat} {src : Buf}

theorem walkFrom_safe (T : Table n) (va : Nat) : Safe M B (walkFrom T va) (T.sys.map .priv) fun x r =>
      r = x.1.sys.map .priv ∧ Grown T x.1 ∧ (x.2 = true → (x.1.get va).isSome) ∧
        ((T.get va).isSome → x.2 = true) := by
  induction n with
  | zero => exact Safe.ret ⟨rfl, Grown.rfl, fun _ => rfl, fun _ => rfl⟩
  | succ n ih =>
    cases hC : Node.ent T (PX (n + 1) va) with
    | some C =>
      obtain ⟨R, hR⟩ := sys_child hC
      have e : T.sys.map Token.priv = C.sys.map .priv + R.map .priv := by rw [hR, map_add]
      simp only [walkFrom, hC]
      refine Safe.call (ih C) e ?_
      rintro ⟨C', ok⟩ _ ⟨rfl, hg, hsome, hok⟩
      refine Safe.ret ⟨?_, hg.graft_some hC, fun h => ?_, fun h => hok ?_⟩
      · have := sys_graft_some C' hC
        rw [hR, add_comm C.sys R, add_right_comm] at this
        rw [add_right_cancel this, add_comm, map_add]
      · rw [get_graft, if_pos rfl]
        exact hsome h
      · simpa only [Table.get, hC] using h
    | none =>
      simp only [walkFrom, hC]
      refine Safe.bindAct (does_kalloc (fun pa _ _ => ?_) ?_)
      · refine Safe.bindAct (does_memset (fun _ => private_of_mem (by simp) le_rfl le_rfl) ?_)
        have e : T.sys.map Token.priv + {.priv pa} = (zero n pa).sys.map .priv + T.sys.map .priv := by
          rw [sys_zero, map_singleton, add_comm]
        refine Safe.call (ih (zero n pa)) e ?_
        rintro ⟨C', ok⟩ _ ⟨rfl, hg, hsome, -⟩
        refine Safe.ret ⟨?_, hg.graft_none hC, fun h => ?_, fun h => ?_⟩
        · rw [sys_graft_none hC, add_comm, map_add]
        · rw [get_graft, if_pos rfl]
          exact hsome h
        · simp [Table.get, hC] at h
      · refine Safe.ret ⟨rfl, Grown.rfl, fun h => absurd h false_ne_true, fun h => ?_⟩
        simp [Table.get, hC] at h

theorem walkAlloc_safe (T : Table 2) (hadr : adr = true → va < MAXVA) :
    Safe M B (walkAlloc T va) (T.sys.map .priv) fun x r =>
      va < MAXVA ∧ r = x.1.sys.map .priv ∧ Grown T x.1 ∧ (x.2 = true → (x.1.get va).isSome) ∧
        ((T.get va).isSome → x.2 = true) := by
  unfold walkAlloc
  split
  · rename_i h
    exact Safe.panic (not_fatal (by decide) fun ha => Nat.not_lt.mpr h (hadr ha))
  · rename_i h
    exact (walkFrom_safe T va).mono fun x r hx => ⟨Nat.lt_of_not_le h, hx⟩

theorem walk_safe {Q : Option Pte → Ledger → Prop} (hadr : adr = true → va < MAXVA)
    (h : va < MAXVA → Q (T.get va) r) : Safe M B (walk T va) r Q := by
  unfold walk
  split
  · rename_i hva
    exact Safe.panic (not_fatal (by decide) fun ha => Nat.not_lt.mpr hva (hadr ha))
  · rename_i hva
    exact Safe.ret (h (Nat.lt_of_not_le hva))

/-! ## mapping -/

omit hM in
theorem mappages_page {perm : BitVec 10} (h : va % PGSIZE = 0) :
    mappages T va PGSIZE pa perm = mapLoop perm 0 T va pa := by
  have hn : (PGROUNDDOWN (va + PGSIZE - 1) - PGROUNDDOWN va) / PGSIZE = 0 := by
    simp only [PGROUNDDOWN, PGSIZE] at h ⊢
    omega
  rw [mappages, if_neg (by decide), hn, rounddown_aligned h]

theorem mappages_safe {perm : BitVec 10} (h : va % PGSIZE = 0) (hadr : adr = true → va < MAXVA)
    (hsh : sh = true → (T.leaf va).has PTE_V = false) :
    Safe M B (mappages T va PGSIZE pa perm) (T.sys.map .priv) fun x r =>
      va < MAXVA ∧ r = x.1.sys.map .priv ∧ ((T.get va).isSome → x.2 = true) ∧
        (x.2 = false → Grown T x.1) ∧ (x.2 = true → (T.leaf va).has PTE_V = false ∧
          Written T x.1 va (Pte.ofPa pa (perm ||| PTE_V))) := by
  rw [mappages_page h]
  refine Safe.bind (walkAlloc_safe T hadr) ?_
  rintro ⟨T', ok⟩ _ ⟨hva, rfl, hg, hsome, hok⟩
  cases ok with
  | false => exact Safe.ret ⟨hva, rfl, hok, fun _ => hg, fun h => absurd h false_ne_true⟩
  | true =>
    cases hv : (T'.leaf va).has PTE_V with
    | true =>
      simp only [if_true]
      refine Safe.panic (not_fatal_shape (by decide) fun hs => ?_)
      rw [hg.leaf, hsh hs] at hv
      cases hv
    | false =>
      simp only
      refine Safe.ret ⟨hva, congrArg (map _) (sys_put T').symm, fun _ => rfl, fun h => absurd h.symm false_ne_true,
        fun _ => ⟨?_, hg.written (written_put (hsome rfl) (lt_of_maxva hva))⟩⟩
      rwa [← hg.leaf]

/-! ## unmapping -/

theorem unmapLoop_safe {doFree : Bool} (ha : a % PGSIZE = 0)
    (hd : if doFree then a + n * PGSIZE ≤ TRAPFRAME else TRAPFRAME ≤ a)
    (hadr : adr = true → a + n * PGSIZE ≤ MAXVA) (hsh : sh = true → Backed T a n) :
    Safe M B (unmapLoop doFree n T a) (tableTok T c) fun T' r =>
      r = tableTok T' c ∧ Unmapped T T' a n := by
  induction n generalizing T a with
  | zero => exact Safe.ret ⟨rfl, Unmapped.zero⟩
  | succ n ih =>
    have hn : (n + 1) * PGSIZE = n * PGSIZE + PGSIZE := Nat.succ_mul n PGSIZE
    have ha' : (a + PGSIZE) % PGSIZE = 0 := by rw [Nat.add_mod_right, ha]
    have hpg : 0 < PGSIZE := by decide
    refine Safe.bind (walk_safe (Q := fun x r => x = T.get a ∧ r = tableTok T c ∧ a < MAXVA)
      (fun h => by have := hadr h; omega) fun h => ⟨rfl, rfl, h⟩) ?_
    have hadr' : adr = true → a + PGSIZE + n * PGSIZE ≤ MAXVA := fun h => by
      have := hadr h
      omega
    rintro x _ ⟨rfl, rfl, hva⟩
    have h39 := lt_of_maxva hva
    cases hg : T.get a with
    | none =>
      refine Safe.panic (not_fatal_shape (by decide) fun hs => ?_)
      obtain ⟨pte, hp, -⟩ := (hsh hs).head h39
      rw [hg] at hp
      cases hp
    | some pte =>
      have hsome : (T.get a).isSome := by rw [hg]; rfl
      have hhead : sh = true → pte.has PTE_V = true ∧ pte.flags ≠ PTE_V := by
        intro hs
        obtain ⟨pte', hp, h1⟩ := (hsh hs).head h39
        rw [hg] at hp
        exact Option.some.inj hp ▸ h1
      have hrest : sh = true → Backed (T.put a Pte.zero) (a + PGSIZE) n :=
        fun hs => (hsh hs).succ hsome ha h39
      dsimp only
      split
      · rename_i hv
        refine Safe.panic (not_fatal_shape (by decide) fun hs => ?_)
        rw [(hhead hs).1] at hv
        cases hv
      split
      · rename_i hl
        exact Safe.panic (not_fatal_shape (by decide) fun hs => (hhead hs).2 hl)
      rename_i hv _
      have hv' : pte.has PTE_V = true := by simpa using hv
      cases doFree with
      | true =>
        simp only [if_true] at hd ⊢
        rw [tableTok_put_zero hg ha (by omega) hv']
        refine Safe.bindAct (does_kfree (UserTokens.isPage M pte.pa) ?_)
        refine (ih ha' (by simp only [if_true]; omega) hadr' hrest).mono ?_
        rintro T' _ ⟨rfl, hU⟩
        exact ⟨rfl, hU.succ hsome ha h39⟩
      | false =>
        have hlow : TRAPFRAME ≤ a := hd
        have hlow' : TRAPFRAME ≤ a + PGSIZE := by omega
        simp only [false_eq_true, if_false]
        rw [tableTok_put_zero_high hg ha h39 hlow]
        refine (ih ha' hlow' hadr' hrest).mono ?_
        rintro T' _ ⟨rfl, hU⟩
        exact ⟨rfl, hU.succ hsome ha h39⟩

theorem uvmunmap_safe {doFree : Bool} (ha : a % PGSIZE = 0)
    (hd : if doFree then a + n * PGSIZE ≤ TRAPFRAME else TRAPFRAME ≤ a)
    (hadr : adr = true → a + n * PGSIZE ≤ MAXVA) (hsh : sh = true → Backed T a n) :
    Safe M B (uvmunmap T a n doFree) (tableTok T c) fun T' r =>
      r = tableTok T' c ∧ Unmapped T T' a n := by
  rw [uvmunmap, if_neg (Decidable.not_not.mpr ha)]
  exact unmapLoop_safe ha hd hadr hsh

/-! ## growing and shrinking -/

omit hM in
theorem heapPte_has (mem : Nat) (xperm : BitVec 10) :
    (Pte.ofPa mem (PTE_R ||| PTE_U ||| xperm ||| PTE_V)).has PTE_V ∧
      (Pte.ofPa mem (PTE_R ||| PTE_U ||| xperm ||| PTE_V)).has PTE_R ∧
      (Pte.ofPa mem (PTE_R ||| PTE_U ||| xperm ||| PTE_V)).has PTE_U := by
  refine ⟨?_, ?_, ?_⟩
  · rw [Pte.has, Pte.ofPa_flags, flags_or]
    exact or_eq_true_iff.mpr (.inr (by decide))
  · rw [Pte.has, Pte.ofPa_flags, flags_or, flags_or, Bool.or_assoc]
    exact or_eq_true_iff.mpr (.inl (by decide))
  · rw [Pte.has, Pte.ofPa_flags, flags_or, flags_or, Bool.or_assoc]
    exact or_eq_true_iff.mpr (.inl (by decide))

theorem uvmdealloc_safe {oldsz newsz : Nat} (hT : Space L tf T) (ho : oldsz ≤ TRAPFRAME)
    (hsh : sh = true → Shape L T oldsz) :
    Safe M B (uvmdealloc T oldsz newsz) (tableTok T c) fun x r =>
      r = tableTok x.1 c ∧ Space L tf x.1 ∧ x.2 = min oldsz newsz ∧ (sh = true → Shape L x.1 x.2) ∧
        (UserPages T → UserPages x.1) := by
  unfold uvmdealloc
  split
  · rename_i hle
    exact Safe.ret ⟨rfl, hT, (Nat.min_eq_left hle).symm, hsh, id⟩
  rename_i hlt
  have hmin : newsz = min oldsz newsz := (Nat.min_eq_right (by omega)).symm
  split
  · rename_i hup
    have h1 := roundup_le ho (by decide)
    have h2 := roundup_aligned oldsz
    have h3 := roundup_aligned newsz
    have hn : PGROUNDUP newsz + (PGROUNDUP oldsz - PGROUNDUP newsz) / PGSIZE * PGSIZE = PGROUNDUP oldsz := by
      simp only [PGSIZE] at *
      omega
    refine Safe.bind (uvmunmap_safe h3 (hn.trans_le h1) (fun _ => (hn.trans_le h1).trans (by decide))
      fun hs => (hsh hs).backed hT.leafy h1 hn) ?_
    rintro T' _ ⟨rfl, hu⟩
    exact Safe.ret ⟨rfl, hT.unmapped hu (hn.trans_le h1), hmin, fun hs => (hsh hs).unmapped hu hn,
      fun h => h.unmapped hu⟩
  · rename_i hup
    refine Safe.ret ⟨rfl, hT, hmin, fun hs => (hsh hs).resize ?_, id⟩
    simp only [PGROUNDUP, PGSIZE] at *
    omega

theorem allocLoop_safe {oldsz newsz : Nat} {xperm : BitVec 10} (hT : Space L tf T)
    (ha : a % PGSIZE = 0) (hle : a ≤ TRAPFRAME) (hn : newsz ≤ a + n * PGSIZE) (hold : oldsz ≤ a)
    (hup : a ≤ PGROUNDUP newsz) (hsh : sh = true → Shape L T a) :
    Safe M B (allocLoop oldsz newsz xperm n T a) (tableTok T c) fun x r =>
      r = tableTok x.1 c ∧ Space L tf x.1 ∧ (x.2 = true → newsz ≤ TRAPFRAME) ∧
        (sh = true → Shape L x.1 (if x.2 then newsz else oldsz)) ∧ (UserPages T → UserPages x.1) := by
  have hdone : ∀ {T : Table 2} {a : Nat}, newsz ≤ a → a % PGSIZE = 0 → a ≤ PGROUNDUP newsz →
      (sh = true → Shape L T a) → sh = true → Shape L T newsz := by
    intro T a h1 h2 h3 h4 hs
    refine (h4 hs).resize ?_
    simp only [PGROUNDUP, PGSIZE] at *
    omega
  induction n generalizing T a with
  | zero =>
    have hle' : newsz ≤ a := by omega
    exact Safe.ret ⟨rfl, hT, fun _ => by omega, hdone hle' ha hup hsh, id⟩
  | succ n ih =>
    have hn' : (n + 1) * PGSIZE = n * PGSIZE + PGSIZE := Nat.succ_mul n PGSIZE
    unfold allocLoop
    have hfree : sh = true → (T.leaf a).has PTE_V = false := by
      intro hs
      have hlt := (hsh hs).lt ha hle
      have hiff := (hsh hs).mapped a hlt
      rw [roundup_of_aligned ha] at hiff
      exact eq_false_iff.mpr fun hv => (Nat.lt_irrefl a) (hiff.mp hv)
    have hmax : adr = true → a < MAXVA := fun _ => lt_of_le_of_lt hle (by decide)
    have hundo : ∀ {x : Table 2 × Nat}, x.2 = min a oldsz → (sh = true → Shape L x.1 x.2) →
        sh = true → Shape L x.1 oldsz := by
      intro x hx h hs
      have := h hs
      rwa [hx, Nat.min_eq_right hold] at this
    split
    · rename_i hlt0
      refine Safe.bindAct (does_kalloc (fun mem hmem hnew => ?_) ?_)
      · refine Safe.bindAct (does_memset (fun _ => private_of_mem (by simp) le_rfl le_rfl) ?_)
        have e : tableTok T c + {.priv mem} = T.sys.map .priv + (T.users.map c + {.priv mem}) := by
          rw [tableTok, add_assoc]
        refine Safe.call (mappages_safe ha hmax hfree) e ?_
        rintro ⟨T', ok⟩ _ ⟨hva, rfl, -, hf, ht⟩
        cases ok with
        | false =>
          have hg := hf rfl
          have e' : T'.sys.map .priv + (T.users.map c + {.priv mem}) = tableTok T' c + {.priv mem} := by
            rw [tableTok_grown hg, add_assoc]
          rw [e']
          refine Safe.bindAct (does_kfree (.inl rfl) ?_)
          refine Safe.bind (uvmdealloc_safe (hT.grown hg) hle fun hs => (hsh hs).grown hg) ?_
          rintro ⟨T'', sz⟩ _ ⟨rfl, hT'', hsz, hsh'', hup''⟩
          exact Safe.ret ⟨rfl, hT'', fun h => absurd h false_ne_true, hundo hsz hsh'',
            fun h => hup'' (h.grown hg)⟩
        | true =>
          obtain ⟨hv, hw⟩ := ht rfl
          have hlt := hT.lt_trapframe hva ha hv
          have hle' : a + PGSIZE ≤ TRAPFRAME := by
            have : TRAPFRAME % PGSIZE = 0 := by decide
            simp only [PGSIZE] at *
            omega
          obtain ⟨hpv, hpr, hpu⟩ := heapPte_has mem xperm
          have htok := tableTok_written (c := c) hw ha hlt hv hpv
          rw [Pte.ofPa_pa hmem.1] at htok
          have e' : T'.sys.map .priv + T.users.map c + {c mem} = tableTok T' c := htok.symm
          rw [← add_assoc]
          refine Safe.shift (UserTokens.share (c := c) _ _) ?_
          rw [e']
          have hup' : a + PGSIZE ≤ PGROUNDUP newsz := by
            simp only [PGROUNDUP, PGSIZE] at *
            omega
          refine (ih (hT.written hw hlt fun _ => hpr) (by rw [Nat.add_mod_right, ha]) hle' (by omega)
            (by omega) hup' fun hs => ?_).mono fun x r hx => ⟨hx.1, hx.2.1, hx.2.2.1, hx.2.2.2.1,
              fun h => hx.2.2.2.2 (h.written hw hpu)⟩
          have hpa : (Pte.ofPa mem (PTE_R ||| PTE_U ||| xperm ||| PTE_V)).pa = mem := Pte.ofPa_pa hmem.1
          refine (hsh hs).written ha hw hpv ?_ ?_
          · rwa [hpa]
          · rw [hpa]
            exact notMapped_new hnew (UserTokens.isPage M) users_le_tableTok
      · refine Safe.bind (uvmdealloc_safe hT hle hsh) ?_
        rintro ⟨T', sz⟩ _ ⟨rfl, hT', hsz, hsh', hup'⟩
        exact Safe.ret ⟨rfl, hT', fun h => absurd h false_ne_true, hundo hsz hsh', hup'⟩
    · rename_i hge
      have hge' : newsz ≤ a := Nat.le_of_not_lt hge
      exact Safe.ret ⟨rfl, hT, fun _ => by omega, hdone hge' ha hup hsh, id⟩

theorem uvmalloc_safe {oldsz newsz : Nat} {xperm : BitVec 10} (hT : Space L tf T)
    (ho : oldsz ≤ TRAPFRAME) (hsh : sh = true → Shape L T oldsz) :
    Safe M B (uvmalloc T oldsz newsz xperm) (tableTok T c) fun x r =>
      r = tableTok x.1 c ∧ Space L tf x.1 ∧ x.2 ≤ TRAPFRAME ∧
        (sh = true → Shape L x.1 (if x.2 = 0 then oldsz else x.2)) ∧
        (x.2 ≠ 0 → newsz ≤ x.2) ∧ (UserPages T → UserPages x.1) := by
  unfold uvmalloc
  split
  · rename_i hlt
    refine Safe.ret ⟨rfl, hT, ho, fun hs => ?_, fun _ => hlt.le, id⟩
    rw [ite_self]
    exact hsh hs
  rename_i hge
  have hn : newsz ≤ PGROUNDUP oldsz + (newsz - PGROUNDUP oldsz + PGSIZE - 1) / PGSIZE * PGSIZE := by
    simp only [PGSIZE]
    omega
  have hidem := roundup_of_aligned (roundup_aligned oldsz)
  have hup : PGROUNDUP oldsz ≤ PGROUNDUP newsz := by
    simp only [PGROUNDUP, PGSIZE]
    omega
  refine Safe.bind (allocLoop_safe hT (roundup_aligned _) (roundup_le ho (by decide)) hn le_rfl hup
    fun hs => (hsh hs).resize hidem) ?_
  rintro ⟨T', ok⟩ _ ⟨rfl, hT', hok, hsh', hup'⟩
  cases ok with
  | true =>
    refine Safe.ret ⟨rfl, hT', hok rfl, fun hs => ?_, fun _ => le_rfl, hup'⟩
    have h1 : Shape L T' newsz := hsh' hs
    show Shape L T' (if newsz = 0 then oldsz else newsz)
    split
    · rename_i h0
      obtain rfl : oldsz = newsz := by omega
      exact h1
    · exact h1
  | false =>
    refine Safe.ret ⟨rfl, hT', Nat.zero_le _, fun hs => ?_, fun h => absurd rfl h, hup'⟩
    have h1 : Shape L T' (PGROUNDUP oldsz) := hsh' hs
    exact h1.resize hidem.symm

/-! ## freeing -/

theorem kfree_safe (pa : Nat) :
    Safe M B (Act.kfree pa) {.priv pa} fun _ r => r = 0 := by
  rw [← zero_add {Token.priv pa}]
  exact Safe.perform (does_kfree (.inl rfl) rfl)

omit [UserTokens M c] in
theorem freewalk_safe {C : Table n} {base : Nat} (h : C.Leafy) (hsh : sh = true → Bare C) :
    Safe M B (freewalk C) (partTok C base c) fun _ r => r = 0 := by
  induction n generalizing base with
  | zero =>
    rw [partTok_eq]
    refine Safe.forM_finRange (fun i => ?_) (kfree_safe _)
    · cases hv : (Node.ent C i).has PTE_V with
      | true =>
        have hr : (Node.ent C i).has (PTE_R ||| PTE_W ||| PTE_X) = true := by
          have hr := h i hv
          rw [Pte.has, BitVec.and_comm] at hr ⊢
          rw [BitVec.or_assoc, flags_or, hr]
          rfl
        simp only [hr, Bool.not_true, Bool.and_false, Bool.false_eq_true, if_false, if_true]
        refine Safe.panic (not_fatal_shape (by decide) fun hs => ?_)
        rw [hsh hs i] at hv
        cases hv
      | false =>
        simp only [Bool.false_and, Bool.false_eq_true, if_false]
        refine Safe.ret ?_
        rw [entTok, userPage_invalid (.inr hv), Multiset.map_zero]
  | succ n ih =>
    rw [partTok_eq]
    refine Safe.forM_finRange (fun i => ?_) (kfree_safe _)
    · have hi := h i
      simp only [entTok]
      cases hC : Node.ent C i with
      | some D =>
        rw [hC] at hi
        exact ih hi fun hs => hsh hs i D hC
      | none => exact Safe.ret rfl

theorem uvmfree_safe (hT : T.Leafy) (hsz : sz ≤ TRAPFRAME)
    (hsh : sh = true → ∀ vb, vb < 2 ^ 39 → ((T.leaf vb).has PTE_V = true ↔ vb < PGROUNDUP sz)) :
    Safe M B (uvmfree T sz) (tableTok T c) fun _ r => r = 0 := by
  unfold uvmfree
  have hup := roundup_le hsz (by decide)
  split
  · have hn : 0 + PGROUNDUP sz / PGSIZE * PGSIZE = PGROUNDUP sz := by
      have := roundup_aligned sz
      simp only [PGSIZE] at *
      omega
    refine Safe.bind (uvmunmap_safe rfl (hn.trans_le hup) (fun _ => (hn.trans_le hup).trans (by decide))
      fun hs => ⟨hT, fun vb h39 _ h2 => ?_⟩) ?_
    · rw [hn] at h2
      exact (hsh hs vb h39).mpr h2
    rintro T' _ ⟨rfl, hu⟩
    rw [tableTok_eq_part]
    refine freewalk_safe (hu.leafy hT) fun hs => bare_of_leaf fun vb h39 => ?_
    rw [hu.leaf vb h39, hn]
    split
    · exact Pte.zero_has _
    · rename_i hc
      exact eq_false_iff.mpr fun hv => hc ⟨Nat.zero_le _, (hsh hs vb h39).mp hv⟩
  · rename_i h0
    obtain rfl : sz = 0 := by omega
    rw [tableTok_eq_part]
    refine freewalk_safe hT fun hs => bare_of_leaf fun vb h39 => eq_false_iff.mpr fun hv => ?_
    exact Nat.not_lt_zero vb ((hsh hs vb h39).mp hv)

/-! ## creating -/

omit [UserTokens M c] in
theorem uvmcreate_safe : Safe M B uvmcreate 0 fun x r =>
    match x with
    | some T => r = tableTok T c ∧ ∃ pa, T = Table.zero 2 pa
    | none => r = 0 := by
  refine Safe.bindAct (does_kalloc (fun pa _ _ => ?_) ?_)
  · refine Safe.bindAct (does_memset (fun _ => private_of_mem (by simp) le_rfl le_rfl) ?_)
    refine Safe.ret ⟨?_, pa, rfl⟩
    rw [tableTok_zero, zero_add]
  · exact Safe.ret rfl

/-- `X` is the page that stays with the thread if `mappages` fails -/
theorem uvmfirst_safe (hm : m.strict = false) (hT : Space L tf T)
    (h0 : (T.leaf 0).has PTE_V = false) (hsh : sh = true → Shape L T 0) :
    Safe M B (uvmfirst T src sz) (tableTok T) fun T' r =>
      ∃ X, r = tableTok T' + X ∧ Space L tf T' ∧ ((T'.leaf 0).has PTE_V → X = 0) ∧
        (∀ t ∈ X, ∃ pa, t = Token.priv pa) ∧
        (sh = true → (T'.leaf 0).has PTE_V → Shape L T' PGSIZE) := by
  unfold uvmfirst
  split
  · exact Safe.panic (not_fatal (by decide) (hM.not_adr hm))
  refine Safe.bindAct (does_kalloc (fun mem hmem hnew => ?_) ?_)
  · refine Safe.bindAct (does_memset (not_strict hm) ?_)
    have e : tableTok T + {.priv mem} = T.sys.map .priv + (T.users.map .user + {.priv mem}) := by
      rw [tableTok, add_assoc]
    refine Safe.call (mappages_safe rfl (fun _ => by decide) fun _ => h0) e ?_
    rintro ⟨T', ok⟩ _ ⟨hva, rfl, -, hf, ht⟩
    refine Safe.bindAct (does_write (not_strict hm) ?_)
    cases ok with
    | false =>
      have hg := hf rfl
      rw [← add_assoc, ← tableTok_grown hg]
      have hno : (T'.leaf 0).has PTE_V = true → False := by
        intro hv
        rw [hg.leaf, h0] at hv
        cases hv
      exact Safe.ret ⟨{.priv mem}, rfl, hT.grown hg, fun hv => (hno hv).elim,
        fun t ht => ⟨mem, by simpa using ht⟩, fun _ hv => (hno hv).elim⟩
    | true =>
      obtain ⟨hv, hw⟩ := ht rfl
      have hlt := hT.lt_trapframe hva rfl hv
      have hpv : (Pte.ofPa mem (PTE_W ||| PTE_R ||| PTE_X ||| PTE_U ||| PTE_V)).has PTE_V := by
        rw [Pte.has, Pte.ofPa_flags]
        decide
      have hpr : (Pte.ofPa mem (PTE_W ||| PTE_R ||| PTE_X ||| PTE_U ||| PTE_V)).has PTE_R := by
        rw [Pte.has, Pte.ofPa_flags]
        decide
      have htok := tableTok_written (c := .user) hw rfl hlt hv hpv
      rw [Pte.ofPa_pa hmem.1] at htok
      rw [← add_assoc]
      refine Safe.shift (UserTokens.share (c := .user) _ _) ?_
      rw [← htok]
      refine Safe.ret ⟨0, (add_zero _).symm, hT.written hw hlt fun _ => hpr, fun _ => rfl,
        fun t ht => absurd ht (notMem_zero t), fun hs _ => ?_⟩
      have hpa : (Pte.ofPa mem (PTE_W ||| PTE_R ||| PTE_X ||| PTE_U ||| PTE_V)).pa = mem :=
        Pte.ofPa_pa hmem.1
      have hwr := (hsh hs).written rfl hw hpv (by rw [hpa]; exact hmem)
        (by rw [hpa]; exact notMapped_new hnew (fun _ => .inr rfl) users_le_tableTok)
      rwa [Nat.zero_add] at hwr
  · refine Safe.bindAct (does_memset (not_strict hm) ?_)
    refine Safe.ret ⟨0, (add_zero _).symm, hT, fun _ => rfl, fun t ht => absurd ht (notMem_zero t),
      fun _ hv => ?_⟩
    rw [h0] at hv
    cases hv

/-! ## copying -/

theorem copyLoop_safe {N : Table 2} {i : Nat} (hB : T.users.map .user ≤ B)
    (hT : T.Leafy) (hN : Space L tf N) (hi : i % PGSIZE = 0) (hn : i + n * PGSIZE ≤ TRAPFRAME)
    (hsrc : sh = true → ∀ vb, vb < i + n * PGSIZE → (T.leaf vb).has PTE_V = true)
    (hsh : sh = true → ∀ vb, vb < TRAPFRAME → ((N.leaf vb).has PTE_V = true ↔ vb < i)) :
    Safe M B (copyLoop T n N i) (tableTok N) fun x r =>
      r = tableTok x.1 ∧ Space L tf x.1 ∧ (x.2 = true → Copied T N x.1 i n) ∧
        (sh = true → x.2 = false → ∀ vb, vb < TRAPFRAME → (x.1.leaf vb).has PTE_V = false) := by
  induction n generalizing N i with
  | zero => exact Safe.ret ⟨rfl, hN, fun _ => Copied.zero, fun _ h => absurd h.symm false_ne_true⟩
  | succ n ih =>
    have hn' : (n + 1) * PGSIZE = n * PGSIZE + PGSIZE := Nat.succ_mul n PGSIZE
    have hpg : 0 < PGSIZE := by decide
    have hhere : sh = true → (T.leaf i).has PTE_V = true := fun hs => hsrc hs i (by omega)
    have hfree : sh = true → (N.leaf i).has PTE_V = false := by
      intro hs
      refine eq_false_iff.mpr fun hv => Nat.lt_irrefl i ?_
      exact (hsh hs i (by omega)).mp hv
    have hmax : adr = true → i < MAXVA := fun _ => lt_of_lt_of_le (by omega) (show TRAPFRAME ≤ MAXVA by decide)
    refine Safe.bind (walk_safe (Q := fun x r => x = T.get i ∧ r = tableTok N) hmax fun _ => ⟨rfl, rfl⟩) ?_
    rintro x _ ⟨rfl, rfl⟩
    cases hg : T.get i with
    | none =>
      refine Safe.panic (not_fatal_shape (by decide) fun hs => ?_)
      obtain ⟨_, e, -⟩ := get_of_valid (hhere hs)
      rw [hg] at e
      cases e
    | some pte =>
      have hleaf := leaf_of_get hg
      dsimp only
      split
      · rename_i hv
        refine Safe.panic (not_fatal_shape (by decide) fun hs => ?_)
        rw [← hleaf, hhere hs] at hv
        cases hv
      rename_i hv
      have hv' : (T.leaf i).has PTE_V = true := by
        rw [hleaf]
        simpa using hv
      refine Safe.call (mappages_safe hi hmax hfree) (show tableTok N = _ + N.users.map .user from rfl) ?_
      rintro ⟨N1, ok⟩ _ ⟨hva, rfl, -, hf, ht⟩
      cases ok with
      | false =>
        have hgr := hf rfl
        rw [← tableTok_grown hgr]
        have hlen : 0 + i / PGSIZE * PGSIZE = i := by
          simp only [PGSIZE] at *
          omega
        have hi' : i ≤ TRAPFRAME := by omega
        have hN1 : sh = true → ∀ vb, vb < TRAPFRAME → ((N1.leaf vb).has PTE_V = true ↔ vb < i) := by
          intro hs vb hb
          rw [hgr.leaf]
          exact hsh hs vb hb
        refine Safe.bind (uvmunmap_safe rfl (hlen.trans_le hi') (fun _ => (hlen.trans_le hi').trans (by decide))
          fun hs => ⟨hgr.leafy hN.leafy, fun vb _ _ h2 => (hN1 hs vb (by omega)).mpr (by omega)⟩) ?_
        rintro N2 _ ⟨rfl, hu⟩
        refine Safe.ret ⟨rfl, (hN.grown hgr).unmapped hu (hlen.trans_le hi'),
          fun h => absurd h false_ne_true, fun hs _ vb hb => ?_⟩
        rw [hu.leaf vb (lt_of_maxva (hb.trans (by decide))), hlen]
        split
        · exact Pte.zero_has _
        · rename_i hc
          exact eq_false_iff.mpr fun hv => hc ⟨Nat.zero_le _, (hN1 hs vb hb).mp hv⟩
      | true =>
        obtain ⟨hnv, hw⟩ := ht rfl
        have hlt := hN.lt_trapframe hva hi hnv
        have hpte : Pte.ofPa pte.pa ((pte.flags ||| PTE_COW) &&& ~~~PTE_W ||| PTE_V) = (T.leaf i).shared := by
          rw [hleaf]
          rfl
        rw [hpte] at hw
        have htok := tableTok_written (c := .user) hw hi hlt hnv (Pte.shared_has_v _)
        rw [Pte.shared_pa, hleaf] at htok
        have hmem : Token.user pte.pa ∈ N1.sys.map .priv + N.users.map .user + B := by
          have : Token.user (T.leaf i).pa ∈ T.users.map Token.user :=
            mem_map_of_mem _ (mem_users hv' hlt)
          rw [hleaf] at this
          exact mem_add.mpr (.inr (mem_of_le hB this))
        refine Safe.bindAct (does_inckref hmem ?_)
        rw [← htok]
        have hN1 := hN.written hw hlt fun _ => Pte.shared_has_r (leafy_leaf hT hv')
        have hnext : sh = true → ∀ vb, vb < TRAPFRAME → ((N1.leaf vb).has PTE_V = true ↔ vb < i + PGSIZE) := by
          intro hs vb hb
          rw [hw.leaf vb (lt_of_maxva (hb.trans (by decide)))]
          split
          · rename_i e
            refine ⟨fun _ => ?_, fun _ => Pte.shared_has_v _⟩
            simp only [PGSIZE] at *
            omega
          · rename_i e
            rw [hsh hs vb hb]
            simp only [PGSIZE] at *
            omega
        refine (ih hN1 (by rw [Nat.add_mod_right, hi]) (by omega)
          (fun hs vb hb => hsrc hs vb (by omega)) hnext).mono ?_
        rintro ⟨N2, ok⟩ _ ⟨rfl, hS, hc, hbad⟩
        exact ⟨rfl, hS, fun h => (hc h).succ hi hn hT hv' hw, hbad⟩

theorem uvmcopy_safe {N : Table 2} (hB : T.users.map .user ≤ B) (hT : T.Leafy)
    (hN : Space L tf N) (hsz : sz ≤ TRAPFRAME) (hsrc : sh = true → Shape L T sz)
    (hsh : sh = true → ∀ vb, vb < TRAPFRAME → (N.leaf vb).has PTE_V = false) :
    Safe M B (uvmcopy T N sz) (tableTok N) fun x r =>
      r = tableTok x.1 ∧ Space L tf x.1 ∧
        (x.2 = true → Copied T N x.1 0 ((sz + PGSIZE - 1) / PGSIZE)) ∧
        (sh = true → x.2 = false → ∀ vb, vb < TRAPFRAME → (x.1.leaf vb).has PTE_V = false) := by
  have h := roundup_le hsz (by decide)
  have hup : 0 + (sz + PGSIZE - 1) / PGSIZE * PGSIZE = PGROUNDUP sz := Nat.zero_add _
  refine copyLoop_safe hB hT hN rfl (hup.trans_le h) (fun hs vb hb => ?_) fun hs vb hb => ?_
  · rw [hup] at hb
    exact ((hsrc hs).mapped vb (by omega)).mpr hb
  · rw [hsh hs vb hb]
    exact ⟨fun h => absurd h false_ne_true, fun h => absurd h (Nat.not_lt_zero vb)⟩

/-! ## user memory -/

omit [UserTokens M c] in
theorem uvmclear_safe (hT : Space L tf T) (hva : va < TRAPFRAME) (hadr : adr = true → (T.get va).isSome) :
    Safe M B (uvmclear T va) (tableTok T c) fun T' r => r = tableTok T' c ∧ Space L tf T' ∧
      ∀ sz, Shape L T sz → Shape L T' sz := by
  refine Safe.bind (walk_safe (Q := fun x r => x = T.get va ∧ r = tableTok T c)
    (fun _ => hva.trans (by decide)) fun _ => ⟨rfl, rfl⟩) ?_
  rintro x _ ⟨rfl, rfl⟩
  cases hg : T.get va with
  | none =>
    refine Safe.panic (not_fatal (by decide) fun ha => ?_)
    have := hadr ha
    rw [hg] at this
    cases this
  | some pte =>
    have hV : ({ pte with flags := pte.flags &&& ~~~PTE_U } : Pte).has PTE_V = pte.has PTE_V := by
      rw [Pte.has, flags_keep _ (by decide)]
      rfl
    have hR : ({ pte with flags := pte.flags &&& ~~~PTE_U } : Pte).has PTE_R = pte.has PTE_R := by
      rw [Pte.has, flags_keep _ (by decide)]
      rfl
    have h39 : va < 2 ^ 39 := by
      have : TRAPFRAME ≤ 2 ^ 39 := by decide
      omega
    have hsome : (T.get va).isSome := by rw [hg]; rfl
    have hleaf := leaf_of_get hg
    have hpage : userPage (PGROUNDDOWN va) { pte with flags := pte.flags &&& ~~~PTE_U }
        = userPage (PGROUNDDOWN va) pte := by
      unfold userPage
      rw [hV]
      rfl
    have hu := users_put (p := { pte with flags := pte.flags &&& ~~~PTE_U }) hg h39
    rw [hpage] at hu
    refine Safe.ret ⟨?_, hT.written (written_put hsome h39) hva fun hv => ?_, fun sz hsz => hsz.same fun vb hb => ?_⟩
    · rw [tableTok, tableTok, sys_put, add_right_cancel hu]
    · rw [hV, ← hleaf] at hv
      rw [hR, ← hleaf]
      exact leafy_leaf hT.leafy hv
    · have hb39 := lt_of_maxva (hb.trans (by decide))
      rw [leaf_put hsome h39 hb39]
      split
      · rename_i e
        rw [hV, ← hleaf, leaf_page h39 hb39 e]
        exact ⟨rfl, rfl⟩
      · exact ⟨rfl, rfl⟩

/-- a thread that is strict may write to user memory only if it owns the pages alone -/
def OwnsUser (m : Mode) (T : Table 2) (r : Ledger) : Prop :=
  m.strict = true → ∀ va, walkaddr T va ≠ 0 → Token.priv (walkaddr T va) ∈ r

theorem copyoutLoop_safe {fuel dstva : Nat} (hw : OwnsUser m T r) :
    Safe M B (copyoutLoop T fuel dstva src len) r fun _ r' => r' = r := by
  induction fuel generalizing dstva src len with
  | zero => exact Safe.ret rfl
  | succ fuel ih =>
    unfold copyoutLoop
    split
    · split
      · exact Safe.ret rfl
      · rename_i hne
        refine Safe.bindAct (does_write (fun h => private_of_mem (hw h _ hne) (Nat.le_add_right _ _) ?_) ih)
        simp only [PGROUNDDOWN, PGSIZE]
        omega
    · exact Safe.ret rfl

theorem copyout_safe {dstva : Nat} (hw : OwnsUser m T r) :
    Safe M B (copyout T dstva src len) r fun _ r' => r' = r :=
  copyoutLoop_safe hw

/-- somebody owns the user pages of the table -/
def HasUser (T : Table 2) (R : Ledger) : Prop := ∀ va, walkaddr T va ≠ 0 → ∃ t ∈ R, t.IsPage (walkaddr T va)

omit hM in
theorem HasUser.readable {R : Ledger} (h : HasUser T R) (hne : walkaddr T (PGROUNDDOWN va) ≠ 0)
    (hn : n = min (PGSIZE - (va - PGROUNDDOWN va)) len) :
    Readable R (walkaddr T (PGROUNDDOWN va) + (va - PGROUNDDOWN va)) n := by
  obtain ⟨t, ht, hp⟩ := h _ hne
  refine ⟨t, ht, _, hp, Nat.le_add_right _ _, ?_⟩
  simp only [PGROUNDDOWN, PGSIZE] at hn ⊢
  omega

theorem copyinLoop_safe {fuel done srcva : Nat} {dst : Buf} (hr : adr = true → HasUser T (r + B)) :
    Safe M B (copyinLoop T fuel dst done srcva len) r fun _ r' => r' = r := by
  induction fuel generalizing dst done srcva len with
  | zero => exact Safe.ret rfl
  | succ fuel ih =>
    unfold copyinLoop
    split
    · split
      · exact Safe.ret rfl
      · rename_i hne
        exact Safe.bindAct (does_read (fun ha => (hr ha).readable hne rfl) fun b => ih)
    · exact Safe.ret rfl

theorem copyin_safe {srcva : Nat} (hr : adr = true → HasUser T (r + B)) :
    Safe M B (copyin T srcva len) r fun _ r' => r' = r :=
  copyinLoop_safe hr

omit hM in
theorem findNul_lt {b : Buf} {k : Nat} (h : findNul b n = some k) : k < n :=
  List.mem_range.mp (List.mem_of_find?_eq_some h)

omit hM in
theorem Private.part {b k : Nat} (h : Private r a n) (h1 : a ≤ b) (h2 : b + k ≤ a + n) : Private r b k := by
  obtain ⟨pa, hp, h3, h4⟩ := h
  exact ⟨pa, hp, by omega, by omega⟩

theorem copyinstrLoop_safe {fuel dst srcva max : Nat} (hr : adr = true → HasUser T (r + B))
    (hp : m.strict = true → Private r dst max) :
    Safe M B (copyinstrLoop T fuel dst srcva max) r fun _ r' => r' = r := by
  induction fuel generalizing dst srcva max with
  | zero => exact Safe.ret rfl
  | succ fuel ih =>
    unfold copyinstrLoop
    split
    · split
      · exact Safe.ret rfl
      rename_i hne
      refine Safe.bindAct (does_read (fun ha => (hr ha).readable hne rfl) fun b => ?_)
      split
      · rename_i k hk
        have hlt := findNul_lt hk
        refine Safe.bindAct (does_write (fun h => (hp h).part le_rfl ?_) (Safe.ret rfl))
        omega
      · refine Safe.bindAct (does_write (fun h => (hp h).part le_rfl (by omega)) (ih fun h => (hp h).part ?_ ?_))
        · exact Nat.le_add_right _ _
        · omega
    · exact Safe.ret rfl

theorem copyinstr_safe {dst srcva max : Nat} (hr : adr = true → HasUser T (r + B))
    (hp : m.strict = true → Private r dst max) :
    Safe M B (copyinstr T dst srcva max) r fun _ r' => r' = r :=
  copyinstrLoop_safe hr hp

end

end Vm
