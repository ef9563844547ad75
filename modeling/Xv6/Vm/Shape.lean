import Xv6.Vm.FileRules
import Mathlib.Tactic.Ring
import Mathlib.Tactic.NormNum

/-!
# Which pages an address space maps

* `Unmapped`, `Copied`           what `uvmunmap` and `uvmcopy` change;
* `Backed`, `Bare`               tables from which pages can be unmapped, and which can be freed;
* `Shape.lt`                     there is less memory than address space, so that user memory never comes
                                 up to `TRAPFRAME`;
* `Shape.written`, `Shape.replaced`, `Shape.unmapped`, `Shape.copied`   what happens to the user part.
-/

namespace Vm
open Run Bytes Prog Own Table

section
variable {L : Layout} {T T' : Table 2} {va pa sz : Nat}

/-! ## addresses -/

theorem lt_of_maxva (h : va < MAXVA) : va < 2 ^ 39 := by
  have : MAXVA ≤ 2 ^ 39 := by decide
  omega

theorem rounddown_aligned (h : va % PGSIZE = 0) : PGROUNDDOWN va = va :=
  Nat.div_mul_cancel (Nat.dvd_of_mod_eq_zero h)

theorem trapframe_lt {va : Nat} (h : va < TRAPFRAME) (hb : TRAPFRAME ≤ pa) :
    va / PGSIZE ≠ pa / PGSIZE := by
  have : TRAPFRAME % PGSIZE = 0 := by decide
  simp only [PGSIZE] at *
  omega

variable {a n : Nat}

theorem roundup_le (h : n ≤ a) (ha : a % PGSIZE = 0) : PGROUNDUP n ≤ a := by
  simp only [PGROUNDUP, PGSIZE] at *
  omega

theorem roundup_aligned (n : Nat) : PGROUNDUP n % PGSIZE = 0 := Nat.mul_mod_left _ _

theorem roundup_of_aligned (h : n % PGSIZE = 0) : PGROUNDUP n = n := by
  simp only [PGROUNDUP, PGSIZE] at *
  omega

theorem le_roundup (n : Nat) : n ≤ PGROUNDUP n := by
  simp only [PGROUNDUP, PGSIZE]
  omega

/-! ## unmapping -/

/-- `T'` is `T` without the `n` pages from `a` on -/
structure Unmapped (T T' : Table 2) (a n : Nat) : Prop where
  leaf : ∀ vb, vb < 2 ^ 39 →
    T'.leaf vb = if a ≤ vb ∧ vb < a + n * PGSIZE then Pte.zero else T.leaf vb
  leafy : T.Leafy → T'.Leafy

theorem Unmapped.zero : Unmapped T T a 0 := by
  refine ⟨fun vb _ => ?_, id⟩
  rw [if_neg (by omega)]

theorem Unmapped.succ (hg : (T.get a).isSome) (ha : a % PGSIZE = 0)
    (h39 : a < 2 ^ 39) (h : Unmapped (T.put a Pte.zero) T' (a + PGSIZE) n) : Unmapped T T' a (n + 1) := by
  refine ⟨fun vb hb => ?_, fun hT => h.leafy (leafy_put hT fun hv => ?_)⟩
  · rw [h.leaf vb hb, leaf_put hg h39 hb]
    have hiff : a / PGSIZE = vb / PGSIZE ↔ a ≤ vb ∧ vb < a + PGSIZE := by
      simp only [PGSIZE] at ha ⊢
      omega
    have hn : (n + 1) * PGSIZE = n * PGSIZE + PGSIZE := Nat.succ_mul n PGSIZE
    by_cases h1 : a ≤ vb ∧ vb < a + PGSIZE
    · rw [if_neg (by omega), if_pos (hiff.mpr h1), if_pos (by omega)]
    · rw [if_neg (fun e => h1 (hiff.mp e))]
      by_cases h2 : a + PGSIZE ≤ vb ∧ vb < a + PGSIZE + n * PGSIZE
      · rw [if_pos h2, if_pos (by omega)]
      · rw [if_neg h2, if_neg (by omega)]
  · rw [Pte.zero_has] at hv
    cases hv

/-! ## copying -/

/-- the PTE that `uvmcopy` makes from the one of the old table -/
def Pte.shared (p : Pte) : Pte := Pte.ofPa p.pa ((p.flags ||| PTE_COW) &&& ~~~PTE_W ||| PTE_V)

theorem Pte.shared_pa (p : Pte) : p.shared.pa = p.pa := Pte.ofPa_pa (Nat.mul_mod_left _ _)

theorem Pte.shared_has (p : Pte) {b : BitVec 10} (hb : ~~~PTE_W &&& b = b) :
    p.shared.has b = (p.has b || PTE_COW &&& b != 0 || PTE_V &&& b != 0) := by
  rw [Pte.has, Pte.shared, Pte.ofPa_flags, flags_or, flags_keep _ hb, flags_or]
  rfl

theorem Pte.shared_has_v (p : Pte) : p.shared.has PTE_V := by
  rw [p.shared_has (by decide)]
  exact Bool.or_eq_true_iff.mpr (.inr (by decide))

theorem Pte.shared_has_r {p : Pte} (h : p.has PTE_R) : p.shared.has PTE_R := by
  rw [p.shared_has (by decide), h]
  rfl

theorem leafy_leaf {C : Table n} (h : C.Leafy) (hv : (C.leaf va).has PTE_V) : (C.leaf va).has PTE_R := by
  induction n with
  | zero => exact h _ hv
  | succ n ih =>
    unfold Table.leaf at hv ⊢
    cases hC : Node.ent C (PX (n + 1) va) with
    | none => simp [Table.get, hC] at hv
    | some D =>
      have hD := h (PX (n + 1) va)
      rw [hC] at hD
      simp only [Table.get, hC] at hv ⊢
      exact ih hD hv

/-- `N'` is `N` with the pages of `T` from `i` on, `n` of them, shared -/
structure Copied (T N N' : Table 2) (i n : Nat) : Prop where
  leaf : ∀ vb, vb < 2 ^ 39 →
    N'.leaf vb = if i ≤ vb ∧ vb < i + n * PGSIZE then (T.leaf vb).shared else N.leaf vb
  valid : ∀ vb, i ≤ vb → vb < i + n * PGSIZE → (T.leaf vb).has PTE_V
  leafy : N.Leafy → N'.Leafy

theorem leaf_page {b : Nat} (ha : a < 2 ^ 39) (hb : b < 2 ^ 39) (h : a / PGSIZE = b / PGSIZE) :
    T.leaf a = T.leaf b := by
  unfold Table.leaf
  rw [get_congr ((agree_two ha hb).mpr h)]

theorem Copied.zero {N : Table 2} {i : Nat} : Copied T N N i 0 := by
  refine ⟨fun vb _ => ?_, fun vb h1 h2 => ?_, id⟩
  · rw [if_neg (by omega)]
  · omega

theorem Copied.succ {N N1 N' : Table 2} {i : Nat} (hi : i % PGSIZE = 0)
    (hn : i + (n + 1) * PGSIZE ≤ TRAPFRAME) (hT : T.Leafy) (hv : (T.leaf i).has PTE_V)
    (hw : Written N N1 i (T.leaf i).shared) (h : Copied T N1 N' (i + PGSIZE) n) :
    Copied T N N' i (n + 1) := by
  have hn' : (n + 1) * PGSIZE = n * PGSIZE + PGSIZE := Nat.succ_mul n PGSIZE
  have h39 : TRAPFRAME < 2 ^ 39 := by decide
  have hiff : ∀ vb, i / PGSIZE = vb / PGSIZE ↔ i ≤ vb ∧ vb < i + PGSIZE := by
    intro vb
    simp only [PGSIZE] at hi ⊢
    omega
  refine ⟨fun vb hb => ?_, fun vb h1 h2 => ?_,
    fun hN => h.leafy (hw.leafy hN fun _ => Pte.shared_has_r (leafy_leaf hT hv))⟩
  · rw [h.leaf vb hb, hw.leaf vb hb]
    by_cases hc : i ≤ vb ∧ vb < i + PGSIZE
    · rw [if_neg (by omega), if_pos ((hiff vb).mpr hc), if_pos (by omega),
        leaf_page (by omega) hb ((hiff vb).mpr hc)]
    · rw [if_neg (fun e => hc ((hiff vb).mp e))]
      by_cases h2 : i + PGSIZE ≤ vb ∧ vb < i + PGSIZE + n * PGSIZE
      · rw [if_pos h2, if_pos (by omega)]
      · rw [if_neg h2, if_neg (by omega)]
  · by_cases hc : i ≤ vb ∧ vb < i + PGSIZE
    · rwa [← leaf_page (by omega) (by omega) ((hiff vb).mpr hc)]
    · exact h.valid vb (by omega) (by omega)

/-! ## the tokens of parts of a table -/

/-- the tokens of a part of a page table -/
def partTok {n : Nat} (C : Table n) (base : Nat) (c : Nat → Token) : Ledger :=
  C.sys.map .priv + (C.usersAt base).map c

theorem tableTok_eq_part (T : Table 2) (c : Nat → Token) : tableTok T c = partTok T 0 c := by
  rw [tableTok, partTok, Table.users]

/-- the tokens below one entry -/
def entTok (c : Nat → Token) : {n : Nat} → Table n → (base : Nat) → Fin NPTE → Ledger
  | 0, C, base, i => (userPage (base + i * PGSIZE) (Node.ent C i)).map c
  | n + 1, C, base, i =>
    match Node.ent C i with
    | some D => partTok D (base + i * 2 ^ (12 + 9 * (n + 1))) c
    | none => 0

theorem map_sum_eq {ι : Type} [Fintype ι] (c : Nat → Token) (g : ι → Multiset Nat) :
    (∑ i, g i).map c = ∑ i, (g i).map c := map_sum (Multiset.mapAddMonoidHom c) g _

theorem partTok_eq (C : Table n) (base : Nat) (c : Nat → Token) :
    partTok C base c = ∑ i, entTok c C base i + {.priv C.pa} := by
  cases n with
  | zero =>
    rw [partTok, Table.sys, Table.usersAt, Multiset.map_singleton, add_comm, map_sum_eq]
    rfl
  | succ n =>
    have hent : ∀ i, entTok c C base i = (match Node.ent C i with
          | some D => Table.sys D
          | none => 0).map Token.priv + (match Node.ent C i with
          | some D => Table.usersAt D (base + i * 2 ^ (12 + 9 * (n + 1)))
          | none => 0).map c := by
      intro i
      simp only [entTok]
      cases Node.ent C i with
      | some D | none => rfl
    rw [partTok, Table.sys, Table.usersAt, Multiset.map_add, Multiset.map_singleton, map_sum_eq, map_sum_eq,
      add_assoc, ← Finset.sum_add_distrib, add_comm]
    exact congrArg (· + _) (Finset.sum_congr rfl fun i _ => (hent i).symm)

/-! ## tables that can be taken apart -/

/-- the `n` pages from `a` on are mapped -/
structure Backed (T : Table 2) (a n : Nat) : Prop where
  leafy : T.Leafy
  mapped : ∀ vb, vb < 2 ^ 39 → a ≤ vb → vb < a + n * PGSIZE → (T.leaf vb).has PTE_V = true

theorem Backed.succ (h : Backed T a (n + 1)) (hg : (T.get a).isSome) (ha : a % PGSIZE = 0)
    (h39 : a < 2 ^ 39) : Backed (T.put a Pte.zero) (a + PGSIZE) n := by
  have hn' : (n + 1) * PGSIZE = n * PGSIZE + PGSIZE := Nat.succ_mul n PGSIZE
  refine ⟨leafy_put h.leafy fun hv => ?_, fun vb hb h1 h2 => ?_⟩
  · rw [Pte.zero_has] at hv
    cases hv
  have hne : a / PGSIZE ≠ vb / PGSIZE := by
    simp only [PGSIZE] at *
    omega
  rw [leaf_put hg h39 hb, if_neg hne]
  exact h.mapped vb hb (by omega) (by omega)

theorem Backed.head (h : Backed T a (n + 1)) (h39 : a < 2 ^ 39) :
    ∃ pte, T.get a = some pte ∧ pte.has PTE_V = true ∧ pte.flags ≠ PTE_V := by
  have hv := h.mapped a h39 le_rfl (by
    have hn' : (n + 1) * PGSIZE = n * PGSIZE + PGSIZE := Nat.succ_mul n PGSIZE
    have hpg : 0 < PGSIZE := by decide
    omega)
  have hr := leafy_leaf h.leafy hv
  obtain ⟨pte, hg, e⟩ := get_of_valid hv
  rw [e] at hv hr
  refine ⟨pte, hg, hv, fun e => ?_⟩
  rw [Pte.has, e] at hr
  exact absurd hr (by decide)

/-- no PTE is valid -/
def Bare : {n : Nat} → Table n → Prop
  | 0, T => ∀ i, (Node.ent T i).has PTE_V = false
  | _ + 1, T => ∀ i C, Node.ent T i = some C → Bare C

theorem PX_lt {v : Nat} {i : Fin NPTE} (h : v < 2 ^ (12 + 9 * n)) : PX n (i * 2 ^ (12 + 9 * n) + v) = i := by
  have hi : i.val < 512 := by
    have := i.isLt
    unfold NPTE at this
    exact this
  apply Fin.ext
  show (i * 2 ^ (12 + 9 * n) + v) / 2 ^ (12 + 9 * n) % 512 = i
  rw [Nat.add_comm, Nat.add_mul_div_right _ _ (Nat.two_pow_pos _), Nat.div_eq_of_lt h, Nat.zero_add,
    Nat.mod_eq_of_lt hi]

theorem PX_low {l v j : Nat} (h : l ≤ n) : PX l (j * 2 ^ (12 + 9 * (n + 1)) + v) = PX l v := by
  apply Fin.ext
  show (j * 2 ^ (12 + 9 * (n + 1)) + v) / 2 ^ (12 + 9 * l) % 512 = v / 2 ^ (12 + 9 * l) % 512
  obtain ⟨d, rfl⟩ := Nat.exists_eq_add_of_le h
  have e : j * 2 ^ (12 + 9 * (l + d + 1)) = j * 2 ^ (9 * d) * 512 * 2 ^ (12 + 9 * l) := by
    rw [show 12 + 9 * (l + d + 1) = 9 * d + (9 + (12 + 9 * l)) by omega, pow_add, pow_add]
    ring
  rw [e, Nat.add_comm, Nat.add_mul_div_right _ _ (Nat.two_pow_pos _), Nat.add_mul_mod_self_right]

theorem bare_of_leaf {C : Table n}
    (h : ∀ v, v < 2 ^ (12 + 9 * (n + 1)) → (C.leaf v).has PTE_V = false) : Bare C := by
  induction n with
  | zero =>
    intro i
    have hi : i.val < 512 := by
      have := i.isLt
      unfold NPTE at this
      exact this
    have hlt : i.val * 2 ^ (12 + 9 * 0) < 2 ^ (12 + 9 * (0 + 1)) := by
      norm_num
      omega
    have := h _ hlt
    have e : PX 0 (i * 2 ^ (12 + 9 * 0) + 0) = i := PX_lt (Nat.two_pow_pos _)
    rw [Nat.add_zero] at e
    unfold Table.leaf Table.get at this
    rwa [e] at this
  | succ n ih =>
    intro i D hD
    refine ih fun v hv => ?_
    have hi : i.val < 512 := by
      have := i.isLt
      unfold NPTE at this
      exact this
    have hlt : i * 2 ^ (12 + 9 * (n + 1)) + v < 2 ^ (12 + 9 * (n + 1 + 1)) := by
      have e : 2 ^ (12 + 9 * (n + 1 + 1)) = 512 * 2 ^ (12 + 9 * (n + 1)) := by
        rw [show 12 + 9 * (n + 1 + 1) = 9 + (12 + 9 * (n + 1)) by omega, pow_add]
        norm_num
      have h1 : (i.val + 1) * 2 ^ (12 + 9 * (n + 1)) ≤ 512 * 2 ^ (12 + 9 * (n + 1)) :=
        Nat.mul_le_mul_right _ hi
      rw [Nat.succ_mul] at h1
      omega
    have hleaf := h _ hlt
    have hget : C.get (i * 2 ^ (12 + 9 * (n + 1)) + v) = D.get v := by
      have e1 : PX (n + 1) (i * 2 ^ (12 + 9 * (n + 1)) + v) = i := PX_lt hv
      simp only [Table.get, e1, hD]
      exact get_congr fun l hl => PX_low hl
    unfold Table.leaf at hleaf ⊢
    rwa [hget] at hleaf

/-! ## the shape of an address space -/

/-- no user page of the table is the page `pa` -/
def NotMapped (T : Table 2) (pa : Nat) : Prop :=
  ∀ vb, vb < TRAPFRAME → (T.leaf vb).has PTE_V = true → (T.leaf vb).pa ≠ pa

theorem notMapped_of_users (h : pa ∉ T.users) : NotMapped T pa := by
  rintro vb hb hv rfl
  exact h (mem_users hv hb)

namespace Shape

theorem resize {sz' : Nat} (h : Shape L T sz) (e : PGROUNDUP sz' = PGROUNDUP sz) : Shape L T sz' := by
  refine ⟨fun va hva => ?_, h.page, h.inj⟩
  rw [e]
  exact h.mapped va hva

theorem same (h : Shape L T sz) (hT : ∀ vb, vb < TRAPFRAME →
    (T'.leaf vb).has PTE_V = (T.leaf vb).has PTE_V ∧ (T'.leaf vb).pa = (T.leaf vb).pa) :
    Shape L T' sz := by
  refine ⟨fun va hva => ?_, fun va hva hv => ?_, fun va vb ha hb hv hv' e => ?_⟩
  · rw [(hT va hva).1]
    exact h.mapped va hva
  · rw [(hT va hva).1] at hv
    rw [(hT va hva).2]
    exact h.page va hva hv
  · rw [(hT va ha).1] at hv
    rw [(hT vb hb).1] at hv'
    rw [(hT va ha).2, (hT vb hb).2] at e
    exact h.inj va vb ha hb hv hv' e

theorem grown (h : Shape L T sz) (hg : Grown T T') : Shape L T' sz :=
  h.same fun vb _ => by rw [hg.leaf]; exact ⟨rfl, rfl⟩

theorem blank (h : ∀ vb, vb < TRAPFRAME → (T.leaf vb).has PTE_V = false) : Shape L T 0 := by
  have hv : ∀ vb, vb < TRAPFRAME → (T.leaf vb).has PTE_V = true → False := by
    intro vb hb hv
    rw [h vb hb] at hv
    cases hv
  refine ⟨fun va hva => ⟨fun h' => (hv va hva h').elim, fun h' => absurd h' (by
    simp only [PGROUNDUP, PGSIZE]
    omega)⟩, fun va hva h' => (hv va hva h').elim, fun va _ ha _ h' => (hv va ha h').elim⟩

theorem le_phystop {a : Nat} (h : Shape L T a) (ha : a % PGSIZE = 0) (hle : a ≤ TRAPFRAME) : a ≤ PHYSTOP := by
  have hup := roundup_of_aligned ha
  have hin : ∀ i ∈ Finset.range (a / PGSIZE), i * PGSIZE < TRAPFRAME ∧
      (T.leaf (i * PGSIZE)).has PTE_V = true := by
    intro i hi
    have hi' := Finset.mem_range.mp hi
    have hlt : i * PGSIZE < a := by
      simp only [PGSIZE] at *
      omega
    have hT : i * PGSIZE < TRAPFRAME := by omega
    exact ⟨hT, (h.mapped _ hT).mpr (by rw [hup]; exact hlt)⟩
  have hcard := Finset.card_le_card_of_injOn (s := Finset.range (a / PGSIZE))
    (t := Finset.range (PHYSTOP / PGSIZE)) (fun i => (T.leaf (i * PGSIZE)).pa / PGSIZE) ?_ ?_
  · rw [Finset.card_range, Finset.card_range] at hcard
    simp only [PGSIZE] at *
    omega
  · intro i hi
    obtain ⟨hT, hv⟩ := hin i hi
    obtain ⟨h1, -, h3⟩ := h.page _ hT hv
    refine Finset.mem_coe.mpr (Finset.mem_range.mpr ?_)
    have hP : PHYSTOP % PGSIZE = 0 := by decide
    simp only [PGSIZE] at *
    omega
  · intro i hi j hj e
    obtain ⟨hT, hv⟩ := hin i hi
    obtain ⟨hT', hv'⟩ := hin j hj
    have h1 := (h.page _ hT hv).1
    have h2 := (h.page _ hT' hv').1
    have epa : (T.leaf (i * PGSIZE)).pa = (T.leaf (j * PGSIZE)).pa := by
      simp only [PGSIZE] at *
      omega
    have hp := h.inj _ _ hT hT' hv hv' epa
    simp only [PGSIZE] at hp
    omega

theorem lt {a : Nat} (h : Shape L T a) (ha : a % PGSIZE = 0) (hle : a ≤ TRAPFRAME) : a < TRAPFRAME :=
  lt_of_le_of_lt (h.le_phystop ha hle) (by decide)

variable {p : Pte}

theorem put {sz' : Nat} (h : Shape L T sz)
    (hleaf : ∀ vb, vb < 2 ^ 39 → T'.leaf vb = if va / PGSIZE = vb / PGSIZE then p else T.leaf vb)
    (hp : p.has PTE_V = true) (hpage : L.Page p.pa) (hnew : NotMapped T p.pa)
    (hsz : ∀ vb, vb < TRAPFRAME → (vb < PGROUNDUP sz' ↔ va / PGSIZE = vb / PGSIZE ∨ vb < PGROUNDUP sz)) :
    Shape L T' sz' := by
  have h39 : TRAPFRAME < 2 ^ 39 := by decide
  refine ⟨fun vb hb => ?_, fun vb hb hv => ?_, fun vb vc hb hc hv hv' e => ?_⟩
  · rw [hleaf vb (hb.trans h39), hsz vb hb]
    split
    · rename_i e
      exact ⟨fun _ => .inl e, fun _ => hp⟩
    · rename_i e
      rw [h.mapped vb hb, or_iff_right e]
  · rw [hleaf vb (hb.trans h39)] at hv ⊢
    split at hv
    · rename_i e
      rwa [if_pos e]
    · rename_i e
      rw [if_neg e]
      exact h.page vb hb hv
  · rw [hleaf vb (hb.trans h39)] at hv e
    rw [hleaf vc (hc.trans h39)] at hv' e
    by_cases e1 : va / PGSIZE = vb / PGSIZE
    · by_cases e2 : va / PGSIZE = vc / PGSIZE
      · rw [← e1, e2]
      · rw [if_pos e1, if_neg e2] at e
        rw [if_neg e2] at hv'
        exact absurd e.symm (hnew vc hc hv')
    · rw [if_neg e1] at hv e
      by_cases e2 : va / PGSIZE = vc / PGSIZE
      · rw [if_pos e2] at e
        exact absurd e (hnew vb hb hv)
      · rw [if_neg e2] at hv' e
        exact h.inj vb vc hb hc hv hv' e

theorem written {a : Nat} (h : Shape L T a) (ha : a % PGSIZE = 0)
    (hw : Written T T' a p) (hp : p.has PTE_V = true) (hpage : L.Page p.pa) (hnew : NotMapped T p.pa) :
    Shape L T' (a + PGSIZE) := by
  refine h.put hw.leaf hp hpage hnew fun vb _ => ?_
  simp only [PGROUNDUP, PGSIZE] at ha ⊢
  omega

theorem replaced (h : Shape L T sz) (ha : va % PGSIZE = 0) (hva : va < TRAPFRAME)
    (hv : (T.leaf va).has PTE_V = true)
    (hleaf : ∀ vb, vb < 2 ^ 39 → T'.leaf vb = if va / PGSIZE = vb / PGSIZE then p else T.leaf vb)
    (hp : p.has PTE_V = true) (hpage : L.Page p.pa) (hnew : NotMapped T p.pa) : Shape L T' sz := by
  refine h.put hleaf hp hpage hnew fun vb _ => ⟨.inr, fun hc => ?_⟩
  rcases hc with e | hlt
  · have hlt := (h.mapped va hva).mp hv
    have hup := roundup_aligned sz
    simp only [PGSIZE] at *
    omega
  · exact hlt

theorem unmapped {new n : Nat} (h : Shape L T sz) (hu : Unmapped T T' (PGROUNDUP new) n)
    (hn : PGROUNDUP new + n * PGSIZE = PGROUNDUP sz) : Shape L T' new := by
  have h39 : TRAPFRAME < 2 ^ 39 := by decide
  have hleaf : ∀ vb, vb < TRAPFRAME → (T'.leaf vb).has PTE_V = true →
      vb < PGROUNDUP new ∧ T'.leaf vb = T.leaf vb := by
    intro vb hb hv
    have e := hu.leaf vb (hb.trans h39)
    split at e
    · rw [e, Pte.zero_has] at hv
      cases hv
    · rename_i hc
      rw [e] at hv
      have := (h.mapped vb hb).mp hv
      exact ⟨by omega, e⟩
  refine ⟨fun vb hb => ⟨fun hv => (hleaf vb hb hv).1, fun hlt => ?_⟩, fun vb hb hv => ?_,
    fun vb vc hb hc hv hv' e => ?_⟩
  · rw [hu.leaf vb (hb.trans h39), if_neg (by omega)]
    exact (h.mapped vb hb).mpr (by omega)
  · have e := (hleaf vb hb hv).2
    rw [e] at hv ⊢
    exact h.page vb hb hv
  · have e1 := (hleaf vb hb hv).2
    have e2 := (hleaf vc hc hv').2
    rw [e1] at hv e
    rw [e2] at hv' e
    exact h.inj vb vc hb hc hv hv' e

theorem backed {new n : Nat} (h : Shape L T sz) (hT : T.Leafy) (hsz : PGROUNDUP sz ≤ TRAPFRAME)
    (hn : PGROUNDUP new + n * PGSIZE = PGROUNDUP sz) : Backed T (PGROUNDUP new) n :=
  ⟨hT, fun vb _ _ h2 => (h.mapped vb (by omega)).mpr (by omega)⟩

theorem copied {N0 N : Table 2} (h : Shape L T sz)
    (hN : ∀ vb, vb < TRAPFRAME → (N0.leaf vb).has PTE_V = false)
    (hc : Copied T N0 N 0 ((sz + PGSIZE - 1) / PGSIZE)) : Shape L N sz := by
  have h39 : TRAPFRAME < 2 ^ 39 := by decide
  have hup : 0 + (sz + PGSIZE - 1) / PGSIZE * PGSIZE = PGROUNDUP sz := Nat.zero_add _
  have hleaf : ∀ vb, vb < TRAPFRAME → N.leaf vb =
      if vb < PGROUNDUP sz then (T.leaf vb).shared else N0.leaf vb := by
    intro vb hb
    have e := hc.leaf vb (hb.trans h39)
    rw [hup] at e
    simpa using e
  have hback : ∀ vb, vb < TRAPFRAME → (N.leaf vb).has PTE_V = true →
      (T.leaf vb).has PTE_V = true ∧ (N.leaf vb).pa = (T.leaf vb).pa := by
    intro vb hb hv
    have e := hleaf vb hb
    by_cases hlt : vb < PGROUNDUP sz
    · rw [if_pos hlt] at e
      rw [e, Pte.shared_pa]
      exact ⟨(h.mapped vb hb).mpr hlt, rfl⟩
    · rw [if_neg hlt] at e
      rw [e, hN vb hb] at hv
      cases hv
  refine ⟨fun vb hb => ⟨fun hv => (h.mapped vb hb).mp (hback vb hb hv).1, fun hlt => ?_⟩,
    fun vb hb hv => ?_, fun vb vc hb hc hv hv' e => ?_⟩
  · rw [hleaf vb hb, if_pos hlt]
    exact Pte.shared_has_v _
  · obtain ⟨h1, h2⟩ := hback vb hb hv
    rw [h2]
    exact h.page vb hb h1
  · obtain ⟨h1, h2⟩ := hback vb hb hv
    obtain ⟨h3, h4⟩ := hback vc hc hv'
    rw [h2, h4] at e
    exact h.inj vb vc hb hc h1 h3 e

end Shape

end

end Vm
