import Xv6.Vm.Failure
import Xv6.Vm.Walk

/-!
# `sbrk` (`kernel/sysproc.c`, `kernel/proc.c`, `kernel/vm.c`)

`growproc` maps zeroed pages behind the old size or unmaps pages at the end.  What a call does not
free stays in its frame, so the pages that are mapped before and after it keep their contents.

* `Owns.run`              a program runs with the tokens it needs, and the frame keeps its memory;
* `unmapLoop_kept`        the pages that stay mapped keep their contents;
* `allocLoop_kept`        so do the old pages when the process grows; the new ones are zero;
* `sbrk_exact`            `sys_sbrk` is exact if and only if the new size is not negative.
-/

namespace Vm
open Run Bytes Prog Own Table

/-- the tokens `R` account for the allocator -/
structure Owns (L : Layout) (k₀ : Kmem) (R₀ R : Ledger) (s : Sys) : Prop where
  inv : Inv L strictMode s R true
  exact : Exact L k₀ R₀ s.kmem (R + stored s)

section
variable {L : Layout} {k₀ : Kmem} {R₀ r g g' : Ledger} {s t u : Sys} {α : Type} {prog : Kernel α} {a : α}
  {Q : α → Ledger → Prop} {T T' : Table 2} {tf pa : Nat}

theorem Owns.run (hs : Owns L k₀ R₀ (r + g) s) (h : Safe (exactMachine L k₀ R₀) 0 prog r Q)
    (hr : prog.run (sem L) s = .next (a, t)) : ∃ r', Q a r' ∧ Owns L k₀ R₀ (r' + g) t ∧ Kept g s t := by
  have hi := hs.inv
  have he := hs.exact
  rw [← zero_add g] at hi he
  obtain ⟨r', hq, hi', he', hk, -⟩ := exact_run h hi he hr
  rw [zero_add] at hi' he' hk
  exact ⟨r', hq, ⟨hi', he'⟩, hk⟩

theorem Owns.returns (hs : Owns L k₀ R₀ (r + g) s) (h : Safe (exactMachine L k₀ R₀) 0 prog r Q) :
    ∃ a t, prog.run (sem L) s = .next (a, t) := by
  have hi := hs.inv
  have he := hs.exact
  rw [← zero_add g] at hi he
  exact exact_returns h hi he

theorem Owns.share (hs : Owns L k₀ R₀ (r + {.priv pa}) s) : Owns L k₀ R₀ (r + {.user pa}) s := by
  have hs' : Owns L k₀ R₀ (r + {.priv pa} + 0) s := by rwa [add_zero]
  have hx : Shift (exactMachine L k₀ R₀) (r + {.priv pa}) (r + {.user pa}) := exact_share r pa
  have h := hx.2 0 s ⟨hs'.inv, hs'.exact⟩
  rw [add_zero] at h
  exact ⟨h.1, h.2⟩

theorem Kept.trans (h : Kept g s t) (h' : Kept g t u) : Kept g s u :=
  Keeps.trans (m := strictMode) (fun _ => h) (fun _ => h') rfl

theorem Kept.mono (h : Kept g s t) (hg : g' ≤ g) : Kept g' s t := by
  obtain ⟨f, rfl⟩ := Multiset.le_iff_exists_add.mp hg
  exact Keeps.left (m := strictMode) (fun _ => h) rfl

/-! ## contents -/

/-- the page at `pa` has the same contents -/
def SamePage (s t : Sys) (pa : Nat) : Prop := ∀ i, i < PGSIZE → t.kmem.mem (pa + i) = s.kmem.mem (pa + i)

/-- the page at `pa` is filled with zeros -/
def ZeroPage (s : Sys) (pa : Nat) : Prop := ∀ i, i < PGSIZE → s.kmem.mem (pa + i) = 0

theorem SamePage.trans (h : SamePage s t pa) (h' : SamePage t u pa) : SamePage s u pa :=
  fun i hi => (h' i hi).trans (h i hi)

theorem SamePage.zero (h : SamePage s t pa) (hz : ZeroPage s pa) : ZeroPage t pa :=
  fun i hi => (h i hi).trans (hz i hi)

theorem Kept.page (h : Kept g s t) (hpa : pa % PGSIZE = 0) (hm : pa ∈ pages g) : SamePage s t pa := by
  intro i hi
  refine h.mem _ ?_
  rw [rounddown_add hpa hi, map_add]
  exact Multiset.mem_add.mpr (.inl hm)

theorem Kept.token {tok : Token} (h : Kept g s t) (hpa : pa % PGSIZE = 0) (ht : tok.IsPage pa) (hm : tok ∈ g) :
    SamePage s t pa := by
  refine h.page hpa (mem_pages_of_mem hm ?_)
  rcases ht with rfl | rfl <;> exact Multiset.mem_singleton_self pa

theorem Kept.user (h : Kept g s t) (hg : T.users.map .user ≤ g) {va : Nat} (hva : va < TRAPFRAME)
    (hv : (T.leaf va).has PTE_V = true) : SamePage s t (T.leaf va).pa :=
  h.token (pa_aligned _) (.inr rfl) (Multiset.mem_of_le hg (Multiset.mem_map_of_mem _ (mem_users hv hva)))

/-! ## the actions -/

theorem kalloc_owns (hs : Owns L k₀ R₀ g s) :
    ∃ x t, Act.kalloc.run (sem L) s = .next (x, t) ∧ Kept g s t ∧
      (x = none ∧ Owns L k₀ R₀ g t ∨
        ∃ mem, x = some mem ∧ L.Page mem ∧ mem ∉ pages g ∧ Owns L k₀ R₀ (g + {.priv mem}) t) := by
  have hsafe : ∀ r, Safe (exactMachine L k₀ R₀) 0 Act.kalloc r fun x r' =>
      x = none ∧ r' = r ∨ ∃ mem, x = some mem ∧ L.Page mem ∧ mem ∉ pages r ∧ r' = r + {.priv mem} :=
    fun r => Safe.perform (does_kalloc (fun mem h1 h2 => .inr ⟨mem, rfl, h1, h2, rfl⟩) (.inl ⟨rfl, rfl⟩))
  have hs0 : Owns L k₀ R₀ (g + 0) s := by rwa [add_zero]
  have hs1 : Owns L k₀ R₀ (0 + g) s := by rwa [zero_add]
  obtain ⟨x, t, hrun⟩ := hs0.returns (hsafe g)
  obtain ⟨_, hx, ho, -⟩ := hs0.run (hsafe g) hrun
  obtain ⟨_, -, -, hk⟩ := hs1.run (hsafe 0) hrun
  rw [add_zero] at ho
  refine ⟨x, t, hrun, hk, ?_⟩
  rcases hx with ⟨rfl, rfl⟩ | ⟨mem, rfl, h1, h2, rfl⟩
  · exact .inl ⟨rfl, ho⟩
  · exact .inr ⟨mem, rfl, h1, h2, ho⟩

theorem kfree_owns {tok : Token} (ht : tok.IsPage pa) (hs : Owns L k₀ R₀ (g + {tok}) s) :
    ∃ t, (Act.kfree pa).run (sem L) s = .next ((), t) ∧ Owns L k₀ R₀ g t ∧ Kept g s t := by
  have hsafe : Safe (exactMachine L k₀ R₀) 0 (Act.kfree pa) (0 + {tok}) fun _ r' => r' = 0 :=
    Safe.perform (does_kfree ht rfl)
  have hs0 : Owns L k₀ R₀ (0 + {tok} + g) s := by rwa [zero_add, add_comm]
  obtain ⟨_, t, hrun⟩ := hs0.returns hsafe
  obtain ⟨_, rfl, ho, hk⟩ := hs0.run hsafe hrun
  rw [zero_add] at ho
  exact ⟨t, hrun, ho, hk⟩

theorem memset_owns (hs : Owns L k₀ R₀ (g + {.priv pa}) s) :
    ∃ t, (Act.memset pa PGSIZE 0).run (sem L) s = .next ((), t) ∧ Owns L k₀ R₀ (g + {.priv pa}) t ∧
      Kept g s t ∧ ZeroPage t pa := by
  have hsafe : Safe (exactMachine L k₀ R₀) 0 (Act.memset pa PGSIZE 0) {.priv pa} fun _ r' => r' = {.priv pa} :=
    Safe.perform (does_memset (fun _ => private_of_mem (Multiset.mem_singleton_self _) le_rfl le_rfl) rfl)
  rw [add_comm] at hs
  obtain ⟨_, t, hrun⟩ := hs.returns hsafe
  obtain ⟨_, rfl, ho, hk⟩ := hs.run hsafe hrun
  rw [add_comm] at ho
  refine ⟨t, hrun, ho, hk, fun i hi => ?_⟩
  obtain ⟨_, t', hm, hret⟩ := run_act hrun
  cases touch_next hm
  cases hret
  show splice s.kmem.mem pa PGSIZE (fun _ => 0) (pa + i) = 0
  rw [splice_in (by omega) (by omega)]

/-! ## shrinking -/

theorem unmapLoop_kept {n a : Nat} (ha : a % PGSIZE = 0) (hle : a + n * PGSIZE ≤ TRAPFRAME)
    (hb : Backed T a n) (hs : Owns L k₀ R₀ (tableTok T + g) s) :
    ∃ T' t, (unmapLoop true n T a).run (sem L) s = .next (T', t) ∧ Unmapped T T' a n ∧
      Owns L k₀ R₀ (tableTok T' + g) t ∧ Kept (tableTok T' + g) s t ∧ tableTok T' ≤ tableTok T := by
  induction n generalizing T a s with
  | zero => exact ⟨T, s, rfl, Unmapped.zero, hs, Keeps.rfl (m := strictMode) rfl, le_rfl⟩
  | succ n ih =>
    have hn : (n + 1) * PGSIZE = n * PGSIZE + PGSIZE := Nat.succ_mul n PGSIZE
    have ha' : (a + PGSIZE) % PGSIZE = 0 := by rw [Nat.add_mod_right, ha]
    have hpg : 0 < PGSIZE := by decide
    have hmax : a < MAXVA := lt_of_lt_of_le (by omega : a < TRAPFRAME) (by decide)
    have h39 := lt_of_maxva hmax
    obtain ⟨pte, hg, hv, hl⟩ := hb.head h39
    have hsome : (T.get a).isSome := by rw [hg]; rfl
    have htok := tableTok_put_zero (c := Token.user) hg ha (by omega) hv
    have hs' : Owns L k₀ R₀ (tableTok (T.put a Pte.zero) + g + {.user pte.pa}) s := by
      rwa [htok, add_right_comm] at hs
    obtain ⟨s₁, hfree, hs₁, hk₁⟩ := kfree_owns (.inr rfl) hs'
    obtain ⟨T', t, hrun, hu, ho, hk, hsub⟩ := ih ha' (by omega) (hb.succ hsome ha h39) hs₁
    have hk₁' : Kept (tableTok T' + g) s s₁ := hk₁.mono (add_le_add_left hsub g)
    refine ⟨T', t, ?_, hu.succ hsome ha h39, ho, hk₁'.trans hk, hsub.trans ?_⟩
    · have hw : (walk T a).run (sem L) s = .next (some pte, s) := by
        rw [walk, if_neg (Nat.not_le.mpr hmax), hg]
        rfl
      refine (run_bind_next hw).trans ?_
      dsimp only
      rw [if_neg (by rw [hv]; decide), if_neg hl, if_pos rfl]
      exact (run_bind_next hfree).trans hrun
    · rw [htok]
      exact Multiset.le_add_right _ _

theorem uvmdealloc_kept {oldsz : Nat} (newsz : Nat) (hT : Space L tf T) (ho : oldsz ≤ TRAPFRAME) (hsh : Shape L T oldsz)
    (hs : Owns L k₀ R₀ (tableTok T + g) s) :
    ∃ T' t, (uvmdealloc T oldsz newsz).run (sem L) s = .next ((T', min oldsz newsz), t) ∧
      (∀ vb, vb < 2 ^ 39 → vb < PGROUNDUP (min oldsz newsz) → T'.leaf vb = T.leaf vb) ∧
      Owns L k₀ R₀ (tableTok T' + g) t ∧ Kept (tableTok T' + g) s t := by
  have hrefl : Kept (tableTok T + g) s s := Keeps.rfl (m := strictMode) rfl
  unfold uvmdealloc
  by_cases hge : newsz ≥ oldsz
  · rw [if_pos hge, Nat.min_eq_left hge]
    exact ⟨T, s, rfl, fun _ _ _ => rfl, hs, hrefl⟩
  rw [if_neg hge, Nat.min_eq_right (by omega)]
  by_cases hup : PGROUNDUP newsz < PGROUNDUP oldsz
  · rw [if_pos hup]
    have h1 := roundup_le ho (by decide)
    have h2 := roundup_aligned oldsz
    have h3 := roundup_aligned newsz
    have hn : PGROUNDUP newsz + (PGROUNDUP oldsz - PGROUNDUP newsz) / PGSIZE * PGSIZE = PGROUNDUP oldsz := by
      simp only [PGSIZE] at *
      omega
    obtain ⟨T', t, hrun, hu, ho', hk, -⟩ :=
      unmapLoop_kept h3 (hn.trans_le h1) (hsh.backed hT.leafy h1 hn) hs
    refine ⟨T', t, ?_, fun vb h39 hlt => ?_, ho', hk⟩
    · rw [uvmunmap, if_neg (Decidable.not_not.mpr h3)]
      exact run_bind_next hrun
    · rw [hu.leaf vb h39, if_neg (by omega)]
  · rw [if_neg hup]
    exact ⟨T, s, rfl, fun _ _ _ => rfl, hs, hrefl⟩

/-! ## growing -/

/-- what `uvmalloc` does to the pages of the process when it comes to `a` -/
structure Grew (T T' : Table 2) (s t : Sys) (oldsz a : Nat) (ok : Bool) : Prop where
  old : ∀ vb, vb < (if ok then a else oldsz) → T'.leaf vb = T.leaf vb ∧ SamePage s t (T.leaf vb).pa
  new : ok = true → ∀ vb, a ≤ vb → vb < TRAPFRAME → (T'.leaf vb).has PTE_V = true → ZeroPage t (T'.leaf vb).pa

theorem Grew.done {oldsz a : Nat} (hsh : Shape L T a) (ha : a % PGSIZE = 0) : Grew T T s s oldsz a true := by
  refine ⟨fun vb _ => ⟨rfl, fun _ _ => rfl⟩, fun _ vb h1 h2 hv => ?_⟩
  have := (hsh.mapped vb h2).mp hv
  rw [roundup_of_aligned ha] at this
  omega

theorem Grew.undone {T₁ : Table 2} {oldsz a : Nat} (hT : Space L tf T) (hle : a ≤ TRAPFRAME)
    (hold : oldsz ≤ a) (hsh : Shape L T a) (hleaf : ∀ vb, T.leaf vb = T₁.leaf vb)
    (hk : Kept (T.users.map .user + g) u s) (hs : Owns L k₀ R₀ (tableTok T + g) s) :
    ∃ T' t, (uvmdealloc T a oldsz).run (sem L) s = .next ((T', min a oldsz), t) ∧
      Owns L k₀ R₀ (tableTok T' + g) t ∧ Kept g u t ∧ Grew T₁ T' u t oldsz a false := by
  obtain ⟨T', t, hrun, hl, ho, hk'⟩ := uvmdealloc_kept oldsz hT hle hsh hs
  have hg : g ≤ T.users.map .user + g := Multiset.le_add_left _ _
  have hg' : g ≤ tableTok T' + g := Multiset.le_add_left _ _
  refine ⟨T', t, hrun, ho, (hk.mono hg).trans (hk'.mono hg'), fun vb hlt => ?_, fun h => absurd h Bool.false_ne_true⟩
  have hlt' : vb < oldsz := hlt
  have hva : vb < TRAPFRAME := by omega
  have h39 : vb < 2 ^ 39 := hva.trans (by decide)
  have hup := le_roundup oldsz
  have hup' := le_roundup a
  rw [Nat.min_eq_right hold] at hl
  have e := hl vb h39 (by omega)
  have hv : (T.leaf vb).has PTE_V = true := (hsh.mapped vb hva).mpr (by omega)
  refine ⟨e.trans (hleaf vb), ?_⟩
  rw [← hleaf vb]
  have h1 := hk.user (Multiset.le_add_right _ _) hva hv
  have h2 := hk'.user (users_le_tableTok.trans (Multiset.le_add_right _ _)) hva (by rw [e]; exact hv)
  rw [e] at h2
  exact h1.trans h2

theorem Grew.cons {T₁ T' : Table 2} {oldsz a : Nat} {ok : Bool} {p : Pte} (ha : a % PGSIZE = 0)
    (hle : a + PGSIZE ≤ TRAPFRAME) (hold : oldsz ≤ a) (hsh : Shape L T a) (hw : Written T T₁ a p)
    (hk : Kept (T.users.map .user) u s) (hz : ZeroPage s p.pa) (h : Grew T₁ T' s t oldsz (a + PGSIZE) ok) :
    Grew T T' u t oldsz a ok := by
  have hleaf : ∀ vb, vb < TRAPFRAME → T₁.leaf vb = if a / PGSIZE = vb / PGSIZE then p else T.leaf vb :=
    fun vb hb => hw.leaf vb (hb.trans (by decide))
  have hpage : ∀ vb, a / PGSIZE = vb / PGSIZE ↔ a ≤ vb ∧ vb < a + PGSIZE := by
    intro vb
    simp only [PGSIZE] at ha ⊢
    omega
  constructor
  · intro vb hvb
    have hlt : vb < (if ok then a + PGSIZE else oldsz) := by
      split at hvb
      · rename_i h
        rw [if_pos h]
        omega
      · rename_i h
        rwa [if_neg h]
    have hlt' : vb < a := by
      split at hvb <;> omega
    obtain ⟨h1, h2⟩ := h.old vb hlt
    have hne : ¬ a / PGSIZE = vb / PGSIZE := fun e => by
      have := (hpage vb).mp e
      omega
    rw [hleaf vb (by omega), if_neg hne] at h1 h2
    refine ⟨h1, SamePage.trans (hk.user le_rfl (by omega) ?_) h2⟩
    have hup := le_roundup a
    exact (hsh.mapped vb (by omega)).mpr (by omega)
  · intro hok vb h1 h2 hv
    by_cases hc : vb < a + PGSIZE
    · have hlt : vb < (if ok then a + PGSIZE else oldsz) := by rwa [if_pos hok]
      obtain ⟨e, hsame⟩ := h.old vb hlt
      rw [e]
      rw [hleaf vb h2, if_pos ((hpage vb).mpr ⟨h1, hc⟩)] at hsame ⊢
      exact hsame.zero hz
    · exact h.new hok vb (by omega) h2 hv

theorem allocLoop_kept {oldsz a : Nat} (newsz : Nat) (xperm : BitVec 10) (n : Nat) (hT : Space L tf T)
    (ha : a % PGSIZE = 0) (hle : a ≤ TRAPFRAME) (hold : oldsz ≤ a) (hsh : Shape L T a)
    (hs : Owns L k₀ R₀ (tableTok T + g) s) :
    ∃ T' ok t, (allocLoop oldsz newsz xperm n T a).run (sem L) s = .next ((T', ok), t) ∧
      Owns L k₀ R₀ (tableTok T' + g) t ∧ Kept g s t ∧ Grew T T' s t oldsz a ok := by
  induction n generalizing T a s with
  | zero => exact ⟨T, true, s, rfl, hs, Keeps.rfl (m := strictMode) rfl, Grew.done hsh ha⟩
  | succ n ih =>
    have hlt0 := hsh.lt ha hle
    have hiff := hsh.mapped a hlt0
    rw [roundup_of_aligned ha] at hiff
    have hfree : (T.leaf a).has PTE_V = false := Bool.eq_false_iff.mpr fun hv => (Nat.lt_irrefl a) (hiff.mp hv)
    unfold allocLoop
    by_cases hlt : a < newsz
    swap
    · rw [if_neg hlt]
      exact ⟨T, true, s, rfl, hs, Keeps.rfl (m := strictMode) rfl, Grew.done hsh ha⟩
    rw [if_pos hlt]
    have hug : T.users.map .user + g ≤ tableTok T + g := add_le_add_left users_le_tableTok g
    obtain ⟨x, s₁, hrun₁, hk₁, ⟨rfl, hs₁⟩ | ⟨mem, rfl, hmem, hnew, hs₁⟩⟩ := kalloc_owns hs
    · -- no page
      obtain ⟨T', t, hrun, ho, hk, hgrew⟩ := Grew.undone hT hle hold hsh (fun _ => rfl) (hk₁.mono hug) hs₁
      refine ⟨T', false, t, ?_, ho, hk, hgrew⟩
      exact (run_bind_next hrun₁).trans (run_bind_next hrun)
    obtain ⟨s₂, hrun₂, hs₂, hk₂, hz₂⟩ := memset_owns hs₁
    have hkmem : Kept (T.users.map .user + g) s s₂ := (hk₁.trans hk₂).mono hug
    have e : tableTok T + g + {.priv mem} = T.sys.map .priv + (T.users.map .user + {.priv mem} + g) := by
      rw [tableTok]
      abel
    rw [e] at hs₂
    have hmap : Safe (exactMachine L k₀ R₀) 0 (mappages T a PGSIZE mem (PTE_R ||| PTE_U ||| xperm))
        (T.sys.map .priv) _ := mappages_safe ha (fun _ => hlt0.trans (by decide)) fun _ => hfree
    obtain ⟨⟨T₁, ok⟩, s₃, hrun₃⟩ := hs₂.returns hmap
    obtain ⟨_, ⟨-, rfl, -, hf, ht⟩, hs₃, hk₃⟩ := hs₂.run hmap hrun₃
    have hsub : T.users.map .user + g ≤ T.users.map .user + {.priv mem} + g :=
      add_le_add_left (Multiset.le_add_right _ _) g
    have hk₃' : Kept (T.users.map .user + g) s s₃ := hkmem.trans (hk₃.mono hsub)
    cases ok with
    | false =>
      -- no page for the table
      have hg := hf rfl
      have hu : T₁.users = T.users := by
        unfold Table.users
        exact hg.users 0
      have e' : T₁.sys.map .priv + (T.users.map .user + {.priv mem} + g) = tableTok T₁ + g + {.priv mem} := by
        rw [tableTok_grown hg]
        abel
      rw [e'] at hs₃
      obtain ⟨s₄, hrun₄, hs₄, hk₄⟩ := kfree_owns (.inl rfl) hs₃
      have hk₄' : Kept (T₁.users.map .user + g) s s₄ := by
        rw [hu]
        refine hk₃'.trans (hk₄.mono ?_)
        rw [← hu]
        exact add_le_add_left users_le_tableTok g
      obtain ⟨T', t, hrun, ho, hk, hgrew⟩ :=
        Grew.undone (hT.grown hg) hle hold (hsh.grown hg) hg.leaf hk₄' hs₄
      refine ⟨T', false, t, ?_, ho, hk, hgrew⟩
      refine (run_bind_next hrun₁).trans ((run_bind_next hrun₂).trans ((run_bind_next hrun₃).trans ?_))
      exact (run_bind_next hrun₄).trans (run_bind_next hrun)
    | true =>
      obtain ⟨-, hw⟩ := ht rfl
      have hle' : a + PGSIZE ≤ TRAPFRAME := by
        have : TRAPFRAME % PGSIZE = 0 := by decide
        simp only [PGSIZE] at *
        omega
      obtain ⟨hpv, hpr, -⟩ := heapPte_has mem xperm
      have hpa : (Pte.ofPa mem (PTE_R ||| PTE_U ||| xperm ||| PTE_V)).pa = mem := Pte.ofPa_pa hmem.1
      have htok := tableTok_written (c := Token.user) hw ha hlt0 hfree hpv
      rw [hpa] at htok
      have hs₄ : Owns L k₀ R₀ (tableTok T₁ + g) s₃ := by
        have e' : T₁.sys.map .priv + (T.users.map .user + {.priv mem} + g)
            = T₁.sys.map .priv + T.users.map .user + g + {.priv mem} := by abel
        rw [e'] at hs₃
        have hsh := hs₃.share
        rwa [add_right_comm, ← htok] at hsh
      have hz₃ : ZeroPage s₃ mem := by
        refine SamePage.zero (hk₃.token hmem.1 (.inl rfl) ?_) hz₂
        exact Multiset.mem_add.mpr (.inl (Multiset.mem_add.mpr (.inr (Multiset.mem_singleton_self _))))
      have hsh₁ : Shape L T₁ (a + PGSIZE) := by
        refine hsh.written ha hw hpv ?_ ?_
        · rwa [hpa]
        · rw [hpa]
          exact notMapped_new hnew (fun _ => .inr rfl) (users_le_tableTok.trans (Multiset.le_add_right _ _))
      obtain ⟨T', ok, t, hrun, ho, hk, hgrew⟩ := ih (hT.written hw hlt0 fun _ => hpr)
        (by rw [Nat.add_mod_right, ha]) hle' (by omega) hsh₁ hs₄
      refine ⟨T', ok, t, ?_, ho, (hk₃'.mono (Multiset.le_add_left _ _)).trans hk, ?_⟩
      · exact (run_bind_next hrun₁).trans ((run_bind_next hrun₂).trans ((run_bind_next hrun₃).trans hrun))
      · refine Grew.cons ha hle' hold hsh hw (hk₃'.mono (Multiset.le_add_right _ _)) ?_ hgrew
        rwa [hpa]

theorem uvmalloc_kept {oldsz : Nat} (newsz : Nat) (xperm : BitVec 10) (hT : Space L tf T) (ho : oldsz ≤ TRAPFRAME)
    (hsh : Shape L T oldsz) (hle : oldsz ≤ newsz) (hs : Owns L k₀ R₀ (tableTok T + g) s) :
    ∃ T' ok t, (uvmalloc T oldsz newsz xperm).run (sem L) s = .next ((T', if ok then newsz else 0), t) ∧
      Grew T T' s t (PGROUNDUP oldsz) (PGROUNDUP oldsz) ok := by
  have hidem := roundup_of_aligned (roundup_aligned oldsz)
  obtain ⟨T', ok, t, hrun, -, -, hgrew⟩ := allocLoop_kept newsz xperm
    ((newsz - PGROUNDUP oldsz + PGSIZE - 1) / PGSIZE) hT (roundup_aligned oldsz)
    (roundup_le ho (by decide)) le_rfl (hsh.resize hidem) hs
  refine ⟨T', ok, t, ?_, hgrew⟩
  rw [uvmalloc, if_neg (Nat.not_lt.mpr hle)]
  exact run_bind_next hrun

/-! ## `sys_sbrk` -/

/-- `y` has the size and the mapped pages of `x`, with their contents -/
structure Refused (x y : Proc) (T T' : Table 2) (s t : Sys) : Prop where
  size : y.sz = x.sz
  mapped : ∀ va, va < TRAPFRAME → (T'.leaf va).has PTE_V = (T.leaf va).has PTE_V
  kept : ∀ va, va < TRAPFRAME → (T.leaf va).has PTE_V = true →
    T'.leaf va = T.leaf va ∧ SamePage s t (T.leaf va).pa

/-- `y` is `x` with `n` bytes more, or less -/
structure Resized (x y : Proc) (T T' : Table 2) (s t : Sys) (n : Int) : Prop where
  size : (y.sz : Int) = x.sz + n
  kept : ∀ va, va < min x.sz y.sz → T'.leaf va = T.leaf va ∧ SamePage s t (T.leaf va).pa
  unmapped : ∀ va, PGROUNDUP y.sz ≤ va → va < TRAPFRAME → (T'.leaf va).has PTE_V = false
  zero : ∀ va, PGROUNDUP x.sz ≤ va → va < PGROUNDUP y.sz →
    (T'.leaf va).has PTE_V = true ∧ ZeroPage t (T'.leaf va).pa

def SbrkExact (x y : Proc) (T T' : Table 2) (s t : Sys) (n ret : Int) : Prop :=
  ret = -1 ∧ Refused x y T T' s t ∨ ret = x.sz ∧ Resized x y T T' s t n

end

section
variable {L : Layout} {k₀ : Kmem} {R₀ g : Ledger} {s t : Sys} {T T' : Table 2} {tf : Nat} {x y : Proc}

theorem Grew.refused (hx : Live L x T tf true) (hy : Live L y T' tf true) (hsz : y.sz = x.sz)
    (h : Grew T T' s t (PGROUNDUP x.sz) (PGROUNDUP x.sz) false) : Refused x y T T' s t := by
  have hm := (hx.shape rfl).mapped
  have hm' := (hy.shape rfl).mapped
  rw [hsz] at hm'
  refine ⟨hsz, fun va hva => ?_, fun va hva hv => h.old va ((hm va hva).mp hv)⟩
  rw [Bool.eq_iff_iff, hm va hva, hm' va hva]

theorem Grew.resized {n : Nat} (hy : Live L y T' tf true) (hsz : y.sz = x.sz + n)
    (h : Grew T T' s t (PGROUNDUP x.sz) (PGROUNDUP x.sz) true) : Resized x y T T' s t n := by
  have hm' := (hy.shape rfl).mapped
  have hup := roundup_le hy.size (by decide)
  refine ⟨by omega, fun va hva => ?_, fun va h1 h2 => ?_, fun va h1 h2 => ?_⟩
  · have hle := le_roundup x.sz
    have hlt : va < PGROUNDUP x.sz := by omega
    exact h.old va hlt
  · exact Bool.eq_false_iff.mpr fun hv => by
      have := (hm' va h2).mp hv
      omega
  · have hva : va < TRAPFRAME := by omega
    have hv := (hm' va hva).mpr h2
    exact ⟨hv, h.new rfl va h1 hva hv⟩

theorem shrunk_toNat {sz : Nat} {n : Int} (hsz : sz ≤ TRAPFRAME) (hn : n < 0) (hn' : -2 ^ 31 ≤ n) :
    min sz (((sz : Int) + n) % 2 ^ 64).toNat = if 0 ≤ (sz : Int) + n then ((sz : Int) + n).toNat else sz := by
  have : TRAPFRAME < 2 ^ 39 := by decide
  split <;> omega

theorem shrink_exact {n : Int} (hx : Live L x T tf true) (hn : n < 0) (hn' : -2 ^ 31 ≤ n)
    (hs : Owns L k₀ R₀ (recTok x + g) s) :
    ∃ T' t, (growproc T x n).run (sem L) s = .next (({ x with
        pagetable := some T',
        sz := if 0 ≤ (x.sz : Int) + n then ((x.sz : Int) + n).toNat else x.sz }, true), t) ∧
      ∀ va, va < min x.sz (if 0 ≤ (x.sz : Int) + n then ((x.sz : Int) + n).toNat else x.sz) →
        T'.leaf va = T.leaf va ∧ SamePage s t (T.leaf va).pa := by
  rw [hx.tok_table, add_assoc] at hs
  obtain ⟨T', t, hrun, hl, -, hk⟩ := uvmdealloc_kept (((x.sz : Int) + n) % 2 ^ 64).toNat
    hx.space hx.size (hx.shape rfl) hs
  rw [shrunk_toNat hx.size hn hn'] at hrun hl
  refine ⟨T', t, ?_, fun va hva => ?_⟩
  · rw [growproc, if_neg (by omega), if_pos hn]
    exact run_bind_next hrun
  have hsz := hx.size
  have hva' : va < TRAPFRAME := by omega
  have hle := le_roundup (if 0 ≤ (x.sz : Int) + n then ((x.sz : Int) + n).toNat else x.sz)
  have hle' := le_roundup x.sz
  have e := hl va (hva'.trans (by decide)) (by omega)
  have hv : (T.leaf va).has PTE_V = true := ((hx.shape rfl).mapped va hva').mpr (by omega)
  refine ⟨e, ?_⟩
  rw [← e] at hv ⊢
  exact hk.user (users_le_tableTok.trans (Multiset.le_add_right _ _)) hva' hv

/-- `sys_sbrk` returns; for a new size below 0 it reports success and changes nothing -/
theorem sysSbrk_run {n : Int} (hx : Live L x T tf true) (hn : -2 ^ 31 ≤ n)
    (hs : Owns L k₀ R₀ (recTok x + g) s) :
    ∃ y T' ret t, (sysSbrk T x n).run (sem L) s = .next ((y, ret), t) ∧ Live L y T' tf true ∧
      (n ≤ 0 → ret = x.sz) ∧ (0 ≤ (x.sz : Int) + n → SbrkExact x y T T' s t n ret) ∧
      ((x.sz : Int) + n < 0 → y.sz = x.sz) := by
  have hlive : ∀ {y : Proc} {ret : Int} {t : Sys} {T' : Table 2},
      (sysSbrk T x n).run (sem L) s = .next ((y, ret), t) → y.pagetable = some T' → Live L y T' tf true := by
    intro y ret t T' hrun hT'
    obtain ⟨_, ⟨-, T₁, hl⟩, -⟩ := hs.run (sysSbrk_safe hx) hrun
    obtain rfl : T₁ = T' := Option.some.inj (hl.pagetable.symm.trans hT')
    exact hl
  rcases lt_trichotomy n 0 with hneg | rfl | hpos
  · obtain ⟨T', t, hrun, hkept⟩ := shrink_exact hx hneg hn hs
    have hret : (sysSbrk T x n).run (sem L) s = .next (_, t) := run_bind_next hrun
    have hy := hlive hret rfl
    refine ⟨_, T', _, t, hret, hy, fun _ => rfl, fun hle => .inr ⟨rfl, ?_⟩, fun hlt => if_neg (Int.not_le.mpr hlt)⟩
    simp only [if_pos hle] at hy hkept ⊢
    refine ⟨Int.toNat_of_nonneg hle, hkept, fun va h1 h2 => ?_, fun va h1 h2 => ?_⟩
    · exact Bool.eq_false_iff.mpr fun hv => Nat.not_lt.mpr h1 (((hy.shape rfl).mapped va h2).mp hv)
    · have h2' : va < PGROUNDUP ((x.sz : Int) + n).toNat := h2
      simp only [PGROUNDUP, PGSIZE] at h1 h2'
      omega
  · refine ⟨x, T, x.sz, s, rfl, hx, fun _ => rfl, fun _ => .inr ⟨rfl, by omega, ?_, ?_, ?_⟩, fun _ => rfl⟩
    · exact fun _ _ => ⟨rfl, fun _ _ => rfl⟩
    · exact fun va h1 h2 => Bool.eq_false_iff.mpr fun hv =>
        Nat.not_lt.mpr h1 (((hx.shape rfl).mapped va h2).mp hv)
    · exact fun va h1 h2 => absurd h2 (Nat.not_lt.mpr h1)
  · rw [hx.tok_table, add_assoc] at hs
    obtain ⟨T', ok, t, hrun, hgrew⟩ :=
      uvmalloc_kept (x.sz + n.toNat) PTE_W hx.space hx.size (hx.shape rfl) (Nat.le_add_right _ _) hs
    have hg : growproc T x n = (uvmalloc T x.sz (x.sz + n.toNat) PTE_W).bind _ := if_pos hpos
    cases ok with
    | false =>
      have hret : (sysSbrk T x n).run (sem L) s = .next (({ x with pagetable := some T' }, -1), t) := by
        refine run_bind_next (a := ({ x with pagetable := some T' }, false)) ?_
        rw [hg]
        exact run_bind_next hrun
      have hy := hlive hret rfl
      exact ⟨_, T', _, t, hret, hy, fun h => absurd hpos (Int.not_lt.mpr h),
        fun _ => .inl ⟨rfl, hgrew.refused hx hy rfl⟩, fun _ => rfl⟩
    | true =>
      have hret : (sysSbrk T x n).run (sem L) s
          = .next (({ x with pagetable := some T', sz := x.sz + n.toNat }, x.sz), t) := by
        refine run_bind_next (a := ({ x with pagetable := some T', sz := x.sz + n.toNat }, true)) ?_
        rw [hg]
        refine (run_bind_next hrun).trans ?_
        dsimp only
        rw [if_neg (by rw [if_pos rfl]; omega)]
        rfl
      have hy := hlive hret rfl
      refine ⟨_, T', _, t, hret, hy, fun _ => rfl, fun _ => .inr ⟨rfl, ?_⟩, fun _ => by omega⟩
      have hr := hgrew.resized hy rfl
      rwa [Int.toNat_of_nonneg hpos.le] at hr

theorem Reachable.calls {c : Config} {p : Slot} (hc : Reachable L c) (hT : c.sys.userTable p = some T) :
    ∃ k₀ R₀ tf g, Live L (c.sys.proc p) T tf true ∧
      Owns L k₀ R₀ (recTok (c.sys.proc p) + g) (c.sys.setOut p true (c.sys.proc p)) := by
  obtain ⟨r, hr⟩ := hc.owned
  have hinv : Inv L ⟨true, false⟩ c.sys (∑ i, r i) true := hr.inv
  obtain ⟨ho, hst, -⟩ := userTable_some hT
  obtain ⟨_, tf, hl⟩ := (hinv.slots.ok p ho).live hst
  obtain ⟨R, hR, hx⟩ := hc.enter hT hl.trapframe
  obtain ⟨hi, he⟩ := enter_exact hR hT
  rw [zero_add] at hi he
  exact ⟨_, _, tf, _, hx, hi, he⟩

/-- **`sbrk` and negative sizes.**  A call of `sys_sbrk` returns, and it is exact if and only if the new
size is not negative. -/
theorem sbrk_exact {c : Config} {p : Slot} (hc : Reachable L c) (hT : c.sys.userTable p = some T)
    (hx : c.sys.proc p = x) (n : BitVec 32) :
    ∃ y T' ret t, (sysSbrk T x n.toInt).run (sem L) (c.sys.setOut p true x) = .next ((y, ret), t) ∧
      y.pagetable = some T' ∧
      (SbrkExact x y T T' (c.sys.setOut p true x) t n.toInt ret ↔ 0 ≤ (x.sz : Int) + n.toInt) := by
  subst hx
  obtain ⟨k₀, R₀, tf, g, hx, hs⟩ := hc.calls hT
  obtain ⟨y, T', ret, t, hrun, hy, hret, hex, hneg⟩ := sysSbrk_run hx (BitVec.le_toInt n) hs
  refine ⟨y, T', ret, t, hrun, hy.pagetable, fun h => ?_, hex⟩
  by_contra hlt
  rcases h with ⟨rfl, -⟩ | ⟨-, h⟩
  · omega
  · have := h.size
    omega

theorem exists_reachable : ∃ c T, Reachable smallLayout c ∧ c.sys.userTable initproc = some T ∧
    (c.sys.proc initproc).sz = PGSIZE := by
  obtain ⟨⟨k, T, s, c⟩, hrun, hT, hsome, hsz⟩ := exists_of_check
    (o := bootRun smallLayout 3 (fun _ => 0) (fun _ => 0) [])
    (p := fun x : Kmem × Table 2 × Sys × Config => (x.2.1.leaf 0).has PTE_V ∧
      (x.2.2.2.sys.userTable initproc).isSome ∧ (x.2.2.2.sys.proc initproc).sz = PGSIZE)
    (by decide +kernel)
  obtain ⟨hk, hb, hc⟩ := bootRun_next hrun
  obtain ⟨T', hT'⟩ := Option.isSome_iff_exists.mp hsome
  exact ⟨c, T', ⟨_, k, 3, _, T, s, [], hk, hb, hT, hc⟩, hT', hsz⟩

/-- the first process takes a byte and gives back its page -/
theorem sbrk_exact_boot : ∃ c T, Reachable smallLayout c ∧ c.sys.userTable initproc = some T ∧
    ∀ n : BitVec 32, n.toInt = 1 ∨ n.toInt = -PGSIZE →
    ∃ y T' ret t, (sysSbrk T (c.sys.proc initproc) n.toInt).run (sem smallLayout)
        (c.sys.setOut initproc true (c.sys.proc initproc)) = .next ((y, ret), t) ∧
      SbrkExact (c.sys.proc initproc) y T T' (c.sys.setOut initproc true (c.sys.proc initproc)) t
        n.toInt ret := by
  obtain ⟨c, T, hc, hT, hsz⟩ := exists_reachable
  refine ⟨c, T, hc, hT, fun n hn => ?_⟩
  obtain ⟨y, T', ret, t, hrun, -, hiff⟩ := sbrk_exact hc hT rfl n
  refine ⟨y, T', ret, t, hrun, hiff.mpr ?_⟩
  rw [hsz]
  omega

/-- the first process gives back two pages, but has only one: the size stays and the call succeeds -/
theorem sbrk_below_zero : ∃ c T y t, Reachable smallLayout c ∧ c.sys.userTable initproc = some T ∧
    (sysSbrk T (c.sys.proc initproc) (BitVec.ofInt 32 (-8192)).toInt).run (sem smallLayout)
      (c.sys.setOut initproc true (c.sys.proc initproc)) = .next ((y, 4096), t) ∧ y.sz = 4096 := by
  obtain ⟨c, T, hc, hT, hsz⟩ := exists_reachable
  refine ⟨c, T, { c.sys.proc initproc with pagetable := some T, sz := PGSIZE },
    c.sys.setOut initproc true (c.sys.proc initproc), hc, hT, ?_, rfl⟩
  have hn : (BitVec.ofInt 32 (-8192)).toInt = -8192 := by decide
  have hg : (growproc T (c.sys.proc initproc) (-8192)).run (sem smallLayout)
      (c.sys.setOut initproc true (c.sys.proc initproc))
      = .next (({ c.sys.proc initproc with pagetable := some T, sz := PGSIZE }, true),
        c.sys.setOut initproc true (c.sys.proc initproc)) := by
    rw [growproc, if_neg (by decide), if_pos (by decide), hsz, uvmdealloc, if_pos (by decide)]
    rfl
  rw [hn]
  refine (run_bind_next hg).trans ?_
  rw [hsz]
  rfl

end

end Vm
