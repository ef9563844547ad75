import Xv6.Vm.Walk

/-!
# Page tables are finite maps

`Built L pt s` are the page tables that `uvmcreate`, `walk`, `mappages`, `uvmunmap` and `uvmclear`
make, with anything else between that leaves their pages alone.

* `mapLoopW_run`         `mappages` maps its pages, or some at the start of the range;
* `unmapLoopW_run`       `uvmunmap` on mapped pages;
* `Built.ok`             the pages of a built table are its own;
* `page_tables_maps`     `mappages` and `uvmunmap` change exactly the translations of their range.
-/

namespace Vm
open Run Bytes Prog Own Table List Multiset BitVec Bool

section
variable {L : Layout} {q : Nat} {s s' : Sys} {m : Buf}

/-! ## `mappages` -/

/-- the PTE that `mappages` makes for the page of `vb` in a range from `a` on -/
def mappedPte (a : Nat) (pa : BitVec 64) (perm : BitVec 10) (vb : Nat) : BitVec 64 :=
  newPte (pa + BitVec.ofNat 64 (PGROUNDDOWN vb - a)) perm

/-- `j` pages from `a` on have been mapped -/
structure Mapped (L : Layout) (s s' : Sys) (pt a : Nat) (pa : BitVec 64) (perm : BitVec 10) (j : Nat) : Prop where
  ok : TableOk L 2 s' pt
  leaf : ∀ vb, vb < 2 ^ 39 → (tableAt 2 s'.kmem.mem pt).leaf vb
    = if a ≤ vb ∧ vb < a + j * PGSIZE then Pte.ofWord (mappedPte a pa perm vb)
      else (tableAt 2 s.kmem.mem pt).leaf vb
  new : ∀ vb, vb < 2 ^ 39 → a ≤ vb → vb < a + j * PGSIZE →
    ((tableAt 2 s.kmem.mem pt).leaf vb).has PTE_V = false

variable {pt a j : Nat} {perm : BitVec 10} {x : BitVec 64}

theorem Extends.mapped (h : Extends L 2 s s' pt) : Mapped L s s' pt a x perm 0 := by
  refine ⟨h.ok, fun vb _ => ?_, fun vb _ h1 h2 => absurd h1 (by omega)⟩
  rw [if_neg (by omega)]
  exact h.grown.leaf vb

theorem Mapped.succ {s1 s2 : Sys} (ha : a % PGSIZE = 0) (h39 : a < 2 ^ 39) (hx : Extends L 2 s s1 pt)
    (hnv : ((tableAt 2 s1.kmem.mem pt).leaf a).has PTE_V = false) (hst : Stored L s1 s2 pt a (newPte x perm))
    (h : Mapped L s2 s' pt (a + PGSIZE) (x + 4096) perm j) : Mapped L s s' pt a x perm (j + 1) := by
  have hn : (j + 1) * PGSIZE = j * PGSIZE + PGSIZE := Nat.succ_mul j PGSIZE
  have hiff : ∀ vb, a / PGSIZE = vb / PGSIZE ↔ a ≤ vb ∧ vb < a + PGSIZE := by
    intro vb
    simp only [PGSIZE] at ha ⊢
    omega
  have hleaf : ∀ vb, vb < 2 ^ 39 → ¬ (a ≤ vb ∧ vb < a + PGSIZE) →
      (tableAt 2 s2.kmem.mem pt).leaf vb = (tableAt 2 s.kmem.mem pt).leaf vb := by
    intro vb hb hc
    rw [hst.leaf vb hb, if_neg fun e => hc ((hiff vb).mp e), hx.grown.leaf]
  refine ⟨h.ok, fun vb hb => ?_, fun vb hb h1 h2 => ?_⟩
  · rw [h.leaf vb hb]
    by_cases hc : a ≤ vb ∧ vb < a + PGSIZE
    · rw [if_neg (by omega), if_pos (by omega), hst.leaf vb hb, if_pos ((hiff vb).mpr hc)]
      have hrd : PGROUNDDOWN vb - a = 0 := by
        simp only [PGROUNDDOWN, PGSIZE] at *
        omega
      rw [mappedPte, hrd, BitVec.add_zero]
    · by_cases h2 : a + PGSIZE ≤ vb ∧ vb < a + PGSIZE + j * PGSIZE
      · rw [if_pos h2, if_pos (by omega)]
        have hrd : PGROUNDDOWN vb - a = PGSIZE + (PGROUNDDOWN vb - (a + PGSIZE)) := by
          simp only [PGROUNDDOWN, PGSIZE] at *
          omega
        rw [mappedPte, mappedPte, hrd, BitVec.ofNat_add, BitVec.add_assoc]
        rfl
      · rw [if_neg h2, if_neg (by omega)]
        exact hleaf vb hb hc
  · by_cases hc : a ≤ vb ∧ vb < a + PGSIZE
    · rwa [← hx.grown.leaf, leaf_page hb h39 ((hiff vb).mpr hc).symm]
    · rw [← hleaf vb hb hc]
      exact h.new vb hb (by omega) (by omega)

/-- a turn of the loop of `mappages`: `walk` fails, the page is mapped already, or its PTE is written -/
theorem mapLoopW_turn {a : BitVec 64} (last pa : BitVec 64) (perm : BitVec 10) (fuel : Nat) (h : TableOk L 2 s pt)
    (ha : a.toNat < MAXVA) :
    (∃ s', (mapLoopW pt last perm (fuel + 1) a pa).run (sem L) s = .next (false, s') ∧ Extends L 2 s s' pt) ∨
    ((mapLoopW pt last perm (fuel + 1) a pa).run (sem L) s = .panic "mappages: remap" ∧
      ((tableAt 2 s.kmem.mem pt).leaf a.toNat).has PTE_V = true) ∨
    ∃ s1 s2, Extends L 2 s s1 pt ∧ ((tableAt 2 s1.kmem.mem pt).leaf a.toNat).has PTE_V = false ∧
      Stored L s1 s2 pt a.toNat (newPte pa perm) ∧
      (mapLoopW pt last perm (fuel + 1) a pa).run (sem L) s = if a = last then .next (true, s2) else
        (mapLoopW pt last perm fuel (a + 4096) (pa + 4096)).run (sem L) s2 := by
  obtain ⟨o, s1, hw, hx, hslot, -⟩ := walkW_run true h ha
  rw [mapLoopW, bind_eq, run_bind_next hw]
  cases o with
  | none => exact .inl ⟨s1, rfl, hx⟩
  | some p =>
    have hp := hslot p rfl
    have hram := slot_ram hx.ok hp
    dsimp only
    rw [bind_eq, run_readPte hram]
    by_cases hv : valid (get64 s1.kmem.mem p) = true
    · rw [if_pos hv, ← hx.grown.leaf, leaf_of_slot hp, ← valid_eq]
      exact .inr (.inl ⟨rfl, hv⟩)
    rw [if_neg hv, bind_eq, run_writePte hram]
    refine .inr (.inr ⟨s1, _, hx, ?_, stored_of_slot hx.ok hp ha, ?_⟩)
    · rw [leaf_of_slot hp, ← valid_eq]
      exact eq_false_iff.mpr hv
    · split <;> rfl

theorem mapLoopW_ok {last a pa : BitVec 64} {fuel : Nat} {ok : Bool} (h : TableOk L 2 s pt)
    (hrun : (mapLoopW pt last perm fuel a pa).run (sem L) s = .next (ok, s')) : TableOk L 2 s' pt := by
  induction fuel generalizing s a pa with
  | zero => cases hrun
  | succ fuel ih =>
    by_cases ha : a.toNat < MAXVA
    swap
    · rw [mapLoopW, bind_eq, walkW_panic ha] at hrun
      cases hrun
    rcases mapLoopW_turn last pa perm fuel h ha with
      ⟨s1, hr, hx⟩ | ⟨hr, -⟩ | ⟨s1, s2, -, -, hst, hr⟩
    · rw [hr] at hrun
      cases hrun
      exact hx.ok
    · rw [hr] at hrun
      cases hrun
    · rw [hr] at hrun
      split at hrun
      · cases hrun
        exact hst.ok
      · exact ih hst.ok hrun

theorem next_page_toNat {a : BitVec 64} (h : a.toNat < MAXVA) : (a + 4096).toNat = a.toNat + PGSIZE := by
  have h1 : MAXVA + 4096 < 2 ^ 64 := by decide
  rw [toNat_add]
  exact Nat.mod_eq_of_lt (by show a.toNat + 4096 < _; omega)

/-- the loop of `mappages` maps all its pages, or some at the start when there is no memory -/
theorem mapLoopW_run {last a : BitVec 64} {fuel : Nat} (pa : BitVec 64) (perm : BitVec 10) (h : TableOk L 2 s pt)
    (hal : a.toNat % PGSIZE = 0) (hlast : last.toNat % PGSIZE = 0) (hle : a.toNat ≤ last.toNat)
    (hmax : last.toNat < MAXVA) (hf : last.toNat - a.toNat < fuel * PGSIZE) :
    (∃ s' j ok, (mapLoopW pt last perm fuel a pa).run (sem L) s = .next (ok, s') ∧
      Mapped L s s' pt a.toNat pa perm j ∧ (ok = true → a.toNat + j * PGSIZE = last.toNat + PGSIZE) ∧
      (ok = false → a.toNat + j * PGSIZE ≤ last.toNat)) ∨
    ((mapLoopW pt last perm fuel a pa).run (sem L) s = .panic "mappages: remap" ∧
      ∃ vb, a.toNat ≤ vb ∧ vb ≤ last.toNat ∧ ((tableAt 2 s.kmem.mem pt).leaf vb).has PTE_V = true) := by
  induction fuel generalizing s a pa with
  | zero => omega
  | succ fuel ih =>
    have ha : a.toNat < MAXVA := by omega
    rcases mapLoopW_turn last pa perm fuel h ha with
      ⟨s1, hr, hx⟩ | ⟨hr, hv⟩ | ⟨s1, s2, hx, hnv, hst, hr⟩
    · refine .inl ⟨s1, 0, false, hr, hx.mapped, fun e => absurd e false_ne_true, fun _ => by omega⟩
    · exact .inr ⟨hr, a.toNat, le_rfl, hle, hv⟩
    have h39 := lt_of_maxva ha
    rw [hr]
    by_cases e : a = last
    · rw [if_pos e]
      refine .inl ⟨s2, 1, true, rfl, ?_, fun _ => by rw [e, Nat.one_mul], fun e => absurd e.symm false_ne_true⟩
      exact Mapped.succ hal h39 hx hnv hst (Extends.rfl hst.ok).mapped
    rw [if_neg e]
    have hne : a.toNat ≠ last.toNat := fun he => e (eq_of_toNat_eq he)
    have hn := next_page_toNat ha
    have hge : a.toNat + PGSIZE ≤ last.toNat := by
      simp only [PGSIZE] at *
      omega
    have hfuel : last.toNat - (a + 4096).toNat < fuel * PGSIZE := by
      rw [hn]
      rw [Nat.succ_mul] at hf
      omega
    rcases ih (pa + 4096) hst.ok (by rw [hn, Nat.add_mod_right]; exact hal) (by rw [hn]; exact hge) hfuel with
      ⟨s', j, ok, hr', hm, ht, hff⟩ | ⟨hr', vb, h1, h2, hv⟩
    · rw [hn] at hm ht hff
      refine .inl ⟨s', j + 1, ok, hr', Mapped.succ hal h39 hx hnv hst hm, fun e => ?_, fun e => ?_⟩
      · rw [Nat.succ_mul, ← ht e]
        omega
      · have := hff e
        rw [Nat.succ_mul]
        omega
    · rw [hn] at h1
      refine .inr ⟨hr', vb, by omega, h2, ?_⟩
      have hb : vb < 2 ^ 39 := lt_of_maxva (by omega)
      rw [hst.leaf vb hb, if_neg, hx.grown.leaf] at hv
      · exact hv
      · simp only [PGSIZE] at *
        omega

/-! ## `uvmunmap` -/

/-- where the PTE points to -/
def Pte.target (p : Pte) : Nat := (PTE2PA p.word).toNat

/-- the pages that the valid ones of `n` PTEs from `va` on point to -/
def Table.targets (T : Table 2) : (n va : Nat) → List Nat
  | 0, _ => []
  | n + 1, va => (if va < MAXVA ∧ (T.leaf va).has PTE_V then [(T.leaf va).target] else []) ++
    Table.targets T n (va + PGSIZE)

/-- the pages can be freed: none is free or a page of the table, and there is a reference for each
mention of a page -/
structure Frees (L : Layout) (s : Sys) (pt : Nat) (l : List Nat) : Prop where
  page : ∀ q ∈ l, L.Page q
  apart : ∀ q ∈ l, q ∉ (tableAt 2 s.kmem.mem pt).sys
  fresh : ∀ q ∈ l, q ∉ s.kmem.freelist
  refs : ∀ q ∈ l, l.count q ≤ s.kmem.refOf L q

/-- a mapped page that `uvmunmap` accepts -/
def Pte.Mapped (p : Pte) : Prop := p.has PTE_V = true ∧ PTE_FLAGS p.word ≠ 1

/-- `n` pages from `a` on are no longer mapped -/
structure Removed (L : Layout) (s s' : Sys) (pt a n : Nat) : Prop where
  ok : TableOk L 2 s' pt
  leaf : ∀ vb, vb < 2 ^ 39 → (tableAt 2 s'.kmem.mem pt).leaf vb
    = if a ≤ vb ∧ vb < a + n * PGSIZE then Pte.zero else (tableAt 2 s.kmem.mem pt).leaf vb

theorem Removed.rfl (h : TableOk L 2 s pt) : Removed L s s pt a 0 :=
  ⟨h, fun vb _ => by rw [if_neg (by omega)]⟩

theorem kfree_frees {l : List Nat} (h : TableOk L 2 s pt) (hq : Frees L s pt (q :: l)) :
    ∃ k, kfree L s.kmem q = .next k ∧ TableOk L 2 (s.setKmem k) pt ∧ Frees L (s.setKmem k) pt l ∧
      tableAt 2 k.mem pt = tableAt 2 s.kmem.mem pt ∧
      ∀ a, PGROUNDDOWN a ∈ (tableAt 2 s.kmem.mem pt).sys → k.mem a = s.kmem.mem a := by
  have hqp := hq.page q mem_cons_self
  have hqs := hq.apart q mem_cons_self
  have hqf := hq.fresh q mem_cons_self
  have hcnt := hq.refs q mem_cons_self
  rw [List.count_cons_self] at hcnt
  have hother : ∀ n, ∀ r ∈ l, r ≠ q → l.count r ≤ (s.kmem.setRef L q n).refOf L r := by
    intro n r hr hne
    rw [refOf_setRef_ne hqp (hq.page r (List.mem_cons_of_mem _ hr)) hne, ← List.count_cons_of_ne (Ne.symm hne)]
    exact hq.refs r (mem_cons_of_mem _ hr)
  rw [kfree_page hqp]
  by_cases hr : s.kmem.refOf L q > 1
  · rw [if_pos hr]
    refine ⟨_, rfl, ⟨h.nodup, h.range, h.page, h.fresh, h.distinct⟩,
      ⟨fun r hr => hq.page r (mem_cons_of_mem _ hr), fun r hr => hq.apart r (mem_cons_of_mem _ hr),
        fun r hr => hq.fresh r (mem_cons_of_mem _ hr), fun r hrl => ?_⟩, rfl, fun _ _ => rfl⟩
    show l.count r ≤ (s.kmem.setRef L q (s.kmem.refOf L q - 1)).refOf L r
    by_cases e : r = q
    · rw [e, refOf_setRef]
      omega
    · exact hother _ r hrl e
  rw [if_neg hr]
  have hql : q ∉ l := count_eq_zero.mp (by omega)
  have hkeep : ∀ a, PGROUNDDOWN a ∈ (tableAt 2 s.kmem.mem pt).sys →
      splice s.kmem.mem q PGSIZE (fun _ => 1) a = s.kmem.mem a := by
    intro a ha
    have hne : PGROUNDDOWN a ≠ q := fun e => hqs (e ▸ ha)
    rw [Ne, rounddown_eq_iff hqp.1] at hne
    exact splice_out (by omega)
  have htree : tableAt 2 (splice s.kmem.mem q PGSIZE fun _ => 1) pt = tableAt 2 s.kmem.mem pt :=
    tableAt_congr h.aligned hkeep
  refine ⟨_, rfl, ⟨nodup_cons.mpr ⟨hqf, h.nodup⟩, fun r hr => ?_, fun r hr => ?_, fun r hr hf => ?_, ?_⟩,
    ⟨fun r hr => hq.page r (mem_cons_of_mem _ hr), fun r hr hs => ?_, fun r hr hf => ?_, fun r hr => ?_⟩,
    htree, hkeep⟩
  · rcases mem_cons.mp hr with rfl | hr
    · exact hqp
    · exact h.range r hr
  · exact h.page r (htree ▸ hr)
  · rcases mem_cons.mp hf with rfl | hf
    · exact hqs (htree ▸ hr)
    · exact h.fresh r (htree ▸ hr) hf
  · show (tableAt 2 (splice s.kmem.mem q PGSIZE fun _ => 1) pt).sys.Nodup
    rw [htree]
    exact h.distinct
  · exact hq.apart r (mem_cons_of_mem _ hr) (htree ▸ hs)
  · rcases mem_cons.mp hf with e | hf
    · exact hql (e ▸ hr)
    · exact hq.fresh r (mem_cons_of_mem _ hr) hf
  · exact hother _ r hr fun e => hql (e ▸ hr)

/-- `if(do_free) kfree(PTE2PA(*pte))` -/
def release (L : Layout) (doFree : Bool) (k : Kmem) (pa : Nat) : Outcome Kmem :=
  if doFree then kfree L k pa else .next k

theorem unmapLoopW_turn {stop a : BitVec 64} (doFree : Bool) (fuel : Nat) (h : TableOk L 2 s pt)
    (hlt : a < stop) (ha : a.toNat < MAXVA) :
    (¬ ((tableAt 2 s.kmem.mem pt).leaf a.toNat).Mapped ∧
      ∃ msg, (unmapLoopW pt stop doFree (fuel + 1) a).run (sem L) s = .panic msg) ∨
    ∃ p, slot 2 s.kmem.mem pt a.toNat = some p ∧ ((tableAt 2 s.kmem.mem pt).leaf a.toNat).Mapped ∧
      (∀ y, (unmapLoopW pt stop doFree (fuel + 1) a).run (sem L) s = .next y →
        ∃ k, release L doFree s.kmem ((tableAt 2 s.kmem.mem pt).leaf a.toNat).target = .next k) ∧
      ∀ k, release L doFree s.kmem ((tableAt 2 s.kmem.mem pt).leaf a.toNat).target = .next k →
        (unmapLoopW pt stop doFree (fuel + 1) a).run (sem L) s
          = (unmapLoopW pt stop doFree fuel (a + 4096)).run (sem L)
              ((s.setKmem k).setMem (splice k.mem p 8 (le64 0))) := by
  obtain ⟨o, s1, hw, -, -, hno⟩ := walkW_run false h ha
  obtain ⟨rfl, rfl⟩ := hno rfl
  rw [unmapLoopW, if_pos hlt, bind_eq, run_bind_next hw]
  cases hp : slot 2 s1.kmem.mem pt a.toNat with
  | none =>
    refine .inl ⟨fun hm => ?_, _, rfl⟩
    have hz : (tableAt 2 s1.kmem.mem pt).leaf a.toNat = Pte.zero := by
      rw [Table.leaf, get_tableAt, hp]
      rfl
    have := hm.1
    rw [hz, Pte.zero_has] at this
    cases this
  | some p =>
    have hram := slot_ram h hp
    have hleaf := leaf_of_slot hp
    rw [Pte.Mapped, hleaf, ← valid_eq, Pte.target, word_ofWord]
    dsimp only
    rw [bind_eq, run_readPte hram]
    by_cases hv : valid (get64 s1.kmem.mem p) = false
    · rw [if_pos hv]
      exact .inl ⟨fun hm => by rw [hv] at hm; exact false_ne_true hm.1, _, rfl⟩
    rw [if_neg hv]
    by_cases hf : PTE_FLAGS (get64 s1.kmem.mem p) = 1
    · rw [if_pos hf]
      exact .inl ⟨fun hm => hm.2 hf, _, rfl⟩
    rw [if_neg hf]
    refine .inr ⟨p, rfl, ⟨eq_true_of_not_eq_false hv, hf⟩, fun y hy => ?_, fun k hk => ?_⟩
    · unfold release
      cases doFree with
      | false => exact ⟨_, rfl⟩
      | true =>
        rw [if_pos rfl] at hy ⊢
        obtain ⟨x, s', hk, -⟩ := run_act hy
        obtain ⟨k, hk, -⟩ := map_next hk
        exact ⟨k, hk⟩
    · unfold release at hk
      cases doFree with
      | false =>
        cases hk
        exact run_writePte hram _
      | true =>
        rw [if_pos rfl] at hk ⊢
        have hsem : sem L (.kfree (PTE2PA (get64 s1.kmem.mem p)).toNat) s1 = .next ((), s1.setKmem k) := by
          rw [sem, hk]
          rfl
        refine (run_act_next hsem).trans ?_
        exact run_writePte hram _

theorem release_frees {doFree : Bool} {l : List Nat} (h : TableOk L 2 s pt)
    (hq : doFree = true → Frees L s pt (q :: l)) :
    ∃ k, release L doFree s.kmem q = .next k ∧ TableOk L 2 (s.setKmem k) pt ∧
      (doFree = true → Frees L (s.setKmem k) pt l) ∧ tableAt 2 k.mem pt = tableAt 2 s.kmem.mem pt ∧
      ∀ a, PGROUNDDOWN a ∈ (tableAt 2 s.kmem.mem pt).sys → k.mem a = s.kmem.mem a := by
  cases doFree with
  | false => exact ⟨s.kmem, rfl, h, fun e => absurd e false_ne_true, rfl, fun _ _ => rfl⟩
  | true =>
    obtain ⟨k, hk, hok, hfr, htree, hmem⟩ := kfree_frees h (hq rfl)
    exact ⟨k, hk, hok, fun _ => hfr, htree, hmem⟩

theorem targets_congr {T T' : Table 2} {n : Nat}
    (h : ∀ vb, a ≤ vb → vb % PGSIZE = 0 → vb < MAXVA → T'.leaf vb = T.leaf vb) (ha : a % PGSIZE = 0) :
    T'.targets n a = T.targets n a := by
  induction n generalizing a with
  | zero => rfl
  | succ n ih =>
    rw [Table.targets, Table.targets, ih (fun vb hb => h vb (by omega)) (by rw [Nat.add_mod_right]; exact ha)]
    by_cases hm : a < MAXVA
    · rw [h a le_rfl ha hm]
    · rw [if_neg fun h => hm h.1, if_neg fun h => hm h.1]

theorem unmapLoopW_step {stop a : BitVec 64} {doFree : Bool} {l : List Nat} (fuel : Nat) (h : TableOk L 2 s pt)
    (hlt : a < stop) (ha : a.toNat < MAXVA) (hm : ((tableAt 2 s.kmem.mem pt).leaf a.toNat).Mapped)
    (hfr : doFree = true → Frees L s pt (((tableAt 2 s.kmem.mem pt).leaf a.toNat).target :: l)) :
    ∃ s2, (unmapLoopW pt stop doFree (fuel + 1) a).run (sem L) s
        = (unmapLoopW pt stop doFree fuel (a + 4096)).run (sem L) s2 ∧
      TableOk L 2 s2 pt ∧ (doFree = true → Frees L s2 pt l) ∧
      ∀ vb, vb < 2 ^ 39 → (tableAt 2 s2.kmem.mem pt).leaf vb
        = if a.toNat / PGSIZE = vb / PGSIZE then Pte.zero else (tableAt 2 s.kmem.mem pt).leaf vb := by
  rcases unmapLoopW_turn doFree fuel h hlt ha with
    ⟨hn, -⟩ | ⟨p, hp, -, -, hrun⟩
  · exact absurd hm hn
  obtain ⟨k, hk, hok, hfr', htree, hmem⟩ := release_frees h hfr
  have hp' : slot 2 (s.setKmem k).kmem.mem pt a.toNat = some p := (slot_congr h.aligned hmem).trans hp
  have hst : Stored L (s.setKmem k) ((s.setKmem k).setMem (splice k.mem p 8 (le64 0))) pt a.toNat 0 :=
    stored_of_slot hok hp' ha
  refine ⟨_, hrun k hk, hst.ok, fun e => ?_, fun vb hb => ?_⟩
  · have hf := hfr' e
    refine ⟨hf.page, fun r hr hs => hf.apart r hr ?_, hf.fresh, hf.refs⟩
    rwa [hst.sys] at hs
  · have htree' : tableAt 2 (s.setKmem k).kmem.mem pt = tableAt 2 s.kmem.mem pt := htree
    rw [hst.leaf vb hb, ofWord_zero, htree']

theorem Removed.succ {s2 : Sys} (ha : a % PGSIZE = 0)
    (hleaf : ∀ vb, vb < 2 ^ 39 → (tableAt 2 s2.kmem.mem pt).leaf vb
      = if a / PGSIZE = vb / PGSIZE then Pte.zero else (tableAt 2 s.kmem.mem pt).leaf vb)
    (h : Removed L s2 s' pt (a + PGSIZE) j) : Removed L s s' pt a (j + 1) := by
  have hn : (j + 1) * PGSIZE = j * PGSIZE + PGSIZE := Nat.succ_mul j PGSIZE
  refine ⟨h.ok, fun vb hb => ?_⟩
  rw [h.leaf vb hb, hleaf vb hb]
  have hiff : a / PGSIZE = vb / PGSIZE ↔ a ≤ vb ∧ vb < a + PGSIZE := by
    simp only [PGSIZE] at ha ⊢
    omega
  by_cases h1 : a / PGSIZE = vb / PGSIZE
  · rw [if_neg (by omega), if_pos h1, if_pos (by omega)]
  · rw [hiff] at h1
    by_cases h2 : a + PGSIZE ≤ vb ∧ vb < a + PGSIZE + j * PGSIZE
    · rw [if_pos h2, if_pos (by omega)]
    · rw [if_neg h2, if_neg (by rwa [hiff]), if_neg (by omega)]

/-- every one of `n` pages from `a` on is mapped -/
def AllMapped (T : Table 2) (a n : Nat) : Prop :=
  ∀ vb, a ≤ vb → vb < a + n * PGSIZE → vb < MAXVA ∧ (T.leaf vb).Mapped

/-- the loop of `uvmunmap` has still `n` pages to unmap -/
structure Unmaps (L : Layout) (s : Sys) (pt : Nat) (stop : BitVec 64) (doFree : Bool) (a : BitVec 64) (n : Nat) :
    Prop where
  ok : TableOk L 2 s pt
  aligned : a.toNat % PGSIZE = 0
  left : stop.toNat - a.toNat = n * PGSIZE
  frees : doFree = true → Frees L s pt ((tableAt 2 s.kmem.mem pt).targets n a.toNat)

section
variable {stop b : BitVec 64} {doFree : Bool} {fuel k : Nat}

theorem Unmaps.ended (h : Unmaps L s pt stop doFree b 0) : ¬ b < stop := by
  have := h.left
  rw [lt_def]
  omega

theorem Unmaps.lt (h : Unmaps L s pt stop doFree b (k + 1)) : b < stop := by
  have := h.left
  rw [Nat.succ_mul] at this
  rw [lt_def]
  simp only [PGSIZE] at this
  omega

theorem Unmaps.step (fuel : Nat) (h : Unmaps L s pt stop doFree b (k + 1)) (hb : b.toNat < MAXVA)
    (hm : ((tableAt 2 s.kmem.mem pt).leaf b.toNat).Mapped) :
    ∃ s2, (unmapLoopW pt stop doFree (fuel + 1) b).run (sem L) s
        = (unmapLoopW pt stop doFree fuel (b + 4096)).run (sem L) s2 ∧
      Unmaps L s2 pt stop doFree (b + 4096) k ∧
      ∀ vb, vb < 2 ^ 39 → (tableAt 2 s2.kmem.mem pt).leaf vb
        = if b.toNat / PGSIZE = vb / PGSIZE then Pte.zero else (tableAt 2 s.kmem.mem pt).leaf vb := by
  have hn := next_page_toNat hb
  have hal : (b + 4096).toNat % PGSIZE = 0 := by
    rw [hn, Nat.add_mod_right]
    exact h.aligned
  have hfr : doFree = true → Frees L s pt (((tableAt 2 s.kmem.mem pt).leaf b.toNat).target ::
      (tableAt 2 s.kmem.mem pt).targets k (b.toNat + PGSIZE)) := by
    intro e
    have := h.frees e
    rwa [Table.targets, if_pos ⟨hb, hm.1⟩] at this
  obtain ⟨s2, hrun, hok, hf, hleaf⟩ := unmapLoopW_step fuel h.ok h.lt hb hm hfr
  refine ⟨s2, hrun, ⟨hok, hal, ?_, fun e => ?_⟩, hleaf⟩
  · have := h.left
    rw [Nat.succ_mul] at this
    rw [hn]
    omega
  have hsame : (tableAt 2 s2.kmem.mem pt).targets k (b + 4096).toNat
      = (tableAt 2 s.kmem.mem pt).targets k (b + 4096).toNat := by
    refine targets_congr (fun vb hle _ hmax => ?_) hal
    rw [hleaf vb (lt_of_maxva hmax), if_neg]
    simp only [PGSIZE] at *
    omega
  rw [hsame, hn]
  exact hf e

theorem leaf_mapped {vb : Nat} (ha : a % PGSIZE = 0) (h1 : a ≤ vb) (h2 : vb < a + PGSIZE) (h39 : vb < MAXVA) :
    (tableAt 2 m pt).leaf vb = (tableAt 2 m pt).leaf a := by
  refine leaf_page (lt_of_maxva h39) (lt_of_maxva (by omega)) ?_
  simp only [PGSIZE] at *
  omega

theorem page_below {vb : Nat} (ha : a % PGSIZE = 0) (h : a < MAXVA) (h2 : vb < a + PGSIZE) : vb < MAXVA := by
  have hm : MAXVA % PGSIZE = 0 := by decide
  simp only [PGSIZE] at *
  omega

theorem unmapLoopW_run (h : Unmaps L s pt stop doFree b k) (hf : k < fuel)
    (hm : AllMapped (tableAt 2 s.kmem.mem pt) b.toNat k) :
    ∃ s', (unmapLoopW pt stop doFree fuel b).run (sem L) s = .next ((), s') ∧
      Removed L s s' pt b.toNat k := by
  induction k generalizing s b fuel with
  | zero =>
    obtain ⟨fuel, rfl⟩ := Nat.exists_eq_succ_of_ne_zero (Nat.ne_of_gt hf)
    rw [unmapLoopW, if_neg h.ended]
    exact ⟨s, rfl, Removed.rfl h.ok⟩
  | succ k ih =>
    obtain ⟨fuel, rfl⟩ := Nat.exists_eq_succ_of_ne_zero (Nat.ne_of_gt (Nat.zero_lt_of_lt hf))
    have hs : (k + 1) * PGSIZE = k * PGSIZE + PGSIZE := Nat.succ_mul k PGSIZE
    obtain ⟨hb, hmb⟩ := hm b.toNat le_rfl (by simp only [PGSIZE] at *; omega)
    have hn := next_page_toNat hb
    obtain ⟨s2, hrun, hu, hleaf⟩ := h.step fuel hb hmb
    have hm' : AllMapped (tableAt 2 s2.kmem.mem pt) (b + 4096).toNat k := by
      intro vb h1 h2
      rw [hn] at h1 h2
      obtain ⟨hmax, hmv⟩ := hm vb (by omega) (by omega)
      rw [hleaf vb (lt_of_maxva hmax), if_neg]
      · exact ⟨hmax, hmv⟩
      · simp only [PGSIZE] at *
        omega
    obtain ⟨s', hrun', hr⟩ := ih hu (Nat.lt_of_succ_lt_succ hf) hm'
    rw [hn] at hr
    exact ⟨s', hrun.trans hrun', Removed.succ h.aligned hleaf hr⟩

theorem unmapLoopW_mapped {y : Unit × Sys} (h : Unmaps L s pt stop doFree b k)
    (hrun : (unmapLoopW pt stop doFree fuel b).run (sem L) s = .next y) :
    k < fuel ∧ AllMapped (tableAt 2 s.kmem.mem pt) b.toNat k := by
  induction k generalizing s b fuel with
  | zero =>
    refine ⟨Nat.pos_of_ne_zero fun e => ?_, fun vb h1 h2 => absurd h1 (by omega)⟩
    subst e
    cases hrun
  | succ k ih =>
    cases fuel with
    | zero => cases hrun
    | succ fuel =>
      have hs : (k + 1) * PGSIZE = k * PGSIZE + PGSIZE := Nat.succ_mul k PGSIZE
      by_cases hb : b.toNat < MAXVA
      swap
      · rw [unmapLoopW, if_pos h.lt, bind_eq, walkW_panic hb] at hrun
        cases hrun
      have hn := next_page_toNat hb
      rcases unmapLoopW_turn doFree fuel h.ok h.lt hb with
        ⟨-, msg, hp⟩ | ⟨p, -, hmb, -⟩
      · rw [hp] at hrun
        cases hrun
      obtain ⟨s2, hr, hu, hleaf⟩ := h.step fuel hb hmb
      obtain ⟨hk, hm'⟩ := ih hu (hr.symm.trans hrun)
      rw [hn] at hm'
      refine ⟨Nat.succ_lt_succ hk, fun vb h1 h2 => ?_⟩
      by_cases hc : vb < b.toNat + PGSIZE
      · have hmax := page_below h.aligned hb hc
        rw [leaf_mapped h.aligned h1 hc hmax]
        exact ⟨hmax, hmb⟩
      · obtain ⟨hmax, hmv⟩ := hm' vb (by omega) (by omega)
        rw [hleaf vb (lt_of_maxva hmax), if_neg] at hmv
        · exact ⟨hmax, hmv⟩
        · simp only [PGSIZE] at *
          omega

end

/-! ## the tables that the functions build -/

/-- the page tables that the functions make, with anything between that leaves their pages alone and
keeps the free list in order -/
inductive Built (L : Layout) (pt : Nat) : Sys → Prop
  | create {s s' : Sys} (nodup : s.kmem.freelist.Nodup) (range : ∀ q ∈ s.kmem.freelist, L.Page q)
      (run : uvmcreateW.run (sem L) s = .next (some pt, s')) : Built L pt s'
  | walk {s s' : Sys} {va : BitVec 64} {alloc : Bool} {o : Option Nat} (h : Built L pt s)
      (run : (walkW pt va alloc).run (sem L) s = .next (o, s')) : Built L pt s'
  | mappages {s s' : Sys} {fuel : Nat} {va size pa : BitVec 64} {perm : BitVec 10} {ok : Bool} (h : Built L pt s)
      (run : (mappagesW pt fuel va size pa perm).run (sem L) s = .next (ok, s')) : Built L pt s'
  | uvmunmap {s s' : Sys} {fuel : Nat} {va npages : BitVec 64} {doFree : Bool} (h : Built L pt s)
      (frees : doFree = true → Frees L s pt ((tableAt 2 s.kmem.mem pt).targets
        (((va + npages * 4096).toNat - va.toNat) / PGSIZE) va.toNat))
      (run : (uvmunmapW pt fuel va npages doFree).run (sem L) s = .next ((), s')) : Built L pt s'
  | uvmclear {s s' : Sys} {va : BitVec 64} (h : Built L pt s)
      (run : (uvmclearW pt va).run (sem L) s = .next ((), s')) : Built L pt s'
  | other {s s' : Sys} (h : Built L pt s) (nodup : s'.kmem.freelist.Nodup) (range : ∀ q ∈ s'.kmem.freelist, L.Page q)
      (fresh : ∀ q ∈ (tableAt 2 s.kmem.mem pt).sys, q ∉ s'.kmem.freelist)
      (same : ∀ a, PGROUNDDOWN a ∈ (tableAt 2 s.kmem.mem pt).sys → s'.kmem.mem a = s.kmem.mem a) : Built L pt s'

theorem uvmcreateW_ok (hnd : s.kmem.freelist.Nodup) (hr : ∀ q ∈ s.kmem.freelist, L.Page q)
    (h : uvmcreateW.run (sem L) s = .next (some pt, s')) : TableOk L 2 s' pt := by
  rw [uvmcreateW, bind_eq, run_kalloc] at h
  cases hf : s.kmem.freelist with
  | nil =>
    have e : kalloc L s.kmem = (none, s.kmem) := by simp only [kalloc, hf]
    rw [e] at h
    cases h
  | cons q rest =>
    have e : (kalloc L s.kmem).1 = some q := by simp only [kalloc, hf]
    have hfl : (kalloc L s.kmem).2.freelist = rest := by simp only [kalloc, hf]; rfl
    have hqp : L.Page q := hr q (hf ▸ mem_cons_self)
    rw [hf, List.nodup_cons] at hnd
    rw [e] at h
    dsimp only at h
    rw [bind_eq, run_memset (ram_page hqp)] at h
    obtain ⟨rfl, rfl⟩ : q = pt ∧ s.setKmem ((kalloc L s.kmem).2.memset q PGSIZE 0) = s' := by
      injection h with h
      exact ⟨Option.some.inj (congrArg Prod.fst h), congrArg Prod.snd h⟩
    have htree : tableAt 2 ((kalloc L s.kmem).2.memset q PGSIZE 0).mem q = Table.zero 2 q :=
      tableAt_zero hqp.1 fun a ha => withPage_new hqp.1 ha
    have hsys : (tableAt 2 ((kalloc L s.kmem).2.memset q PGSIZE 0).mem q).sys = {q} := by
      rw [htree, sys_zero]
    refine ⟨?_, fun r hr' => hr r ?_, fun r hr' => ?_, fun r hr' => ?_, ?_⟩
    · show (kalloc L s.kmem).2.freelist.Nodup
      rw [hfl]
      exact hnd.2
    · rw [hf]
      exact mem_cons_of_mem _ (hfl ▸ hr')
    · have : r ∈ ({q} : Multiset Nat) := hsys ▸ hr'
      rwa [Multiset.mem_singleton.mp this]
    · have : r ∈ ({q} : Multiset Nat) := hsys ▸ hr'
      rw [Multiset.mem_singleton.mp this]
      show q ∉ (kalloc L s.kmem).2.freelist
      rw [hfl]
      exact hnd.1
    · show (tableAt 2 ((kalloc L s.kmem).2.memset q PGSIZE 0).mem q).sys.Nodup
      rw [hsys]
      exact Multiset.nodup_singleton q

theorem uvmclearW_ok {va : BitVec 64} (hok : TableOk L 2 s pt)
    (h : (uvmclearW pt va).run (sem L) s = .next ((), s')) : TableOk L 2 s' pt := by
  rw [uvmclearW, bind_eq] at h
  by_cases ha : va.toNat < MAXVA
  swap
  · rw [walkW_panic ha] at h
    cases h
  obtain ⟨o, s1, hw, hx, hslot, -⟩ := walkW_run false hok ha
  rw [run_bind_next hw] at h
  cases o with
  | none => cases h
  | some p =>
    have hp := hslot p rfl
    have hram := slot_ram hx.ok hp
    dsimp only at h
    rw [bind_eq, run_readPte hram, writePte_run hram] at h
    cases h
    exact (stored_of_slot hx.ok hp ha).ok

theorem uvmunmapW_unmaps {va npages : BitVec 64} {doFree : Bool} (hok : TableOk L 2 s pt)
    (ha : va.toNat % PGSIZE = 0) (hfr : doFree = true → Frees L s pt ((tableAt 2 s.kmem.mem pt).targets
        (((va + npages * 4096).toNat - va.toNat) / PGSIZE) va.toNat)) :
    Unmaps L s pt (va + npages * 4096) doFree va (((va + npages * 4096).toNat - va.toNat) / PGSIZE) := by
  refine ⟨hok, ha, ?_, hfr⟩
  have : (va + npages * 4096).toNat % PGSIZE = 0 := by
    rw [toNat_add, toNat_mul, show (4096 : BitVec 64).toNat = 4096 from rfl]
    simp only [PGSIZE] at *
    omega
  simp only [PGSIZE] at *
  omega

theorem uvmunmapW_removed {va npages : BitVec 64} {doFree : Bool} {fuel : Nat} (hok : TableOk L 2 s pt)
    (hfr : doFree = true → Frees L s pt ((tableAt 2 s.kmem.mem pt).targets
        (((va + npages * 4096).toNat - va.toNat) / PGSIZE) va.toNat))
    (h : (uvmunmapW pt fuel va npages doFree).run (sem L) s = .next ((), s')) :
    AllMapped (tableAt 2 s.kmem.mem pt) va.toNat (((va + npages * 4096).toNat - va.toNat) / PGSIZE) ∧
      Removed L s s' pt va.toNat (((va + npages * 4096).toNat - va.toNat) / PGSIZE) := by
  rw [uvmunmapW] at h
  split at h
  · cases h
  rename_i hal
  have hu := uvmunmapW_unmaps hok (Decidable.not_not.mp hal) hfr
  obtain ⟨hk, hm⟩ := unmapLoopW_mapped hu h
  obtain ⟨s2, hrun, hr⟩ := unmapLoopW_run hu hk hm
  rw [hrun] at h
  cases h
  exact ⟨hm, hr⟩

theorem Built.ok (h : Built L pt s) : TableOk L 2 s pt := by
  induction h with
  | create hnd hr hrun => exact uvmcreateW_ok hnd hr hrun
  | @walk s s' va alloc o _ hrun ih =>
    by_cases ha : va.toNat < MAXVA
    · obtain ⟨o', s1, hw, hx, -⟩ := walkW_run alloc ih ha
      rw [hw] at hrun
      cases hrun
      exact hx.ok
    · rw [walkW_panic ha] at hrun
      cases hrun
  | mappages _ hrun ih =>
    rw [mappagesW] at hrun
    split at hrun
    · cases hrun
    · exact mapLoopW_ok ih hrun
  | uvmunmap _ hfr hrun ih => exact (uvmunmapW_removed ih hfr hrun).2.ok
  | uvmclear _ hrun ih => exact uvmclearW_ok ih hrun
  | other _ hnd hr hfresh hsame ih =>
    have htree := tableAt_congr ih.aligned hsame
    refine ⟨hnd, hr, fun q hq => ih.page q (htree ▸ hq), fun q hq => hfresh q (htree ▸ hq), ?_⟩
    rw [htree]
    exact ih.distinct

/-! ## the translations after `mappages` and `uvmunmap` -/

/-- `mappages(pagetable, va, size, pa, perm)` has made the PTE for `b` -/
def Maps (L : Layout) (s : Sys) (pt : Nat) (va pa : BitVec 64) (perm : BitVec 10) (b : BitVec 64) : Prop :=
  ∃ w, translation L s pt b = some w ∧ PTE2PA w = pa + (pageOf b - pageOf va) ∧
    PTE_FLAGS w = (perm ||| PTE_V).setWidth 64

/-- the page of `b` is one of `[PGROUNDDOWN(va), PGROUNDDOWN(va+size-1)]` -/
def Covers (va size b : BitVec 64) : Prop := pageOf va ≤ pageOf b ∧ pageOf b ≤ pageOf (va + size - 1)

/-- the first `k` pages from that of `va` on -/
def Initial (va b : BitVec 64) (k : Nat) : Prop :=
  (pageOf va).toNat ≤ b.toNat ∧ b.toNat < (pageOf va).toNat + k * PGSIZE

/-- `npages` pages from `va` on -/
def Named (va npages b : BitVec 64) : Prop := va ≤ b ∧ b.toNat < va.toNat + npages.toNat * PGSIZE

section
variable {va size pa npages b : BitVec 64} {k fuel : Nat} {doFree : Bool}

instance : Decidable (Named va npages b) := inferInstanceAs (Decidable (_ ∧ _))

theorem offset_pages (h : (pageOf va).toNat ≤ b.toNat) :
    BitVec.ofNat 64 (PGROUNDDOWN b.toNat - (pageOf va).toNat) = pageOf b - pageOf va := by
  have hle : pageOf va ≤ pageOf b := by
    rw [le_def, pageOf_toNat, pageOf_toNat]
    rw [pageOf_toNat] at h
    simp only [PGROUNDDOWN, PGSIZE] at *
    omega
  apply eq_of_toNat_eq
  rw [toNat_sub_of_le hle, toNat_ofNat, pageOf_toNat b]
  exact Nat.mod_eq_of_lt (lt_of_le_of_lt (Nat.sub_le _ _) (by rw [← pageOf_toNat]; exact (pageOf b).isLt))

/-- the pages that `mappages` has mapped, which were not mapped before -/
theorem Mapped.inside (h : Mapped L s s' pt (pageOf va).toNat pa perm k) (hok : TableOk L 2 s pt)
    (hpa : pa.toNat % PGSIZE = 0) (hb : b.toNat < MAXVA) (hin : Initial va b k) :
    Maps L s' pt va pa perm b ∧ translation L s pt b = none := by
  have h39 := lt_of_maxva hb
  have hal : (pa + (pageOf b - pageOf va)).toNat % PGSIZE = 0 := by
    rw [← offset_pages hin.1, toNat_add, toNat_ofNat, pageOf_toNat]
    simp only [PGROUNDDOWN, PGSIZE] at *
    omega
  refine ⟨⟨newPte (pa + (pageOf b - pageOf va)) perm, ?_, PTE2PA_newPte hal, PTE_FLAGS_newPte⟩, ?_⟩
  · rw [translation_eq h.ok hb, h.leaf _ h39, if_pos ⟨hin.1, hin.2⟩, mappedPte, offset_pages hin.1, Pte.translated,
      word_ofWord, ← valid_eq, if_pos valid_newPte]
  · rw [translation_eq hok hb, Pte.translated, h.new _ h39 hin.1 hin.2]
    rfl

theorem Mapped.outside (h : Mapped L s s' pt (pageOf va).toNat pa perm k) (hok : TableOk L 2 s pt)
    (hb : b.toNat < MAXVA) (hin : ¬ Initial va b k) : translation L s' pt b = translation L s pt b := by
  rw [translation_eq h.ok hb, translation_eq hok hb, h.leaf _ (lt_of_maxva hb),
    if_neg fun hc => hin ⟨hc.1, hc.2⟩]

theorem last_toNat (hs : size ≠ 0) (h : va.toNat + size.toNat ≤ MAXVA) :
    (pageOf (va + size - 1)).toNat = PGROUNDDOWN (va.toNat + size.toNat - 1) := by
  have hs' : size.toNat ≠ 0 := fun e => hs (eq_of_toNat_eq e)
  have h64 : MAXVA < 2 ^ 64 := by decide
  have hadd : (va + size).toNat = va.toNat + size.toNat := by
    rw [toNat_add]
    exact Nat.mod_eq_of_lt (by omega)
  rw [pageOf_toNat, toNat_sub_of_le, hadd]
  · rfl
  · rw [le_def, hadd]
    show 1 ≤ _
    omega

theorem initial_iff_covers (hs : size ≠ 0) (h : va.toNat + size.toNat ≤ MAXVA)
    (hk : (pageOf va).toNat + k * PGSIZE = (pageOf (va + size - 1)).toNat + PGSIZE) :
    Initial va b k ↔ Covers va size b := by
  rw [Initial, Covers, hk, le_def, le_def, last_toNat hs h, pageOf_toNat, pageOf_toNat]
  simp only [PGROUNDDOWN, PGSIZE]
  omega

theorem stop_toNat (h : va.toNat + npages.toNat * PGSIZE ≤ MAXVA) :
    ((va + npages * 4096).toNat - va.toNat) / PGSIZE = npages.toNat := by
  have h64 : MAXVA < 2 ^ 64 := by decide
  have hmul : (npages * 4096).toNat = npages.toNat * PGSIZE := by
    rw [toNat_mul]
    exact Nat.mod_eq_of_lt (by show npages.toNat * PGSIZE < _; omega)
  have hadd : (va + npages * 4096).toNat = va.toNat + npages.toNat * PGSIZE := by
    rw [toNat_add, hmul]
    exact Nat.mod_eq_of_lt (by omega)
  rw [hadd, Nat.add_sub_cancel_left]
  exact Nat.mul_div_cancel _ (by decide)

theorem mapped_iff (hok : TableOk L 2 s pt) (hb : b.toNat < MAXVA) :
    ((tableAt 2 s.kmem.mem pt).leaf b.toNat).Mapped ↔ ∃ w, translation L s pt b = some w ∧ PTE_FLAGS w ≠ 1 := by
  rw [translation_eq hok hb, Pte.translated]
  constructor
  · intro hm
    exact ⟨_, if_pos hm.1, hm.2⟩
  rintro ⟨w, hw, hf⟩
  split at hw
  · rename_i hv
    cases hw
    exact ⟨hv, hf⟩
  · cases hw

theorem allMapped_iff (hok : TableOk L 2 s pt) (h : va.toNat + npages.toNat * PGSIZE ≤ MAXVA) :
    AllMapped (tableAt 2 s.kmem.mem pt) va.toNat npages.toNat ↔
      ∀ b, Named va npages b → ∃ w, translation L s pt b = some w ∧ PTE_FLAGS w ≠ 1 := by
  have h64 : MAXVA < 2 ^ 64 := by decide
  constructor
  · intro hm b hb
    obtain ⟨hmax, hmb⟩ := hm b.toNat (le_def.mp hb.1) hb.2
    exact (mapped_iff hok hmax).mp hmb
  intro hm vb h1 h2
  have hmax : vb < MAXVA := by omega
  have hvb : (BitVec.ofNat 64 vb).toNat = vb := by
    rw [toNat_ofNat]
    exact Nat.mod_eq_of_lt (by omega)
  have hn : Named va npages (BitVec.ofNat 64 vb) := ⟨by rw [BitVec.le_def, hvb]; exact h1, by rw [hvb]; exact h2⟩
  have := (mapped_iff hok (by rw [hvb]; exact hmax)).mpr (hm _ hn)
  rw [hvb] at this
  exact ⟨hmax, this⟩

/-- a page table is a finite map: `mappages` adds the translations of its range, or of some pages at
its start when there is no memory, and `uvmunmap` removes those of its range -/
theorem page_tables_maps (h : Built L pt s) :
    (∀ (fuel : Nat) (va size pa : BitVec 64) (perm : BitVec 10), size ≠ 0 → va.toNat + size.toNat ≤ MAXVA →
      pa.toNat % PGSIZE = 0 → size.toNat < fuel →
      (∃ s', (mappagesW pt fuel va size pa perm).run (sem L) s = .next (true, s') ∧
        ∀ b, b.toNat < MAXVA → (Covers va size b → Maps L s' pt va pa perm b) ∧
          (¬ Covers va size b → translation L s' pt b = translation L s pt b)) ∨
      (∃ s' k, (mappagesW pt fuel va size pa perm).run (sem L) s = .next (false, s') ∧
        (∀ b, Initial va b k → Covers va size b) ∧
        ∀ b, b.toNat < MAXVA → (Initial va b k → Maps L s' pt va pa perm b ∧ translation L s pt b = none) ∧
          (¬ Initial va b k → translation L s' pt b = translation L s pt b)) ∨
      ((mappagesW pt fuel va size pa perm).run (sem L) s = .panic "mappages: remap" ∧
        ∃ b, Covers va size b ∧ translation L s pt b ≠ none)) ∧
    ∀ (fuel : Nat) (va npages : BitVec 64) (doFree : Bool), va.toNat % PGSIZE = 0 →
      va.toNat + npages.toNat * PGSIZE ≤ MAXVA → npages.toNat < fuel →
      (doFree = true → Frees L s pt ((tableAt 2 s.kmem.mem pt).targets npages.toNat va.toNat)) →
      ((∃ s', (uvmunmapW pt fuel va npages doFree).run (sem L) s = .next ((), s')) ↔
        ∀ b, Named va npages b → ∃ w, translation L s pt b = some w ∧ PTE_FLAGS w ≠ 1) ∧
      ∀ s', (uvmunmapW pt fuel va npages doFree).run (sem L) s = .next ((), s') →
        ∀ b, b.toNat < MAXVA →
          translation L s' pt b = if Named va npages b then none else translation L s pt b := by
  have hok := h.ok
  refine ⟨fun fuel va size pa perm hs hmax hpa hf => ?_, fun fuel va npages doFree hal hmax hf hfr => ?_⟩
  · have hlast := last_toNat hs hmax
    have hs' : size.toNat ≠ 0 := fun e => hs (BitVec.eq_of_toNat_eq e)
    have hrun : mappagesW pt fuel va size pa perm
        = mapLoopW pt (pageOf (va + size - 1)) perm fuel (pageOf va) pa := if_neg hs
    have hle : (pageOf va).toNat ≤ (pageOf (va + size - 1)).toNat := by
      rw [hlast, pageOf_toNat]
      simp only [PGROUNDDOWN, PGSIZE]
      omega
    have hlt : (pageOf (va + size - 1)).toNat < MAXVA := by
      rw [hlast]
      exact lt_of_le_of_lt (Nat.div_mul_le_self _ _) (by omega)
    have hfuel : (pageOf (va + size - 1)).toNat - (pageOf va).toNat < fuel * PGSIZE := by
      rw [hlast, pageOf_toNat]
      simp only [PGROUNDDOWN, PGSIZE]
      omega
    rw [hrun]
    rcases mapLoopW_run pa perm hok (by rw [pageOf_toNat]; exact rounddown_mod _)
      (by rw [pageOf_toNat]; exact rounddown_mod _) hle hlt hfuel with
      ⟨s', j, ok, hr, hm, ht, hff⟩ | ⟨hr, vb, h1, h2, hv⟩
    · cases ok with
      | true =>
        have hiff := fun b => initial_iff_covers (b := b) hs hmax (ht rfl)
        refine .inl ⟨s', hr, fun b hb => ⟨fun hc => ?_, fun hc => ?_⟩⟩
        · exact (hm.inside hok hpa hb ((hiff b).mpr hc)).1
        · exact hm.outside hok hb fun hi => hc ((hiff b).mp hi)
      | false =>
        refine .inr (.inl ⟨s', j, hr, fun b hi => ?_, fun b hb => ⟨hm.inside hok hpa hb, hm.outside hok hb⟩⟩)
        have hj := hff rfl
        rw [hlast] at hj
        rw [Initial, pageOf_toNat] at hi
        rw [Covers, BitVec.le_def, BitVec.le_def, hlast, pageOf_toNat, pageOf_toNat]
        rw [pageOf_toNat] at hj
        simp only [PGROUNDDOWN, PGSIZE] at *
        omega
    · have hvb : (BitVec.ofNat 64 vb).toNat = vb := by
        rw [BitVec.toNat_ofNat]
        exact Nat.mod_eq_of_lt (by omega)
      refine .inr (.inr ⟨hr, BitVec.ofNat 64 vb, ?_, ?_⟩)
      · rw [Covers, BitVec.le_def, BitVec.le_def, pageOf_toNat (BitVec.ofNat 64 vb), hvb]
        rw [pageOf_toNat] at h1 ⊢
        refine ⟨?_, le_trans (Nat.div_mul_le_self _ _) h2⟩
        simp only [PGROUNDDOWN, PGSIZE] at *
        omega
      · rw [translation_eq hok (by rw [hvb]; omega), hvb, Pte.translated, if_pos hv]
        exact Option.some_ne_none _
  · have hn := stop_toNat hmax
    rw [← hn] at hfr
    have hrun : uvmunmapW pt fuel va npages doFree = unmapLoopW pt (va + npages * 4096) doFree fuel va :=
      if_neg (Decidable.not_not.mpr hal)
    refine ⟨⟨fun hret => ?_, fun hall => ?_⟩, fun s' hr b hb => ?_⟩
    · obtain ⟨s', hr⟩ := hret
      have hm := (uvmunmapW_removed hok hfr hr).1
      rw [hn] at hm
      exact (allMapped_iff hok hmax).mp hm
    · have hu := uvmunmapW_unmaps hok hal hfr
      rw [hn] at hu
      obtain ⟨s', hr, -⟩ := unmapLoopW_run hu hf ((allMapped_iff hok hmax).mpr hall)
      exact ⟨s', by rw [hrun]; exact hr⟩
    · have hm := (uvmunmapW_removed hok hfr hr).2
      rw [hn] at hm
      rw [translation_eq hm.ok hb, hm.leaf _ (lt_of_maxva hb)]
      by_cases hc : Named va npages b
      · rw [if_pos hc, if_pos ⟨BitVec.le_def.mp hc.1, hc.2⟩]
        exact zero_translated
      · rw [if_neg hc, if_neg (fun h => hc ⟨BitVec.le_def.mpr h.1, h.2⟩), ← translation_eq hok hb]

end

end

/-- memory of zeros with eight free pages -/
def emptySys : Sys where
  kmem := ⟨(List.range 8).map fun i => smallLayout.kend + i * PGSIZE, fun _ => 0, fun _ => 0⟩
  kernel := []
  proc := fun _ => Proc.free
  out := fun _ => false
  parent := fun _ => none
  ftable := fun _ => ⟨0, .none⟩
  pipes := []

/-- two pages of a new table that are in two tables of the lowest level, and one of them unmapped -/
theorem page_tables_maps_two : ∃ pt s s' s'', Built smallLayout pt s ∧
    (mappagesW pt 4097 0x1ff800 4096 0x80500000 6).run (sem smallLayout) s = .next (true, s') ∧
    Maps smallLayout s' pt 0x1ff800 0x80500000 6 0x200000 ∧
    (uvmunmapW pt 2 0x1ff000 1 false).run (sem smallLayout) s' = .next ((), s'') ∧
    translation smallLayout s'' pt 0x1ff000 = none := by
  obtain ⟨⟨o, s⟩, hc, ho, hmap⟩ := exists_of_check (o := uvmcreateW.run (sem smallLayout) emptySys)
    (p := fun x : Option Nat × Sys => x.1 = some smallLayout.kend ∧
      ((mappagesW smallLayout.kend 4097 0x1ff800 4096 0x80500000 6).run (sem smallLayout) x.2).check
        fun y : Bool × Sys => y.1 = true ∧ ((uvmunmapW smallLayout.kend 2 0x1ff000 1 false).run (sem smallLayout) y.2).check
          fun _ : Unit × Sys => True)
    (by decide +kernel)
  obtain ⟨⟨ok, s'⟩, hm, hok, hun⟩ := exists_of_check hmap
  obtain ⟨⟨u, s''⟩, hu, -⟩ := exists_of_check hun
  cases ho
  cases hok
  have hb : Built smallLayout smallLayout.kend s := .create (by decide) (by decide) hc
  refine ⟨_, s, s', s'', hb, hm, ?_, hu, ?_⟩
  · rcases (page_tables_maps hb).1 4097 0x1ff800 4096 0x80500000 6 (by decide) (by decide) (by decide) (by decide) with
      ⟨t, ht, h⟩ | ⟨t, k, ht, -⟩ | ⟨ht, -⟩
    · rw [hm] at ht
      cases ht
      exact (h 0x200000 (by decide)).1 ⟨by decide, by decide⟩
    · rw [hm] at ht
      cases ht
    · rw [hm] at ht
      cases ht
  · have h := (page_tables_maps (hb.mappages hm)).2 2 0x1ff000 1 false (by decide) (by decide) (by decide)
      (fun e => absurd e Bool.false_ne_true)
    rw [h.2 s'' hu 0x1ff000 (by decide)]
    rfl

end Vm
