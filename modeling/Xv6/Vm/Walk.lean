import Xv6.Vm.Words

/-!
# `walk` on a page table in memory

* `TableOk`              the pages of a tree are its own;
* `Extends`              what `walk` may change: the tree gets more pages from the free list;
* `walkLoop_run`         `walk` finds the slot of an address;
* `stored_of_slot`       a write to that slot changes the PTE of one page;
* `translation_eq`       the valid PTE that `walk(pagetable, va, 0)` points to is that of the tree.
-/

namespace Vm
open Run Bytes Prog Own Table

/-- the tree at `pa` in memory: its pages are pages of the allocator, all different, and none is
free -/
structure TableOk (L : Layout) (n : Nat) (s : Sys) (pa : Nat) : Prop where
  nodup : s.kmem.freelist.Nodup
  range : ∀ q ∈ s.kmem.freelist, L.Page q
  page : ∀ q ∈ (tableAt n s.kmem.mem pa).sys, L.Page q
  fresh : ∀ q ∈ (tableAt n s.kmem.mem pa).sys, q ∉ s.kmem.freelist
  distinct : (tableAt n s.kmem.mem pa).sys.Nodup

/-- from `s` to `s'` the tree at `pa` may get more pages -/
structure Extends (L : Layout) (n : Nat) (s s' : Sys) (pa : Nat) : Prop where
  ok : TableOk L n s' pa
  grown : Grown (tableAt n s.kmem.mem pa) (tableAt n s'.kmem.mem pa)
  sys : ∃ l : List Nat, s.kmem.freelist = l ++ s'.kmem.freelist ∧
    (tableAt n s'.kmem.mem pa).sys = (tableAt n s.kmem.mem pa).sys + l
  same : ∀ a, PGROUNDDOWN a ∉ (tableAt n s.kmem.mem pa).sys → PGROUNDDOWN a ∉ s.kmem.freelist →
    s'.kmem.mem a = s.kmem.mem a

section
variable {L : Layout} {n pa q va : Nat} {s s' s'' : Sys} {m : Buf} {i : Fin NPTE} {w : BitVec 64}

theorem TableOk.aligned (h : TableOk L n s pa) : ∀ r ∈ (tableAt n s.kmem.mem pa).sys, r % PGSIZE = 0 :=
  fun r hr => (h.page r hr).1

theorem TableOk.child (h : TableOk L (n + 1) s pa) (hv : valid (get64 s.kmem.mem (pa + 8 * i)) = true) :
    TableOk L n s (PTE2PA (get64 s.kmem.mem (pa + 8 * i))).toNat := by
  have hle := child_sys_le (n := n) hv
  exact ⟨h.nodup, h.range, fun q hq => h.page q (Multiset.mem_of_le hle hq),
    fun q hq => h.fresh q (Multiset.mem_of_le hle hq), Multiset.nodup_of_le hle h.distinct⟩

theorem Extends.rfl (h : TableOk L n s pa) : Extends L n s s pa :=
  ⟨h, Grown.rfl, ⟨[], List.nil_append _, (add_zero _).symm⟩, fun _ _ _ => Eq.refl _⟩

theorem Extends.trans (h : Extends L n s s' pa) (h' : Extends L n s' s'' pa) : Extends L n s s'' pa := by
  obtain ⟨l, hl, hs⟩ := h.sys
  obtain ⟨l', hl', hs'⟩ := h'.sys
  refine ⟨h'.ok, h.grown.trans h'.grown, ⟨l ++ l', ?_, ?_⟩, fun a ha hf => ?_⟩
  · rw [hl, hl', List.append_assoc]
  · rw [hs', hs, ← Multiset.coe_add, add_assoc]
  have hnl : PGROUNDDOWN a ∉ l := fun hm => hf (by rw [hl]; exact List.mem_append_left _ hm)
  have hf' : PGROUNDDOWN a ∉ s'.kmem.freelist := fun hm => hf (by rw [hl]; exact List.mem_append_right _ hm)
  rw [h'.same a _ hf', h.same a ha hf]
  rw [hs]
  exact fun hm => (Multiset.mem_add.mp hm).elim ha fun hm => hnl (Multiset.mem_coe.mp hm)

theorem TableOk.extend {l : List Nat} (h : TableOk L n s pa) (hl : s.kmem.freelist = l ++ s'.kmem.freelist)
    (hs : (tableAt n s'.kmem.mem pa).sys = (tableAt n s.kmem.mem pa).sys + l) : TableOk L n s' pa := by
  have hnd := h.nodup
  rw [hl, List.nodup_append] at hnd
  obtain ⟨hnl, hnf, hdis⟩ := hnd
  have hin : ∀ q ∈ s'.kmem.freelist, q ∈ s.kmem.freelist := fun q hq => by
    rw [hl]
    exact List.mem_append_right _ hq
  have hil : ∀ q ∈ l, q ∈ s.kmem.freelist := fun q hq => by
    rw [hl]
    exact List.mem_append_left _ hq
  refine ⟨hnf, fun q hq => h.range q (hin q hq), fun q hq => ?_, fun q hq => ?_, ?_⟩
  · rw [hs] at hq
    exact (Multiset.mem_add.mp hq).elim (h.page q) fun hq => h.range q (hil q (Multiset.mem_coe.mp hq))
  · rw [hs] at hq
    rcases Multiset.mem_add.mp hq with hq | hq
    · exact fun hf => h.fresh q hq (hin q hf)
    · exact fun hf => hdis q (Multiset.mem_coe.mp hq) q hf (Eq.refl q)
  · rw [hs, Multiset.nodup_add]
    refine ⟨h.distinct, Multiset.coe_nodup.mpr hnl, Multiset.disjoint_left.mpr fun hq hql => ?_⟩
    exact h.fresh _ hq (hil _ (Multiset.mem_coe.mp hql))

theorem Extends.parent (h : TableOk L (n + 1) s pa) (hv : valid (get64 s.kmem.mem (pa + 8 * i)) = true)
    (hq : (PTE2PA (get64 s.kmem.mem (pa + 8 * i))).toNat = q) (hx : Extends L n s s' q) :
    Extends L (n + 1) s s' pa ∧ get64 s'.kmem.mem (pa + 8 * i) = get64 s.kmem.mem (pa + 8 * i) := by
  subst hq
  obtain ⟨R, hR, hsib⟩ := sys_split hv
  have hnd := h.distinct
  rw [hR, Multiset.nodup_add] at hnd
  have hdis : ∀ r ∈ ({pa} + R : Multiset Nat),
      r ∉ (tableAt n s.kmem.mem (PTE2PA (get64 s.kmem.mem (pa + 8 * i))).toNat).sys :=
    fun r hr => Multiset.disjoint_right.mp hnd.2.2 hr
  have hmem : ∀ r ∈ ({pa} + R : Multiset Nat), r ∈ (tableAt (n + 1) s.kmem.mem pa).sys := fun r hr => by
    rw [hR]
    exact Multiset.mem_add.mpr (.inr hr)
  -- the page itself and the other children stay
  have hkeep : ∀ a, PGROUNDDOWN a ∈ ({pa} + R : Multiset Nat) → s'.kmem.mem a = s.kmem.mem a :=
    fun a ha => hx.same a (hdis _ ha) (h.fresh _ (hmem _ ha))
  have hpa : pa ∈ ({pa} + R : Multiset Nat) := Multiset.mem_add.mpr (.inl (Multiset.mem_singleton_self pa))
  have hword : ∀ j : Fin NPTE, get64 s'.kmem.mem (pa + 8 * j) = get64 s.kmem.mem (pa + 8 * j) :=
    fun j => word_congr (h.aligned pa self_mem_sys) fun a ha => hkeep a (ha ▸ hpa)
  have htree : tableAt (n + 1) s'.kmem.mem pa = (tableAt (n + 1) s.kmem.mem pa).graft i
      (tableAt n s'.kmem.mem (PTE2PA (get64 s.kmem.mem (pa + 8 * i))).toNat) := by
    refine tableAt_graft (fun j _ => hword j) h.aligned (fun j e hvj a ha => hkeep a ?_) ?_ ?_
    · exact Multiset.mem_add.mpr (.inr (Multiset.mem_of_le (hsib j e hvj) ha))
    · rwa [hword]
    · rw [hword]
  obtain ⟨l, hl, hs⟩ := hx.sys
  have hsys : (tableAt (n + 1) s'.kmem.mem pa).sys = (tableAt (n + 1) s.kmem.mem pa).sys + l := by
    have := sys_graft_some (tableAt n s'.kmem.mem (PTE2PA (get64 s.kmem.mem (pa + 8 * i))).toNat)
      (ent_valid hv)
    rw [← htree, hs, ← add_assoc, add_right_comm] at this
    exact add_right_cancel this
  refine ⟨⟨h.extend hl hsys, ?_, ⟨l, hl, hsys⟩, fun a ha hf => hx.same a (fun hc => ha ?_) hf⟩, hword i⟩
  · rw [htree]
    exact hx.grown.graft_some (ent_valid hv)
  · exact Multiset.mem_of_le (child_sys_le hv) hc

/-! ## a new page -/

theorem tableAt_zero (hq : q % PGSIZE = 0) (h : ∀ a, PGROUNDDOWN a = q → m a = 0) :
    tableAt n m q = Table.zero n q := by
  have hw : ∀ i : Fin NPTE, get64 m (q + 8 * i) = 0 := by
    intro i
    rw [← get64_zero (q + 8 * i)]
    exact word_congr hq h
  cases n with
  | zero => exact congrArg (Node.mk q) (funext fun i => (congrArg Pte.ofWord (hw i)).trans ofWord_zero)
  | succ n =>
    refine congrArg (Node.mk q) (funext fun i => if_neg ?_)
    rw [hw i]
    decide

/-- the state after a new page was zeroed and its pointer written to the entry `i` of the page `pa` -/
def Sys.withPage (L : Layout) (s : Sys) (pa : Nat) (i : Fin NPTE) (q : Nat) : Sys :=
  (s.setKmem ((kalloc L s.kmem).2.memset q PGSIZE 0)).setMem
    (splice ((kalloc L s.kmem).2.memset q PGSIZE 0).mem (pa + 8 * i) 8 (le64 (newPte (BitVec.ofNat 64 q) 0)))

theorem withPage_other {rest : List Nat} {a : Nat} (hf : s.kmem.freelist = q :: rest) (hq : q % PGSIZE = 0)
    (ha : PGROUNDDOWN a ≠ q) : ((kalloc L s.kmem).2.memset q PGSIZE 0).mem a = s.kmem.mem a := by
  have h := ha
  rw [Ne, rounddown_eq_iff hq] at h
  rw [← kalloc_mem hf hq ha]
  show splice (kalloc L s.kmem).2.mem q PGSIZE (fun _ => 0) a = _
  exact splice_out (by omega)

theorem withPage_new {a : Nat} (hq : q % PGSIZE = 0) (ha : PGROUNDDOWN a = q) :
    ((kalloc L s.kmem).2.memset q PGSIZE 0).mem a = 0 := by
  rw [rounddown_eq_iff hq] at ha
  show splice (kalloc L s.kmem).2.mem q PGSIZE (fun _ => 0) a = 0
  exact splice_in ha.1 ha.2

theorem toNat_page (h : L.Page q) : (BitVec.ofNat 64 q).toNat = q := by
  have h1 := h.2.2
  have h2 : PHYSTOP < 2 ^ 64 := by decide
  rw [BitVec.toNat_ofNat]
  exact Nat.mod_eq_of_lt (by omega)

theorem Extends.newPage {rest : List Nat} (h : TableOk L (n + 1) s pa)
    (hv : ¬ valid (get64 s.kmem.mem (pa + 8 * i)) = true) (hf : s.kmem.freelist = q :: rest) :
    Extends L (n + 1) s (s.withPage L pa i q) pa ∧
      valid (get64 (s.withPage L pa i q).kmem.mem (pa + 8 * i)) = true ∧
      (PTE2PA (get64 (s.withPage L pa i q).kmem.mem (pa + 8 * i))).toNat = q := by
  have hqf : q ∈ s.kmem.freelist := hf ▸ List.mem_cons_self
  have hqp : L.Page q := h.range q hqf
  have hpa := h.aligned pa self_mem_sys
  have hne : ∀ r ∈ (tableAt (n + 1) s.kmem.mem pa).sys, r ≠ q := fun r hr e => h.fresh r hr (e ▸ hqf)
  have hpq := hne pa self_mem_sys
  have hfl : (s.withPage L pa i q).kmem.freelist = rest := by
    show (kalloc L s.kmem).2.freelist = rest
    simp only [kalloc, hf]
    rfl
  have hself : get64 (s.withPage L pa i q).kmem.mem (pa + 8 * i) = newPte (BitVec.ofNat 64 q) 0 :=
    get64_store _ _ _
  -- what is not in the new page, nor the entry
  have hmem : ∀ a, PGROUNDDOWN a ≠ q → (a < pa + 8 * i.val ∨ pa + 8 * i.val + 8 ≤ a) →
      (s.withPage L pa i q).kmem.mem a = s.kmem.mem a := by
    intro a ha hout
    rw [← withPage_other hf hqp.1 ha]
    exact splice_out hout
  have hout : ∀ a, PGROUNDDOWN a ≠ pa → a < pa + 8 * i.val ∨ pa + 8 * i.val + 8 ≤ a := by
    intro a ha
    have := entry_fits i
    rw [Ne, rounddown_eq_iff hpa] at ha
    omega
  have hword : ∀ j : Fin NPTE, j ≠ i → get64 (s.withPage L pa i q).kmem.mem (pa + 8 * j)
      = get64 s.kmem.mem (pa + 8 * j) := by
    intro j hj
    refine get64_congr fun k hk => hmem _ ?_ (by omega)
    rwa [rounddown_entry hpa hk]
  have hpq' : (PTE2PA (newPte (BitVec.ofNat 64 q) 0)).toNat = q := by
    rw [PTE2PA_newPte (by rw [toNat_page hqp]; exact hqp.1), toNat_page hqp]
  have hzero : tableAt n (s.withPage L pa i q).kmem.mem q = Table.zero n q := by
    refine tableAt_zero hqp.1 fun a ha => ?_
    refine (splice_out (hout a (by rw [ha]; exact hpq.symm))).trans ?_
    exact withPage_new hqp.1 ha
  have htree : tableAt (n + 1) (s.withPage L pa i q).kmem.mem pa
      = (tableAt (n + 1) s.kmem.mem pa).graft i (Table.zero n q) := by
    rw [← hzero]
    refine tableAt_graft hword h.aligned (fun j e hvj a ha => ?_) (by rw [hself]; exact valid_newPte)
      (by rw [hself]; exact hpq')
    obtain ⟨R, hR, -⟩ := sys_split hvj
    have hnd := h.distinct
    rw [hR, Multiset.nodup_add] at hnd
    have hapa : PGROUNDDOWN a ≠ pa := fun ea => Multiset.disjoint_left.mp hnd.2.2 ha
      (Multiset.mem_add.mpr (.inl (by rw [ea]; exact Multiset.mem_singleton_self pa)))
    exact hmem a (hne _ (Multiset.mem_of_le (child_sys_le hvj) ha)) (hout a hapa)
  have hsys : (tableAt (n + 1) (s.withPage L pa i q).kmem.mem pa).sys
      = (tableAt (n + 1) s.kmem.mem pa).sys + ([q] : List Nat) := by
    rw [htree, sys_graft_none (ent_invalid hv), sys_zero]
    rfl
  have hl : s.kmem.freelist = [q] ++ (s.withPage L pa i q).kmem.freelist := by rw [hf, hfl]; rfl
  refine ⟨⟨h.extend hl hsys, ?_, ⟨[q], hl, hsys⟩, fun a ha hfa => ?_⟩, by rw [hself]; exact valid_newPte,
    by rw [hself]; exact hpq'⟩
  · rw [htree]
    exact Grown.graft_none (ent_invalid hv) Grown.rfl
  · exact hmem a (fun e => hfa (e ▸ hqf)) (hout a fun e => ha (by rw [e]; exact self_mem_sys))

/-! ## runs -/

section
variable {α : Type} {a : Nat}

theorem run_readPte (h : ram a 8) (p : BitVec 64 → Kernel α) :
    ((readPte a).bind p).run (sem L) s = (p (get64 s.kmem.mem a)).run (sem L) s := by
  have e : get64 (fun i => s.kmem.mem (a + i)) 0 = get64 s.kmem.mem a :=
    get64_congr fun j _ => by rw [Nat.zero_add]
  rw [readPte, bind_eq, bind_assoc, run_read h, e]
  rfl

theorem run_writePte (h : ram a 8) (p : Unit → Kernel α) :
    ((writePte a w).bind p).run (sem L) s = (p ()).run (sem L) (s.setMem (splice s.kmem.mem a 8 (le64 w))) :=
  run_write h p

theorem writePte_run (h : ram a 8) :
    (writePte a w).run (sem L) s = .next ((), s.setMem (splice s.kmem.mem a 8 (le64 w))) :=
  run_act_next (if_pos h)

theorem run_memset {k : Nat} {c : Byte} (h : ram a k) (p : Unit → Kernel α) :
    ((Act.memset a k c).bind p).run (sem L) s = (p ()).run (sem L) (s.setKmem (s.kmem.memset a k c)) :=
  run_act_next (if_pos h)

theorem run_kalloc (p : Option Nat → Kernel α) : (Act.kalloc.bind p).run (sem L) s
    = (p (kalloc L s.kmem).1).run (sem L) (s.setKmem (kalloc L s.kmem).2) := rfl

end

theorem entry_ram (h : L.Page pa) (i : Fin NPTE) : ram (pa + 8 * i) 8 := by
  obtain ⟨h1, h2⟩ := ram_page h
  have := entry_fits i
  exact ⟨by omega, by omega⟩

theorem slot_ram {p : Nat} (h : TableOk L n s pa) (hp : slot n s.kmem.mem pa va = some p) : ram p 8 := by
  obtain ⟨r, hr, h1, h2⟩ := slot_page hp
  obtain ⟨h3, h4⟩ := ram_page (h.page r hr)
  exact ⟨by omega, by omega⟩

/-- `walk` finds the slot of `va`, if there are pages enough, and without `alloc` it changes nothing -/
theorem walkLoop_run (va : BitVec 64) (alloc : Bool) (h : TableOk L n s pa) :
    ∃ o s', (walkLoop va alloc n pa).run (sem L) s = .next (o, s') ∧ Extends L n s s' pa ∧
      (∀ p, o = some p → slot n s'.kmem.mem pa va.toNat = some p) ∧
      (alloc = false → s' = s ∧ o = slot n s.kmem.mem pa va.toNat) := by
  induction n generalizing pa s with
  | zero =>
    refine ⟨_, s, rfl, Extends.rfl h, fun p hp => ?_, fun _ => ⟨rfl, ?_⟩⟩
    · rw [← hp, slot, pxW_eq]
    · rw [slot, pxW_eq]
  | succ n ih =>
    have hram := entry_ram (h.page pa self_mem_sys) (PX (n + 1) va.toNat)
    rw [walkLoop, pxW_eq, bind_eq, run_readPte hram]
    by_cases hv : valid (get64 s.kmem.mem (pa + 8 * PX (n + 1) va.toNat)) = true
    · rw [if_pos hv]
      obtain ⟨o, s', hrun, hx, hfound, hno⟩ := ih (h.child hv)
      obtain ⟨hx', hw⟩ := hx.parent h hv rfl
      refine ⟨o, s', hrun, hx', fun p hp => ?_, fun ha => ?_⟩
      · rw [slot, hw, if_pos hv]
        exact hfound p hp
      · rw [slot, if_pos hv]
        exact hno ha
    rw [if_neg hv]
    cases alloc with
    | false =>
      refine ⟨none, s, rfl, Extends.rfl h, fun p hp => (by cases hp), fun _ => ⟨rfl, ?_⟩⟩
      rw [slot, if_neg hv]
    | true =>
      rw [if_neg (fun e => Bool.false_ne_true e.symm), bind_eq, run_kalloc]
      cases hf : s.kmem.freelist with
      | nil =>
        have e : kalloc L s.kmem = (none, s.kmem) := by simp only [kalloc, hf]
        rw [e]
        exact ⟨none, s, rfl, Extends.rfl h, fun p hp => (by cases hp),
          fun e => absurd e.symm Bool.false_ne_true⟩
      | cons q rest =>
        have hqp : L.Page q := h.range q (hf ▸ List.mem_cons_self)
        have e : (kalloc L s.kmem).1 = some q := by simp only [kalloc, hf]
        obtain ⟨hx, hv', hq⟩ := Extends.newPage h hv hf
        have hchild := hx.ok.child hv'
        rw [hq] at hchild
        obtain ⟨o, s', hrun, hx1, hfound, -⟩ := ih hchild
        obtain ⟨hx2, hw⟩ := hx1.parent hx.ok hv' hq
        refine ⟨o, s', ?_, hx.trans hx2, fun p hp => ?_, fun e => absurd e.symm Bool.false_ne_true⟩
        · rw [e]
          dsimp only
          rwa [bind_eq, run_memset (ram_page hqp), bind_eq, run_writePte hram]
        · rw [slot, hw, if_pos hv', hq]
          exact hfound p hp

/-! ## one PTE -/

theorem walkW_panic {va : BitVec 64} {alloc : Bool} (h : ¬ va.toNat < MAXVA) :
    walkW pa va alloc = .panic "walk" := if_pos (Nat.le_of_not_lt h)

theorem walkW_run {va : BitVec 64} (alloc : Bool) (h : TableOk L 2 s pa) (hva : va.toNat < MAXVA) :
    ∃ o s', (walkW pa va alloc).run (sem L) s = .next (o, s') ∧ Extends L 2 s s' pa ∧
      (∀ p, o = some p → slot 2 s'.kmem.mem pa va.toNat = some p) ∧
      (alloc = false → s' = s ∧ o = slot 2 s.kmem.mem pa va.toNat) := by
  rw [walkW, if_neg (Nat.not_le.mpr hva)]
  exact walkLoop_run va alloc h

/-- the PTE for `va` becomes `w` -/
structure Stored (L : Layout) (s s' : Sys) (pt va : Nat) (w : BitVec 64) : Prop where
  ok : TableOk L 2 s' pt
  sys : (tableAt 2 s'.kmem.mem pt).sys = (tableAt 2 s.kmem.mem pt).sys
  leaf : ∀ vb, vb < 2 ^ 39 → (tableAt 2 s'.kmem.mem pt).leaf vb
    = if va / PGSIZE = vb / PGSIZE then Pte.ofWord w else (tableAt 2 s.kmem.mem pt).leaf vb
  free : s'.kmem.freelist = s.kmem.freelist

theorem stored_of_slot {p : Nat} (h : TableOk L 2 s pa) (hp : slot 2 s.kmem.mem pa va = some p)
    (hva : va < MAXVA) : Stored L s (s.setMem (splice s.kmem.mem p 8 (le64 w))) pa va w := by
  have htree : tableAt 2 (splice s.kmem.mem p 8 (le64 w)) pa = (tableAt 2 s.kmem.mem pa).put va (Pte.ofWord w) :=
    tableAt_put h.aligned h.distinct hp
  have hsys : (tableAt 2 (splice s.kmem.mem p 8 (le64 w)) pa).sys = (tableAt 2 s.kmem.mem pa).sys := by
    rw [htree, sys_put]
  have hsome : ((tableAt 2 s.kmem.mem pa).get va).isSome := by
    rw [get_tableAt, hp]
    rfl
  refine ⟨⟨h.nodup, h.range, ?_, ?_, ?_⟩, hsys, fun vb hb => ?_, rfl⟩
  · intro q hq
    exact h.page q (hsys ▸ hq)
  · intro q hq
    exact h.fresh q (hsys ▸ hq)
  · show (tableAt 2 (splice s.kmem.mem p 8 (le64 w)) pa).sys.Nodup
    rw [hsys]
    exact h.distinct
  · show (tableAt 2 (splice s.kmem.mem p 8 (le64 w)) pa).leaf vb = _
    rw [htree]
    exact leaf_put hsome (lt_of_maxva hva) hb

theorem leaf_of_slot {p : Nat} (hp : slot 2 m pa va = some p) :
    (tableAt 2 m pa).leaf va = Pte.ofWord (get64 m p) := by
  rw [Table.leaf, get_tableAt, hp]
  rfl

/-! ## translations -/

variable (L) in
/-- the valid PTE that `walk(pagetable, va, 0)` points to -/
def translation (s : Sys) (pagetable : Nat) (va : BitVec 64) : Option (BitVec 64) :=
  match (walkW pagetable va false).run (sem L) s with
  | .next (some p, _) => if valid (get64 s.kmem.mem p) then some (get64 s.kmem.mem p) else none
  | _ => none

/-- the word of a PTE -/
def Pte.word (p : Pte) : BitVec 64 := BitVec.ofNat 54 p.ppn ++ p.flags

theorem word_ofWord (w : BitVec 64) : (Pte.ofWord w).word = w := by
  unfold Pte.word Pte.ofWord
  apply BitVec.eq_of_getLsbD_eq
  intro i hi
  rw [BitVec.getLsbD_append]
  by_cases h : i < 10
  · simp [h]
  have e : 10 + (i - 10) = i := by omega
  have h54 : i - 10 < 54 := by omega
  simp only [h, BitVec.getLsbD_ofNat, h54, decide_true, Bool.true_and]
  rw [BitVec.toNat_ushiftRight, Nat.testBit_shiftRight, e]
  rfl

/-- what a PTE translates to -/
def Pte.translated (p : Pte) : Option (BitVec 64) := if p.has PTE_V then some p.word else none

theorem zero_translated : Pte.zero.translated = none := if_neg (by rw [Pte.zero_has]; exact Bool.false_ne_true)

theorem translation_eq {va : BitVec 64} (h : TableOk L 2 s pa) (hva : va.toNat < MAXVA) :
    translation L s pa va = ((tableAt 2 s.kmem.mem pa).leaf va.toNat).translated := by
  obtain ⟨o, s', hrun, -, -, hno⟩ := walkW_run false h hva
  obtain ⟨rfl, rfl⟩ := hno rfl
  rw [translation, hrun]
  cases hp : slot 2 s'.kmem.mem pa va.toNat with
  | none =>
    rw [Table.leaf, get_tableAt, hp]
    exact zero_translated.symm
  | some p =>
    rw [leaf_of_slot hp, Pte.translated, word_ofWord, ← valid_eq]

end

end Vm
