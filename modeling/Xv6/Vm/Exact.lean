import Xv6.Vm.Lawful

/-!
# Exact accounting

A discipline in which the counters and the free list are determined by the tokens.  With the allocator
`k₀` and the tokens `R₀` at the start, a counter has changed by as much as the tokens of its page, and a
page is free if its counter is zero, unless it was already missing from the free list at the start.

The threads are strict, leave the slots that others hold as they are and give slots back empty
(`Undisturbed`), and every panic is fatal.

* `exactMachine`                the discipline, with all rules of `Lawful`;
* `Exact.ref_eq`, `Exact.free_iff`   the same tokens give the same counters and free pages;
* `exact_run`, `exact_returns`   what it means for a program that runs alone.
-/

namespace Vm
open Run Bytes Prog Own Function

variable (L : Layout)

/-- the allocator `k` against the tokens `R`, as it was `k₀` against `R₀` -/
structure Exact (k₀ : Kmem) (R₀ : Ledger) (k : Kmem) (R : Ledger) : Prop where
  ref : ∀ pa, L.Page pa → k.refOf L pa + (pages R₀).count pa = k₀.refOf L pa + (pages R).count pa
  free : ∀ pa, L.Page pa →
    (pa ∈ k.freelist ↔ k.refOf L pa = 0 ∧ (k₀.refOf L pa = 0 → pa ∈ k₀.freelist))
  lost : ∀ pa, L.Page pa → k₀.refOf L pa = 0 → pa ∉ k₀.freelist → k.refOf L pa = 0
  rest : ∀ j, (∀ pa, L.Page pa → refindex L pa ≠ j) → k.ref j = k₀.ref j

/-- what a strict thread leaves to others -/
structure Undisturbed (g : Ledger) (s s' : Sys) : Prop where
  held : ∀ q, Token.slot q ∈ g → s'.out q = s.out q ∧ s'.proc q = s.proc q
  back : ∀ q, s'.out q = false → (s.out q = false ∧ s'.proc q = s.proc q) ∨ s'.proc q = Proc.free
  kernel : s'.kernel = s.kernel
  pipes : s'.pipes = s.pipes
  kind : ∀ f, (s'.ftable f).kind = (s.ftable f).kind

section
variable {L} {k₀ k k' : Kmem} {R₀ R R' g : Ledger} {pa : Nat} {s t u : Sys}

/-! ## counters and free pages -/

theorem Exact.start {leak : Bool} (h : KInv L leak k R) : Exact L k R k R := by
  refine ⟨fun _ _ => rfl, fun pa hpa => ⟨fun hm => ?_, fun hz => hz.2 hz.1⟩, fun _ _ hz _ => hz,
    fun _ _ => rfl⟩
  exact ⟨((h.page pa hpa).free hm).2, fun _ => hm⟩

theorem Exact.congr (h : Exact L k₀ R₀ k R) (href : k'.ref = k.ref) (hfree : k'.freelist = k.freelist)
    (hR : pages R' = pages R) : Exact L k₀ R₀ k' R' := by
  have e : ∀ pa, k'.refOf L pa = k.refOf L pa := fun pa => congrFun href _
  refine ⟨fun pa hpa => ?_, fun pa hpa => ?_, fun pa hpa h0 hn => ?_, fun j hj => ?_⟩
  · rw [e, hR]
    exact h.ref pa hpa
  · rw [e, hfree]
    exact h.free pa hpa
  · rw [e]
    exact h.lost pa hpa h0 hn
  · rw [href]
    exact h.rest j hj

theorem Exact.change (h : Exact L k₀ R₀ k R) (hpa : L.Page pa)
    (href : ∀ j, j ≠ refindex L pa → k'.ref j = k.ref j)
    (hfree : ∀ pb, pb ≠ pa → (pb ∈ k'.freelist ↔ pb ∈ k.freelist))
    (hcnt : ∀ pb, pb ≠ pa → (pages R').count pb = (pages R).count pb)
    (hsum : k'.refOf L pa + (pages R).count pa = k.refOf L pa + (pages R').count pa)
    (hin : pa ∈ k'.freelist ↔ k'.refOf L pa = 0)
    (hkept : k₀.refOf L pa = 0 → pa ∈ k₀.freelist) : Exact L k₀ R₀ k' R' := by
  have e : ∀ pb, L.Page pb → pb ≠ pa → k'.refOf L pb = k.refOf L pb :=
    fun pb hb hne => href _ fun ei => hne (refindex_inj hb hpa ei)
  refine ⟨fun pb hb => ?_, fun pb hb => ?_, fun pb hb h0 hn => ?_, fun j hj => ?_⟩
  · by_cases hne : pb = pa
    · have := h.ref pa hpa
      rw [hne]
      omega
    · rw [e pb hb hne, hcnt pb hne]
      exact h.ref pb hb
  · by_cases hne : pb = pa
    · rw [hne, hin]
      exact ⟨fun hz => ⟨hz, hkept⟩, fun hz => hz.1⟩
    · rw [e pb hb hne, hfree pb hne]
      exact h.free pb hb
  · by_cases hne : pb = pa
    · rw [hne] at h0 hn
      exact absurd (hkept h0) hn
    · rw [e pb hb hne]
      exact h.lost pb hb h0 hn
  · rw [href j fun ei => hj pa hpa ei.symm]
    exact h.rest j hj

theorem Exact.kept (h : Exact L k₀ R₀ k R) (hpa : L.Page pa) (hr : 0 < k.refOf L pa)
    (h0 : k₀.refOf L pa = 0) : pa ∈ k₀.freelist := by
  by_contra hn
  have := h.lost pa hpa h0 hn
  omega

theorem setRef_ref_ne {n j : Nat} (h : j ≠ refindex L pa) : (k.setRef L pa n).ref j = k.ref j :=
  update_of_ne h _ _

theorem count_add_page {t : Token} {pb : Nat} (ht : t.IsPage pa) (R : Ledger) :
    (pages (R + {t})).count pb = (pages R).count pb + if pb = pa then 1 else 0 := by
  rw [map_add, ht.pages, Multiset.count_add, Multiset.count_singleton]

theorem Exact.kalloc {rest : List Nat} {t : Token} {leak : Bool} (h : Exact L k₀ R₀ k R) (hK : KInv L leak k R)
    (hl : k.freelist = pa :: rest) (ht : t.IsPage pa) (hR : pages R' = pages (R + {t})) :
    Exact L k₀ R₀ (kalloc L k).2 R' := by
  have hmem : pa ∈ k.freelist := by
    rw [hl]
    exact List.mem_cons_self
  have hpa := hK.range pa hmem
  have hz := (h.free pa hpa).mp hmem
  have hk : (Vm.kalloc L k).2
      = ({ k with freelist := rest }.setRef L pa (k.refOf L pa + 1)).memset pa PGSIZE 5 := by
    simp only [Vm.kalloc, hl]
  have hn := hK.nodup
  rw [hl] at hn
  rw [hk]
  have href : (({ k with freelist := rest } : Kmem).setRef L pa (k.refOf L pa + 1)).refOf L pa
      = k.refOf L pa + 1 := refOf_setRef
  refine h.change hpa (fun j hj => setRef_ref_ne hj) (fun pb hne => ?_)
    (fun pb hne => ?_) ?_ ?_ hz.2
  · rw [hl, List.mem_cons]
    exact ⟨.inr, fun hm => hm.resolve_left hne⟩
  · rw [hR, count_add_page ht, if_neg hne, Nat.add_zero]
  · show (({ k with freelist := rest } : Kmem).setRef L pa (k.refOf L pa + 1)).refOf L pa + _ = _
    rw [href, hR, count_add_page ht, if_pos rfl]
    omega
  · show pa ∈ rest ↔ (({ k with freelist := rest } : Kmem).setRef L pa (k.refOf L pa + 1)).refOf L pa = 0
    rw [href]
    exact ⟨fun hm => absurd hm (List.nodup_cons.mp hn).1, fun e => absurd e (Nat.succ_ne_zero _)⟩

theorem Exact.kfree {t : Token} {leak : Bool} (h : Exact L k₀ R₀ k R) (hK : KInv L leak k R) (hpa : L.Page pa)
    (hk : kfree L k pa = .next k') (ht : t.IsPage pa) (hR : pages R = pages (R' + {t})) :
    Exact L k₀ R₀ k' R' := by
  have hc : ∀ pb, (pages R).count pb = (pages R').count pb + if pb = pa then 1 else 0 := by
    intro pb
    rw [hR, count_add_page ht]
  have hpos : 0 < k.refOf L pa := by
    have h1 := (hK.page pa hpa).counted
    rw [hc, if_pos rfl] at h1
    omega
  have hcnt : ∀ pb, pb ≠ pa → (pages R').count pb = (pages R).count pb := by
    intro pb hne
    rw [hc, if_neg hne, Nat.add_zero]
  have hpa1 := hc pa
  rw [if_pos rfl] at hpa1
  have hnot : pa ∉ k.freelist := by
    intro hm
    have := ((h.free pa hpa).mp hm).1
    omega
  rw [kfree_page hpa] at hk
  split at hk
  · cases hk
    refine h.change hpa (fun j hj => setRef_ref_ne hj) (fun _ _ => Iff.rfl) hcnt ?_ ?_ (h.kept hpa hpos)
    · rw [refOf_setRef]
      omega
    · rw [refOf_setRef]
      exact ⟨fun hm => absurd hm hnot, fun e => by omega⟩
  rename_i hle
  have e1 : k.refOf L pa = 1 := by omega
  have hd : dec64 (k.refOf L pa) = 0 := by
    rw [e1]
    rfl
  cases hk
  have href : (k.setRef L pa (dec64 (k.refOf L pa))).refOf L pa = 0 := by rw [refOf_setRef, hd]
  refine h.change hpa (fun j hj => setRef_ref_ne hj) (fun pb hne => ?_) hcnt ?_ ?_ (h.kept hpa hpos)
  · rw [List.mem_cons]
    exact ⟨fun hm => hm.resolve_left hne, .inr⟩
  · show (k.setRef L pa (dec64 (k.refOf L pa))).refOf L pa + _ = _
    rw [href]
    omega
  · show pa ∈ pa :: k.freelist ↔ (k.setRef L pa (dec64 (k.refOf L pa))).refOf L pa = 0
    rw [href]
    exact ⟨fun _ => rfl, fun _ => List.mem_cons_self⟩

theorem Exact.inckref {t : Token} {leak : Bool} (h : Exact L k₀ R₀ k R) (hK : KInv L leak k R)
    (hmem : pa ∈ pages R) (ht : t.IsPage pa) (hR : pages R' = pages (R + {t})) :
    Exact L k₀ R₀ (inckref L k pa) R' := by
  have hpa := hK.owned pa hmem
  have hpos : 0 < k.refOf L pa := by
    have h1 := (hK.page pa hpa).counted
    have h2 := Multiset.count_pos.mpr hmem
    omega
  have hnot : pa ∉ k.freelist := by
    intro hm
    have := ((h.free pa hpa).mp hm).1
    omega
  unfold Vm.inckref
  refine h.change hpa (fun j hj => setRef_ref_ne hj) (fun _ _ => Iff.rfl) (fun pb hne => ?_) ?_ ?_ (h.kept hpa hpos)
  · rw [hR, count_add_page ht, if_neg hne, Nat.add_zero]
  · rw [refOf_setRef, hR, count_add_page ht, if_pos rfl]
    omega
  · rw [refOf_setRef]
    exact ⟨fun hm => absurd hm hnot, fun e => absurd e (Nat.succ_ne_zero _)⟩

theorem Exact.ref_eq (h : Exact L k₀ R₀ k R) (hR : pages R = pages R₀) : k.ref = k₀.ref := by
  funext j
  by_cases hj : ∃ pa, L.Page pa ∧ refindex L pa = j
  · obtain ⟨pa, hpa, rfl⟩ := hj
    have := h.ref pa hpa
    rw [hR] at this
    exact Nat.add_right_cancel this
  · exact h.rest j fun pa hpa e => hj ⟨pa, hpa, e⟩

theorem Exact.free_iff {leak : Bool} (h : Exact L k₀ R₀ k R) (hK₀ : KInv L leak k₀ R₀) (hK : KInv L leak k R)
    (hR : pages R = pages R₀) (pa : Nat) : pa ∈ k.freelist ↔ pa ∈ k₀.freelist := by
  have e : k.refOf L pa = k₀.refOf L pa := congrFun (h.ref_eq hR) _
  constructor
  · intro hm
    have hz := (h.free pa (hK.range pa hm)).mp hm
    exact hz.2 (e.symm.trans hz.1)
  · intro hm
    have hpa := hK₀.range pa hm
    refine (h.free pa hpa).mpr ⟨?_, fun _ => hm⟩
    rw [e]
    exact ((hK₀.page pa hpa).free hm).2

/-! ## slots -/

theorem Undisturbed.rfl : Undisturbed g s s :=
  ⟨fun _ _ => ⟨Eq.refl _, Eq.refl _⟩, fun _ h => .inl ⟨h, Eq.refl _⟩, Eq.refl _, Eq.refl _, fun _ => Eq.refl _⟩

theorem Undisturbed.trans (h : Undisturbed g s t) (h' : Undisturbed g t u) : Undisturbed g s u := by
  refine ⟨fun q hq => ?_, fun q hq => ?_, h'.kernel.trans h.kernel, h'.pipes.trans h.pipes,
    fun f => (h'.kind f).trans (h.kind f)⟩
  · exact ⟨(h'.held q hq).1.trans (h.held q hq).1, (h'.held q hq).2.trans (h.held q hq).2⟩
  rcases h'.back q hq with ⟨ho, e⟩ | e
  · rcases h.back q ho with ⟨ho', e'⟩ | e'
    · exact .inl ⟨ho', e.trans e'⟩
    · exact .inr (e.trans e')
  · exact .inr e

theorem Undisturbed.left {f : Ledger} (h : Undisturbed (f + g) s t) : Undisturbed f s t :=
  ⟨fun q hq => h.held q (Multiset.mem_add.mpr (.inl hq)), h.back, h.kernel, h.pipes, h.kind⟩

theorem Undisturbed.of_proc (ho : t.out = s.out) (hp : t.proc = s.proc) (hk : t.kernel = s.kernel)
    (hpi : t.pipes = s.pipes) (hkind : ∀ f, (t.ftable f).kind = (s.ftable f).kind) : Undisturbed g s t :=
  ⟨fun q _ => ⟨congrFun ho q, congrFun hp q⟩,
    fun q h => .inl ⟨(congrFun ho q).symm.trans h, congrFun hp q⟩, hk, hpi, hkind⟩

theorem Undisturbed.setOut {q : Slot} {b : Bool} {x : Proc} (hq : Token.slot q ∉ g)
    (hx : b = false → x = Proc.free) : Undisturbed g s (s.setOut q b x) := by
  refine ⟨fun j hj => ?_, fun j hj => ?_, Eq.refl _, Eq.refl _, fun _ => Eq.refl _⟩
  · have hne : j ≠ q := fun e => hq (e ▸ hj)
    exact ⟨update_of_ne hne _ _, update_of_ne hne _ _⟩
  by_cases e : j = q
  · rw [e] at hj ⊢
    have hb : update s.out q b q = false := hj
    rw [update_self] at hb
    exact .inr ((update_self _ _ _).trans (hx hb))
  · have hb : update s.out q b j = false := hj
    rw [update_of_ne e] at hb
    exact .inl ⟨hb, update_of_ne e _ _⟩

end

/-! ## the discipline -/

/-- threads that may leave references behind and write to pages of their own only -/
def strictMode : Mode := ⟨true, true⟩

def exactMachine (k₀ : Kmem) (R₀ : Ledger) : Discipline where
  sem := unblocked (sem L)
  Inv s r := Inv L strictMode s r true ∧ Exact L k₀ R₀ s.kmem (r + stored s)
  keeps g s s' := Kept g s s' ∧ Undisturbed g s s'
  keeps_refl _ _ := ⟨Keeps.rfl (m := strictMode) rfl, Undisturbed.rfl⟩
  keeps_trans _ _ _ _ h h' :=
    ⟨Keeps.trans (m := strictMode) (fun _ => h.1) (fun _ => h'.1) rfl, h.2.trans h'.2⟩
  keeps_left _ _ _ _ h := ⟨Keeps.left (m := strictMode) (fun _ => h.1) rfl, h.2.left⟩
  pages := pages
  gain := gain
  loss := loss
  owes := owes
  owes_none _ _ h q := owes_none h q
  fatal _ := True

section
variable {L} {k₀ : Kmem} {R₀ B r : Ledger} {o : Op} {P : o.Res → Ledger → Prop}

/-- a rule of `machine` whose action happens at once and keeps the accounts -/
theorem Acts.exact (h : Acts (machine L strictMode true) B o r P)
    (hnext : ∀ g s, B ≤ g → Inv L strictMode s (r + g) true → ∃ y, sem L o s = .next y)
    (hex : ∀ g s x s' r', B ≤ g → Inv L strictMode s (r + g) true → sem L o s = .next (x, s') →
      pages r' + loss o x = pages r + gain o x → Exact L k₀ R₀ s.kmem (r + g + stored s) →
      Exact L k₀ R₀ s'.kmem (r' + g + stored s'))
    (hset : ∀ g s x s', Inv L strictMode s (r + g) true → sem L o s = .next (x, s') → Undisturbed g s s') :
    Acts (exactMachine L k₀ R₀) B o r P := by
  refine ⟨fun f s hs => ⟨fun msg _ e => ?_, fun x s' hx => ?_⟩, h.calm⟩
  · obtain ⟨y, hy⟩ := hnext (B + f) s (Multiset.le_add_right B f) hs.1
    have e' := (unblocked_next.mpr hy).symm.trans e
    cases e'
  · have hx' := unblocked_next.mp hx
    obtain ⟨r', hP, hi, hk, hp⟩ := (h.does f s hs.1).2 x s' hx'
    exact ⟨r', hP, ⟨hi, hex (B + f) s x s' r' (Multiset.le_add_right B f) hs.1 hx' hp hs.2⟩,
      ⟨hk rfl, hset (B + f) s x s' hs.1 hx'⟩, hp⟩

/-- what an action leaves alone that only touches memory, parents or counters of files -/
structure Quiet (s s' : Sys) : Prop where
  ref : s'.kmem.ref = s.kmem.ref
  freelist : s'.kmem.freelist = s.kmem.freelist
  out : s'.out = s.out
  proc : s'.proc = s.proc
  kernel : s'.kernel = s.kernel
  pipes : s'.pipes = s.pipes
  kind : ∀ f, (s'.ftable f).kind = (s.ftable f).kind

theorem Acts.quiet (h : Acts (machine L strictMode true) B o r P)
    (hnext : ∀ g s, B ≤ g → Inv L strictMode s (r + g) true → ∃ y, sem L o s = .next y)
    (hg : ∀ x, gain o x = 0) (hl : ∀ x, loss o x = 0)
    (hs : ∀ s x s', sem L o s = .next (x, s') → Quiet s s') : Acts (exactMachine L k₀ R₀) B o r P := by
  refine Acts.exact h hnext (fun g s x s' r' _ _ hx hp he => ?_) fun g s x s' _ hx => ?_
  · have hq := hs s x s' hx
    refine he.congr hq.ref hq.freelist ?_
    have hst : stored s' = stored s := by
      unfold stored slotTok
      rw [hq.out, hq.proc, hq.kernel, hq.pipes]
    rw [hg, hl, add_zero, add_zero] at hp
    rw [hst, map_add, map_add, map_add, map_add, hp]
  · have hq := hs s x s' hx
    exact Undisturbed.of_proc hq.out hq.proc hq.kernel hq.pipes hq.kind

variable {a n : Nat} {g : Ledger} {s : Sys}

theorem touch_ram {α : Type} {x : α} (h : ram a n) : touch a n x = .next x := if_pos h

theorem Layout.Page.ram {pa : Nat} (h : L.Page pa) (h1 : pa ≤ a) (h2 : a + n ≤ pa + PGSIZE) : ram a n := by
  have h3 := h.le
  have h4 := L.kernbase_le
  have h5 := L.trampoline_lt
  have h6 := h.1
  have h7 := h.2.2
  have h8 : PHYSTOP % PGSIZE = 0 := by decide
  refine ⟨by omega, ?_⟩
  simp only [PGSIZE] at *
  omega

theorem readable_ram (hi : Inv L strictMode s (r + g) true) (hB : B ≤ g)
    (h : Readable (r + B) a n) : ram a n := by
  obtain ⟨t, ht, pa, hp, h1, h2⟩ := h
  have hmem : t ∈ r + g + stored s :=
    Multiset.mem_add.mpr (.inl (Multiset.mem_of_le (add_le_add_right hB r) ht))
  have hpa : pa ∈ t.pageOf := by
    rcases hp with rfl | rfl <;> exact Multiset.mem_singleton_self pa
  exact (hi.kmem.owned pa (mem_pages_of_mem hmem hpa)).ram h1 h2

theorem private_ram (hi : Inv L strictMode s (r + g) true) (h : Private r a n) : ram a n := by
  obtain ⟨pa, hp, h1, h2⟩ := h
  exact readable_ram hi le_rfl ⟨_, Multiset.mem_add.mpr (.inl hp), pa, .inl rfl, h1, h2⟩

theorem slot_notMem {q : Slot} {sh : Bool} (h : SInv L s (r + g) sh)
    (hq : s.out q = false ∨ Token.slot q ∈ r) : Token.slot q ∉ g := by
  intro hm
  have h1 := h.out q
  have h2 := Multiset.count_pos.mpr hm
  rw [Multiset.count_add] at h1
  rcases hq with hq | hq
  · rw [hq] at h1
    simp only [Bool.false_eq_true, if_false] at h1
    omega
  · have h3 := Multiset.count_pos.mpr hq
    split at h1 <;> omega

end

/-! ## the rules -/

section
variable {L} {k₀ : Kmem} {R₀ B r : Ledger} {pa : Nat} {q : Slot}

theorem exact_kalloc {Q : Option Nat → Ledger → Prop}
    (h1 : ∀ pa, L.Page pa → pa ∉ pages r → Q (some pa) (r + {.priv pa})) (h0 : Q none r) :
    Acts (exactMachine L k₀ R₀) B .kalloc r Q := by
  refine Acts.exact (machine_kalloc h1 h0) (fun _ _ _ _ => ⟨_, rfl⟩) (fun g s x s' r' _ hi hx hp he => ?_)
    fun g s x s' _ hx => ?_
  · have hx' : Outcome.next ((kalloc L s.kmem).1, s.setKmem (kalloc L s.kmem).2) = .next (x, s') := hx
    cases hl : s.kmem.freelist with
    | nil =>
      have e : kalloc L s.kmem = (none, s.kmem) := by simp only [kalloc, hl]
      rw [e] at hx'
      cases hx'
      have hp' : pages r' + 0 = pages r + 0 := hp
      rw [add_zero, add_zero] at hp'
      refine he.congr rfl rfl ?_
      rw [stored_setKmem, map_add, map_add, map_add, map_add, hp']
    | cons pa rest =>
      have e1 : (kalloc L s.kmem).1 = some pa := by simp only [kalloc, hl]
      rw [e1] at hx'
      cases hx'
      have hp' : pages r' + 0 = pages r + {pa} := hp
      rw [add_zero] at hp'
      refine he.kalloc hi.kmem hl (.inl rfl) ?_
      rw [stored_setKmem, map_add, map_add, map_add, map_add, map_add, hp', pages_singleton]
      show _ = _ + {pa}
      abel
  · cases hx
    exact Undisturbed.of_proc rfl rfl rfl rfl fun _ => rfl

theorem kfree_next {s : Sys} {y : Unit × Sys} (h : sem L (.kfree pa) s = .next y) :
    ∃ k', kfree L s.kmem pa = .next k' ∧ y = ((), s.setKmem k') := by
  obtain ⟨k', hk, e⟩ := map_next (h : (kfree L s.kmem pa).map _ = _)
  exact ⟨k', hk, e.symm⟩

variable {Q : Unit → Ledger → Prop} {a n : Nat}

theorem exact_kfree {t : Token} (ht : t.IsPage pa) (h : Q () r) :
    Acts (exactMachine L k₀ R₀) B (.kfree pa) (r + {t}) Q := by
  have hpage : ∀ g s, Inv L strictMode s (r + {t} + g) true → L.Page pa :=
    fun g s hi => (hi.kmem_token.count_pos (by rcases ht with rfl | rfl <;> rfl)).1
  refine Acts.exact (machine_kfree ht h) (fun g s _ hi => ?_) (fun g s x s' r' _ hi hx hp he => ?_)
    fun g s x s' _ hx => ?_
  · show ∃ y, (kfree L s.kmem pa).map _ = .next y
    rw [kfree_page (hpage g s hi)]
    split <;> exact ⟨_, rfl⟩
  · obtain ⟨k', hk, e⟩ := kfree_next hx
    cases e
    have hp' : pages r' + {pa} = pages (r + {t}) + 0 := hp
    rw [add_zero] at hp'
    refine he.kfree hi.kmem (hpage g s hi) hk ht ?_
    rw [stored_setKmem, map_add, map_add, ← hp', map_add _ _ ({t} : Ledger), map_add, map_add, ht.pages]
    abel
  · obtain ⟨k', hk, e⟩ := kfree_next hx
    cases e
    exact Undisturbed.of_proc rfl rfl rfl rfl fun _ => rfl

theorem exact_inckref (hu : Token.user pa ∈ r + B)
    (h : Q () (r + {.user pa})) : Acts (exactMachine L k₀ R₀) B (.inckref pa) r Q := by
  refine Acts.exact (machine_inckref hu h) (fun _ _ _ _ => ⟨_, rfl⟩) (fun g s x s' r' hB hi hx hp he => ?_)
    fun g s x s' _ hx => ?_
  · cases hx
    have hp' : pages r' + 0 = pages r + {pa} := hp
    rw [add_zero] at hp'
    have hu' : Token.user pa ∈ r + g + stored s :=
      Multiset.mem_add.mpr (.inl (Multiset.mem_of_le (add_le_add_right hB r) hu))
    have hmem := mem_pages_of_mem hu' (Multiset.mem_singleton_self pa)
    refine he.inckref hi.kmem hmem (.inr rfl) ?_
    rw [stored_setKmem, map_add, map_add, map_add, map_add, map_add, hp', pages_singleton]
    show _ = _ + {pa}
    abel
  · cases hx
    exact Undisturbed.of_proc rfl rfl rfl rfl fun _ => rfl

theorem exact_share (r : Ledger) (pa : Nat) :
    Shift (exactMachine L k₀ R₀) (r + {.priv pa}) (r + {.user pa}) := by
  have h : Shift (machine L strictMode true) (r + {.priv pa}) (r + {.user pa}) := machine_share r pa
  obtain ⟨hp, hi⟩ := h
  refine ⟨hp, fun f s hs => ⟨hi f s hs.1, hs.2.congr rfl rfl ?_⟩⟩
  have hp' : pages (r + {.priv pa}) = pages (r + {.user pa}) := hp
  rw [map_add, map_add _ (r + {.user pa}), ← hp', ← map_add, ← map_add]

theorem exact_memset {c : Byte} (hp : Private r a n) (h : Q () r) :
    Acts (exactMachine L k₀ R₀) B (.memset a n c) r Q := by
  refine Acts.quiet (machine_memset (fun _ => hp) h) (fun g s _ hi => ⟨_, touch_ram (private_ram hi hp)⟩)
    (fun _ => rfl) (fun _ => rfl) fun s x s' hx => ?_
  cases touch_next hx
  exact ⟨rfl, rfl, rfl, rfl, rfl, rfl, fun _ => rfl⟩

theorem exact_write {b : Buf} (hp : Private r a n) (h : Q () r) :
    Acts (exactMachine L k₀ R₀) B (.write a n b) r Q := by
  refine Acts.quiet (machine_write (fun _ => hp) h) (fun g s _ hi => ⟨_, touch_ram (private_ram hi hp)⟩)
    (fun _ => rfl) (fun _ => rfl) fun s x s' hx => ?_
  cases touch_next hx
  exact ⟨rfl, rfl, rfl, rfl, rfl, rfl, fun _ => rfl⟩

theorem exact_memmove {dst src : Nat} (hp : Private r dst n)
    (hr : Readable (r + B) src n) (h : Q () r) : Acts (exactMachine L k₀ R₀) B (.memmove dst src n) r Q := by
  refine Acts.quiet (machine_memmove (fun _ => hp) h) (fun g s hB hi => ?_) (fun _ => rfl) (fun _ => rfl)
    fun s x s' hx => ?_
  · show ∃ y, (if ram src n then touch dst n _ else _) = .next y
    rw [if_pos (readable_ram hi hB hr)]
    exact ⟨_, touch_ram (private_ram hi hp)⟩
  · have hx' : (if ram src n then touch dst n _ else Outcome.panic "kerneltrap") = .next (x, s') := hx
    split at hx'
    · cases touch_next hx'
      exact ⟨rfl, rfl, rfl, rfl, rfl, rfl, fun _ => rfl⟩
    · cases hx'

theorem exact_read {Q : Buf → Ledger → Prop} (hr : Readable (r + B) a n) (h : ∀ b, Q b r) :
    Acts (exactMachine L k₀ R₀) B (.read a n) r Q := by
  refine Acts.quiet (machine_read h) (fun g s hB hi => ⟨_, touch_ram (readable_ram hi hB hr)⟩) (fun _ => rfl)
    (fun _ => rfl) fun s x s' hx => ?_
  cases touch_next hx
  exact ⟨rfl, rfl, rfl, rfl, rfl, rfl, fun _ => rfl⟩

theorem exact_claim {Q : Bool → Ledger → Prop} (h1 : Q true (r + {.slot q})) (h0 : Q false r) :
    Acts (exactMachine L k₀ R₀) B (.claim q) r Q := by
  have hsem : ∀ s x s', sem L (.claim q) s = .next (x, s') →
      s' = s ∨ ((s.proc q).state = .unused ∧ s' = s.setOut q true Proc.locked) := by
    intro s x s' hx
    have hx' : s.claim q = .next (x, s') := hx
    unfold Sys.claim at hx'
    split at hx'
    · rename_i hst
      cases hx'
      exact .inr ⟨hst, rfl⟩
    · cases hx'
      exact .inl rfl
  refine Acts.exact (machine_claim h1 h0) (fun g s _ _ => ?_) (fun g s x s' r' _ hi hx hp he => ?_)
    fun g s x s' hi hx => ?_
  · show ∃ y, s.claim q = .next y
    unfold Sys.claim
    split <;> exact ⟨_, rfl⟩
  · have hp' : pages r' + 0 = pages r + 0 := hp
    rw [add_zero, add_zero] at hp'
    have hst : stored s' = stored s := by
      rcases hsem s x s' hx with rfl | ⟨hun, rfl⟩
      · rfl
      have hout := hi.slots.unused q hun
      have := stored_setOut (s := s) (q := q) (b := true) (x := Proc.locked)
      rw [if_pos rfl, add_zero, slotTok, hout] at this
      rw [← this]
      show _ = _ + recTok (s.proc q)
      rw [(hi.slots.ok q hout).empty (.inl hun), add_zero]
    have hk : s'.kmem = s.kmem := by
      rcases hsem s x s' hx with rfl | ⟨-, rfl⟩ <;> rfl
    refine he.congr (by rw [hk]) (by rw [hk]) ?_
    rw [hst, map_add, map_add, map_add, map_add, hp']
  · rcases hsem s x s' hx with rfl | ⟨hun, rfl⟩
    · exact Undisturbed.rfl
    · exact Undisturbed.setOut (slot_notMem hi.slots (.inl (hi.slots.unused q hun))) fun e => by cases e

theorem exact_putback {x : Proc} (hx : RecOk L x true) (hm : x = Proc.free)
    (h : Q () r) : Acts (exactMachine L k₀ R₀) B (.putback q x) (r + {.slot q} + recTok x) Q := by
  refine Acts.exact (machine_putback hx (fun _ => hm) h) (fun _ _ _ _ => ⟨_, rfl⟩)
    (fun g s u s' r' _ hi hu hp he => ?_) fun g s u s' hi hu => ?_
  · cases hu
    obtain ⟨-, hst⟩ := hi.giveBack hx
    have hp' : pages r' + pages (recTok x) = pages (r + {.slot q} + recTok x) + 0 := hp
    rw [add_zero] at hp'
    refine he.congr rfl rfl ?_
    rw [hst, map_add, map_add, map_add _ (stored s), map_add, map_add, ← hp']
    abel
  · cases hu
    refine Undisturbed.setOut (slot_notMem hi.slots (.inr ?_)) fun _ => hm
    exact Multiset.mem_add.mpr (.inl (Multiset.mem_add.mpr (.inr (Multiset.mem_singleton_self _))))

theorem exact_filedup {f : FileNo} (hf : Token.file f ∈ r + B)
    (h : Q () (r + {.file f})) : Acts (exactMachine L k₀ R₀) B (.filedup f) r Q := by
  refine Acts.quiet (machine_filedup h) (fun g s hB hi => ?_) (fun _ => rfl) (fun _ => rfl) fun s x s' hx => ?_
  · have hmem : Token.file f ∈ r + g + stored s :=
      Multiset.mem_add.mpr (.inl (Multiset.mem_of_le (add_le_add_right hB r) hf))
    have hin : (f, false) ∈ refs (r + g + stored s) :=
      Multiset.mem_bind.mpr ⟨_, hmem, Multiset.mem_singleton_self _⟩
    have href : ¬ (s.ftable f).ref < 1 := by
      have h1 := hi.files.ref f
      have h2 := Multiset.count_pos.mpr hin
      omega
    show ∃ y, (s.filedup f).map _ = .next y
    rw [Sys.filedup, if_neg href]
    exact ⟨_, rfl⟩
  · have hx' : (s.filedup f).map (fun s' => ((), s')) = .next (x, s') := hx
    unfold Sys.filedup at hx'
    split at hx'
    · cases hx'
    cases hx'
    refine ⟨rfl, rfl, rfl, rfl, rfl, rfl, fun j => ?_⟩
    show (update s.ftable f _ j).kind = _
    by_cases e : j = f
    · rw [e, update_self]
    · rw [update_of_ne e]

end

instance (k₀ : Kmem) (R₀ : Ledger) : Lawful L strictMode true true (exactMachine L k₀ R₀) where
  fatal _ _ := .inr rfl
  shaped _ := rfl
  strict _ := rfl
  kalloc := exact_kalloc
  kfree := exact_kfree
  inckref := exact_inckref
  share := exact_share
  memset hp h := exact_memset (hp rfl) h
  memmove hp hr h := exact_memmove (hp rfl) (hr rfl) h
  write hp h := exact_write (hp rfl) h
  read hr h := exact_read (hr rfl) h
  claim := exact_claim
  putback hx hm h := exact_putback hx (hm rfl) h
  setParent h := Acts.quiet (machine_setParent h) (fun _ _ _ _ => ⟨_, rfl⟩) (fun _ => rfl) (fun _ => rfl)
    fun s x s' hx => by
      cases hx
      exact ⟨rfl, rfl, rfl, rfl, rfl, rfl, fun _ => rfl⟩
  filedup hf h := exact_filedup (hf rfl) h

/-! ## programs that run alone -/

section
variable {L} {α : Type} {prog : Kernel α} {k₀ : Kmem} {R₀ B r f : Ledger} {s t : Sys} {a : α}
  {Q : α → Ledger → Prop}

theorem exact_run (h : Safe (exactMachine L k₀ R₀) B prog r Q) (hs : Inv L strictMode s (r + (B + f)) true)
    (he : Exact L k₀ R₀ s.kmem (r + (B + f) + stored s)) (hr : prog.run (sem L) s = .next (a, t)) :
    ∃ r', Q a r' ∧ Inv L strictMode t (r' + (B + f)) true ∧ Exact L k₀ R₀ t.kmem (r' + (B + f) + stored t) ∧
      Kept (B + f) s t ∧ Undisturbed (B + f) s t := by
  obtain ⟨r', hq, ⟨hi, hex⟩, hk, hu⟩ := h.run ⟨hs, he⟩ (run_unblocked.mpr hr)
  exact ⟨r', hq, hi, hex, hk, hu⟩

theorem exact_returns (h : Safe (exactMachine L k₀ R₀) B prog r Q)
    (hs : Inv L strictMode s (r + (B + f)) true) (he : Exact L k₀ R₀ s.kmem (r + (B + f) + stored s)) :
    ∃ a t, prog.run (sem L) s = .next (a, t) := by
  obtain ⟨a, t, hr⟩ := h.returns (fun _ => trivial) (fun _ _ => unblocked_ne_blocked) ⟨hs, he⟩
  exact ⟨a, t, run_unblocked.mp hr⟩

end

end Vm
