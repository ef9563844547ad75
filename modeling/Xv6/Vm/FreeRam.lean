import Xv6.Vm.System
import Mathlib.Data.List.Perm.Subperm

/-!
# The free memory that `sysinfo` reports (`kernel/kalloc.c`)

`calculate_free_ram` looks one page ahead: it follows `page->next` before it knows that there is a
page, and it does not count the last one.

* `freeRamLoop_cons`   what the loop adds up;
* `freeRam_reported`   in every state that can be reached it reports one page less than is free, and
                       reads through a null pointer when none is.
-/

namespace Vm
open Run Bytes List

variable {L : Layout} {c : Config} {k : Kmem}

/-- `while (page->next != 0)`, where `page` points to the first page of the chain; a null `page` is
read at address 0, which the kernel does not map -/
def freeRamLoop : (page : List Nat) → (freeBytes : BitVec 32) → Outcome (BitVec 32)
  | [], _ => .panic "kerneltrap"
  | [_], freeBytes => .next freeBytes
  | _ :: p :: next, freeBytes => freeRamLoop (p :: next) (freeBytes + BitVec.ofNat 32 PGSIZE)

def calculateFreeRam (k : Kmem) : Outcome (BitVec 32) := freeRamLoop k.freelist 0

/-- `calculate_free_ram` returns `v` -/
def Reports (k : Kmem) (v : Int) : Prop := ∃ b, calculateFreeRam k = .next b ∧ b.toInt = v

/-- `calculate_free_ram` changes by `d` from one state to the other -/
def ReportChanges (k k' : Kmem) (d : Int) : Prop := ∃ v, Reports k v ∧ Reports k' (v + d)

theorem freeRamLoop_cons (p : Nat) (next : List Nat) (b : BitVec 32) :
    freeRamLoop (p :: next) b = .next (b + BitVec.ofNat 32 (PGSIZE * next.length)) := by
  induction next generalizing p b with
  | nil =>
    rw [freeRamLoop, length_nil, Nat.mul_zero, BitVec.add_zero]
  | cons q next ih =>
    rw [freeRamLoop, ih, length_cons, Nat.mul_succ, Nat.add_comm, BitVec.ofNat_add, BitVec.add_assoc]

theorem not_reports_nil (h : k.freelist = []) (v : Int) : ¬ Reports k v := by
  rintro ⟨b, hb, -⟩
  unfold calculateFreeRam at hb
  rw [h] at hb
  cases hb

/-- as many pages as there is memory for -/
def fewPages (k : Kmem) : Prop := k.freelist.length ≤ 2 ^ 15

theorem reports_iff (hf : fewPages k) (h : k.freelist ≠ []) (v : Int) :
    Reports k v ↔ v + PGSIZE = PGSIZE * k.freelist.length := by
  obtain ⟨p, next, hp⟩ := exists_cons_of_ne_nil h
  have hl : k.freelist.length = next.length + 1 := by rw [hp, length_cons]
  have hv : (BitVec.ofNat 32 (PGSIZE * next.length)).toInt = PGSIZE * next.length := by
    unfold fewPages at hf
    rw [BitVec.toInt_ofNat', Int.bmod_eq_of_le]
    · simp
    · simp only [PGSIZE]
      omega
    · simp only [PGSIZE]
      omega
  have hc : calculateFreeRam k = .next (BitVec.ofNat 32 (PGSIZE * next.length)) := by
    rw [calculateFreeRam, hp, freeRamLoop_cons]
    exact congrArg Outcome.next (BitVec.zero_add _)
  have he : (v + PGSIZE = PGSIZE * k.freelist.length) ↔ (PGSIZE * next.length : Int) = v := by
    rw [hl, Nat.cast_add, Nat.cast_one, mul_add, mul_one]
    omega
  rw [he]
  constructor
  · rintro ⟨b, hb, rfl⟩
    cases Outcome.next.inj (hc.symm.trans hb)
    exact hv.symm
  · rintro rfl
    exact ⟨_, hc, hv⟩

theorem pages_length : L.pages.length < 2 ^ 15 := by
  have h1 := L.kernbase_le
  have h2 := L.trampoline_lt
  have h3 : PGSIZE = 4096 := rfl
  have h4 : PHYSTOP = KERNBASE + 134217728 := rfl
  rw [Layout.pages, length_map, length_range, PGROUNDUP, h3, h4]
  omega

theorem freelist_length (hn : k.freelist.Nodup) (hp : ∀ pa ∈ k.freelist, L.Page pa) :
    k.freelist.length < 2 ^ 15 :=
  Nat.lt_of_le_of_lt (subperm_of_subset hn fun _ h => mem_pages.mpr (hp _ h)).length_le pages_length

theorem kalloc_freelist : (kalloc L k).2.freelist = k.freelist.tail := by
  unfold kalloc
  split
  · next h => rw [h, tail_nil]
  · next h => rw [h, tail_cons]; rfl

theorem kfree_last {pa : Nat} {k' : Kmem} (hp : L.Page pa) (hr : k.refOf L pa = 1)
    (h : kfree L k pa = .next k') : k'.freelist = pa :: k.freelist := by
  rw [kfree_page hp, if_neg (by omega)] at h
  cases h
  rfl

theorem kalloc_changes (hf : fewPages k) :
    ReportChanges k (kalloc L k).2 (-PGSIZE) ↔ 2 ≤ k.freelist.length := by
  have hlen : (kalloc L k).2.freelist.length = k.freelist.length - 1 := by
    rw [kalloc_freelist, length_tail]
  have hf' : fewPages (kalloc L k).2 := by
    unfold fewPages at hf ⊢
    omega
  constructor
  · rintro ⟨v, hv, hv'⟩
    by_contra hlt
    refine not_reports_nil (length_eq_zero_iff.mp ?_) _ hv'
    omega
  · intro h2
    have h : k.freelist ≠ [] := fun e => by rw [e] at h2; exact absurd h2 (by decide)
    have h' : (kalloc L k).2.freelist ≠ [] := fun e => by rw [e, length_nil] at hlen; omega
    refine ⟨PGSIZE * k.freelist.length - PGSIZE, (reports_iff hf h _).mpr (by omega),
      (reports_iff hf' h' _).mpr ?_⟩
    rw [hlen, Nat.cast_sub (by omega), Nat.cast_one, mul_sub, mul_one]
    omega

theorem kfree_changes {pa : Nat} {k' : Kmem} (hf : k.freelist.length < 2 ^ 15)
    (hk : k'.freelist = pa :: k.freelist) : ReportChanges k k' PGSIZE ↔ k.freelist ≠ [] := by
  have hlen : k'.freelist.length = k.freelist.length + 1 := by rw [hk, length_cons]
  have hf' : fewPages k' := by
    unfold fewPages
    omega
  constructor
  · rintro ⟨v, hv, -⟩ e
    exact not_reports_nil e v hv
  intro h
  refine ⟨PGSIZE * k.freelist.length - PGSIZE, (reports_iff (Nat.le_of_lt hf) h _).mpr (by omega),
    (reports_iff hf' (hk ▸ cons_ne_nil _ _) _).mpr ?_⟩
  rw [hlen, Nat.cast_add, Nat.cast_one, mul_add, mul_one]
  omega

/-- **The reported free memory.**  In no state that can be reached is it the size of the free pages:
with free pages it is the size of all but one, without it is read through a null pointer.  So a `kalloc`
lowers it by a page exactly if two pages were free, and the `kfree` of a last reference raises it by a
page exactly if one was free before. -/
theorem freeRam_reported {mem : Nat → Byte} (hk : kinit L mem = .next k) {kpages : Nat} {initcode : Buf}
    {es : List Event} (hc : Run.exec (Vm.step L) (Config.start L k kpages initcode) es = .next c) :
    ¬ Reports c.sys.kmem (PGSIZE * c.sys.kmem.freelist.length) ∧
      (c.sys.kmem.freelist ≠ [] → Reports c.sys.kmem (PGSIZE * c.sys.kmem.freelist.length - PGSIZE)) ∧
      (calculateFreeRam c.sys.kmem = .panic "kerneltrap" ↔ c.sys.kmem.freelist = []) ∧
      (ReportChanges c.sys.kmem (kalloc L c.sys.kmem).2 (-PGSIZE) ↔ 2 ≤ c.sys.kmem.freelist.length) ∧
      ∀ pa k', L.Page pa → c.sys.kmem.refOf L pa = 1 → kfree L c.sys.kmem pa = .next k' →
        (ReportChanges c.sys.kmem k' PGSIZE ↔ c.sys.kmem.freelist ≠ []) := by
  obtain ⟨r, hr⟩ := owned_run hk hc
  have hinv : Inv L ⟨true, false⟩ c.sys (∑ i, r i) := hr.inv
  have hlt := freelist_length hinv.kmem.nodup hinv.kmem.range
  have hf : fewPages c.sys.kmem := Nat.le_of_lt hlt
  refine ⟨fun h => ?_, fun h => (reports_iff hf h _).mpr (by omega), ⟨fun h => ?_, fun h => ?_⟩,
    kalloc_changes hf, fun pa k' hp hr h => kfree_changes hlt (kfree_last hp hr h)⟩
  · by_cases he : c.sys.kmem.freelist = []
    · exact not_reports_nil he _ h
    · have := (reports_iff hf he _).mp h
      have hpg : PGSIZE = 4096 := rfl
      omega
  · by_contra he
    obtain ⟨b, hb, -⟩ := (reports_iff hf he (PGSIZE * c.sys.kmem.freelist.length - PGSIZE)).mpr (by omega)
    rw [hb] at h
    cases h
  · unfold calculateFreeRam
    rw [h]
    rfl

/-- a kernel image that leaves one page -/
def lastPageLayout : Layout :=
  { smallLayout with
    kend := PHYSTOP - PGSIZE
    trampoline_lt := by decide
    kend_le := by decide }

theorem freeRam_reported_lastPage : ∃ k c, kinit lastPageLayout (fun _ => 0) = .next k ∧
    Run.exec (Vm.step lastPageLayout) (Config.start lastPageLayout k 1 fun _ => 0) [.action none] = .next c ∧
    ¬ Reports c.sys.kmem (PGSIZE * c.sys.kmem.freelist.length) := by
  obtain ⟨k, hk, h⟩ := exists_of_check (o := kinit lastPageLayout (fun _ => 0))
    (p := fun k : Kmem =>
      (Run.exec (Vm.step lastPageLayout) (Config.start lastPageLayout k 1 fun _ => 0) [.action none]).check
        (fun _ : Config => true) = true) (by decide +kernel)
  obtain ⟨c, hc, -⟩ := exists_of_check h
  exact ⟨k, c, hk, hc, (freeRam_reported hk hc).1⟩

/-- one page is free after `kinit` and `calculate_free_ram` returns 0; `kvminit` takes the page, and
`calculate_free_ram` reads through a null pointer -/
theorem freeRam_off_by_one : ∃ k c, kinit lastPageLayout (fun _ => 0) = .next k ∧
    k.freelist.length = 1 ∧ calculateFreeRam k = .next 0 ∧
    Run.exec (Vm.step lastPageLayout) (Config.start lastPageLayout k 1 fun _ => 0) [.action none] = .next c ∧
    calculateFreeRam c.sys.kmem = .panic "kerneltrap" := by
  obtain ⟨k, hk, h1, h2⟩ := exists_of_check (o := kinit lastPageLayout (fun _ => 0))
    (p := fun k : Kmem => k.freelist.length = 1 ∧
      (Run.exec (Vm.step lastPageLayout) (Config.start lastPageLayout k 1 fun _ => 0) [.action none]).check
        (fun c : Config => c.sys.kmem.freelist = []) = true) (by decide +kernel)
  obtain ⟨c, hc, hnil⟩ := exists_of_check h2
  obtain ⟨p, hp⟩ := List.length_eq_one_iff.mp h1
  refine ⟨k, c, hk, h1, ?_, hc, ?_⟩
  · rw [calculateFreeRam, hp, freeRamLoop]
  · rw [calculateFreeRam, hnil, freeRamLoop]

end Vm
