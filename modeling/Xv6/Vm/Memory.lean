import Xv6.Lib.Bytes
import Xv6.Lib.Run
import Mathlib.Data.List.Nodup
import Mathlib.Logic.Function.Basic

/-!
# Physical memory and its allocator (`kernel/memlayout.h`, `kernel/riscv.h`, `kernel/kalloc.c`)

Addresses are natural numbers.  The chain of free pages is a list, with the page `kmem.freelist`
points to first.  The counters `kref.ref` are natural numbers, where a decrement of 0 wraps as it
does in a `uint64`; they count references, so they do not reach `2 ^ 64` from below.

* `Layout`             the addresses the linker chooses;
* `Layout.Page`        the pages that `kinit` hands to the allocator;
* `refindex_inj`       each of them has a counter of its own;
* `kinit_next`         the allocator after `kinit`.
-/

namespace Vm
open Run Bytes List

def PGSIZE : Nat := 4096

/-- `MAXVA`, one bit less than Sv39 allows -/
def MAXVA : Nat := 2 ^ 38

def TRAMPOLINE : Nat := MAXVA - PGSIZE

def TRAPFRAME : Nat := TRAMPOLINE - PGSIZE

def KERNBASE : Nat := 0x80000000

def PHYSTOP : Nat := KERNBASE + 128 * 1024 * 1024

def PGROUNDUP (sz : Nat) : Nat := (sz + PGSIZE - 1) / PGSIZE * PGSIZE

def PGROUNDDOWN (a : Nat) : Nat := a / PGSIZE * PGSIZE

/-- `end` and `trampoline` of `kernel.ld` -/
structure Layout where
  kend : Nat
  trampoline : Nat
  kernbase_le : KERNBASE ≤ trampoline
  trampoline_aligned : trampoline % PGSIZE = 0
  trampoline_lt : trampoline + PGSIZE ≤ kend
  kend_le : kend ≤ PHYSTOP

variable (L : Layout)

/-- a page of the allocator -/
def Layout.Page (pa : Nat) : Prop := pa % PGSIZE = 0 ∧ PGROUNDUP L.kend ≤ pa ∧ pa < PHYSTOP

instance (pa : Nat) : Decidable (L.Page pa) := inferInstanceAs (Decidable (_ ∧ _ ∧ _))

/-- `refindex`, in the arithmetic of `uint64` -/
@[irreducible]
def refindex (pa : Nat) : Nat := (PGROUNDDOWN pa + 2 ^ 64 - L.kend) % 2 ^ 64 / PGSIZE

variable {L}

variable {pa : Nat}

theorem Layout.Page.le (h : L.Page pa) : L.kend ≤ pa := by
  have h1 := h.2.1
  simp only [PGROUNDUP, PGSIZE] at h1
  omega

theorem Layout.Page.rounddown (h : L.Page pa) : PGROUNDDOWN pa = pa := by
  have h1 := h.1
  simp only [PGROUNDDOWN, PGSIZE] at h1 ⊢
  omega

theorem Layout.Page.ne_trampoline (h : L.Page pa) : pa ≠ L.trampoline := by
  have h1 := h.le
  have h2 := L.trampoline_lt
  have h3 : 0 < PGSIZE := by decide
  omega

theorem refindex_page (h : L.Page pa) : refindex L pa = (pa - L.kend) / PGSIZE := by
  have h1 := h.le
  have h2 := h.2.2
  have h3 : PHYSTOP < 2 ^ 64 := by decide
  rw [refindex, h.rounddown]
  congr 1
  omega

theorem refindex_inj {pb : Nat} (ha : L.Page pa) (hb : L.Page pb)
    (h : refindex L pa = refindex L pb) : pa = pb := by
  rw [refindex_page ha, refindex_page hb] at h
  have h1 := ha.le
  have h2 := hb.le
  have h3 := ha.1
  have h4 := hb.1
  simp only [PGSIZE] at h h3 h4
  omega

/-! ## `kalloc.c` -/

structure Kmem where
  freelist : List Nat
  ref : Nat → Nat
  mem : Nat → Byte

/-- `n - 1` of a `uint64` -/
def dec64 (n : Nat) : Nat := if n = 0 then 2 ^ 64 - 1 else n - 1

variable (L)

def Kmem.setRef (k : Kmem) (pa n : Nat) : Kmem :=
  { k with ref := Function.update k.ref (refindex L pa) n }

def Kmem.refOf (k : Kmem) (pa : Nat) : Nat := k.ref (refindex L pa)

def Kmem.memset (k : Kmem) (a n : Nat) (c : Byte) : Kmem :=
  { k with mem := splice k.mem a n fun _ => c }

def kfree (k : Kmem) (pa : Nat) : Outcome Kmem :=
  if pa % PGSIZE ≠ 0 ∨ pa < L.kend ∨ pa ≥ PHYSTOP then .panic "kfree"
  else if k.refOf L pa > 1 then .next (k.setRef L pa (k.refOf L pa - 1))
  else .next { (k.setRef L pa (dec64 (k.refOf L pa))).memset pa PGSIZE 1 with
    freelist := pa :: k.freelist }

def inckref (k : Kmem) (pa : Nat) : Kmem := k.setRef L pa (k.refOf L pa + 1)

def deckref (k : Kmem) (pa : Nat) : Kmem := k.setRef L pa (dec64 (k.refOf L pa))

def kalloc (k : Kmem) : Option Nat × Kmem :=
  match k.freelist with
  | [] => (none, k)
  | r :: next =>
    (some r, ({ k with freelist := next }.setRef L r (k.refOf L r + 1)).memset r PGSIZE 5)

/-- the pages from `PGROUNDUP(end)` to `PHYSTOP`, in the order of the loops of `kinit` -/
def Layout.pages : List Nat :=
  (List.range ((PHYSTOP - PGROUNDUP L.kend) / PGSIZE)).map fun i => PGROUNDUP L.kend + i * PGSIZE

def freerange (k : Kmem) : List Nat → Outcome Kmem
  | [] => .next k
  | p :: ps =>
    match kfree L k p with
    | .next k' => freerange k' ps
    | o => o

def krefinit (k : Kmem) (ps : List Nat) : Kmem := ps.foldl (fun k p => k.setRef L p 0) k

/-- `kinit` on zeroed kernel data and memory with contents `mem` -/
def kinit (mem : Nat → Byte) : Outcome Kmem :=
  match freerange L ⟨[], fun _ => 0, mem⟩ L.pages with
  | .next k => .next (krefinit L k L.pages)
  | o => o

variable {L}

/-! ## counters -/

variable {k : Kmem}

theorem refOf_setRef {n : Nat} : (k.setRef L pa n).refOf L pa = n :=
  Function.update_self _ _ _

theorem refOf_setRef_ne {pb n : Nat} (ha : L.Page pa) (hb : L.Page pb) (h : pb ≠ pa) :
    (k.setRef L pa n).refOf L pb = k.refOf L pb :=
  Function.update_of_ne (fun e : refindex L pb = refindex L pa => h (refindex_inj hb ha e)) _ _

theorem kfree_page (h : L.Page pa) :
    kfree L k pa = if k.refOf L pa > 1 then .next (k.setRef L pa (k.refOf L pa - 1))
      else .next { (k.setRef L pa (dec64 (k.refOf L pa))).memset pa PGSIZE 1 with
        freelist := pa :: k.freelist } := by
  rw [kfree, if_neg]
  have h1 := h.1
  have h2 := h.le
  have h3 := h.2.2
  omega

/-! ## `kinit` -/

theorem mem_pages : pa ∈ L.pages ↔ L.Page pa := by
  have hP : PHYSTOP % PGSIZE = 0 := by decide
  have hup : PGROUNDUP L.kend % PGSIZE = 0 := Nat.mul_mod_left _ _
  simp only [Layout.pages, mem_map, mem_range, Layout.Page]
  generalize PGROUNDUP L.kend = up at hup ⊢
  simp only [PGSIZE] at hP hup ⊢
  constructor
  · rintro ⟨i, hi, rfl⟩
    omega
  · rintro ⟨h1, h2, h3⟩
    exact ⟨(pa - up) / 4096, by omega, by omega⟩

theorem nodup_pages : L.pages.Nodup := by
  refine List.Nodup.map ?_ nodup_range
  intro i j h
  simp only [PGSIZE] at h
  omega

theorem freerange_next {ps : List Nat} (hp : ∀ p ∈ ps, L.Page p) (hn : ps.Nodup) (k : Kmem)
    (h0 : ∀ p ∈ ps, k.refOf L p = 0) :
    ∃ k', freerange L k ps = .next k' ∧ k'.freelist = ps.reverse ++ k.freelist := by
  induction ps generalizing k with
  | nil => exact ⟨k, rfl, rfl⟩
  | cons p ps ih =>
    have hpage : L.Page p := hp p mem_cons_self
    have hps : ∀ q ∈ ps, L.Page q := fun q hq => hp q (mem_cons_of_mem _ hq)
    obtain ⟨hnot, hn'⟩ := nodup_cons.mp hn
    have hz : k.refOf L p = 0 := h0 p mem_cons_self
    obtain ⟨k', hk', hl⟩ := ih hps hn'
      { (k.setRef L p (dec64 (k.refOf L p))).memset p PGSIZE 1 with freelist := p :: k.freelist }
      (fun q hq => by
        have hne : q ≠ p := fun e => hnot (e ▸ hq)
        show (k.setRef L p _).refOf L q = 0
        rw [refOf_setRef_ne hpage (hps q hq) hne]
        exact h0 q (mem_cons_of_mem _ hq))
    refine ⟨k', ?_, ?_⟩
    · rwa [freerange, kfree_page hpage, if_neg (by omega)]
    · rw [hl, reverse_cons, append_assoc]
      rfl

theorem freelist_krefinit (k : Kmem) (ps : List Nat) :
    (krefinit L k ps).freelist = k.freelist := by
  induction ps generalizing k with
  | nil => rfl
  | cons p ps ih => exact ih (k.setRef L p 0)

theorem refOf_krefinit {ps : List Nat} (hp : ∀ p ∈ ps, L.Page p) (k : Kmem)
    (ha : L.Page pa) (h : pa ∈ ps ∨ k.refOf L pa = 0) : (krefinit L k ps).refOf L pa = 0 := by
  induction ps generalizing k with
  | nil => exact h.resolve_left not_mem_nil
  | cons p ps ih =>
    refine ih (fun q hq => hp q (mem_cons_of_mem _ hq)) (k.setRef L p 0) ?_
    by_cases e : pa = p
    · right
      rw [e, refOf_setRef]
    · rcases h with h | h
      · exact .inl ((mem_cons.mp h).resolve_left e)
      · right
        rw [refOf_setRef_ne (hp p mem_cons_self) ha e, h]

theorem kinit_next (mem : Nat → Byte) : ∃ k, kinit L mem = .next k ∧
    k.freelist = L.pages.reverse ∧ ∀ pa, L.Page pa → k.refOf L pa = 0 := by
  have hp : ∀ p ∈ L.pages, L.Page p := fun p h => mem_pages.mp h
  obtain ⟨k, hk, hl⟩ := freerange_next hp nodup_pages ⟨[], fun _ => 0, mem⟩ fun _ _ => rfl
  refine ⟨krefinit L k L.pages, ?_, ?_, fun pa ha => ?_⟩
  · rw [kinit, hk]
  · rw [freelist_krefinit, hl, append_nil]
  · exact refOf_krefinit hp k ha (.inl (mem_pages.mpr ha))

end Vm
