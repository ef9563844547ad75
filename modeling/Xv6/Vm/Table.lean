import Xv6.Vm.Memory
import Mathlib.Algebra.BigOperators.Group.Finset.Basic
import Mathlib.Algebra.Order.BigOperators.Group.Finset
import Mathlib.Algebra.Order.Group.Multiset
import Mathlib.Data.Fintype.Basic

/-!
# Sv39 page tables

A page-table page is a node with its address and `NPTE` entries.  A table of level `n + 1` has, for
each entry, no page-table page or one of level `n`; a table of level 0 has PTEs.  So a `Table` is a
tree whose interior entries are the ones `walk` writes: a page-table page and no flag but `PTE_V`.

* `Table.get`, `Table.put`   the PTE that `walk(pagetable, va, 0)` points to, read and written;
* `Table.leaf`               the same with an invalid PTE where there is no page-table page;
* `Table.sys`                the page-table pages;
* `Table.users`              the pages mapped below `TRAPFRAME`, one for each valid PTE;
* `leaf_put`, `sys_put`, `users_put`   what a write to one PTE changes;
* `Grown`, `Written`         what `walk(pagetable, va, 1)` and `mappages` change.
-/

namespace Vm
open Finset Function

theorem sum_change {ι M : Type} [Fintype ι] [DecidableEq ι] [AddCommMonoid M] {g g' : ι → M} {i : ι}
    {a b : M} (hne : ∀ j, j ≠ i → g' j = g j) (hi : g' i + a = g i + b) :
    ∑ j, g' j + a = ∑ j, g j + b := by
  rw [← Finset.add_sum_erase _ g' (Finset.mem_univ i), ← Finset.add_sum_erase _ g (Finset.mem_univ i),
    Finset.sum_congr rfl fun j hj => hne j (Finset.ne_of_mem_erase hj), add_right_comm, hi,
    add_right_comm]

/-! ## page-table entries -/

/-- a PTE: the page number and the ten flag bits -/
structure Pte where
  ppn : Nat
  flags : BitVec 10
  deriving DecidableEq

def PTE_V : BitVec 10 := 1

def PTE_R : BitVec 10 := 2

def PTE_W : BitVec 10 := 4

def PTE_X : BitVec 10 := 8

def PTE_U : BitVec 10 := 16

def PTE_COW : BitVec 10 := 32

namespace Pte

/-- the word 0 -/
def zero : Pte := ⟨0, 0⟩

/-- `PTE2PA` -/
def pa (p : Pte) : Nat := p.ppn * PGSIZE

/-- `*pte & f` -/
def has (p : Pte) (f : BitVec 10) : Bool := p.flags &&& f != 0

/-- `PA2PTE(pa) | perm` -/
def ofPa (pa : Nat) (perm : BitVec 10) : Pte := ⟨pa / PGSIZE, perm⟩

@[simp] theorem zero_has (f : BitVec 10) : zero.has f = false := by
  unfold has zero
  simp

@[simp] theorem ofPa_flags (a : Nat) (perm : BitVec 10) : (ofPa a perm).flags = perm := rfl

theorem ofPa_pa {a : Nat} {perm : BitVec 10} (h : a % PGSIZE = 0) : (ofPa a perm).pa = a := by
  exact Nat.div_mul_cancel (Nat.dvd_of_mod_eq_zero h)

end Pte

theorem flags_or (f g b : BitVec 10) : ((f ||| g) &&& b != 0) = ((f &&& b != 0) || (g &&& b != 0)) := by
  have hdist : (f ||| g) &&& b = f &&& b ||| g &&& b := by
    ext i
    simp [Bool.and_or_distrib_right]
  rw [hdist]
  by_cases hf : f &&& b = 0
  · rw [hf]
    exact congrArg (· != 0) BitVec.zero_or
  · have hne : f &&& b ||| g &&& b ≠ 0 := fun h => hf (BitVec.or_eq_zero_iff.mp h).1
    rw [bne_iff_ne.mpr hne, bne_iff_ne.mpr hf]
    rfl

theorem flags_keep {c b : BitVec 10} (f : BitVec 10) (h : ~~~c &&& b = b) : f &&& ~~~c &&& b = f &&& b := by
  rw [BitVec.and_assoc, h]

theorem flags_drop {c b : BitVec 10} (f : BitVec 10) (h : ~~~c &&& b = 0) : f &&& ~~~c &&& b = 0 := by
  rw [BitVec.and_assoc, h]
  exact BitVec.and_zero

/-! ## trees -/

/-- the number of PTEs in a page -/
@[irreducible]
def NPTE : Nat := 512

/-- a page-table page at the address `pa` -/
structure Node (α : Type) where
  pa : Nat
  ent : Fin NPTE → α

def Table : Nat → Type
  | 0 => Node Pte
  | n + 1 => Node (Option (Table n))

/-- `PX(level, va)` -/
def PX (level va : Nat) : Fin NPTE :=
  ⟨va / 2 ^ (12 + 9 * level) % 512, by unfold NPTE; exact Nat.mod_lt _ (by decide)⟩

namespace Table

def pa : {n : Nat} → Table n → Nat
  | 0, T => Node.pa T
  | _ + 1, T => Node.pa T

/-- a page filled with zeros -/
def zero : (n : Nat) → (pa : Nat) → Table n
  | 0, pa => Node.mk pa fun _ => Pte.zero
  | _ + 1, pa => Node.mk pa fun _ => none

/-- `walk(pagetable, va, 0)`: no PTE where a page-table page is missing -/
def get : {n : Nat} → Table n → (va : Nat) → Option Pte
  | 0, T, va => some (Node.ent T (PX 0 va))
  | n + 1, T, va =>
    match Node.ent T (PX (n + 1) va) with
    | some C => get C va
    | none => none

/-- a write through the pointer `walk` returns -/
def put : {n : Nat} → Table n → (va : Nat) → Pte → Table n
  | 0, T, va, p => Node.mk (Node.pa T) (Function.update (Node.ent T) (PX 0 va) p)
  | n + 1, T, va, p =>
    match Node.ent T (PX (n + 1) va) with
    | some C => Node.mk (Node.pa T) (Function.update (Node.ent T) (PX (n + 1) va) (some (put C va p)))
    | none => T

/-- the entry `i` points to the page-table page `C` -/
def graft {n : Nat} (T : Table (n + 1)) (i : Fin NPTE) (C : Table n) : Table (n + 1) :=
  Node.mk (Node.pa T) (Function.update (Node.ent T) i (some C))

def leaf {n : Nat} (T : Table n) (va : Nat) : Pte := (T.get va).getD Pte.zero

/-- the page-table pages -/
def sys : {n : Nat} → Table n → Multiset Nat
  | 0, T => {Node.pa T}
  | _ + 1, T => {Node.pa T} + ∑ i, match Node.ent T i with
    | some C => sys C
    | none => 0

/-- the page of the PTE for `va` if it is a user page -/
@[irreducible]
def userPage (va : Nat) (p : Pte) : Multiset Nat := if va < TRAPFRAME ∧ p.has PTE_V then {p.pa} else 0

/-- the user pages of a table for the addresses from `base` on -/
def usersAt : {n : Nat} → Table n → (base : Nat) → Multiset Nat
  | 0, T, base => ∑ i : Fin NPTE, userPage (base + i * PGSIZE) (Node.ent T i)
  | n + 1, T, base => ∑ i : Fin NPTE, match Node.ent T i with
    | some C => usersAt C (base + i * 2 ^ (12 + 9 * (n + 1)))
    | none => 0

@[irreducible]
def users (T : Table 2) : Multiset Nat := T.usersAt 0

/-- valid PTEs are leaves: they have `PTE_R` -/
def Leafy : {n : Nat} → Table n → Prop
  | 0, T => ∀ i, (Node.ent T i).has PTE_V → (Node.ent T i).has PTE_R
  | _ + 1, T => ∀ i, match Node.ent T i with
    | some C => Leafy C
    | none => True

/-! ## reading after a write -/

/-- the same path down to level 0 -/
def Agree (n va vb : Nat) : Prop := ∀ l, l ≤ n → PX l va = PX l vb

variable {n va : Nat} {p : Pte}

theorem agree_succ {vb : Nat} : Agree (n + 1) va vb ↔ PX (n + 1) va = PX (n + 1) vb ∧ Agree n va vb := by
  constructor
  · intro h
    exact ⟨h (n + 1) le_rfl, fun l hl => h l (Nat.le_succ_of_le hl)⟩
  · rintro ⟨h1, h2⟩ l hl
    rcases Nat.lt_or_eq_of_le hl with hl | rfl
    · exact h2 l (Nat.le_of_lt_succ hl)
    · exact h1

/-- two addresses that Sv39 can translate take the same path if they are on one page -/
theorem agree_two {vb : Nat} (ha : va < 2 ^ 39) (hb : vb < 2 ^ 39) :
    Agree 2 va vb ↔ va / PGSIZE = vb / PGSIZE := by
  have e : ∀ l, PX l va = PX l vb ↔ va / 2 ^ (12 + 9 * l) % 512 = vb / 2 ^ (12 + 9 * l) % 512 :=
    fun l => Fin.ext_iff
  constructor
  · intro h
    have h0 := (e 0).mp (h 0 (by omega))
    have h1 := (e 1).mp (h 1 (by omega))
    have h2 := (e 2).mp (h 2 (by omega))
    simp only [PGSIZE] at *
    omega
  · intro h l hl
    rw [e]
    simp only [PGSIZE] at h
    have hl' : l = 0 ∨ l = 1 ∨ l = 2 := by omega
    rcases hl' with rfl | rfl | rfl <;> omega

section
variable {n : Nat} {va vb : Nat} {p : Pte}

variable {T : Table n}

theorem get_congr (h : Agree n va vb) : T.get va = T.get vb := by
  induction n with
  | zero =>
    have h0 : PX 0 va = PX 0 vb := h 0 le_rfl
    simp only [get, h0]
  | succ n ih =>
    obtain ⟨h1, h2⟩ := agree_succ.mp h
    simp only [get, h1]
    cases Node.ent T (PX (n + 1) vb) with
    | none => rfl
    | some C => exact ih h2

theorem leaf_of_get (h : T.get va = some p) : T.leaf va = p := by
  rw [leaf, h]
  rfl

theorem get_of_valid (h : (T.leaf va).has PTE_V) : ∃ p, T.get va = some p ∧ T.leaf va = p := by
  cases hg : T.get va with
  | none =>
    rw [leaf, hg] at h
    exact absurd h (by decide)
  | some p => exact ⟨p, rfl, leaf_of_get hg⟩

theorem get_put_self (h : (T.get va).isSome) : (T.put va p).get va = some p := by
  induction n with
  | zero => simp [get, put]
  | succ n ih =>
    cases hC : Node.ent T (PX (n + 1) va) with
    | none => simp [get, hC] at h
    | some C =>
      simp only [get, hC] at h
      simp only [put, hC, get, update_self]
      exact ih h

theorem get_put_ne (h : ¬ Agree n va vb) : (T.put va p).get vb = T.get vb := by
  induction n with
  | zero =>
    have h0 : PX 0 vb ≠ PX 0 va := by
      intro e
      refine h fun l hl => ?_
      obtain rfl : l = 0 := by omega
      exact e.symm
    simp only [get, put, update_of_ne h0]
  | succ n ih =>
    cases hC : Node.ent T (PX (n + 1) va) with
    | none => simp only [put, hC]
    | some C =>
      simp only [put, hC, get]
      by_cases e : PX (n + 1) vb = PX (n + 1) va
      · rw [e, hC, update_self]
        refine ih fun h' => h (agree_succ.mpr ⟨e.symm, h'⟩)
      · rw [update_of_ne e]

theorem leaf_put {T : Table 2} (h : (T.get va).isSome) (ha : va < 2 ^ 39) (hb : vb < 2 ^ 39) :
    (T.put va p).leaf vb = if va / PGSIZE = vb / PGSIZE then p else T.leaf vb := by
  unfold leaf
  split
  · rename_i e
    rw [← get_congr ((agree_two ha hb).mpr e), get_put_self h]
    rfl
  · rename_i e
    rw [get_put_ne fun h' => e ((agree_two ha hb).mp h')]

theorem isSome_get_put : ((T.put va p).get vb).isSome = (T.get vb).isSome := by
  by_cases h : Agree n va vb
  · rw [← get_congr h, ← get_congr h]
    cases hg : T.get va with
    | some q => rw [get_put_self (by rw [hg]; rfl)]; rfl
    | none =>
      induction n with
      | zero => simp [get] at hg
      | succ n ih =>
        cases hC : Node.ent T (PX (n + 1) va) with
        | none => simp only [put, hC, hg]
        | some C =>
          simp only [get, hC] at hg
          simp only [put, hC, get, update_self]
          exact ih (agree_succ.mp h).2 hg
  · rw [get_put_ne h]

/-! ## the pages of a table after a write -/

theorem sys_put (T : Table n) : (T.put va p).sys = T.sys := by
  induction n with
  | zero => rfl
  | succ n ih =>
    cases hC : Node.ent T (PX (n + 1) va) with
    | none => simp only [put, hC]
    | some C =>
      simp only [put, hC, sys]
      refine congrArg _ (Finset.sum_congr rfl fun i _ => ?_)
      by_cases e : i = PX (n + 1) va
      · rw [e, update_self, hC]
        exact ih C
      · rw [update_of_ne e]

/-- the address of the page of `va` below the entry the walk starts from -/
def offset : Nat → Nat → Nat
  | 0, va => PX 0 va * PGSIZE
  | n + 1, va => PX (n + 1) va * 2 ^ (12 + 9 * (n + 1)) + offset n va

theorem offset_two (h : va < 2 ^ 39) : offset 2 va = PGROUNDDOWN va := by
  simp only [offset, PX, PGSIZE, PGROUNDDOWN]
  omega

theorem usersAt_put {q : Pte} (base : Nat) (h : T.get va = some q) :
    (T.put va p).usersAt base + userPage (base + offset n va) q
      = T.usersAt base + userPage (base + offset n va) p := by
  induction n generalizing base with
  | zero =>
    have hq : Node.ent T (PX 0 va) = q := by simpa [get] using h
    refine sum_change (i := PX 0 va) (fun j hj => ?_) ?_
    · simp only [put, update_of_ne hj]
    · simp only [put, update_self, offset, hq]
      rw [add_comm]
  | succ n ih =>
    cases hC : Node.ent T (PX (n + 1) va) with
    | none => simp [get, hC] at h
    | some C =>
      simp only [get, hC] at h
      simp only [put, hC]
      refine sum_change (i := PX (n + 1) va) (fun j hj => ?_) ?_
      · simp only [update_of_ne hj]
      · simp only [update_self, hC, offset]
        rw [← add_assoc base]
        exact ih _ h

theorem users_put {T : Table 2} {q : Pte} (h : T.get va = some q) (ha : va < 2 ^ 39) :
    (T.put va p).users + userPage (PGROUNDDOWN va) q = T.users + userPage (PGROUNDDOWN va) p := by
  have := usersAt_put (p := p) 0 h
  rw [offset_two ha, Nat.zero_add] at this
  unfold users
  exact this

theorem leafy_put (h : T.Leafy) (hp : p.has PTE_V → p.has PTE_R) : (T.put va p).Leafy := by
  induction n with
  | zero =>
    intro i
    by_cases e : i = PX 0 va
    · simp only [put, e, update_self]
      exact hp
    · simp only [put, update_of_ne e]
      exact h i
  | succ n ih =>
    cases hC : Node.ent T (PX (n + 1) va) with
    | none =>
      simp only [put, hC]
      exact h
    | some C =>
      have hC' : C.Leafy := by
        have := h (PX (n + 1) va)
        rwa [hC] at this
      intro i
      by_cases e : i = PX (n + 1) va
      · simp only [put, hC, e, update_self]
        exact ih hC'
      · simp only [put, hC, update_of_ne e]
        exact h i

end

theorem userPage_valid (h : va < TRAPFRAME) (hp : p.has PTE_V) : userPage va p = {p.pa} := by
  unfold userPage
  exact if_pos ⟨h, hp⟩

theorem userPage_invalid (h : TRAPFRAME ≤ va ∨ p.has PTE_V = false) : userPage va p = 0 := by
  unfold userPage
  refine if_neg ?_
  rintro ⟨h1, h2⟩
  rcases h with h | h
  · exact absurd h1 (Nat.not_lt.mpr h)
  · rw [h] at h2
    cases h2

/-! ## an empty table -/

theorem leaf_zero (n pa va : Nat) : (zero n pa).leaf va = Pte.zero := by
  cases n with
  | zero | succ n => rfl

theorem sys_zero (n pa : Nat) : (zero n pa).sys = {pa} := by
  cases n with
  | zero => rfl
  | succ n => simp [zero, sys]

theorem usersAt_zero (n pa base : Nat) : (zero n pa).usersAt base = 0 := by
  cases n with
  | zero =>
    refine Finset.sum_eq_zero fun i _ => ?_
    exact userPage_invalid (.inr (Pte.zero_has _))
  | succ n => simp [zero, usersAt]

theorem leafy_zero (n pa : Nat) : (zero n pa).Leafy := by
  cases n with
  | zero =>
    intro i h
    simp [zero] at h
  | succ n =>
    intro i
    exact trivial

/-! ## new page-table pages -/

section
variable {n : Nat} {T : Table (n + 1)} {C C' : Table n} {i : Fin NPTE}

theorem get_graft {va : Nat} :
    (T.graft i C).get va = if PX (n + 1) va = i then C.get va else T.get va := by
  by_cases h : PX (n + 1) va = i
  · simp only [graft, get, h, update_self, if_true]
  · simp only [graft, get, update_of_ne h, if_neg h]

theorem sys_graft_some (C' : Table n) (h : Node.ent T i = some C) : (T.graft i C').sys + C.sys = T.sys + C'.sys := by
  simp only [graft, sys, add_assoc]
  refine congrArg _ (sum_change (i := i) (fun j hj => ?_) ?_)
  · simp only [update_of_ne hj]
  · simp only [update_self, h]
    exact add_comm _ _

theorem sys_child (h : Node.ent T i = some C) : ∃ R, T.sys = C.sys + R := by
  refine Multiset.le_iff_exists_add.mp ?_
  simp only [sys]
  refine le_trans ?_ (Multiset.le_add_left _ _)
  refine le_trans (le_of_eq ?_) (Finset.single_le_sum (fun j _ => Multiset.zero_le _) (Finset.mem_univ i))
  rw [h]

theorem sys_graft_none (h : Node.ent T i = none) : (T.graft i C').sys = T.sys + C'.sys := by
  rw [← add_zero (T.graft i C').sys]
  simp only [graft, sys, add_assoc]
  refine congrArg _ (sum_change (i := i) (fun j hj => ?_) ?_)
  · simp only [update_of_ne hj]
  · simp only [update_self, h]
    exact add_comm _ _

theorem usersAt_graft_some {base : Nat} (h : Node.ent T i = some C)
    (hC : ∀ b, C'.usersAt b = C.usersAt b) : (T.graft i C').usersAt base = T.usersAt base := by
  refine Finset.sum_congr rfl fun j _ => ?_
  by_cases e : j = i
  · simp only [graft, e, update_self, h]
    exact hC _
  · simp only [graft, update_of_ne e]

theorem usersAt_graft_none {base : Nat} (h : Node.ent T i = none) (hC : ∀ b, C'.usersAt b = 0) :
    (T.graft i C').usersAt base = T.usersAt base := by
  refine Finset.sum_congr rfl fun j _ => ?_
  by_cases e : j = i
  · simp only [graft, e, update_self, h]
    exact hC _
  · simp only [graft, update_of_ne e]

theorem leafy_graft (h : T.Leafy) (hC : C'.Leafy) : (T.graft i C').Leafy := by
  intro j
  by_cases e : j = i
  · simp only [graft, e, update_self]
    exact hC
  · simp only [graft, update_of_ne e]
    exact h j

end

/-- `T'` is `T` with more page-table pages -/
structure Grown {n : Nat} (T T' : Table n) : Prop where
  leaf : ∀ va, T'.leaf va = T.leaf va
  users : ∀ base, T'.usersAt base = T.usersAt base
  leafy : T.Leafy → T'.Leafy

theorem Grown.rfl {T : Table n} : Grown T T := ⟨fun _ => Eq.refl _, fun _ => Eq.refl _, id⟩

theorem Grown.trans {T T' T'' : Table n} (h : Grown T T') (h' : Grown T' T'') : Grown T T'' :=
  ⟨fun va => (h'.leaf va).trans (h.leaf va), fun base => (h'.users base).trans (h.users base),
    fun hT => h'.leafy (h.leafy hT)⟩

theorem Grown.graft_some {T : Table (n + 1)} {C C' : Table n} {i : Fin NPTE}
    (hi : Node.ent T i = some C) (h : Grown C C') : Grown T (T.graft i C') := by
  refine ⟨fun va => ?_, fun base => usersAt_graft_some hi h.users, fun hT => leafy_graft hT (h.leafy ?_)⟩
  · have hC := h.leaf va
    unfold Table.leaf at hC ⊢
    rw [get_graft]
    split
    · rename_i e
      rw [hC]
      simp only [get, e, hi]
    · exact Eq.refl _
  · have := hT i
    rwa [hi] at this

theorem Grown.graft_none {T : Table (n + 1)} {C' : Table n} {i : Fin NPTE} {pa : Nat}
    (hi : Node.ent T i = none) (h : Grown (zero n pa) C') : Grown T (T.graft i C') := by
  refine ⟨fun va => ?_, fun base => usersAt_graft_none hi fun b => ?_,
    fun hT => leafy_graft hT (h.leafy (leafy_zero n pa))⟩
  · have hC := h.leaf va
    rw [leaf_zero] at hC
    unfold Table.leaf at hC ⊢
    rw [get_graft]
    split
    · rename_i e
      rw [hC]
      simp only [get, e, hi]
      exact Eq.refl _
    · exact Eq.refl _
  · rw [h.users, usersAt_zero]

/-- `T'` is `T` with the PTE `p` for the page of `va`, and perhaps more page-table pages -/
structure Written (T T' : Table 2) (va : Nat) (p : Pte) : Prop where
  leaf : ∀ vb, vb < 2 ^ 39 → T'.leaf vb = if va / PGSIZE = vb / PGSIZE then p else T.leaf vb
  users : T'.users + userPage (PGROUNDDOWN va) (T.leaf va) = T.users + userPage (PGROUNDDOWN va) p
  leafy : T.Leafy → (p.has PTE_V → p.has PTE_R) → T'.Leafy

theorem written_put {T : Table 2} (h : (T.get va).isSome) (ha : va < 2 ^ 39) :
    Written T (T.put va p) va p := by
  obtain ⟨q, hq⟩ := Option.isSome_iff_exists.mp h
  exact ⟨fun vb hb => leaf_put h ha hb, leaf_of_get hq ▸ users_put hq ha, fun hT hp => leafy_put hT hp⟩

theorem Grown.written {T T₁ T' : Table 2} (h : Grown T T₁) (h' : Written T₁ T' va p) : Written T T' va p := by
  refine ⟨fun vb hb => ?_, ?_, fun hT hp => h'.leafy (h.leafy hT) hp⟩
  · rw [h'.leaf vb hb, h.leaf]
  have hu := h'.users
  have hb : T₁.users = T.users := by
    unfold Table.users
    exact h.users 0
  rwa [h.leaf, hb] at hu

theorem users_put_zero {T : Table 2} (hv : (T.leaf va).has PTE_V) (ha : va < TRAPFRAME) :
    (T.get va).isSome ∧ (T.put va Pte.zero).users + {(T.leaf va).pa} = T.users := by
  have h39 : va < 2 ^ 39 := by
    have : TRAPFRAME ≤ 2 ^ 39 := by decide
    omega
  have hs : (T.get va).isSome := by
    unfold leaf at hv
    cases hg : T.get va with
    | some q => rfl
    | none =>
      rw [hg] at hv
      simp at hv
  have hrd : PGROUNDDOWN va < TRAPFRAME := by
    simp only [PGROUNDDOWN, PGSIZE]
    omega
  have hw := (written_put (p := Pte.zero) hs h39).users
  rw [userPage_valid hrd hv, userPage_invalid (.inr (Pte.zero_has _)), add_zero] at hw
  exact ⟨hs, hw⟩

theorem mem_users {T : Table 2} (hv : (T.leaf va).has PTE_V) (ha : va < TRAPFRAME) :
    (T.leaf va).pa ∈ T.users := by
  rw [← (users_put_zero hv ha).2]
  exact Multiset.mem_add.mpr (.inr (Multiset.mem_singleton_self _))

attribute [irreducible] sys usersAt

end Table

end Vm
