import Xv6.Vm.UserCopy

/-!
# Page tables in memory (`kernel/vm.c`, `kernel/riscv.h`)

The functions of `vm.c` that read and write page tables, on 64-bit words in memory: `walkW`,
`mappagesW`, `uvmunmapW`, `uvmcreateW`, `uvmclearW`.  A page table is the address of its page of the
highest level, and a pointer to a PTE is an address.  `fuel` bounds the turns of a loop, and to run
out of it is `undef`.

`tableAt n m pa` is the tree that the page-table page of level `n` at `pa` stands for in the memory
`m`, and `slot n m pa va` the place of the PTE for `va` in it.

* `get_tableAt`          the PTE that a tree has for `va` is the word at its slot;
* `tableAt_congr`        a tree depends on its own pages only;
* `tableAt_put`          a write to a slot is `Table.put`;
* `tableAt_graft`        a pointer to a new page is `Table.graft`.
-/

namespace Vm
open Run Bytes Prog Own Table Function Multiset BitVec Finset Option

/-! ## words -/

def PA2PTE (pa : BitVec 64) : BitVec 64 := pa >>> 12 <<< 10

def PTE2PA (pte : BitVec 64) : BitVec 64 := pte >>> 10 <<< 12

def PTE_FLAGS (pte : BitVec 64) : BitVec 64 := pte &&& 0x3FF

/-- `*pte & PTE_V` -/
def valid (pte : BitVec 64) : Bool := pte &&& 1 != 0

/-- `PA2PTE(pa) | perm | PTE_V` -/
def newPte (pa : BitVec 64) (perm : BitVec 10) : BitVec 64 := PA2PTE pa ||| perm.setWidth 64 ||| 1

/-- `PX(level, va)` of a word -/
def pxW (level : Nat) (va : BitVec 64) : Nat := ((va >>> (12 + 9 * level)) &&& 0x1FF).toNat

/-- the fields of a word -/
def Pte.ofWord (w : BitVec 64) : Pte := ⟨(w >>> 10).toNat, w.setWidth 10⟩

/-! ## the functions -/

def readPte (a : Nat) : Kernel (BitVec 64) := do
  let b ← Act.read a 8
  pure (get64 b 0)

def writePte (a : Nat) (w : BitVec 64) : Kernel Unit := Act.write a 8 (le64 w)

/-- the loop of `walk` from a level downwards; `none` for 0 -/
def walkLoop (va : BitVec 64) (alloc : Bool) : (level pagetable : Nat) → Kernel (Option Nat)
  | 0, pagetable => pure (some (pagetable + 8 * pxW 0 va))
  | level + 1, pagetable => do
    let pte ← readPte (pagetable + 8 * pxW (level + 1) va)
    if valid pte then walkLoop va alloc level (PTE2PA pte).toNat
    else if alloc = false then pure none
    else do
      match ← Act.kalloc with
      | none => pure none
      | some pa => do
        Act.memset pa PGSIZE 0
        writePte (pagetable + 8 * pxW (level + 1) va) (newPte (BitVec.ofNat 64 pa) 0)
        walkLoop va alloc level pa

def walkW (pagetable : Nat) (va : BitVec 64) (alloc : Bool) : Kernel (Option Nat) :=
  if va.toNat ≥ MAXVA then .panic "walk" else walkLoop va alloc 2 pagetable

/-- the loop of `mappages`; `true` for 0, `false` for -1 -/
def mapLoopW (pagetable : Nat) (last : BitVec 64) (perm : BitVec 10) : (fuel : Nat) → (a pa : BitVec 64) →
    Kernel Bool
  | 0, _, _ => .panic undef
  | fuel + 1, a, pa => do
    match ← walkW pagetable a true with
    | none => pure false
    | some p => do
      let pte ← readPte p
      if valid pte then .panic "mappages: remap"
      else do
        writePte p (newPte pa perm)
        if a = last then pure true
        else mapLoopW pagetable last perm fuel (a + 4096) (pa + 4096)

def mappagesW (pagetable fuel : Nat) (va size pa : BitVec 64) (perm : BitVec 10) : Kernel Bool :=
  if size = 0 then .panic "mappages: size"
  else mapLoopW pagetable (pageOf (va + size - 1)) perm fuel (pageOf va) pa

/-- the loop of `uvmunmap` up to the address `stop` -/
def unmapLoopW (pagetable : Nat) (stop : BitVec 64) (doFree : Bool) : (fuel : Nat) → (a : BitVec 64) →
    Kernel Unit
  | 0, _ => .panic undef
  | fuel + 1, a =>
    if a < stop then do
      match ← walkW pagetable a false with
      | none => .panic "uvmunmap: walk"
      | some p => do
        let pte ← readPte p
        if valid pte = false then .panic "uvmunmap: not mapped"
        else if PTE_FLAGS pte = 1 then .panic "uvmunmap: not a leaf"
        else if doFree then do
          Act.kfree (PTE2PA pte).toNat
          writePte p 0
          unmapLoopW pagetable stop doFree fuel (a + 4096)
        else do
          writePte p 0
          unmapLoopW pagetable stop doFree fuel (a + 4096)
    else pure ()

def uvmunmapW (pagetable fuel : Nat) (va npages : BitVec 64) (doFree : Bool) : Kernel Unit :=
  if va.toNat % PGSIZE ≠ 0 then .panic "uvmunmap: not aligned"
  else unmapLoopW pagetable (va + npages * 4096) doFree fuel va

def uvmcreateW : Kernel (Option Nat) := do
  match ← Act.kalloc with
  | none => pure none
  | some pagetable => do
    Act.memset pagetable PGSIZE 0
    pure (some pagetable)

def uvmclearW (pagetable : Nat) (va : BitVec 64) : Kernel Unit := do
  match ← walkW pagetable va false with
  | none => .panic "uvmclear"
  | some p => do
    let pte ← readPte p
    writePte p (pte &&& ~~~16)

section
variable {pa w : BitVec 64} {perm : BitVec 10}

theorem aligned_bit {i : Nat} (h : pa.toNat % PGSIZE = 0) (hi : i < 12) : pa.getLsbD i = false := by
  have hb := Nat.testBit_mod_two_pow pa.toNat 12 i
  rw [show 2 ^ 12 = PGSIZE from rfl, h, Nat.zero_testBit, decide_eq_true hi, Bool.true_and] at hb
  exact hb.symm

theorem PTE2PA_newPte (h : pa.toNat % PGSIZE = 0) : PTE2PA (newPte pa perm) = pa := by
  apply eq_of_getLsbD_eq
  intro i hi
  simp only [PTE2PA, newPte, PA2PTE, getLsbD_shiftLeft, getLsbD_ushiftRight,
    getLsbD_or, getLsbD_setWidth]
  by_cases h12 : i < 12
  · simp [h12, aligned_bit h h12]
  · have e : 12 + (i - 12) = i := by omega
    have h64 : 10 + (i - 12) < 64 := by omega
    simp [h12, hi, e, h64]

theorem PTE_FLAGS_newPte : PTE_FLAGS (newPte pa perm) = (perm ||| PTE_V).setWidth 64 := by
  apply eq_of_getLsbD_eq
  intro i hi
  have hm : (0x3FF : BitVec 64).getLsbD i = decide (i < 10) := by
    have : ∀ j : Fin 64, (0x3FF : BitVec 64).getLsbD j = decide (j.val < 10) := by decide
    exact this ⟨i, hi⟩
  have h1 : (1 : BitVec 64).getLsbD i = (PTE_V.setWidth 64).getLsbD i := by
    have : ∀ j : Fin 64, (1 : BitVec 64).getLsbD j = (PTE_V.setWidth 64).getLsbD j := by decide
    exact this ⟨i, hi⟩
  rw [PTE_FLAGS, newPte, PA2PTE, getLsbD_and, hm, getLsbD_or, getLsbD_or, h1,
    setWidth_or, getLsbD_or, getLsbD_shiftLeft]
  by_cases h : i < 10
  · simp [h, hi]
  · have h2 : perm.getLsbD i = false := getLsbD_of_ge _ _ (Nat.le_of_not_lt h)
    have h3 : PTE_V.getLsbD i = false := getLsbD_of_ge _ _ (Nat.le_of_not_lt h)
    simp [h, h2, h3]

theorem and_one_ne {n : Nat} (x : BitVec (n + 1)) : (x &&& 1 != 0) = x.getLsbD 0 := by
  cases hb : x.getLsbD 0 with
  | true =>
    rw [bne_iff_ne]
    intro e
    have h0 : (x &&& 1).getLsbD 0 = (0 : BitVec (n + 1)).getLsbD 0 := by rw [e]
    rw [getLsbD_and, hb] at h0
    simp at h0
  | false =>
    rw [bne_eq_false_iff_eq]
    apply eq_of_getLsbD_eq
    intro i hi
    rw [getLsbD_and]
    by_cases e : i = 0
    · rw [e, hb]
      simp
    · simp [e]

theorem valid_eq (w : BitVec 64) : valid w = (Pte.ofWord w).has PTE_V := by
  have h1 : valid w = w.getLsbD 0 := and_one_ne w
  have h2 : (Pte.ofWord w).has PTE_V = (w.setWidth 10).getLsbD 0 := and_one_ne _
  rw [h1, h2, getLsbD_setWidth]
  rfl

theorem valid_newPte : valid (newPte pa perm) = true := by
  have h1 : valid (newPte pa perm) = (newPte pa perm).getLsbD 0 := and_one_ne _
  rw [h1, newPte, getLsbD_or]
  simp

theorem ofWord_zero : Pte.ofWord 0 = Pte.zero := by decide

theorem pxW_eq (level : Nat) (va : BitVec 64) : pxW level va = (PX level va.toNat).val := by
  rw [pxW, toNat_and, toNat_ushiftRight, Nat.shiftRight_eq_div_pow]
  exact Nat.and_two_pow_sub_one_eq_mod _ 9

end

/-! ## trees in memory -/

/-- the tree at the page-table page `pa` of level `n` -/
def tableAt : (n : Nat) → (m : Buf) → (pa : Nat) → Table n
  | 0, m, pa => Node.mk pa fun i => Pte.ofWord (get64 m (pa + 8 * i))
  | n + 1, m, pa => Node.mk pa fun i =>
    if valid (get64 m (pa + 8 * i)) then some (tableAt n m (PTE2PA (get64 m (pa + 8 * i))).toNat) else none

/-- where the PTE for `va` is -/
def slot : (n : Nat) → (m : Buf) → (pa va : Nat) → Option Nat
  | 0, _, pa, va => some (pa + 8 * PX 0 va)
  | n + 1, m, pa, va =>
    if valid (get64 m (pa + 8 * PX (n + 1) va)) then
      slot n m (PTE2PA (get64 m (pa + 8 * PX (n + 1) va))).toNat va
    else none

section
variable {n pa va p q : Nat} {m m' : Buf} {w : BitVec 64} {i j : Fin NPTE}

theorem entry_fits (i : Fin NPTE) : 8 * i.val + 8 ≤ PGSIZE := by
  have := i.isLt
  unfold NPTE at this
  simp only [PGSIZE]
  omega

theorem entry_ne (h : j ≠ i) : 8 * j.val + 8 ≤ 8 * i.val ∨ 8 * i.val + 8 ≤ 8 * j.val := by
  omega

theorem ent_valid (hv : valid (get64 m (pa + 8 * i)) = true) : Node.ent (tableAt (n + 1) m pa) i
    = some (tableAt n m (PTE2PA (get64 m (pa + 8 * i))).toNat) := if_pos hv

theorem ent_invalid (hv : ¬ valid (get64 m (pa + 8 * i)) = true) :
    Node.ent (tableAt (n + 1) m pa) i = none := if_neg hv

theorem get_tableAt : (tableAt n m pa).get va = (slot n m pa va).map fun p => Pte.ofWord (get64 m p) := by
  induction n generalizing pa with
  | zero => rfl
  | succ n ih =>
    rw [Table.get, slot]
    by_cases hv : valid (get64 m (pa + 8 * PX (n + 1) va)) = true
    · rw [ent_valid hv, if_pos hv]
      exact ih
    · rw [ent_invalid hv, if_neg hv]
      rfl

theorem sys_tableAt_zero : (tableAt 0 m pa).sys = {pa} := by rw [Table.sys, tableAt]

theorem sys_tableAt_succ : (tableAt (n + 1) m pa).sys = {pa} + ∑ i : Fin NPTE,
    if valid (get64 m (pa + 8 * i)) then (tableAt n m (PTE2PA (get64 m (pa + 8 * i))).toNat).sys else 0 := by
  rw [Table.sys]
  refine congrArg _ (sum_congr rfl fun i _ => ?_)
  by_cases hv : valid (get64 m (pa + 8 * i)) = true
  · rw [ent_valid hv, if_pos hv]
  · rw [ent_invalid hv, if_neg hv]

theorem self_mem_sys : pa ∈ (tableAt n m pa).sys := by
  cases n with
  | zero =>
    rw [sys_tableAt_zero]
    exact Multiset.mem_singleton_self pa
  | succ n =>
    rw [sys_tableAt_succ]
    exact Multiset.mem_add.mpr (.inl (Multiset.mem_singleton_self pa))

theorem sys_split (hv : valid (get64 m (pa + 8 * i))) :
    ∃ R, (tableAt (n + 1) m pa).sys = (tableAt n m (PTE2PA (get64 m (pa + 8 * i))).toNat).sys + ({pa} + R) ∧
      ∀ j : Fin NPTE, j ≠ i → valid (get64 m (pa + 8 * j)) →
        (tableAt n m (PTE2PA (get64 m (pa + 8 * j))).toNat).sys ≤ R := by
  rw [sys_tableAt_succ, ← add_sum_erase _ _ (mem_univ i), if_pos hv]
  refine ⟨_, add_left_comm _ _ _, fun j hj hvj => ?_⟩
  refine le_trans (le_of_eq ?_)
    (single_le_sum (fun _ _ => zero_le _) (mem_erase.mpr ⟨hj, mem_univ j⟩))
  rw [if_pos hvj]

theorem child_sys_le (hv : valid (get64 m (pa + 8 * i))) :
    (tableAt n m (PTE2PA (get64 m (pa + 8 * i))).toNat).sys ≤ (tableAt (n + 1) m pa).sys := by
  obtain ⟨R, hR, -⟩ := sys_split hv
  rw [hR]
  exact le_add_right _ _

theorem rounddown_entry {k : Nat} (h : pa % PGSIZE = 0) (hk : k < 8) :
    PGROUNDDOWN (pa + 8 * i.val + k) = pa := by
  have := entry_fits i
  rw [rounddown_eq_iff h]
  omega

theorem word_congr (hal : pa % PGSIZE = 0) (h : ∀ a, PGROUNDDOWN a = pa → m' a = m a) :
    get64 m' (pa + 8 * i) = get64 m (pa + 8 * i) :=
  get64_congr fun _ hk => h _ (rounddown_entry hal hk)

theorem tableAt_congr (hal : ∀ r ∈ (tableAt n m pa).sys, r % PGSIZE = 0)
    (h : ∀ a, PGROUNDDOWN a ∈ (tableAt n m pa).sys → m' a = m a) : tableAt n m' pa = tableAt n m pa := by
  induction n generalizing pa with
  | zero =>
    have hw : ∀ i : Fin NPTE, get64 m' (pa + 8 * i) = get64 m (pa + 8 * i) :=
      fun i => word_congr (hal pa self_mem_sys) fun a ha => h a (ha ▸ self_mem_sys)
    exact congrArg (Node.mk pa) (funext fun i => congrArg Pte.ofWord (hw i))
  | succ n ih =>
    have hw : ∀ i : Fin NPTE, get64 m' (pa + 8 * i) = get64 m (pa + 8 * i) :=
      fun i => word_congr (hal pa self_mem_sys) fun a ha => h a (ha ▸ self_mem_sys)
    have hC : ∀ i : Fin NPTE, valid (get64 m (pa + 8 * i)) →
        tableAt n m' (PTE2PA (get64 m (pa + 8 * i))).toNat = tableAt n m (PTE2PA (get64 m (pa + 8 * i))).toNat := by
      intro i hv
      have hle := child_sys_le (n := n) hv
      exact ih (fun r hr => hal r (mem_of_le hle hr)) fun a ha => h a (mem_of_le hle ha)
    simp only [tableAt, hw]
    refine congrArg (Node.mk pa) (funext fun i => ?_)
    split
    · rw [hC i ‹_›]
    · rfl

theorem slot_congr (hal : ∀ r ∈ (tableAt n m pa).sys, r % PGSIZE = 0)
    (h : ∀ a, PGROUNDDOWN a ∈ (tableAt n m pa).sys → m' a = m a) : slot n m' pa va = slot n m pa va := by
  induction n generalizing pa with
  | zero => rfl
  | succ n ih =>
    have hw : get64 m' (pa + 8 * PX (n + 1) va) = get64 m (pa + 8 * PX (n + 1) va) :=
      word_congr (hal pa self_mem_sys) fun a ha => h a (ha ▸ self_mem_sys)
    rw [slot, slot, hw]
    split
    · rename_i hv
      have hle := child_sys_le (n := n) hv
      exact ih (fun r hr => hal r (mem_of_le hle hr)) fun a ha => h a (mem_of_le hle ha)
    · rfl

theorem slot_page (h : slot n m pa va = some p) :
    ∃ r ∈ (tableAt n m pa).sys, r ≤ p ∧ p + 8 ≤ r + PGSIZE := by
  induction n generalizing pa with
  | zero =>
    have := entry_fits (PX 0 va)
    simp only [slot, some.injEq] at h
    exact ⟨pa, self_mem_sys, by omega, by omega⟩
  | succ n ih =>
    obtain ⟨hv, h⟩ := ite_none_right_eq_some.mp h
    obtain ⟨r, hr, hp⟩ := ih h
    exact ⟨r, mem_of_le (child_sys_le hv) hr, hp⟩

theorem tableAt_graft (hw : ∀ j : Fin NPTE, j ≠ i → get64 m' (pa + 8 * j) = get64 m (pa + 8 * j))
    (hal : ∀ r ∈ (tableAt (n + 1) m pa).sys, r % PGSIZE = 0)
    (h : ∀ j : Fin NPTE, j ≠ i → valid (get64 m (pa + 8 * j)) → ∀ a,
      PGROUNDDOWN a ∈ (tableAt n m (PTE2PA (get64 m (pa + 8 * j))).toNat).sys → m' a = m a)
    (hv : valid (get64 m' (pa + 8 * i))) (hq : (PTE2PA (get64 m' (pa + 8 * i))).toNat = q) :
    tableAt (n + 1) m' pa = (tableAt (n + 1) m pa).graft i (tableAt n m' q) := by
  rw [tableAt, Table.graft]
  refine congrArg (Node.mk pa) (funext fun j => ?_)
  by_cases e : j = i
  · rw [e, update_self, if_pos hv, hq]
  rw [update_of_ne e, hw j e]
  show _ = if valid (get64 m (pa + 8 * j)) then some (tableAt n m (PTE2PA (get64 m (pa + 8 * j))).toNat)
    else none
  split
  · rename_i hvj
    rw [tableAt_congr (fun r hr => hal r (mem_of_le (child_sys_le hvj) hr)) (h j e hvj)]
  · rfl

theorem graft_put {C : Table n} {T : Table (n + 1)} {x : Pte} (h : Node.ent T (PX (n + 1) va) = some C) :
    T.put va x = T.graft (PX (n + 1) va) (C.put va x) := by
  rw [Table.put, h]
  rfl

theorem tableAt_put (hal : ∀ r ∈ (tableAt n m pa).sys, r % PGSIZE = 0) (hnd : (tableAt n m pa).sys.Nodup)
    (h : slot n m pa va = some p) :
    tableAt n (splice m p 8 (le64 w)) pa = (tableAt n m pa).put va (Pte.ofWord w) := by
  induction n generalizing pa with
  | zero =>
    simp only [slot, some.injEq] at h
    subst h
    rw [tableAt, Table.put]
    refine congrArg (Node.mk pa) (funext fun j => ?_)
    by_cases e : j = PX 0 va
    · rw [e, update_self, get64_store]
    · rw [update_of_ne e, get64_splice (by omega)]
      rfl
  | succ n ih =>
    simp only [slot] at h
    split at h
    swap
    · cases h
    rename_i hv
    obtain ⟨R, hR, hj⟩ := sys_split hv
    obtain ⟨r, hr, hr1, hr2⟩ := slot_page h
    have hle := child_sys_le (n := n) hv
    rw [hR, nodup_add, nodup_add] at hnd
    obtain ⟨hnd1, -, hdis⟩ := hnd
    have hral := hal r (mem_of_le hle hr)
    -- the slot is not in a page of the others
    have hout : ∀ a, PGROUNDDOWN a ≠ r → splice m p 8 (le64 w) a = m a := by
      intro a ha
      rw [Ne, rounddown_eq_iff hral] at ha
      exact splice_out (by omega)
    have hrR : r ∉ ({pa} + R : Multiset Nat) := disjoint_left.mp hdis hr
    have hrpa : pa ≠ r := fun e => hrR (Multiset.mem_add.mpr (.inl (by rw [e]; exact Multiset.mem_singleton_self r)))
    have hword : ∀ j : Fin NPTE, get64 (splice m p 8 (le64 w)) (pa + 8 * j) = get64 m (pa + 8 * j) :=
      fun j => word_congr (hal pa self_mem_sys) fun a ha => hout a (by rw [ha]; exact hrpa)
    rw [graft_put (C := tableAt n m (PTE2PA (get64 m (pa + 8 * PX (n + 1) va))).toNat)
      (by rw [tableAt]; exact if_pos hv)]
    rw [← ih (fun r hr => hal r (mem_of_le hle hr)) hnd1 h]
    refine tableAt_graft (fun j _ => hword j) hal (fun j e hvj a ha => hout a fun er => ?_) ?_ ?_
    · rw [er] at ha
      exact hrR (mem_add.mpr (.inr (mem_of_le (hj j e hvj) ha)))
    · rwa [hword]
    · rw [hword]

end

end Vm
