import Xv6.Vm.Kernel

/-!
# Address spaces (`kernel/vm.c`)

The functions of `vm.c` as programs.  A page table is the tree its root points to; a function that
changes it takes the tree and returns the changed one.  A pointer to a PTE is the address `va` it
is for: `walk` answers with the PTE, and a write through the pointer is `Table.put` at `va`.

Sizes and addresses are natural numbers.  They come from `p->sz`, which stays below `TRAPFRAME`, or
are tested against `MAXVA` before they are used, so the sums formed here do not wrap.
-/

namespace Vm
open Run Bytes Prog

/-! ## walking -/

/-- `walk(pagetable, va, 0)` -/
def walk (T : Table 2) (va : Nat) : Kernel (Option Pte) :=
  if va ≥ MAXVA then .panic "walk" else pure (T.get va)

/-- the loop of `walk(pagetable, va, 1)` from a level downwards; `false` if `kalloc` fails -/
def walkFrom : {n : Nat} → Table n → (va : Nat) → Kernel (Table n × Bool)
  | 0, T, _ => pure (T, true)
  | n + 1, T, va =>
    match Node.ent T (PX (n + 1) va) with
    | some C => do
      let (C', ok) ← walkFrom C va
      pure (T.graft (PX (n + 1) va) C', ok)
    | none => do
      match ← Act.kalloc with
      | none => pure (T, false)
      | some pa => do
        Act.memset pa PGSIZE 0
        let (C', ok) ← walkFrom (Table.zero n pa) va
        pure (T.graft (PX (n + 1) va) C', ok)

/-- `walk(pagetable, va, 1)` -/
def walkAlloc (T : Table 2) (va : Nat) : Kernel (Table 2 × Bool) :=
  if va ≥ MAXVA then .panic "walk" else walkFrom T va

/-- 0 if not mapped for the user -/
def walkaddr (T : Table 2) (va : Nat) : Nat :=
  if va ≥ MAXVA then 0
  else
    match T.get va with
    | none => 0
    | some pte =>
      if pte.has PTE_V = false then 0
      else if pte.has PTE_U = false then 0
      else pte.pa

/-! ## mapping -/

/-- the loop of `mappages` with `n` pages after the one at `a` -/
def mapLoop (perm : BitVec 10) : (n : Nat) → Table 2 → (a pa : Nat) → Kernel (Table 2 × Bool)
  | n, T, a, pa => do
    let (T, ok) ← walkAlloc T a
    if ok = false then pure (T, false)
    else if (T.leaf a).has PTE_V then .panic "mappages: remap"
    else
      match n with
      | 0 => pure (T.put a (Pte.ofPa pa (perm ||| PTE_V)), true)
      | n + 1 => mapLoop perm n (T.put a (Pte.ofPa pa (perm ||| PTE_V))) (a + PGSIZE) (pa + PGSIZE)

/-- `true` for 0, `false` for -1 -/
def mappages (T : Table 2) (va size pa : Nat) (perm : BitVec 10) : Kernel (Table 2 × Bool) :=
  if size = 0 then .panic "mappages: size"
  else mapLoop perm ((PGROUNDDOWN (va + size - 1) - PGROUNDDOWN va) / PGSIZE) T (PGROUNDDOWN va) pa

def unmapLoop (doFree : Bool) : (n : Nat) → Table 2 → (a : Nat) → Kernel (Table 2)
  | 0, T, _ => pure T
  | n + 1, T, a => do
    match ← walk T a with
    | none => .panic "uvmunmap: walk"
    | some pte =>
      if pte.has PTE_V = false then .panic "uvmunmap: not mapped"
      else if pte.flags = PTE_V then .panic "uvmunmap: not a leaf"
      else if doFree then do
        Act.kfree pte.pa
        unmapLoop doFree n (T.put a Pte.zero) (a + PGSIZE)
      else unmapLoop doFree n (T.put a Pte.zero) (a + PGSIZE)

def uvmunmap (T : Table 2) (va npages : Nat) (doFree : Bool) : Kernel (Table 2) :=
  if va % PGSIZE ≠ 0 then .panic "uvmunmap: not aligned" else unmapLoop doFree npages T va

def uvmcreate : Kernel (Option (Table 2)) := do
  match ← Act.kalloc with
  | none => pure none
  | some pa => do
    Act.memset pa PGSIZE 0
    pure (some (Table.zero 2 pa))

def uvmfirst (T : Table 2) (src : Buf) (sz : Nat) : Kernel (Table 2) :=
  if sz ≥ PGSIZE then .panic "uvmfirst: more than a page"
  else do
    match ← Act.kalloc with
    | none => do
      -- memset(0, 0, PGSIZE)
      Act.memset 0 PGSIZE 0
      pure T
    | some mem => do
      Act.memset mem PGSIZE 0
      let (T, _) ← mappages T 0 PGSIZE mem (PTE_W ||| PTE_R ||| PTE_X ||| PTE_U)
      Act.write mem sz src
      pure T

/-! ## growing and shrinking -/

def uvmdealloc (T : Table 2) (oldsz newsz : Nat) : Kernel (Table 2 × Nat) :=
  if newsz ≥ oldsz then pure (T, oldsz)
  else if PGROUNDUP newsz < PGROUNDUP oldsz then do
    let T ← uvmunmap T (PGROUNDUP newsz) ((PGROUNDUP oldsz - PGROUNDUP newsz) / PGSIZE) true
    pure (T, newsz)
  else pure (T, newsz)

/-- the loop of `uvmalloc` with at most `n` turns left; `false` for the error -/
def allocLoop (oldsz newsz : Nat) (xperm : BitVec 10) :
    (n : Nat) → Table 2 → (a : Nat) → Kernel (Table 2 × Bool)
  | 0, T, _ => pure (T, true)
  | n + 1, T, a =>
    if a < newsz then do
      match ← Act.kalloc with
      | none => do
        let (T, _) ← uvmdealloc T a oldsz
        pure (T, false)
      | some mem => do
        Act.memset mem PGSIZE 0
        let (T, ok) ← mappages T a PGSIZE mem (PTE_R ||| PTE_U ||| xperm)
        if ok = false then do
          Act.kfree mem
          let (T, _) ← uvmdealloc T a oldsz
          pure (T, false)
        else allocLoop oldsz newsz xperm n T (a + PGSIZE)
    else pure (T, true)

/-- the new size, or 0 on error -/
def uvmalloc (T : Table 2) (oldsz newsz : Nat) (xperm : BitVec 10) : Kernel (Table 2 × Nat) :=
  if newsz < oldsz then pure (T, oldsz)
  else do
    let (T, ok) ← allocLoop (PGROUNDUP oldsz) newsz xperm
      ((newsz - PGROUNDUP oldsz + PGSIZE - 1) / PGSIZE) T (PGROUNDUP oldsz)
    pure (T, if ok then newsz else 0)

/-! ## freeing -/

/-- `freewalk`.  A valid entry of the lowest level without `PTE_R`, `PTE_W` and `PTE_X` would be
taken for a page-table page. -/
def freewalk : {n : Nat} → Table n → Kernel PUnit
  | 0, T => do
    (List.finRange NPTE).forM fun i =>
      if (Node.ent T i).has PTE_V && !(Node.ent T i).has (PTE_R ||| PTE_W ||| PTE_X) then .panic undef
      else if (Node.ent T i).has PTE_V then .panic "freewalk: leaf"
      else pure PUnit.unit
    Act.kfree (Node.pa T)
  | _ + 1, T => do
    (List.finRange NPTE).forM fun i =>
      match Node.ent T i with
      | some C => freewalk C
      | none => pure PUnit.unit
    Act.kfree (Node.pa T)

def uvmfree (T : Table 2) (sz : Nat) : Kernel PUnit := do
  if sz > 0 then
    let T ← uvmunmap T 0 (PGROUNDUP sz / PGSIZE) true
    freewalk T
  else freewalk T

/-! ## copying -/

/-- the loop of `uvmcopy` with `n` pages left from `i` on -/
def copyLoop (old : Table 2) : (n : Nat) → (new : Table 2) → (i : Nat) → Kernel (Table 2 × Bool)
  | 0, new, _ => pure (new, true)
  | n + 1, new, i => do
    match ← walk old i with
    | none => .panic "uvmcopy: pte should exist"
    | some pte =>
      if pte.has PTE_V = false then .panic "uvmcopy: page not present"
      else do
        let (new, ok) ← mappages new i PGSIZE pte.pa ((pte.flags ||| PTE_COW) &&& ~~~PTE_W)
        if ok = false then do
          let new ← uvmunmap new 0 (i / PGSIZE) true
          pure (new, false)
        else do
          Act.inckref pte.pa
          copyLoop old n new (i + PGSIZE)

/-- `true` for 0, `false` for -1 -/
def uvmcopy (old new : Table 2) (sz : Nat) : Kernel (Table 2 × Bool) :=
  copyLoop old ((sz + PGSIZE - 1) / PGSIZE) new 0

def uvmclear (T : Table 2) (va : Nat) : Kernel (Table 2) := do
  match ← walk T va with
  | none => .panic "uvmclear"
  | some pte => pure (T.put va { pte with flags := pte.flags &&& ~~~PTE_U })

/-! ## user memory -/

/-- the loop of `copyout`; every turn copies a byte at least, so `fuel = len` turns are enough -/
def copyoutLoop (T : Table 2) : (fuel dstva : Nat) → (src : Buf) → (len : Nat) → Kernel Bool
  | 0, _, _, _ => pure true
  | fuel + 1, dstva, src, len =>
    if len > 0 then
      if walkaddr T (PGROUNDDOWN dstva) = 0 then pure false
      else do
        let n := min (PGSIZE - (dstva - PGROUNDDOWN dstva)) len
        Act.write (walkaddr T (PGROUNDDOWN dstva) + (dstva - PGROUNDDOWN dstva)) n src
        copyoutLoop T fuel (PGROUNDDOWN dstva + PGSIZE) (fun i => src (n + i)) (len - n)
    else pure true

/-- `true` for 0, `false` for -1 -/
def copyout (T : Table 2) (dstva : Nat) (src : Buf) (len : Nat) : Kernel Bool :=
  copyoutLoop T len dstva src len

/-- the loop of `copyin`, with the bytes copied so far -/
def copyinLoop (T : Table 2) : (fuel : Nat) → (dst : Buf) → (done srcva len : Nat) →
    Kernel (Option Buf)
  | 0, dst, _, _, _ => pure (some dst)
  | fuel + 1, dst, done, srcva, len =>
    if len > 0 then
      if walkaddr T (PGROUNDDOWN srcva) = 0 then pure none
      else do
        let n := min (PGSIZE - (srcva - PGROUNDDOWN srcva)) len
        let b ← Act.read (walkaddr T (PGROUNDDOWN srcva) + (srcva - PGROUNDDOWN srcva)) n
        copyinLoop T fuel (splice dst done n b) (done + n) (PGROUNDDOWN srcva + PGSIZE) (len - n)
    else pure (some dst)

def copyin (T : Table 2) (srcva len : Nat) : Kernel (Option Buf) :=
  copyinLoop T len (fun _ => 0) 0 srcva len

/-- the index of the first NUL among the first `n` bytes -/
def findNul (b : Buf) (n : Nat) : Option Nat := (List.range n).find? fun i => b i == 0

/-- the loop of `copyinstr`, page by page, into kernel memory at `dst` -/
def copyinstrLoop (T : Table 2) : (fuel dst srcva max : Nat) → Kernel Bool
  | 0, _, _, _ => pure false
  | fuel + 1, dst, srcva, max =>
    if max > 0 then
      if walkaddr T (PGROUNDDOWN srcva) = 0 then pure false
      else do
        let n := min (PGSIZE - (srcva - PGROUNDDOWN srcva)) max
        let b ← Act.read (walkaddr T (PGROUNDDOWN srcva) + (srcva - PGROUNDDOWN srcva)) n
        match findNul b n with
        | some k => do
          Act.write dst (k + 1) b
          pure true
        | none => do
          Act.write dst n b
          copyinstrLoop T fuel (dst + n) (PGROUNDDOWN srcva + PGSIZE) (max - n)
    else pure false

/-- `true` for 0, `false` for -1 -/
def copyinstr (T : Table 2) (dst srcva max : Nat) : Kernel Bool := copyinstrLoop T max dst srcva max

end Vm
