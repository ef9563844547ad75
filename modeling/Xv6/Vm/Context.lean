import Xv6.Lib.Pair
import Xv6.Vm.Process

/-!
# What `fork` and `exec` do beside the address spaces

The names and working directories of processes, the references and locks of inodes and the
transactions of the log are a state of their own (`Ctx`), and `forkOp` and `sysExecOp` act on both
states.  Without the actions on `Ctx` they are the programs `fork` and `sysExec` of `Vm.Process`
(`left_fork`, `left_sysExec`).

What `namei` finds is a parameter: the entry of the inode table and the function that `readi` is on it.
-/

namespace Vm
open Run Bytes Prog

def NINODE : Nat := 50

abbrev InodeNo := Fin NINODE

structure Ctx where
  iref : InodeNo → Nat
  /-- the sleep locks of the inodes -/
  locked : InodeNo → Bool
  /-- `log.outstanding` -/
  outstanding : Int
  cwd : Slot → InodeNo
  name : Slot → List Byte

inductive CtxOp where
  | beginOp
  | endOp
  /-- `namei` returns the inode with a reference to it -/
  | namei (i : InodeNo)
  | ilock (i : InodeNo)
  | iunlockput (i : InodeNo)
  /-- `np->cwd = idup(p->cwd)` -/
  | idup (p q : Slot)
  /-- `safestrcpy(np->name, p->name, sizeof(p->name))` -/
  | copyName (p q : Slot)
  | setName (p : Slot) (name : List Byte)

def ctxSem : (o : CtxOp) → Ctx → Outcome (Unit × Ctx)
  | .beginOp, u => .next ((), { u with outstanding := u.outstanding + 1 })
  | .endOp, u => .next ((), { u with outstanding := u.outstanding - 1 })
  | .namei i, u => .next ((), { u with iref := Function.update u.iref i (u.iref i + 1) })
  | .ilock i, u =>
    if u.iref i < 1 then .panic "ilock"
    else if u.locked i then .blocked
    else .next ((), { u with locked := Function.update u.locked i true })
  | .iunlockput i, u =>
    if u.locked i = false ∨ u.iref i < 1 then .panic "iunlock"
    else .next ((), { u with
      locked := Function.update u.locked i false, iref := Function.update u.iref i (u.iref i - 1) })
  | .idup p q, u => .next ((), { u with
      cwd := Function.update u.cwd q (u.cwd p)
      iref := Function.update u.iref (u.cwd p) (u.iref (u.cwd p) + 1) })
  | .copyName p q, u => .next ((), { u with name := Function.update u.name q (u.name p) })
  | .setName p n, u => .next ((), { u with name := Function.update u.name p n })

/-- kernel code on both states -/
abbrev Full := Prog (Op ⊕ CtxOp) (Sum.elim Op.Res fun _ => Unit)

def ctx (o : CtxOp) : Full Unit := Prog.perform (Sum.inr o)

def sys {α : Type} (p : Kernel α) : Full α := p.inl

variable (L : Layout)

def fullSem : (o : Op ⊕ CtxOp) → Sys × Ctx → Outcome (Sum.elim Op.Res (fun _ => Unit) o × (Sys × Ctx)) :=
  pairSem (sem L) ctxSem

/-! ## `fork` -/

def forkOp (p : Slot) (T : Table 2) (tf : Nat) (x : Proc) : Full (Option Slot) := do
  match ← sys (forkCopy L T tf x) with
  | none => pure none
  | some (q, Tq, tfq) => do
    ctx (.idup p q)
    ctx (.copyName p q)
    sys (Act.setParent q p)
    sys (Act.putback q (x.child Tq tfq))
    pure (some q)

/-! ## `exec` -/

/-- the part of the path behind the last `/`, as much of it as `p->name` holds -/
def progName (path : List Byte) : List Byte :=
  ((path.reverse.takeWhile fun c => c ≠ 47).reverse).take 15

/-- `bad:` -/
def execBad (x : Proc) (image : Option (Table 2 × Nat)) (ip : Option InodeNo) : Full (Proc × Int) := do
  match image with
  | some (T, sz) => sys (procFreepagetable T sz)
  | none => pure PUnit.unit
  match ip with
  | some i => do
    ctx (.iunlockput i)
    ctx .endOp
  | none => pure ()
  pure (x, -1)

/-- `exec` from the second `uvmalloc` on -/
def execStack (p : Slot) (T : Table 2) (tf : Nat) (x : Proc) (path : List Byte) (elf : Buf) (Tn : Table 2)
    (sz : Nat) (argv : List Nat) : Full (Proc × Int) := do
  let (Tn, sz1) ← sys (uvmalloc Tn (PGROUNDUP sz) (PGROUNDUP sz + 2 * PGSIZE) PTE_W)
  if sz1 = 0 then execBad x (some (Tn, PGROUNDUP sz)) none
  else do
    let Tn ← sys (uvmclear Tn (sz1 - 2 * PGSIZE))
    match ← sys (pushArgs Tn sz1 argv) with
    | none => execBad x (some (Tn, sz1)) none
    | some sp => do
      sys (Act.write (tf + 120) 8 (le64 (BitVec.ofNat 64 sp)))
      ctx (.setName p (progName path))
      sys (Act.write (tf + 24) 8 (le64 (get64 elf 24)))
      sys (Act.write (tf + 48) 8 (le64 (BitVec.ofNat 64 sp)))
      sys (procFreepagetable T x.sz)
      pure ({ x with pagetable := some Tn, sz := sz1 }, argv.length)

def execOp (p : Slot) (T : Table 2) (tf : Nat) (x : Proc) (path : List Byte)
    (ino : Option (InodeNo × Inode)) (argv : List Nat) : Full (Proc × Int) := do
  ctx .beginOp
  match ino with
  | none => do
    ctx .endOp
    pure (x, -1)
  | some (i, ip) => do
    ctx (.namei i)
    ctx (.ilock i)
    let elf := (ip 0 64).2
    if (ip 0 64).1 ≠ 64 then execBad x none (some i)
    else if get32 elf 0 ≠ ELF_MAGIC then execBad x none (some i)
    else do
      match ← sys (procPagetable L tf) with
      | none => execBad x none (some i)
      | some Tn => do
        let (Tn, sz, ok) ← sys (loadLoop ip (get16 elf 56).toNat Tn 0 ((get64 elf 32).setWidth 32))
        if ok = false then execBad x (some (Tn, sz)) (some i)
        else do
          ctx (.iunlockput i)
          ctx .endOp
          execStack p T tf x path elf Tn sz argv

/-- `path` is what `argstr` reads -/
def sysExecOp (p : Slot) (T : Table 2) (tf : Nat) (x : Proc) (path : Option (List Byte)) (uargv : Nat)
    (ino : Option (InodeNo × Inode)) : Full (Proc × Int) :=
  match path with
  | none => pure (x, -1)
  | some path => do
    let (argv, ok) ← sys (argvLoop T x uargv MAXARG 0 [])
    if ok = false then do
      sys (argv.forM Act.kfree)
      pure (x, -1)
    else do
      let r ← execOp L p T tf x path ino argv
      sys (argv.forM Act.kfree)
      pure r

/-! ## the programs without the context -/

def noAnswer : (o : CtxOp) → Unit := fun _ => ()

section
variable {L} {α β : Type} {p : Slot} {T Tn : Table 2} {tf sz : Nat} {x : Proc}

theorem left_sys (q : Kernel α) : (sys q).left noAnswer = q := left_inl q

theorem left_sys_bind (q : Kernel α) (g : α → Full β) :
    ((sys q).bind g).left noAnswer = q.bind fun a => (g a).left noAnswer := by
  rw [left_bind, left_sys]

theorem left_fork : (forkOp L p T tf x).left noAnswer = fork L p T tf x := by
  refine (left_sys_bind _ _).trans (congrArg _ (funext fun o => ?_))
  match o with
  | none => rfl
  | some (q, Tq, tfq) => rfl

theorem left_bad_none (ip : Option InodeNo) : (execBad x none ip).left noAnswer = .ret (x, -1) := by
  cases ip with
  | none | some i => rfl

theorem left_bad_some (ip : Option InodeNo) :
    (execBad x (some (Tn, sz)) ip).left noAnswer = (procFreepagetable Tn sz).bind fun _ => .ret (x, -1) := by
  refine (left_sys_bind _ _).trans (congrArg _ (funext fun _ => ?_))
  cases ip with
  | none | some i => rfl

/-- `exec` behind `execImage` -/
def execCommit (T : Table 2) (tf : Nat) (x : Proc) (elf : Buf) (argv : List Nat) :
    Option (Table 2 × Nat × Nat) → Kernel (Proc × Int)
  | none => pure (x, -1)
  | some (Tn, sz, sp) => do
    Act.write (tf + 120) 8 (le64 (BitVec.ofNat 64 sp))
    Act.write (tf + 24) 8 (le64 (get64 elf 24))
    Act.write (tf + 48) 8 (le64 (BitVec.ofNat 64 sp))
    procFreepagetable T x.sz
    pure ({ x with pagetable := some Tn, sz := sz }, argv.length)

theorem image_bad (Tn : Table 2) (sz : Nat) (g : Option (Table 2 × Nat × Nat) → Kernel β) :
    ((procFreepagetable Tn sz).bind fun _ => .ret none).bind g = (procFreepagetable Tn sz).bind fun _ => g none :=
  Prog.bind_assoc _ _ _

theorem left_exec {path : List Byte} {ino : Option (InodeNo × Inode)} {argv : List Nat} :
    (execOp L p T tf x path ino argv).left noAnswer = exec L T tf x (ino.map Prod.snd) argv := by
  match ino with
  | none => rfl
  | some (i, ip) =>
    show (ite _ _ _ : Full (Proc × Int)).left noAnswer = ite _ _ _
    split
    · exact left_bad_none _
    split
    · exact left_bad_none _
    refine (left_sys_bind _ _).trans (congrArg _ (funext fun o => ?_))
    match o with
    | none => exact left_bad_none _
    | some Tn =>
      refine (left_sys_bind _ _).trans ?_
      refine Eq.trans ?_ (Prog.bind_assoc _ _ _).symm
      refine congrArg _ (funext fun y => ?_)
      obtain ⟨Tn, sz, ok⟩ := y
      cases ok with
      | false => exact (left_bad_some (some i)).trans (image_bad Tn sz (execCommit T tf x (ip 0 64).2 argv)).symm
      | true =>
        refine (left_sys_bind _ _).trans ?_
        refine Eq.trans ?_ (Prog.bind_assoc _ _ _).symm
        refine congrArg _ (funext fun y => ?_)
        obtain ⟨Tn, sz1⟩ := y
        dsimp only
        by_cases h0 : sz1 = 0
        · rw [if_pos h0, if_pos h0]
          exact (left_bad_some none).trans (image_bad _ _ (execCommit T tf x (ip 0 64).2 argv)).symm
        rw [if_neg h0, if_neg h0]
        refine (left_sys_bind _ _).trans ?_
        refine Eq.trans ?_ (Prog.bind_assoc _ _ _).symm
        refine congrArg _ (funext fun Tn => ?_)
        refine (left_sys_bind _ _).trans ?_
        refine Eq.trans ?_ (Prog.bind_assoc _ _ _).symm
        refine congrArg _ (funext fun o => ?_)
        match o with
        | none => exact (left_bad_some none).trans (image_bad _ _ (execCommit T tf x (ip 0 64).2 argv)).symm
        | some sp =>
          refine (left_sys_bind _ _).trans (congrArg _ (funext fun _ => ?_))
          refine (left_sys_bind _ _).trans (congrArg _ (funext fun _ => ?_))
          refine (left_sys_bind _ _).trans (congrArg _ (funext fun _ => ?_))
          exact left_sys_bind _ _

theorem left_sysExec {path : Option (List Byte)} {uargv : Nat} {ino : Option (InodeNo × Inode)} :
    (sysExecOp L p T tf x path uargv ino).left noAnswer
      = sysExec L T tf x path.isSome uargv (ino.map Prod.snd) := by
  match path with
  | none => rfl
  | some path =>
    refine (left_sys_bind _ _).trans (congrArg _ (funext fun y => ?_))
    obtain ⟨argv, ok⟩ := y
    cases ok with
    | false => exact left_sys_bind _ _
    | true =>
      refine (left_bind _ _).trans ?_
      rw [left_exec]
      exact congrArg _ (funext fun r => left_sys_bind _ _)

end

end Vm
