import Xv6.Vm.Address

/-!
# Processes (`kernel/proc.c`, `kernel/exec.c`, `kernel/trap.c`, `kernel/pipe.c`, `kernel/sysfile.c`)

The system calls that create, change and destroy address spaces and pipes, as programs.  A call of
the process `p` works on its record `x` and ends with `Act.putback p`.  What a call reads from the
file system is a parameter: `exec` of a path that `namei` finds gets the function that `readi` is
on that inode.

Left out: `pid`, `name`, `cwd`, `chan`, `sched` and the time fields of `struct proc`, locks (an
action is a critical section), and the registers but `a0`, `a1`, `epc` and `sp`.
-/

namespace Vm
open Run Bytes Prog

variable (L : Layout)

/-! ## page tables of processes -/

def procPagetable (tf : Nat) : Kernel (Option (Table 2)) := do
  match ← uvmcreate with
  | none => pure none
  | some T => do
    let (T, ok) ← mappages T TRAMPOLINE PGSIZE L.trampoline (PTE_R ||| PTE_X)
    if ok = false then do
      uvmfree T 0
      pure none
    else do
      let (T, ok) ← mappages T TRAPFRAME PGSIZE tf (PTE_R ||| PTE_W)
      if ok = false then do
        let T ← uvmunmap T TRAMPOLINE 1 false
        uvmfree T 0
        pure none
      else pure (some T)

def procFreepagetable (T : Table 2) (sz : Nat) : Kernel PUnit := do
  let T ← uvmunmap T TRAMPOLINE 1 false
  let T ← uvmunmap T TRAPFRAME 1 false
  uvmfree T sz

def kfreeOpt : Option Nat → Kernel PUnit
  | some pa => Act.kfree pa
  | none => pure PUnit.unit

def freePagetableOpt : Option (Table 2) → (sz : Nat) → Kernel PUnit
  | some T, sz => procFreepagetable T sz
  | none, _ => pure PUnit.unit

def freeproc (q : Slot) (x : Proc) : Kernel PUnit := do
  kfreeOpt x.trapframe
  freePagetableOpt x.pagetable x.sz
  Act.putback q Proc.free

/-- `allocproc` from `found:` on -/
def allocprocFound (q : Slot) : Kernel (Option (Slot × Table 2 × Nat)) := do
  match ← Act.kalloc with
  | none => do
    freeproc q Proc.locked
    pure none
  | some tf => do
    match ← procPagetable L tf with
    | none => do
      freeproc q { Proc.locked with trapframe := some tf }
      pure none
    | some T => pure (some (q, T, tf))

def allocprocFrom : List Slot → Kernel (Option (Slot × Table 2 × Nat))
  | [] => pure none
  | q :: qs => do
    if ← Act.claim q then allocprocFound L q else allocprocFrom qs

/-- the slot with its page table and trapframe -/
def allocproc : Kernel (Option (Slot × Table 2 × Nat)) := allocprocFrom L (List.finRange NPROC)

/-! ## files and pipes -/

def pipeclose (pi : Nat) (writable : Bool) : Kernel PUnit := do
  if ← Act.pipeclose pi writable then Act.kfree pi else pure PUnit.unit

def fileclose (f : FileNo) : Kernel PUnit := do
  match ← Act.fileclose f with
  | some (pi, w) => pipeclose pi w
  | none => pure PUnit.unit

def fdalloc (x : Proc) (f : FileNo) : Option (Fin NOFILE × Proc) :=
  match (List.finRange NOFILE).find? fun fd => (x.ofile fd).isNone with
  | some fd => some (fd, { x with ofile := Function.update x.ofile fd (some f) })
  | none => none

def Proc.clearFd (x : Proc) (fd : Fin NOFILE) : Proc :=
  { x with ofile := Function.update x.ofile fd none }

def pipealloc : Kernel (Option (FileNo × FileNo)) := do
  match ← Act.filealloc with
  | none => pure none
  | some f0 => do
    match ← Act.filealloc with
    | none => do
      fileclose f0
      pure none
    | some f1 => do
      match ← Act.kalloc with
      | none => do
        fileclose f0
        fileclose f1
        pure none
      | some pi => do
        Act.pipeopen pi
        Act.setfile f0 (.pipe pi false)
        Act.setfile f1 (.pipe pi true)
        pure (some (f0, f1))

/-- the end of a failed `sys_pipe` -/
def closeBoth (x : Proc) (rf wf : FileNo) : Kernel (Proc × Int) := do
  fileclose rf
  fileclose wf
  pure (x, -1)

def sysPipe (T : Table 2) (x : Proc) (fdarray : Nat) : Kernel (Proc × Int) := do
  match ← pipealloc with
  | none => pure (x, -1)
  | some (rf, wf) =>
    match fdalloc x rf with
    | none => closeBoth x rf wf
    | some (fd0, x0) =>
      match fdalloc x0 wf with
      | none => closeBoth (x0.clearFd fd0) rf wf
      | some (fd1, x1) => do
        if ← copyout T fdarray (le32 (BitVec.ofNat 32 fd0)) 4 then
          if ← copyout T (fdarray + 4) (le32 (BitVec.ofNat 32 fd1)) 4 then pure (x1, 0)
          else closeBoth ((x1.clearFd fd0).clearFd fd1) rf wf
        else closeBoth ((x1.clearFd fd0).clearFd fd1) rf wf

def sysClose (x : Proc) (fd : Fin NOFILE) : Kernel (Proc × Int) :=
  match x.ofile fd with
  | none => pure (x, -1)
  | some f => do
    fileclose f
    pure (x.clearFd fd, 0)

def sysDup (x : Proc) (fd : Fin NOFILE) : Kernel (Proc × Int) :=
  match x.ofile fd with
  | none => pure (x, -1)
  | some f =>
    match fdalloc x f with
    | none => pure (x, -1)
    | some (fd', x') => do
      Act.filedup f
      pure (x', fd')

/-- the part of `sys_open` that concerns the file table -/
def sysOpen (x : Proc) : Kernel (Proc × Int) := do
  match ← Act.filealloc with
  | none => pure (x, -1)
  | some f =>
    match fdalloc x f with
    | none => do
      fileclose f
      pure (x, -1)
    | some (fd, x') => do
      Act.setfile f .inode
      pure (x', fd)

/-! ## memory -/

/-- `growproc`, with whether it returns 0 -/
def growproc (T : Table 2) (x : Proc) (n : Int) : Kernel (Proc × Bool) :=
  if n > 0 then do
    let (T, sz) ← uvmalloc T x.sz (x.sz + n.toNat) PTE_W
    if sz = 0 then pure ({ x with pagetable := some T }, false)
    else pure ({ x with pagetable := some T, sz := sz }, true)
  else if n < 0 then do
    let (T, sz) ← uvmdealloc T x.sz (((x.sz : Int) + n) % 2 ^ 64).toNat
    pure ({ x with pagetable := some T, sz := sz }, true)
  else pure (x, true)

def sysSbrk (T : Table 2) (x : Proc) (n : Int) : Kernel (Proc × Int) := do
  let (x', ok) ← growproc T x n
  pure (x', if ok then x.sz else -1)

/-- `usertrap` for `scause` 15 -/
def usertrapStore (T : Table 2) (x : Proc) (stval : Nat) : Kernel Proc := do
  match ← walk T (PGROUNDDOWN stval) with
  -- a read through the null pointer
  | none => .panic "kerneltrap"
  | some pte =>
    if pte.has PTE_V && pte.has PTE_U && pte.has PTE_COW then do
      let mem := (← Act.kalloc).getD 0
      Act.memmove mem pte.pa PGSIZE
      let T := T.put (PGROUNDDOWN stval) Pte.zero
      Act.deckref pte.pa
      let (T, ok) ← mappages T (PGROUNDDOWN stval) PGSIZE mem ((pte.flags ||| PTE_W) &&& ~~~PTE_COW)
      Act.inckref mem
      pure { x with pagetable := some T, killed := x.killed || !ok }
    else pure x

/-! ## `fork`, `exit`, `wait` -/

def dupFiles (x : Proc) : Kernel PUnit :=
  (List.finRange NOFILE).forM fun fd =>
    match x.ofile fd with
    | some f => Act.filedup f
    | none => pure PUnit.unit

/-- `fork` as long as the child is in its hands: the slot, page table and trapframe -/
def forkCopy (T : Table 2) (tf : Nat) (x : Proc) : Kernel (Option (Slot × Table 2 × Nat)) := do
  match ← allocproc L with
  | none => pure none
  | some (q, Tq, tfq) => do
    let (Tq, ok) ← uvmcopy T Tq x.sz
    if ok = false then do
      freeproc q { Proc.locked with pagetable := some Tq, trapframe := some tfq }
      pure none
    else do
      -- *(np->trapframe) = *(p->trapframe); np->trapframe->a0 = 0
      Act.memmove tfq tf 288
      Act.write (tfq + 112) 8 fun _ => 0
      dupFiles x
      pure (some (q, Tq, tfq))

/-- the child of the process with the record `x` -/
def Proc.child (x : Proc) (T : Table 2) (tf : Nat) : Proc :=
  { Proc.free with
    state := .runnable, pagetable := some T, trapframe := some tf, sz := x.sz, ofile := x.ofile }

/-- the slot of the child, for its `pid`; `none` for -1 -/
def fork (p : Slot) (T : Table 2) (tf : Nat) (x : Proc) : Kernel (Option Slot) := do
  match ← forkCopy L T tf x with
  | none => pure none
  | some (q, Tq, tfq) => do
    Act.setParent q p
    Act.putback q (x.child Tq tfq)
    pure (some q)

def closeFiles (x : Proc) : Kernel PUnit :=
  (List.finRange NOFILE).forM fun fd =>
    match x.ofile fd with
    | some f => fileclose f
    | none => pure PUnit.unit

def exit (p : Slot) (x : Proc) (status : BitVec 32) : Kernel Proc :=
  if p = initproc then .panic "init exiting"
  else do
    closeFiles x
    Act.reparent p
    pure { x with ofile := fun _ => none, xstate := status, state := .zombie }

/-- the scan of `wait`; without a zombie it returns or goes to sleep, which is `none` -/
def waitFrom (p : Slot) (T : Table 2) (x : Proc) (addr : Nat) :
    (qs : List Slot) → (havekids : Bool) → Kernel (Option Int)
  | [], havekids => pure (if !havekids || x.killed then some (-1) else none)
  | q :: qs, havekids => do
    match ← Act.zombie p q with
    | none => waitFrom p T x addr qs havekids
    | some none => waitFrom p T x addr qs true
    | some (some xstate) => do
      if addr ≠ 0 then
        if ← copyout T addr (le32 xstate) 4 then do
          freeproc q (← Act.reap p q)
          pure (some 0)
        else pure (some (-1))
      else do
        freeproc q (← Act.reap p q)
        pure (some 0)

def wait (p : Slot) (T : Table 2) (x : Proc) (addr : Nat) : Kernel (Option Int) :=
  waitFrom p T x addr (List.finRange NPROC) false

/-! ## `exec` -/

def MAXARG : Nat := 32

/-- `readi(ip, 0, dst, off, n)`: how many bytes it copies, and the bytes -/
abbrev Inode := (off n : Nat) → Nat × Buf

def flags2perm (flags : BitVec 32) : BitVec 10 :=
  (if flags &&& 1 ≠ 0 then PTE_X else 0) ||| (if flags &&& 2 ≠ 0 then PTE_W else 0)

/-- the loop of `loadseg` with `n` pages left -/
def loadsegLoop (T : Table 2) (va : Nat) (ip : Inode) (offset sz : Nat) :
    (n i : Nat) → Kernel Bool
  | 0, _ => pure true
  | n + 1, i =>
    if walkaddr T (va + i) = 0 then .panic "loadseg: address should exist"
    else do
      let m := min PGSIZE (sz - i)
      let r := ip ((offset + i) % 2 ^ 32) m
      Act.write (walkaddr T (va + i)) (min r.1 m) r.2
      if r.1 ≠ m then pure false else loadsegLoop T va ip offset sz n (i + PGSIZE)

def loadseg (T : Table 2) (va : Nat) (ip : Inode) (offset sz : BitVec 32) : Kernel Bool :=
  loadsegLoop T va ip offset.toNat sz.toNat ((sz.toNat + PGSIZE - 1) / PGSIZE) 0

/-- the loop over the program headers with `n` of them left, from the offset `off` -/
def loadLoop (ip : Inode) : (n : Nat) → Table 2 → (sz : Nat) → (off : BitVec 32) →
    Kernel (Table 2 × Nat × Bool)
  | 0, T, sz, _ => pure (T, sz, true)
  | n + 1, T, sz, off =>
    let ph := (ip off.toNat 56).2
    let vaddr := (get64 ph 16).toNat
    let filesz := get64 ph 32
    let memsz := get64 ph 40
    if (ip off.toNat 56).1 ≠ 56 then pure (T, sz, false)
    else if get32 ph 0 ≠ 1 then loadLoop ip n T sz (off + 56)
    else if memsz.toNat < filesz.toNat then pure (T, sz, false)
    else if vaddr + memsz.toNat ≥ 2 ^ 64 then pure (T, sz, false)
    else if vaddr % PGSIZE ≠ 0 then pure (T, sz, false)
    else do
      let (T, sz1) ← uvmalloc T sz (vaddr + memsz.toNat) (flags2perm (get32 ph 4))
      if sz1 = 0 then pure (T, sz, false)
      else
        if ← loadseg T vaddr ip ((get64 ph 8).setWidth 32) (filesz.setWidth 32) then
          loadLoop ip n T sz1 (off + 56)
        else pure (T, sz1, false)

/-- `strlen` of the string in a page -/
def strlen (b : Buf) : Nat := (findNul b PGSIZE).getD PGSIZE

/-- the argument strings are pushed; the stack pointer and the pointers pushed so far -/
def argLoop (T : Table 2) (stackbase : Nat) : (argv : List Nat) → (argc sp : Nat) →
    (ustack : List Nat) → Kernel (Option (Nat × List Nat))
  | [], _, sp, ustack => pure (some (sp, ustack))
  | pg :: argv, argc, sp, ustack =>
    if argc ≥ MAXARG then pure none
    else do
      let s ← Act.read pg PGSIZE
      let sp := sp - (strlen s + 1)
      let sp := sp - sp % 16
      if sp < stackbase then pure none
      else
        if ← copyout T sp s (strlen s + 1) then argLoop T stackbase argv (argc + 1) sp (ustack ++ [sp])
        else pure none

/-- the bytes of an array of `uint64` -/
def words (l : List Nat) : Buf := fun i => le64 (BitVec.ofNat 64 (l.getD (i / 8) 0)) (i % 8)

/-- the new stack; the stack pointer, or `none` for `goto bad` -/
def pushArgs (T : Table 2) (sz : Nat) (argv : List Nat) : Kernel (Option Nat) := do
  match ← argLoop T (sz - PGSIZE) argv 0 sz [] with
  | none => pure none
  | some (sp, ustack) => do
    let sp := sp - (argv.length + 1) * 8
    let sp := sp - sp % 16
    if sp < sz - PGSIZE then pure none
    else
      if ← copyout T sp (words (ustack ++ [0])) ((argv.length + 1) * 8) then pure (some sp)
      else pure none

/-- `exec` with the new page table, from the loop over the program headers on; the new page table,
size and stack pointer, or `none` after `bad:` -/
def execImage (T : Table 2) (elf : Buf) (ip : Inode) (argv : List Nat) :
    Kernel (Option (Table 2 × Nat × Nat)) := do
  let (T, sz, ok) ← loadLoop ip (get16 elf 56).toNat T 0 ((get64 elf 32).setWidth 32)
  if ok = false then do
    procFreepagetable T sz
    pure none
  else do
    let (T, sz1) ← uvmalloc T (PGROUNDUP sz) (PGROUNDUP sz + 2 * PGSIZE) PTE_W
    if sz1 = 0 then do
      procFreepagetable T (PGROUNDUP sz)
      pure none
    else do
      let T ← uvmclear T (sz1 - 2 * PGSIZE)
      match ← pushArgs T sz1 argv with
      | none => do
        procFreepagetable T sz1
        pure none
      | some sp => pure (some (T, sz1, sp))

def ELF_MAGIC : BitVec 32 := 0x464C457F

def exec (T : Table 2) (tf : Nat) (x : Proc) (ip : Option Inode) (argv : List Nat) :
    Kernel (Proc × Int) :=
  match ip with
  | none => pure (x, -1)
  | some ip =>
    let elf := (ip 0 64).2
    if (ip 0 64).1 ≠ 64 then pure (x, -1)
    else if get32 elf 0 ≠ ELF_MAGIC then pure (x, -1)
    else do
      match ← procPagetable L tf with
      | none => pure (x, -1)
      | some Tn => do
        match ← execImage Tn elf ip argv with
        | none => pure (x, -1)
        | some (Tn, sz, sp) => do
          Act.write (tf + 120) 8 (le64 (BitVec.ofNat 64 sp))
          Act.write (tf + 24) 8 (le64 (get64 elf 24))
          Act.write (tf + 48) 8 (le64 (BitVec.ofNat 64 sp))
          procFreepagetable T x.sz
          pure ({ x with pagetable := some Tn, sz := sz }, argv.length)

def fetchaddr (T : Table 2) (x : Proc) (addr : Nat) : Kernel (Option (BitVec 64)) := do
  if addr ≥ x.sz ∨ addr + 8 > x.sz then pure none
  else do
    match ← copyin T addr 8 with
    | none => pure none
    | some b => pure (some (get64 b 0))

/-- the loop of `sys_exec` with `n` entries of `argv` left; the pages, and whether it comes to `exec` -/
def argvLoop (T : Table 2) (x : Proc) (uargv : Nat) : (n i : Nat) → (argv : List Nat) →
    Kernel (List Nat × Bool)
  | 0, _, argv => pure (argv, false)
  | n + 1, i, argv => do
    match ← fetchaddr T x ((uargv + 8 * i) % 2 ^ 64) with
    | none => pure (argv, false)
    | some uarg =>
      if uarg = 0 then pure (argv, true)
      else do
        match ← Act.kalloc with
        | none => pure (argv, false)
        | some pg => do
          if ← copyinstr T pg uarg.toNat PGSIZE then argvLoop T x uargv n (i + 1) (argv ++ [pg])
          else pure (argv ++ [pg], false)

/-- `path` is whether `argstr` can read the path -/
def sysExec (T : Table 2) (tf : Nat) (x : Proc) (path : Bool) (uargv : Nat) (ip : Option Inode) :
    Kernel (Proc × Int) :=
  if path = false then pure (x, -1)
  else do
    let (argv, ok) ← argvLoop T x uargv MAXARG 0 []
    if ok = false then do
      argv.forM Act.kfree
      pure (x, -1)
    else do
      let r ← exec L T tf x ip argv
      argv.forM Act.kfree
      pure r

/-! ## booting -/

def kallocs (msg : String) : Nat → Kernel (List Nat)
  | 0 => pure []
  | n + 1 => do
    match ← Act.kalloc with
    | none => .panic msg
    | some pa => do
      let pas ← kallocs msg n
      pure (pa :: pas)

/-- `kvminit`, which takes `kpages` pages for the kernel page table and then the kernel stacks -/
def kvminit (kpages : Nat) : Kernel PUnit := do
  let tables ← kallocs "kvmmap" kpages
  let kstacks ← kallocs "kalloc" NPROC
  Act.keep (tables ++ kstacks)

/-- `userinit` with the bytes of `initcode`; the page table of the first process -/
def userinit (initcode : Buf) : Kernel (Table 2) := do
  match ← allocproc L with
  | none => .panic "kerneltrap"
  | some (q, T, tf) => do
    let T ← uvmfirst T initcode 52
    Act.write (tf + 24) 8 fun _ => 0
    Act.write (tf + 48) 8 (le64 (BitVec.ofNat 64 PGSIZE))
    Act.putback q { Proc.free with
      state := .runnable, pagetable := some T, trapframe := some tf, sz := PGSIZE }
    pure T

/-- the part of `main` after `kinit` that takes pages -/
def boot (kpages : Nat) (initcode : Buf) : Kernel (Table 2) := do
  kvminit kpages
  userinit L initcode

end Vm
