import Xv6.Lib.Prog
import Xv6.Vm.Table

/-!
# The kernel state that system calls share, and the atomic actions on it

Kernel threads of different processes meet in the page allocator, in the process table and in the
table of open files.  Every access to these is a critical section under a lock and is one action
here; the code between two actions works on what its own process holds, and is a program in
`Vm.Address` and `Vm.Process`.

A slot of the process table can be `out`: its page table, trapframe and open files are then in the
hands of a kernel thread, which is the thread of the process itself during a system call, a `fork`
that fills the slot or a `wait` that empties it, and `putback` ends that.

Scheduling is left out, so `runnable` stands for `SLEEPING`, `RUNNABLE` and `RUNNING`.
-/

namespace Vm
open Run Bytes

def NPROC : Nat := 64

def NFILE : Nat := 100

def NOFILE : Nat := 16

abbrev Slot := Fin NPROC

abbrev FileNo := Fin NFILE

inductive ProcState where
  | unused
  | used
  | runnable
  | zombie
  deriving DecidableEq

structure Proc where
  state : ProcState
  pagetable : Option (Table 2)
  trapframe : Option Nat
  sz : Nat
  killed : Bool
  xstate : BitVec 32
  ofile : Fin NOFILE → Option FileNo

/-- what `freeproc` leaves -/
def Proc.free : Proc := ⟨.unused, none, none, 0, false, 0, fun _ => none⟩

/-- `FD_NONE`, `FD_PIPE` with `pipe` and `writable`, `FD_INODE` -/
inductive FileKind where
  | none
  | pipe (pi : Nat) (writable : Bool)
  | inode
  deriving DecidableEq

structure File where
  ref : Nat
  kind : FileKind

/-- the page of a pipe, with the two fields that decide when it is freed -/
structure Pipe where
  pa : Nat
  readopen : Bool
  writeopen : Bool
  deriving DecidableEq

def Pipe.close (p : Pipe) (writable : Bool) : Pipe :=
  if writable then { p with writeopen := false } else { p with readopen := false }

structure Sys where
  kmem : Kmem
  /-- the pages of the kernel page table and the kernel stacks -/
  kernel : List Nat
  proc : Slot → Proc
  out : Slot → Bool
  parent : Slot → Option Slot
  ftable : FileNo → File
  pipes : List Pipe

/-! ## actions -/

inductive Op where
  | kalloc
  | kfree (pa : Nat)
  | inckref (pa : Nat)
  | deckref (pa : Nat)
  | memset (a n : Nat) (c : Byte)
  | memmove (dst src n : Nat)
  | read (a n : Nat)
  | write (a n : Nat) (b : Buf)
  /-- `allocproc` looks at a slot and takes it if it is `UNUSED` -/
  | claim (q : Slot)
  /-- `wait` of `p` looks at the slot `q` -/
  | zombie (p q : Slot)
  /-- `wait` of `p` takes its zombie child `q` apart -/
  | reap (p q : Slot)
  | putback (q : Slot) (x : Proc)
  | setParent (q p : Slot)
  | reparent (p : Slot)
  | filealloc
  | filedup (f : FileNo)
  | fileclose (f : FileNo)
  | setfile (f : FileNo) (k : FileKind)
  | pipeopen (pi : Nat)
  | pipeclose (pi : Nat) (writable : Bool)
  /-- pages that the kernel keeps for good -/
  | keep (pages : List Nat)

/-- the answers -/
def Op.Res : Op → Type
  | .kalloc => Option Nat
  | .read _ _ => Buf
  | .claim _ => Bool
  | .zombie _ _ => Option (Option (BitVec 32))
  | .reap _ _ => Proc
  | .filealloc => Option FileNo
  | .fileclose _ => Option (Nat × Bool)
  | .pipeclose _ _ => Bool
  | _ => Unit

/-- memory the kernel can access through its direct map -/
def ram (a n : Nat) : Prop := KERNBASE ≤ a ∧ a + n ≤ PHYSTOP

instance (a n : Nat) : Decidable (ram a n) := inferInstanceAs (Decidable (_ ∧ _))

def initproc : Slot := ⟨0, by decide⟩

variable (L : Layout)

def Sys.setKmem (s : Sys) (k : Kmem) : Sys := { s with kmem := k }

def Sys.setMem (s : Sys) (m : Nat → Byte) : Sys := s.setKmem { s.kmem with mem := m }

def Sys.setFile (s : Sys) (f : FileNo) (x : File) : Sys :=
  { s with ftable := Function.update s.ftable f x }

def Sys.setOut (s : Sys) (q : Slot) (b : Bool) (x : Proc) : Sys :=
  { s with out := Function.update s.out q b, proc := Function.update s.proc q x }

/-- a slot that is locked by the thread that fills or empties it -/
def Proc.locked : Proc := { Proc.free with state := .used }

/-- an access to memory that the kernel has not mapped ends in `kerneltrap` -/
def touch (a n : Nat) {α : Type} (x : α) : Outcome α :=
  if ram a n then .next x else .panic "kerneltrap"

-- a slot whose lock is held for long is `used`; going on without it covers waiting for the lock,
-- since a thread may rest before any action
def Sys.claim (s : Sys) (q : Slot) : Outcome (Bool × Sys) :=
  match (s.proc q).state with
  | .unused => .next (true, s.setOut q true Proc.locked)
  | _ => .next (false, s)

def Sys.zombie (s : Sys) (p q : Slot) : Option (Option (BitVec 32)) :=
  if s.parent q = some p then
    some (if (s.proc q).state = .zombie then some (s.proc q).xstate else none)
  else none

-- the lock of the child is held since `zombie` has found it
def Sys.reap (s : Sys) (p q : Slot) : Outcome (Proc × Sys) :=
  if s.parent q = some p ∧ (s.proc q).state = .zombie ∧ s.out q = false then
    .next (s.proc q, s.setOut q true Proc.locked)
  else .blocked

def Sys.filealloc (s : Sys) : Option FileNo × Sys :=
  match (List.finRange NFILE).find? fun f => (s.ftable f).ref = 0 with
  | some f => (some f, s.setFile f { s.ftable f with ref := 1 })
  | none => (none, s)

def Sys.filedup (s : Sys) (f : FileNo) : Outcome Sys :=
  if (s.ftable f).ref < 1 then .panic "filedup"
  else .next (s.setFile f { s.ftable f with ref := (s.ftable f).ref + 1 })

/-- the locked part of `fileclose`, with the pipe end that is to be closed after it -/
def Sys.fileclose (s : Sys) (f : FileNo) : Outcome (Option (Nat × Bool) × Sys) :=
  if (s.ftable f).ref < 1 then .panic "fileclose"
  else if (s.ftable f).ref - 1 > 0 then
    .next (none, s.setFile f { s.ftable f with ref := (s.ftable f).ref - 1 })
  else
    .next (match (s.ftable f).kind with
      | .pipe pi w => some (pi, w)
      | _ => none, s.setFile f ⟨0, .none⟩)

/-- `pipeclose` up to its `kfree`, with whether that is to follow -/
def Sys.pipeclose (s : Sys) (pi : Nat) (w : Bool) : Outcome (Bool × Sys) :=
  match s.pipes.find? fun x => x.pa = pi with
  | none => .panic Prog.undef
  | some x =>
    if (x.close w).readopen = false ∧ (x.close w).writeopen = false then
      .next (true, { s with pipes := s.pipes.erase x })
    else .next (false, { s with pipes := x.close w :: s.pipes.erase x })

def sem : (o : Op) → Sys → Outcome (o.Res × Sys)
  | .kalloc, s => .next ((kalloc L s.kmem).1, s.setKmem (kalloc L s.kmem).2)
  | .kfree pa, s => (kfree L s.kmem pa).map fun k => ((), s.setKmem k)
  | .inckref pa, s => .next ((), s.setKmem (inckref L s.kmem pa))
  | .deckref pa, s => .next ((), s.setKmem (deckref L s.kmem pa))
  | .memset a n c, s => touch a n ((), s.setKmem (s.kmem.memset a n c))
  | .memmove dst src n, s =>
    if ram src n then touch dst n ((), s.setMem (splice s.kmem.mem dst n fun i => s.kmem.mem (src + i)))
    else .panic "kerneltrap"
  | .read a n, s => touch a n (fun i => s.kmem.mem (a + i), s)
  | .write a n b, s => touch a n ((), s.setMem (splice s.kmem.mem a n b))
  | .claim q, s => s.claim q
  | .zombie p q, s => .next (s.zombie p q, s)
  | .reap p q, s => s.reap p q
  | .putback q x, s => .next ((), s.setOut q false x)
  | .setParent q p, s => .next ((), { s with parent := Function.update s.parent q (some p) })
  | .reparent p, s =>
    .next ((), { s with parent := fun q => if s.parent q = some p then some initproc else s.parent q })
  | .filealloc, s => .next s.filealloc
  | .filedup f, s => (s.filedup f).map fun s' => ((), s')
  | .fileclose f, s => s.fileclose f
  | .setfile f k, s => .next ((), s.setFile f { s.ftable f with kind := k })
  | .pipeopen pi, s => .next ((), { s with pipes := ⟨pi, true, true⟩ :: s.pipes })
  | .pipeclose pi w, s => s.pipeclose pi w
  | .keep pages, s => .next ((), { s with kernel := pages ++ s.kernel })

/-- kernel code -/
abbrev Kernel := Prog Op Op.Res

namespace Act

def kalloc : Kernel (Option Nat) := Prog.perform Op.kalloc

def kfree (pa : Nat) : Kernel Unit := Prog.perform (Op.kfree pa)

def inckref (pa : Nat) : Kernel Unit := Prog.perform (Op.inckref pa)

def deckref (pa : Nat) : Kernel Unit := Prog.perform (Op.deckref pa)

def memset (a n : Nat) (c : Byte) : Kernel Unit := Prog.perform (Op.memset a n c)

def memmove (dst src n : Nat) : Kernel Unit := Prog.perform (Op.memmove dst src n)

def read (a n : Nat) : Kernel Buf := Prog.perform (Op.read a n)

def write (a n : Nat) (b : Buf) : Kernel Unit := Prog.perform (Op.write a n b)

def claim (q : Slot) : Kernel Bool := Prog.perform (Op.claim q)

def zombie (p q : Slot) : Kernel (Option (Option (BitVec 32))) := Prog.perform (Op.zombie p q)

def reap (p q : Slot) : Kernel Proc := Prog.perform (Op.reap p q)

def putback (q : Slot) (x : Proc) : Kernel Unit := Prog.perform (Op.putback q x)

def setParent (q p : Slot) : Kernel Unit := Prog.perform (Op.setParent q p)

def reparent (p : Slot) : Kernel Unit := Prog.perform (Op.reparent p)

def filealloc : Kernel (Option FileNo) := Prog.perform Op.filealloc

def filedup (f : FileNo) : Kernel Unit := Prog.perform (Op.filedup f)

def fileclose (f : FileNo) : Kernel (Option (Nat × Bool)) := Prog.perform (Op.fileclose f)

def setfile (f : FileNo) (k : FileKind) : Kernel Unit := Prog.perform (Op.setfile f k)

def pipeopen (pi : Nat) : Kernel Unit := Prog.perform (Op.pipeopen pi)

def pipeclose (pi : Nat) (w : Bool) : Kernel Bool := Prog.perform (Op.pipeclose pi w)

def keep (pages : List Nat) : Kernel Unit := Prog.perform (Op.keep pages)

end Act

end Vm
