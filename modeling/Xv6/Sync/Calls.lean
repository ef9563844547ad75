import Xv6.Sync.Model
import Xv6.Console.Model

/-!
# The code that sleeps (`sleeplock.c`, `pipe.c`, `wait`, `consoleread`, `sys_sleep`)

The kernel as a monitor: sleep-locks and pipes (any number of them), the console, the clock, and
`wait_lock` with what `wait` looks at.  Loops that can sleep any number of times take a bound for
their turns; a run in which one is used up has no next state.

Two things are recorded that the kernel does not store: the processes between `acquiresleep` and
`releasesleep`, and the bytes that have gone into and out of a pipe.  `giveUp` marks the early exit of
`pipewrite` and says how many bytes the call has put into the ring since it woke readers or took the
lock.

User memory is given by what `copyin` and `copyout` answer.  The end of `pipeclose` that frees the page
is left out.
-/

namespace Sync
open Run Prog Bytes
open Sched (Slot NPROC ProcState)
open Console (Cons ctrl newline)

/-! ## sleep-locks -/

structure SleepLock where
  locked : Bool
  pid : Int
  /-- who is between `acquiresleep` and `releasesleep` -/
  holders : List Slot

inductive SleepAct where
  /-- `lk->locked` -/
  | isLocked
  /-- `lk->locked = 1; lk->pid = myproc()->pid` -/
  | take
  /-- `lk->locked = 0; lk->pid = 0` -/
  | clear
  /-- `lk->locked && (lk->pid == myproc()->pid)` -/
  | isHolding

def SleepAct.Ans : SleepAct → Type
  | .isLocked | .isHolding => Bool
  | _ => Unit

def SleepAct.eff (p : Slot) (pid : Int) : (a : SleepAct) → SleepLock → a.Ans × SleepLock
  | .isLocked, d => (d.locked, d)
  | .take, d => ((), ⟨true, pid, p :: d.holders⟩)
  | .clear, d => ((), ⟨false, 0, d.holders.erase p⟩)
  | .isHolding, d => (d.locked && d.pid = pid, d)

/-! ## pipes -/

def PIPESIZE : Nat := 512

structure Pipe where
  data : Buf
  nread : BitVec 32
  nwrite : BitVec 32
  readopen : Bool
  writeopen : Bool
  /-- the bytes taken from writers -/
  accepted : List Byte
  /-- the bytes taken out of the ring -/
  removed : List Byte

inductive PipeAct where
  | isReadopen
  | isWriteopen
  /-- `pi->nwrite == pi->nread + PIPESIZE` -/
  | isFull
  /-- `pi->nread == pi->nwrite` -/
  | isEmpty
  /-- `pi->data[pi->nwrite++ % PIPESIZE] = ch` -/
  | put (ch : Byte)
  /-- `ch = pi->data[pi->nread++ % PIPESIZE]` -/
  | get
  /-- `pi->writeopen = 0` or `pi->readopen = 0` -/
  | close (writable : Bool)
  | giveUp (fresh : Nat)

def PipeAct.Ans : PipeAct → Type
  | .isReadopen | .isWriteopen | .isFull | .isEmpty => Bool
  | .get => Byte
  | _ => Unit

def PipeAct.eff : (a : PipeAct) → Pipe → a.Ans × Pipe
  | .isReadopen, d => (d.readopen, d)
  | .isWriteopen, d => (d.writeopen, d)
  | .isFull, d => (d.nwrite == d.nread + BitVec.ofNat 32 PIPESIZE, d)
  | .isEmpty, d => (d.nread == d.nwrite, d)
  | .put ch, d => ((), { d with
      data := Function.update d.data (d.nwrite.toNat % PIPESIZE) ch
      nwrite := d.nwrite + 1
      accepted := d.accepted ++ [ch] })
  | .get, d =>
    let ch := d.data (d.nread.toNat % PIPESIZE)
    (ch, { d with nread := d.nread + 1, removed := d.removed ++ [ch] })
  | .close true, d => ((), { d with writeopen := false })
  | .close false, d => ((), { d with readopen := false })
  | .giveUp _, d => ((), d)

/-! ## the console and the children of a process -/

inductive ConsAct where
  /-- `cons.r == cons.w` -/
  | isEmpty
  /-- `cons.buf[cons.r++ % INPUT_BUF_SIZE]` -/
  | take
  /-- `cons.r--` -/
  | putBack

def ConsAct.Ans : ConsAct → Type
  | .isEmpty => Bool
  | .take => Byte
  | .putBack => Unit

def ConsAct.eff : (a : ConsAct) → Cons → a.Ans × Cons
  | .isEmpty, d => (d.r == d.w, d)
  | .take, d => (d.get d.r, { d with r := d.r + 1 })
  | .putBack, d => ((), { d with r := d.r - 1 })

/-- what the scan of `wait` finds in the table: for every process its children, with their pids and
whether they are zombies -/
abbrev Kids : Type := Slot → List (Int × Bool)

inductive WaitAct where
  /-- the first zombie that the scan of the table meets -/
  | zombie
  /-- `havekids` after a scan -/
  | havekids
  /-- `freeproc` of that zombie -/
  | reap

def WaitAct.Ans : WaitAct → Type
  | .zombie => Option Int
  | .havekids => Bool
  | .reap => Unit

def WaitAct.eff (p : Slot) : (a : WaitAct) → Kids → a.Ans × Kids
  | .zombie, d => (((d p).find? fun x => x.2).map fun x => x.1, d)
  | .havekids, d => (!(d p).isEmpty, d)
  | .reap, d => ((), Function.update d p ((d p).eraseP fun x => x.2))

/-! ## the kernel -/

inductive KLock where
  | sleep (i : Nat)
  | pipe (j : Nat)
  | cons
  | ticks
  | wait
  deriving DecidableEq

inductive KChan where
  | sleep (i : Nat)
  | nread (j : Nat)
  | nwrite (j : Nat)
  | consR
  | ticks
  | proc (p : Slot)
  deriving DecidableEq

def KLock.Data : KLock → Type
  | .sleep _ => SleepLock
  | .pipe _ => Pipe
  | .cons => Cons
  | .ticks => BitVec 32
  | .wait => Kids

def KLock.Act : KLock → Type
  | .sleep _ => SleepAct
  | .pipe _ => PipeAct
  | .cons => ConsAct
  | .ticks => Unit
  | .wait => WaitAct

def KLock.Ans : (l : KLock) → l.Act → Type
  | .sleep _, a => SleepAct.Ans a
  | .pipe _, a => PipeAct.Ans a
  | .cons, a => ConsAct.Ans a
  | .ticks, _ => BitVec 32
  | .wait, a => WaitAct.Ans a

def KLock.eff (p : Slot) (pid : Int) : (l : KLock) → (a : l.Act) → l.Data → l.Ans a × l.Data
  | .sleep _, a, d => SleepAct.eff p pid a d
  | .pipe _, a, d => PipeAct.eff a d
  | .cons, a, d => ConsAct.eff a d
  | .ticks, _, d => (d, d)
  | .wait, a, d => WaitAct.eff p a d

/-- the handler of the console and `clockintr`; the children of a process change when others call
`fork` and `exit` -/
def KLock.Intr : KLock → Type
  | .cons => Cons
  | .ticks => Unit
  | .wait => Kids
  | _ => Empty

def KLock.intr : (l : KLock) → l.Intr → l.Data → l.Data
  | .cons, d, _ => d
  | .ticks, _, d => (show BitVec 32 from d) + 1
  | .wait, d, _ => d

abbrev kernel : Monitor where
  Lk := KLock
  Chan := KChan
  Data := KLock.Data
  Act := KLock.Act
  Ans := fun {l} a => l.Ans a
  eff := fun {l} a p pid d => l.eff p pid a d
  Intr := KLock.Intr
  intr := fun {l} a d => l.intr a d

/-- the bound for the turns of a loop is used up -/
def outOfFuel : String := "out of fuel"

section
variable (i j : Nat)

/-! ## `sleeplock.c` -/

def sleepWork (a : SleepAct) : Code kernel a.Ans := work (M := kernel) (.sleep i) a

def isLocked : Code kernel Bool := sleepWork i .isLocked

def isHolding : Code kernel Bool := sleepWork i .isHolding

/-- `while (lk->locked) sleep(lk, &lk->lk)` -/
def acquiresleepLoop : (fuel : Nat) → Code kernel Unit
  | 0 => .panic outOfFuel
  | fuel + 1 => do
    if ← isLocked i then
      sleep (M := kernel) (.sleep i) (.sleep i)
      acquiresleepLoop fuel
    else pure ()

def acquiresleep (fuel : Nat) : Code kernel Unit := do
  acquire (M := kernel) (.sleep i)
  acquiresleepLoop i fuel
  sleepWork i .take
  release (M := kernel) (.sleep i)

def releasesleep : Code kernel Unit := do
  acquire (M := kernel) (.sleep i)
  sleepWork i .clear
  wakeup (M := kernel) (.sleep i)
  release (M := kernel) (.sleep i)

def holdingsleep : Code kernel Bool := do
  acquire (M := kernel) (.sleep i)
  let r ← isHolding i
  release (M := kernel) (.sleep i)
  return r

/-! ## `pipe.c` -/

def pipeWork (a : PipeAct) : Code kernel a.Ans := work (M := kernel) (.pipe j) a

def isReadopen : Code kernel Bool := pipeWork j .isReadopen

def isWriteopen : Code kernel Bool := pipeWork j .isWriteopen

def isFull : Code kernel Bool := pipeWork j .isFull

def isEmpty : Code kernel Bool := pipeWork j .isEmpty

def pipeclose (writable : Bool) : Code kernel Unit := do
  acquire (M := kernel) (.pipe j)
  pipeWork j (.close writable)
  wakeup (M := kernel) (if writable then .nread j else .nwrite j)
  release (M := kernel) (.pipe j)

/-- `pi->readopen == 0 || killed(pr)` -/
def readerGone : Code kernel Bool := do
  if ← isReadopen j then killed else return true

/-- the loop of `pipewrite`, with what `copyin` answers; `none` when it has returned -1 -/
def pipewriteLoop (src : Nat → Option Byte) (n : Int) :
    (fuel i fresh : Nat) → Code kernel (Option Nat)
  | 0, _, _ => .panic outOfFuel
  | fuel + 1, i, fresh =>
    if (i : Int) < n then do
      if ← readerGone j then
        pipeWork j (.giveUp fresh)
        release (M := kernel) (.pipe j)
        return none
      else if ← isFull j then
        wakeup (M := kernel) (.nread j)
        sleep (M := kernel) (.nwrite j) (.pipe j)
        pipewriteLoop src n fuel i 0
      else
        match src i with
        | none => return some i
        | some ch =>
          pipeWork j (.put ch)
          pipewriteLoop src n fuel (i + 1) (fresh + 1)
    else return some i

def pipewrite (src : Nat → Option Byte) (n : Int) (fuel : Nat) : Code kernel Int := do
  acquire (M := kernel) (.pipe j)
  match ← pipewriteLoop j src n fuel 0 0 with
  | none => return -1
  | some i =>
    wakeup (M := kernel) (.nread j)
    release (M := kernel) (.pipe j)
    return i

/-- `pi->nread == pi->nwrite && pi->writeopen` -/
def mustWait : Code kernel Bool := do
  if ← isEmpty j then isWriteopen j else return false

/-- the first loop of `piperead`; `false` when it has returned -1 -/
def pipereadWait : (fuel : Nat) → Code kernel Bool
  | 0 => .panic outOfFuel
  | fuel + 1 => do
    if ← mustWait j then
      if ← killed then
        release (M := kernel) (.pipe j)
        return false
      else
        sleep (M := kernel) (.nread j) (.pipe j)
        pipereadWait fuel
    else return true

/-- the second loop of `piperead` for the next `m` bytes, with what `copyout` answers -/
def pipereadCopy (dst : Nat → Bool) : (m i : Nat) → Code kernel Nat
  | 0, i => return i
  | m + 1, i => do
    if ← isEmpty j then return i
    else
      let _ ← pipeWork j .get
      if dst i then pipereadCopy dst m (i + 1) else return i

def piperead (dst : Nat → Bool) (n : Int) (fuel : Nat) : Code kernel Int := do
  acquire (M := kernel) (.pipe j)
  if ← pipereadWait j fuel then
    let i ← pipereadCopy j dst n.toNat 0
    wakeup (M := kernel) (.nwrite j)
    release (M := kernel) (.pipe j)
    return i
  else return -1

end

/-! ## `wait`, `consoleread`, `sys_sleep` -/

def waitWork (a : WaitAct) : Code kernel a.Ans := work (M := kernel) .wait a

def zombie : Code kernel (Option Int) := waitWork .zombie

def havekids : Code kernel Bool := waitWork .havekids

/-- `!havekids || killed(p)` -/
def noWait : Code kernel Bool := do
  if ← havekids then killed else return true

/-- the loop of `wait` in the process `p`; `copied` is what `copyout` of the status answers -/
def waitLoop (p : Slot) (copied : Bool) : (fuel : Nat) → Code kernel Int
  | 0 => .panic outOfFuel
  | fuel + 1 => do
    match ← zombie with
    | some pid =>
      if copied then
        waitWork .reap
        release (M := kernel) .wait
        return pid
      else
        release (M := kernel) .wait
        return -1
    | none =>
      if ← noWait then
        release (M := kernel) .wait
        return -1
      else
        sleep (M := kernel) (.proc p) .wait
        waitLoop p copied fuel

def wait (p : Slot) (copied : Bool) (fuel : Nat) : Code kernel Int := do
  acquire (M := kernel) .wait
  waitLoop p copied fuel

def consWork (a : ConsAct) : Code kernel a.Ans := work (M := kernel) .cons a

def consEmpty : Code kernel Bool := consWork .isEmpty

def consTake : Code kernel Byte := consWork .take

/-- `while (cons.r == cons.w)`; `false` when `consoleread` has returned -1 -/
def consoleWait : (fuel : Nat) → Code kernel Bool
  | 0 => .panic outOfFuel
  | fuel + 1 => do
    if ← consEmpty then
      if ← killed then
        release (M := kernel) .cons
        return false
      else
        sleep (M := kernel) .consR .cons
        consoleWait fuel
    else return true

/-- the loop of `consoleread`, with `n` bytes to go; `none` when it has returned -1 -/
def consoleLoop (copied : Nat → Bool) (target fuel : Nat) : (n : Nat) → Code kernel (Option Nat)
  | 0 => return some 0
  | n + 1 => do
    if ← consoleWait fuel then
      let c ← consTake
      if c = ctrl 'D' then
        if n + 1 < target then
          consWork .putBack
          return some (n + 1)
        else return some (n + 1)
      else if copied n then
        if c = newline then return some n else consoleLoop copied target fuel n
      else return some (n + 1)
    else return none

def consoleread (copied : Nat → Bool) (n : Int) (fuel : Nat) : Code kernel Int := do
  acquire (M := kernel) .cons
  match ← consoleLoop copied n.toNat fuel n.toNat with
  | none => return -1
  | some m =>
    release (M := kernel) .cons
    return if 0 < n then n.toNat - m else 0

def readTicks : Code kernel (BitVec 32) := work (M := kernel) .ticks ()

/-- `while (ticks - ticks0 < n)`, where C makes `n` unsigned -/
def sysSleepLoop (n ticks0 : BitVec 32) : (fuel : Nat) → Code kernel Int
  | 0 => .panic outOfFuel
  | fuel + 1 => do
    let ticks ← readTicks
    if ticks - ticks0 < n then
      if ← killed then
        release (M := kernel) .ticks
        return -1
      else
        sleep (M := kernel) .ticks .ticks
        sysSleepLoop n ticks0 fuel
    else
      release (M := kernel) .ticks
      return 0

def sysSleep (n : BitVec 32) (fuel : Nat) : Code kernel Int := do
  acquire (M := kernel) .ticks
  let ticks0 ← readTicks
  sysSleepLoop n ticks0 fuel

/-! ## calls -/

inductive Call where
  | acquiresleep (i fuel : Nat)
  | releasesleep (i : Nat)
  | holdingsleep (i : Nat)
  | pipewrite (j : Nat) (src : Nat → Option Byte) (n : Int) (fuel : Nat)
  | piperead (j : Nat) (dst : Nat → Bool) (n : Int) (fuel : Nat)
  | pipeclose (j : Nat) (writable : Bool)
  | wait (copied : Bool) (fuel : Nat)
  | consoleread (copied : Nat → Bool) (n : Int) (fuel : Nat)
  | sysSleep (n : BitVec 32) (fuel : Nat)
  | kill (pid : Int)

/-- the code of a call of the process `p`, without what it returns -/
def Call.code (p : Slot) : Call → Code kernel Unit
  | .acquiresleep i fuel => Sync.acquiresleep i fuel
  | .releasesleep i => Sync.releasesleep i
  | .holdingsleep i => do let _ ← Sync.holdingsleep i
  | .pipewrite j src n fuel => do let _ ← Sync.pipewrite j src n fuel
  | .piperead j dst n fuel => do let _ ← Sync.piperead j dst n fuel
  | .pipeclose j writable => Sync.pipeclose j writable
  | .wait copied fuel => do let _ ← Sync.wait p copied fuel
  | .consoleread copied n fuel => do let _ ← Sync.consoleread copied n fuel
  | .sysSleep n fuel => do let _ ← Sync.sysSleep n fuel
  | .kill pid => do let _ ← Sync.kill pid

end Sync
