import Xv6.Lib.Prog
import Xv6.Sched.Model

/-!
# Spinlocks, sleep, wakeup and kill (`kernel/proc.c`, `kernel/spinlock.c`)

Processes run kernel code that takes spinlocks, works on what a lock protects, and waits in `sleep`
for a `wakeup`.  The code itself is a parameter: a `Monitor` says which locks and channels there are
and what is done under a lock, and a table of calls gives the programs.

A step of a process is one access to the shared memory: taking or releasing one lock, one work on
protected data, one of the lines of `sleep`, `wakeup`, `kill` and `killed`.  So the window between
`release(lk)` and `p->state = SLEEPING` is there, and others run in it.

* `micro`     one step of one operation, by the position `Pc` inside it;
* `step`      one event: a call, a step, a timer interrupt, a switch by the scheduler, a handler.

The process that sleeps or is preempted gives its CPU back, and the scheduler switches to it again
only from `RUNNABLE`, under `p->lock`, which it passes on to the process.  Which CPU that is plays no
part.  `noff` is counted for a process, as the comment before `sched` says that it should be.
-/

namespace Sync
open Run Prog
open Sched (Slot NPROC ProcState)

/-- the locks of a part of the kernel with the data under each of them, what processes (by slot and
pid) and interrupt handlers do to it while they have the lock, and the channels -/
structure Monitor where
  Lk : Type
  Chan : Type
  Data : Lk → Type
  Act : Lk → Type
  Ans : {l : Lk} → Act l → Type
  eff : {l : Lk} → (a : Act l) → Slot → Int → Data l → Ans a × Data l
  Intr : Lk → Type
  intr : {l : Lk} → Intr l → Data l → Data l
  [decLk : DecidableEq Lk]
  [decChan : DecidableEq Chan]

attribute [instance] Monitor.decLk Monitor.decChan

/-- the fields of `struct proc` that `sleep`, `wakeup` and `kill` use; `chan = 0` is `none` -/
structure Proc (M : Monitor) where
  state : ProcState
  chan : Option M.Chan
  killed : Bool
  pid : Int

/-- a spinlock: `p->lock` of a slot, or a lock of the monitor -/
inductive Spin (M : Monitor) where
  | proc (q : Slot)
  | of (l : M.Lk)
  deriving DecidableEq

structure State (M : Monitor) where
  data : (l : M.Lk) → M.Data l
  /-- who holds a lock -/
  lock : Spin M → Option Slot
  noff : Slot → Nat
  proc : Slot → Proc M

namespace State
variable {M : Monitor}

def setProc (s : State M) (p : Slot) (x : Proc M) : State M :=
  { s with proc := Function.update s.proc p x }

/-- `push_off`, and the lock is taken -/
def hold (s : State M) (p : Slot) (l : Spin M) : State M :=
  { s with
    lock := Function.update s.lock l (some p)
    noff := Function.update s.noff p (s.noff p + 1) }

/-- the lock is free, and `pop_off` -/
def drop (s : State M) (p : Slot) (l : Spin M) : State M :=
  { s with
    lock := Function.update s.lock l none
    noff := Function.update s.noff p (s.noff p - 1) }

/-- `acquire`; it spins while another process has the lock -/
def acquire (s : State M) (p : Slot) (l : Spin M) : Outcome (State M) :=
  match s.lock l with
  | none => .next (s.hold p l)
  | some q => if q = p then .panic "acquire" else .blocked

def release (s : State M) (p : Slot) (l : Spin M) : Outcome (State M) :=
  if s.lock l = some p then .next (s.drop p l) else .panic "release"

/-- `sched`, up to where the scheduler has released `p->lock` -/
def sched (s : State M) (p : Slot) : Outcome (State M) :=
  if s.lock (.proc p) ≠ some p then .panic "sched p->lock"
  else if s.noff p ≠ 1 then .panic "sched locks"
  else if (s.proc p).state = .RUNNING then .panic "sched running"
  else .next (s.drop p (.proc p))

/-- the body of the loop of `wakeup`, under `p->lock` -/
def wake (s : State M) (q : Slot) (c : M.Chan) : State M :=
  if (s.proc q).state = .SLEEPING ∧ (s.proc q).chan = some c then
    s.setProc q { s.proc q with state := .RUNNABLE }
  else s

/-- what `kill` does to the process it has found -/
def kill (s : State M) (q : Slot) : State M :=
  s.setProc q { s.proc q with
    killed := true
    state := if (s.proc q).state = .SLEEPING then .RUNNABLE else (s.proc q).state }

end State

/-! ## operations and their steps -/

inductive Op (M : Monitor) where
  | acquire (l : M.Lk)
  | release (l : M.Lk)
  | act (l : M.Lk) (a : M.Act l)
  | sleep (c : M.Chan) (l : M.Lk)
  | wakeup (c : M.Chan)
  | killed
  | kill (pid : Int)

/-- `kill` answers whether it has found the pid -/
def Op.Res {M : Monitor} : Op M → Type
  | .act _ a => M.Ans a
  | .killed => Bool
  | .kill _ => Bool
  | _ => Unit

abbrev Code (M : Monitor) (α : Type) : Type := Prog (Op M) Op.Res α

section
variable {M : Monitor}

def acquire (l : M.Lk) : Code M Unit := perform (Op.acquire l)

def release (l : M.Lk) : Code M Unit := perform (Op.release l)

/-- work on what the lock protects -/
def work (l : M.Lk) (a : M.Act l) : Code M (M.Ans a) := perform (Op.act l a)

def sleep (c : M.Chan) (l : M.Lk) : Code M Unit := perform (Op.sleep c l)

def wakeup (c : M.Chan) : Code M Unit := perform (Op.wakeup c)

/-- `killed(myproc())` -/
def killed : Code M Bool := perform Op.killed

def kill (pid : Int) : Code M Bool := perform (Op.kill pid)

end

/-- where a process is inside an operation -/
inductive Pc where
  /-- before the first step -/
  | call
  /-- `sleep`, with `p->lock`: before `release(lk)` -/
  | sleepRelease
  /-- before `p->chan = chan` -/
  | sleepChan
  /-- before `p->state = SLEEPING` -/
  | sleepState
  /-- before `sched()` -/
  | sleepSched
  /-- in `swtch` -/
  | asleep
  /-- switched to again, with `p->lock`: before `p->chan = 0` -/
  | sleepTidy
  /-- before `release(&p->lock)` -/
  | sleepUnlock
  /-- before `acquire(lk)` -/
  | sleepAcquire
  /-- `wakeup` and `kill`: before the slot `i` -/
  | loop (i : Nat)
  /-- they have the lock of the slot -/
  | locked (q : Slot)
  /-- before they release it and go on -/
  | unlock (q : Slot)
  /-- `kill`: before it releases the lock and returns 0 -/
  | found (q : Slot)
  /-- `killed`, with `p->lock`: before `k = p->killed` -/
  | killedRead
  /-- before `release(&p->lock)` -/
  | killedUnlock (k : Bool)
  /-- in `swtch` of the `yield` of a timer interrupt -/
  | preempted (pc : Pc)
  deriving DecidableEq

section
variable {M : Monitor}

/-- a step that leaves the operation unfinished, and one that ends it -/
def goto {o : Op M} (pc : Pc) (s : State M) : State M × (Pc ⊕ o.Res) := (s, .inl pc)

def done {o : Op M} (x : o.Res) (s : State M) : State M × (Pc ⊕ o.Res) := (s, .inr x)

/-- one step of the process `p` inside an operation -/
def micro (s : State M) (p : Slot) : (o : Op M) → Pc → Outcome (State M × (Pc ⊕ o.Res))
  | .acquire l, .call => (s.acquire p (.of l)).map (done ())
  | .release l, .call => (s.release p (.of l)).map (done ())
  | .act l a, .call =>
    let r := M.eff a p (s.proc p).pid (s.data l)
    .next (done r.1 { s with data := Function.update s.data l r.2 })
  | .sleep _ _, .call => (s.acquire p (.proc p)).map (goto .sleepRelease)
  | .sleep _ l, .sleepRelease => (s.release p (.of l)).map (goto .sleepChan)
  | .sleep c _, .sleepChan => .next (goto .sleepState (s.setProc p { s.proc p with chan := some c }))
  | .sleep _ _, .sleepState =>
    .next (goto .sleepSched (s.setProc p { s.proc p with state := .SLEEPING }))
  | .sleep _ _, .sleepSched => (s.sched p).map (goto .asleep)
  | .sleep _ _, .sleepTidy => .next (goto .sleepUnlock (s.setProc p { s.proc p with chan := none }))
  | .sleep _ _, .sleepUnlock => (s.release p (.proc p)).map (goto .sleepAcquire)
  | .sleep _ l, .sleepAcquire => (s.acquire p (.of l)).map (done ())
  | .wakeup _, .call => .next (goto (.loop 0) s)
  | .wakeup _, .loop i =>
    if h : i < NPROC then
      if (⟨i, h⟩ : Slot) = p then .next (goto (.loop (i + 1)) s)
      else (s.acquire p (.proc ⟨i, h⟩)).map (goto (.locked ⟨i, h⟩))
    else .next (done () s)
  | .wakeup c, .locked q => .next (goto (.unlock q) (s.wake q c))
  | .wakeup _, .unlock q => (s.release p (.proc q)).map (goto (.loop (q.val + 1)))
  | .killed, .call => (s.acquire p (.proc p)).map (goto .killedRead)
  | .killed, .killedRead => .next (goto (.killedUnlock (s.proc p).killed) s)
  | .killed, .killedUnlock k => (s.release p (.proc p)).map (done k)
  | .kill _, .call => .next (goto (.loop 0) s)
  | .kill _, .loop i =>
    if h : i < NPROC then (s.acquire p (.proc ⟨i, h⟩)).map (goto (.locked ⟨i, h⟩))
    else .next (done false s)
  | .kill pid, .locked q =>
    if (s.proc q).pid = pid then .next (goto (.found q) (s.kill q)) else .next (goto (.unlock q) s)
  | .kill _, .unlock q => (s.release p (.proc q)).map (goto (.loop (q.val + 1)))
  | .kill _, .found q => (s.release p (.proc q)).map (done true)
  | _, _ => .blocked

/-! ## processes -/

structure Thread (M : Monitor) where
  code : Code M Unit
  pc : Pc

/-- the operation that a thread is at -/
def Thread.op (t : Thread M) : Option (Op M) := t.code.first

/-- the thread behind a step of the operation `o` -/
def Thread.after (o : Op M) (k : o.Res → Code M Unit) : Pc ⊕ o.Res → Thread M
  | .inl pc => ⟨.act o k, pc⟩
  | .inr x => ⟨k x, .call⟩

/-- the shared state, and the kernel code that each process is in -/
structure Config (M : Monitor) where
  sys : State M
  thread : Slot → Option (Thread M)

def Config.setThread (c : Config M) (s : State M) (p : Slot) (t : Option (Thread M)) : Config M :=
  ⟨s, Function.update c.thread p t⟩

/-- the operation that a process is at -/
def Config.op (c : Config M) (p : Slot) : Option (Op M) := (c.thread p).bind Thread.op

inductive Event (M : Monitor) (κ : Type) where
  /-- the process `p` begins a call -/
  | start (p : Slot) (k : κ)
  | step (p : Slot)
  /-- a timer interrupt: `yield` -/
  | preempt (p : Slot)
  /-- the scheduler switches to `p` -/
  | dispatch (p : Slot)
  /-- an interrupt handler works on what `l` protects -/
  | interrupt (l : M.Lk) (a : M.Intr l)
  /-- the turn of a handler's `wakeup(c)` for the slot `q` -/
  | signal (c : M.Chan) (q : Slot)
  /-- the slot of a process outside these calls changes: `fork`, `exit`, `wait` -/
  | turnover (p : Slot) (x : Proc M)

/-- the process is in the kernel code `t` and goes on with it -/
def stepThread (c : Config M) (p : Slot) (t : Thread M) : Outcome (Config M) :=
  match t.code with
  | .ret _ => .next (c.setThread c.sys p none)
  | .panic msg => .panic msg
  | .act o k => (micro c.sys p o t.pc).map fun r => c.setThread r.1 p (some (.after o k r.2))

/-- `swtch` to `p`: it goes on in `sleep` with `p->lock`, or behind its `yield`, which has released
it -/
def dispatch (c : Config M) (p : Slot) : Outcome (Config M) :=
  let s := c.sys.setProc p { c.sys.proc p with state := .RUNNING }
  match c.thread p with
  | none => .next { c with sys := s }
  | some ⟨code, .asleep⟩ =>
    .next (c.setThread (s.hold p (.proc p)) p (some ⟨code, .sleepTidy⟩))
  | some ⟨code, .preempted pc⟩ => .next (c.setThread s p (some ⟨code, pc⟩))
  | _ => .blocked

variable {κ : Type} (code : Slot → κ → Code M Unit)

def step (c : Config M) : Event M κ → Outcome (Config M)
  | .start p k =>
    if c.thread p = none ∧ (c.sys.proc p).state = .RUNNING then
      .next (c.setThread c.sys p (some ⟨code p k, .call⟩))
    else .blocked
  | .step p =>
    match c.thread p with
    | some t => stepThread c p t
    | none => .blocked
  | .preempt p =>
    if (c.sys.proc p).state = .RUNNING ∧ c.sys.noff p = 0 ∧ c.sys.lock (.proc p) = none then
      .next (c.setThread (c.sys.setProc p { c.sys.proc p with state := .RUNNABLE }) p
        ((c.thread p).map fun t => ⟨t.code, .preempted t.pc⟩))
    else .blocked
  | .dispatch p =>
    if (c.sys.proc p).state = .RUNNABLE ∧ c.sys.lock (.proc p) = none then dispatch c p else .blocked
  | .interrupt l a =>
    if c.sys.lock (.of l) = none then
      .next { c with sys := { c.sys with
        data := Function.update c.sys.data l (M.intr a (c.sys.data l)) } }
    else .blocked
  | .signal ch q =>
    if c.sys.lock (.proc q) = none then .next { c with sys := c.sys.wake q ch } else .blocked
  | .turnover p x =>
    if c.thread p = none ∧ c.sys.lock (.proc p) = none ∧ x.state ≠ .SLEEPING then
      .next { c with sys := c.sys.setProc p x }
    else .blocked

/-- nobody is in these calls, and no lock is held -/
structure Config.Fresh (c : Config M) : Prop where
  idle : ∀ p, c.thread p = none
  awake : ∀ p, (c.sys.proc p).state ≠ .SLEEPING
  free : ∀ l, c.sys.lock l = none
  off : ∀ p, c.sys.noff p = 0

end

end Sync
