import Xv6.Lib.Run
import Xv6.Sched.Model

/-!
# Parents, children and the clock (`fork`, `exit`, `wait`, `kill`, `update_pinfo` of `kernel/proc.c`)

The position of a process inside these calls is its `Pc`.  One step is one critical section under
`p->lock` of a slot, one access to `parent` under `wait_lock`, or taking `wait_lock`, which is held
over several steps; the loops over the table go on slot by slot, with the steps of other processes in
between.  A section that ends in `sched` gives the CPU away.

* `step`        one event;
* `init`        the table behind `userinit`;
* `procinfo`    what the system call of that name reports.

`ok` stands for what the memory answers: whether `fork` gets its pages, and whether `wait` can copy the
status out.  Three things are recorded that the kernel does not store: how many pids were given out,
who has exited and who was returned by `wait`, and for each process the ticks it has lived through.
The fields that none of these functions reads (`startingTick`, `termination_time`, `sched`) and the
memory and files of a process are left out; so is the last section of `fork`, which sets only
`startingTick`.
-/

namespace Family
open Run
open Sched (NPROC Slot ProcState slot0)

/-- an `int` -/
abbrev Word : Type := BitVec 32

inductive Chan where
  | proc (p : Slot)
  | ticks
  | other (n : Nat)
  deriving DecidableEq

/-- ticks that found a process in each of the three states -/
structure Lived where
  running : Nat
  ready : Nat
  sleeping : Nat
  deriving DecidableEq

structure Proc where
  state : ProcState
  chan : Option Chan
  killed : Bool
  xstate : Word
  pid : Word
  parent : Option Slot
  runningTime : Word
  readyTime : Word
  sleepingTime : Word
  /-- since the process was created -/
  lived : Lived
  deriving DecidableEq

inductive Pc where
  | user
  /-- `allocproc` in `fork`, at the slot `i` -/
  | alloc (i : Nat)
  /-- before `np->parent = p` -/
  | setParent (q : Slot) (pid : Word)
  /-- before `np->state = RUNNABLE` -/
  | setRunnable (q : Slot) (pid : Word)
  /-- `exit`, before `acquire(&wait_lock)` -/
  | exitBegin (status : Word)
  /-- `reparent`, at the slot `i` -/
  | reparent (i : Nat) (status : Word)
  /-- its `wakeup(initproc)` for the slot `i`, at the slot `j` -/
  | reparentWake (i j : Nat) (status : Word)
  /-- `wakeup(p->parent)`, at the slot `j` -/
  | exitWake (j : Nat) (status : Word)
  /-- before `acquire(&p->lock)` -/
  | exitZombie (status : Word)
  | zombie
  /-- `wait`, before `acquire(&wait_lock)`, also behind `sleep` -/
  | waitBegin
  /-- the scan of `wait`, at the slot `i` -/
  | waitScan (i : Nat) (havekids : Bool)
  /-- before `!havekids || killed(p)` -/
  | waitTest (havekids : Bool)
  /-- before `sleep(p, &wait_lock)` -/
  | waitSleep
  | waitAsleep
  /-- asleep in another call -/
  | asleep
  /-- `kill`, at the slot `i` -/
  | kill (pid : Word) (i : Nat)
  deriving DecidableEq

/-- `clockintr` -/
inductive Clock where
  | idle
  /-- `update_pinfo`, at the slot `i` -/
  | update (i : Nat)
  /-- `wakeup(&ticks)`, at the slot `i` -/
  | wake (i : Nat)
  deriving DecidableEq

structure State where
  proc : Slot → Proc
  pc : Slot → Pc
  /-- what the last call of a process has returned -/
  ret : Slot → Word
  waitLock : Option Slot
  nextpid : Word
  clock : Clock
  /-- how many pids were given out -/
  allocated : Nat
  /-- the pids and statuses of those who have exited, and of those whom `wait` has returned -/
  exits : List (Word × Word)
  reaped : List (Word × Word)

def State.setProc (s : State) (p : Slot) (x : Proc) : State :=
  { s with proc := Function.update s.proc p x }

def State.goto (s : State) (p : Slot) (pc : Pc) : State := { s with pc := Function.update s.pc p pc }

/-- the call of the process returns -/
def State.return (s : State) (p : Slot) (r : Word) : State :=
  { s with pc := Function.update s.pc p .user, ret := Function.update s.ret p r }

/-- `-1` -/
def failed : Word := -1

/-! ## the sections -/

/-- the body of the loop of `wakeup` -/
def State.wake (s : State) (q : Slot) (ch : Option Chan) : State :=
  if (s.proc q).state = .SLEEPING ∧ (s.proc q).chan = ch ∧ ch ≠ none then
    s.setProc q { s.proc q with state := .RUNNABLE }
  else s

/-- `freeproc` -/
def freed (x : Proc) : Proc :=
  { x with state := .UNUSED, chan := none, killed := false, xstate := 0, pid := 0, parent := none }

/-- `allocpid`, and the start of `allocproc` in the slot `q` -/
def State.alloc (s : State) (q : Slot) : State :=
  { s with
    proc := Function.update s.proc q
      { s.proc q with state := .USED, pid := s.nextpid, lived := ⟨0, 0, 0⟩ }
    pc := Function.update s.pc q .user
    nextpid := s.nextpid + 1
    allocated := s.allocated + 1 }

/-- `p->xstate = status; p->state = ZOMBIE; release(&wait_lock); sched()` -/
def State.die (s : State) (p : Slot) (status : Word) : State :=
  { s with
    proc := Function.update s.proc p { s.proc p with xstate := status, state := .ZOMBIE }
    pc := Function.update s.pc p .zombie
    waitLock := none
    exits := s.exits ++ [((s.proc p).pid, status)] }

/-- `wait` of `p` returns the zombie `q` -/
def State.reap (s : State) (p q : Slot) : State :=
  { s with
    proc := Function.update s.proc q (freed (s.proc q))
    pc := Function.update s.pc p .user
    ret := Function.update s.ret p (s.proc q).pid
    waitLock := none
    reaped := s.reaped ++ [((s.proc q).pid, (s.proc q).xstate)] }

/-- one slot in `update_pinfo` -/
def updatePinfo (x : Proc) : Proc :=
  match x.state with
  | .SLEEPING => { x with
      sleepingTime := x.sleepingTime + 1
      lived := { x.lived with sleeping := x.lived.sleeping + 1 } }
  | .RUNNING => { x with
      runningTime := x.runningTime + 1
      lived := { x.lived with running := x.lived.running + 1 } }
  | .RUNNABLE => { x with
      readyTime := x.readyTime + 1
      lived := { x.lived with ready := x.lived.ready + 1 } }
  | _ => x

/-- the section of `kill` that finds its pid -/
def marked (x : Proc) : Proc :=
  { x with killed := true, state := if x.state = .SLEEPING then .RUNNABLE else x.state }

/-- the next step of the process `p` -/
def stepProc (s : State) (p : Slot) (ok : Bool) : Outcome State :=
  match s.pc p with
  | .user => .blocked
  | .alloc i =>
    if h : i < NPROC then
      if (s.proc ⟨i, h⟩).state = .UNUSED then
        if ok then .next ((s.alloc ⟨i, h⟩).goto p (.setParent ⟨i, h⟩ s.nextpid))
        else
          let t := s.alloc ⟨i, h⟩
          .next ((t.setProc ⟨i, h⟩ (freed (t.proc ⟨i, h⟩))).return p failed)
      else .next (s.goto p (.alloc (i + 1)))
    else .next (s.return p failed)
  | .setParent q pid =>
    if s.waitLock = none then
      .next ((s.setProc q { s.proc q with parent := some p }).goto p (.setRunnable q pid))
    else .blocked
  | .setRunnable q pid => .next ((s.setProc q { s.proc q with state := .RUNNABLE }).return p pid)
  | .exitBegin status =>
    if s.waitLock = none then .next ({ s with waitLock := some p }.goto p (.reparent 0 status))
    else .blocked
  | .reparent i status =>
    if h : i < NPROC then
      if (s.proc ⟨i, h⟩).parent = some p then
        .next ((s.setProc ⟨i, h⟩ { s.proc ⟨i, h⟩ with parent := some slot0 }).goto p
          (.reparentWake i 0 status))
      else .next (s.goto p (.reparent (i + 1) status))
    else .next (s.goto p (.exitWake 0 status))
  | .reparentWake i j status =>
    if h : j < NPROC then
      .next ((if (⟨j, h⟩ : Slot) = p then s else s.wake ⟨j, h⟩ (some (.proc slot0))).goto p
        (.reparentWake i (j + 1) status))
    else .next (s.goto p (.reparent (i + 1) status))
  | .exitWake j status =>
    if h : j < NPROC then
      .next ((if (⟨j, h⟩ : Slot) = p then s else s.wake ⟨j, h⟩ ((s.proc p).parent.map .proc)).goto p
        (.exitWake (j + 1) status))
    else .next (s.goto p (.exitZombie status))
  | .exitZombie status => .next (s.die p status)
  | .zombie => .panic "zombie exit"
  | .waitBegin =>
    if s.waitLock = none then .next ({ s with waitLock := some p }.goto p (.waitScan 0 false))
    else .blocked
  | .waitScan i havekids =>
    if h : i < NPROC then
      if (s.proc ⟨i, h⟩).parent = some p then
        if (s.proc ⟨i, h⟩).state = .ZOMBIE then
          if ok then .next (s.reap p ⟨i, h⟩)
          else .next ({ s with waitLock := none }.return p failed)
        else .next (s.goto p (.waitScan (i + 1) true))
      else .next (s.goto p (.waitScan (i + 1) havekids))
    else .next (s.goto p (.waitTest havekids))
  | .waitTest havekids =>
    if havekids = false ∨ (s.proc p).killed = true then
      .next ({ s with waitLock := none }.return p failed)
    else .next (s.goto p .waitSleep)
  | .waitSleep =>
    .next (({ s with waitLock := none }.setProc p
      { s.proc p with chan := some (.proc p), state := .SLEEPING }).goto p .waitAsleep)
  | .waitAsleep => .blocked
  | .asleep => .blocked
  | .kill pid i =>
    if h : i < NPROC then
      if (s.proc ⟨i, h⟩).pid = pid then
        .next ((s.setProc ⟨i, h⟩ (marked (s.proc ⟨i, h⟩))).return p 0)
      else .next (s.goto p (.kill pid (i + 1)))
    else .next (s.return p failed)

/-- the next step of `clockintr` -/
def stepClock (s : State) : Outcome State :=
  match s.clock with
  | .idle => .blocked
  | .update i =>
    if h : i < NPROC then
      .next { s.setProc ⟨i, h⟩ (updatePinfo (s.proc ⟨i, h⟩)) with clock := .update (i + 1) }
    else .next { s with clock := .wake 0 }
  | .wake i =>
    if h : i < NPROC then .next { s.wake ⟨i, h⟩ (some .ticks) with clock := .wake (i + 1) }
    else .next { s with clock := .idle }

/-! ## events -/

inductive Event where
  | fork (p : Slot)
  | exit (p : Slot) (status : Word)
  | wait (p : Slot)
  | kill (p : Slot) (pid : Word)
  /-- another call goes to sleep -/
  | sleep (p : Slot) (ch : Chan)
  | step (p : Slot) (ok : Bool)
  | yield (p : Slot)
  /-- the scheduler switches to `p` -/
  | dispatch (p : Slot)
  /-- the turn of another call's `wakeup(ch)` for the slot `q` -/
  | wakeup (ch : Chan) (q : Slot)
  /-- a clock interrupt -/
  | tick
  | clock
  deriving DecidableEq

/-- the process runs in user space -/
def State.Idle (s : State) (p : Slot) : Prop := (s.proc p).state = .RUNNING ∧ s.pc p = .user

instance (s : State) (p : Slot) : Decidable (s.Idle p) := inferInstanceAs (Decidable (_ ∧ _))

/-- where a process goes on when it is switched to: `sleep` has cleared `chan` -/
def resumed : Pc → Pc
  | .waitAsleep => .waitBegin
  | .asleep => .user
  | pc => pc

def Pc.isAsleep : Pc → Bool
  | .waitAsleep | .asleep => true
  | _ => false

def step (s : State) : Event → Outcome State
  | .fork p => if s.Idle p then .next (s.goto p (.alloc 0)) else .blocked
  | .exit p status =>
    if s.Idle p then
      if p = slot0 then .panic "init exiting" else .next (s.goto p (.exitBegin status))
    else .blocked
  | .wait p => if s.Idle p then .next (s.goto p .waitBegin) else .blocked
  | .kill p pid => if s.Idle p then .next (s.goto p (.kill pid 0)) else .blocked
  | .sleep p ch =>
    if s.Idle p then
      .next ((s.setProc p { s.proc p with chan := some ch, state := .SLEEPING }).goto p .asleep)
    else .blocked
  | .step p ok => if (s.proc p).state = .RUNNING then stepProc s p ok else .blocked
  | .yield p =>
    if (s.proc p).state = .RUNNING ∧ s.waitLock ≠ some p then
      .next (s.setProc p { s.proc p with state := .RUNNABLE })
    else .blocked
  | .dispatch p =>
    if (s.proc p).state = .RUNNABLE then
      .next ((s.setProc p { s.proc p with
        state := .RUNNING
        chan := if (s.pc p).isAsleep then none else (s.proc p).chan }).goto p (resumed (s.pc p)))
    else .blocked
  | .wakeup ch q => .next (s.wake q (some ch))
  | .tick => if s.clock = .idle then .next { s with clock := .update 0 } else .blocked
  | .clock => stepClock s

/-! ## the first state, and `procinfo` -/

def unusedProc : Proc := ⟨.UNUSED, none, false, 0, 0, none, 0, 0, 0, ⟨0, 0, 0⟩⟩

/-- behind `userinit` -/
def init : State where
  proc := Function.update (fun _ => unusedProc) slot0 { unusedProc with state := .RUNNABLE, pid := 1 }
  pc := fun _ => .user
  ret := fun _ => 0
  waitLock := none
  nextpid := 2
  clock := .idle
  allocated := 1
  exits := []
  reaped := []

structure Info where
  turnaroundTime : Word
  cpuBurstTime : Word
  waitingTime : Word

/-- the first slot with the pid -/
def procinfo (s : State) (pid : Word) : Option Info :=
  ((List.finRange NPROC).find? fun q => (s.proc q).pid = pid).map fun q =>
    { turnaroundTime := (s.proc q).runningTime + (s.proc q).sleepingTime + (s.proc q).readyTime
      cpuBurstTime := (s.proc q).runningTime
      waitingTime := (s.proc q).sleepingTime }

end Family
