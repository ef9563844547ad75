import Xv6.Lib.Run

/-!
# The scheduler of every CPU and the process table (`kernel/proc.c`)

Each CPU runs `scheduler()`: a pass of `fcfs`, and a pass of `round_robin` when `fcfs` found
nothing.  The position of a CPU inside these loops is its `Pc`.  One atomic step is

* one UNLOCKED read (`p->state`, `p->sched` in the scan of `fcfs`, `minP->state` after it), or
* one critical section under `p->lock`.

A critical section that ends in `swtch` gives the CPU to the process (`Pc.running`, which also
says where the scheduler goes on later); the process gives it back in the critical section of
`yield`, `sleep` or `exit`, which ends in `sched`.  The loops of `wakeup`, `kill`, `wait`,
`allocproc` and `changeScheduler` over the table take the lock of one slot at a time, so each
iteration that does something is an event of its own.

`startingTick`, `sched`, `chan`, `killed`, `pid` and `parent` are kept because one of these loops
reads them; the other fields of `struct proc` play no part in scheduling.
-/

namespace Sched
open Run

/-- `NPROC` of `param.h` -/
def NPROC : Nat := 64

abbrev Slot := Fin NPROC

inductive ProcState where
  | UNUSED | USED | SLEEPING | RUNNABLE | RUNNING | ZOMBIE
  deriving DecidableEq, Repr

inductive SchedType where
  | RR | FCFS
  deriving DecidableEq, Repr

structure Proc where
  state : ProcState
  chan : Nat
  killed : Bool
  pid : Nat
  startingTick : Int
  sched : SchedType
  parent : Option Slot
  deriving DecidableEq, Repr

/-- where the scheduler goes on when the process it switched to comes back -/
inductive Ret where
  | fcfs
  | roundRobin (i : Slot)
  deriving DecidableEq, Repr

/-- position of a CPU in `scheduler()` -/
inductive Pc where
  /-- `fcfs`, about to test `p->state != RUNNABLE` for the slot `i` -/
  | fcfsState (i : Slot) (minP : Option Slot) (found : Bool)
  /-- `fcfs`, about to test `p->sched == FCFS` -/
  | fcfsSched (i : Slot) (minP : Option Slot) (found : Bool)
  /-- `fcfs`, about to take `p->lock` and compare starting ticks -/
  | fcfsMin (i : Slot) (minP : Option Slot) (found : Bool)
  /-- `fcfs` after the scan, about to test `minP->state == RUNNABLE` -/
  | fcfsTest (minP : Slot) (found : Bool)
  /-- `fcfs` after that test, about to take `minP->lock` and switch -/
  | fcfsSwitch (minP : Slot)
  /-- `round_robin`, about to take the lock of the slot `i` -/
  | roundRobin (i : Slot) (found : Bool)
  /-- inside `swtch`: the process runs -/
  | running (p : Slot) (ret : Ret)
  deriving DecidableEq, Repr

structure Cpu where
  pc : Pc
  proc : Option Slot
  deriving DecidableEq, Repr

/-- the process table, the CPUs (any number of them) and `nextpid`, `ticks` -/
structure State where
  proc : Slot → Proc
  cpu : Nat → Cpu
  nextpid : Nat
  ticks : Int

def State.setProc (s : State) (p : Slot) (x : Proc) : State :=
  { s with proc := Function.update s.proc p x }

def State.setCpu (s : State) (c : Nat) (x : Cpu) : State :=
  { s with cpu := Function.update s.cpu c x }

/-! ## the loops of the scheduler -/

def slot0 : Slot := ⟨0, by decide⟩

/-- top of `fcfs` -/
def fcfsStart : Pc := .fcfsState slot0 none false

/-- `scheduler()` after `fcfs` has returned `found` -/
def afterFcfs (found : Bool) : Pc := if found then fcfsStart else .roundRobin slot0 false

/-- the scan of `fcfs` after the slot `i` -/
def fcfsNext (i : Slot) (minP : Option Slot) (found : Bool) : Pc :=
  if h : i.val + 1 < NPROC then .fcfsState ⟨i.val + 1, h⟩ minP found
  else match minP with
    | some m => .fcfsTest m found
    | none => afterFcfs found

/-- `round_robin` after the slot `i`; behind the last one `scheduler()` starts over -/
def roundRobinNext (i : Slot) (found : Bool) : Pc :=
  if h : i.val + 1 < NPROC then .roundRobin ⟨i.val + 1, h⟩ found else fcfsStart

/-- `minP` after the comparison made for the slot `i` -/
def fcfsMinP (proc : Slot → Proc) (i : Slot) : Option Slot → Slot
  | none => i
  | some m => if (proc i).startingTick < (proc m).startingTick then i else m

def Ret.pc : Ret → Pc
  | .fcfs => afterFcfs true
  | .roundRobin i => roundRobinNext i true

/-- `p->state = RUNNING; c->proc = p; swtch(..)` -/
def switchTo (s : State) (c : Nat) (p : Slot) (ret : Ret) : State :=
  (s.setProc p { s.proc p with state := .RUNNING }).setCpu c ⟨.running p ret, some p⟩

/-- the next atomic step of the scheduler of CPU `c` -/
def schedulerStep (s : State) (c : Nat) : Outcome State :=
  match (s.cpu c).pc with
  | .fcfsState i minP found =>
    if (s.proc i).state ≠ .RUNNABLE then .next (s.setCpu c ⟨fcfsNext i minP found, none⟩)
    else .next (s.setCpu c ⟨.fcfsSched i minP found, none⟩)
  | .fcfsSched i minP found =>
    if (s.proc i).sched = .FCFS then .next (s.setCpu c ⟨.fcfsMin i minP found, none⟩)
    else .next (s.setCpu c ⟨fcfsNext i minP found, none⟩)
  | .fcfsMin i minP _ =>
    .next (s.setCpu c ⟨fcfsNext i (some (fcfsMinP s.proc i minP)) true, none⟩)
  | .fcfsTest m found =>
    if (s.proc m).state = .RUNNABLE then .next (s.setCpu c ⟨.fcfsSwitch m, none⟩)
    else .next (s.setCpu c ⟨afterFcfs found, none⟩)
  -- the state is NOT read again under the lock
  | .fcfsSwitch m => .next (switchTo s c m .fcfs)
  | .roundRobin i found =>
    if (s.proc i).state = .RUNNABLE ∧ (s.proc i).sched = .RR then
      .next (switchTo s c i (.roundRobin i))
    else .next (s.setCpu c ⟨roundRobinNext i found, none⟩)
  | .running _ _ => .blocked

/-! ## what processes do -/

/-- `p` has set its state under `p->lock` and calls `sched`: CPU `c` is back in its scheduler,
which clears `c->proc` and releases the lock -/
def schedBack (s : State) (c : Nat) (p : Slot) (ret : Ret) (x : Proc) : State :=
  (s.setProc p x).setCpu c ⟨ret.pc, none⟩

/-- `pp->parent == p` becomes `initproc` (slot 0: `userinit` takes the first slot) -/
def reparent (proc : Slot → Proc) (p : Slot) : Slot → Proc := fun q =>
  if (proc q).parent = some p then { proc q with parent := some slot0 } else proc q

inductive Event where
  /-- the scheduler of CPU `c` -/
  | scheduler (c : Nat)
  /-- the process on CPU `c` gives up the CPU -/
  | yield (c : Nat)
  | sleep (c : Nat) (chan : Nat)
  | exit (c : Nat)
  /-- one iteration of `wakeup(chan)` on CPU `c`, in a process or an interrupt handler -/
  | wakeup (c : Nat) (q : Slot) (chan : Nat)
  /-- one iteration of `kill(pid)` -/
  | kill (c : Nat) (q : Slot) (pid : Nat)
  /-- `wait` reaps the zombie child `q`: `freeproc` -/
  | wait (c : Nat) (q : Slot)
  /-- `allocproc` in `fork` takes the unused slot `q` -/
  | allocproc (c : Nat) (q : Slot)
  /-- `fork` fails after that: `freeproc` -/
  | forkFail (c : Nat) (q : Slot)
  /-- the end of `fork`: `np->state = RUNNABLE` -/
  | forkDone (c : Nat) (q : Slot)
  /-- the last section of `fork`: `np->startingTick = ticks` -/
  | forkTick (c : Nat) (q : Slot)
  | changeScheduler (c : Nat) (q : Slot) (pid : Nat) (sched : SchedType)
  /-- `clockintr` -/
  | tick
  deriving DecidableEq, Repr

/-- `freeproc` (fields kept here) -/
def freed (x : Proc) : Proc :=
  { x with state := .UNUSED, pid := 0, parent := none, chan := 0, killed := false }

def step (s : State) : Event → Outcome State
  | .scheduler c => schedulerStep s c
  | .yield c =>
    match (s.cpu c).pc with
    | .running p ret => .next (schedBack s c p ret { s.proc p with state := .RUNNABLE })
    | _ => .blocked
  | .sleep c chan =>
    match (s.cpu c).pc with
    | .running p ret => .next (schedBack s c p ret { s.proc p with state := .SLEEPING, chan := chan })
    | _ => .blocked
  | .exit c =>
    match (s.cpu c).pc with
    | .running p ret =>
      if p = slot0 then .panic "init exiting"
      else
        let s := { s with proc := reparent s.proc p }
        .next (schedBack s c p ret { s.proc p with state := .ZOMBIE })
    | _ => .blocked
  | .wakeup c q chan =>
    if (s.cpu c).proc ≠ some q ∧ (s.proc q).state = .SLEEPING ∧ (s.proc q).chan = chan then
      .next (s.setProc q { s.proc q with state := .RUNNABLE })
    else .next s
  | .kill c q pid =>
    match (s.cpu c).pc with
    | .running _ _ =>
      if (s.proc q).pid = pid then
        .next (s.setProc q { s.proc q with
          killed := true,
          state := if (s.proc q).state = .SLEEPING then .RUNNABLE else (s.proc q).state })
      else .next s
    | _ => .blocked
  | .wait c q =>
    match (s.cpu c).pc with
    | .running p _ =>
      if (s.proc q).parent = some p ∧ (s.proc q).state = .ZOMBIE then
        .next (s.setProc q (freed (s.proc q)))
      else .blocked
    | _ => .blocked
  | .allocproc c q =>
    match (s.cpu c).pc with
    | .running p _ =>
      if (s.proc q).state = .UNUSED then
        .next { s.setProc q { s.proc q with
                  state := .USED, pid := s.nextpid, sched := .RR, parent := some p } with
                nextpid := s.nextpid + 1 }
      else .blocked
    | _ => .blocked
  | .forkFail c q =>
    match (s.cpu c).pc with
    | .running p _ =>
      if (s.proc q).state = .USED ∧ (s.proc q).parent = some p then
        .next (s.setProc q (freed (s.proc q)))
      else .blocked
    | _ => .blocked
  | .forkDone c q =>
    match (s.cpu c).pc with
    | .running p _ =>
      if (s.proc q).state = .USED ∧ (s.proc q).parent = some p then
        .next (s.setProc q { s.proc q with state := .RUNNABLE })
      else .blocked
    | _ => .blocked
  | .forkTick c q =>
    match (s.cpu c).pc with
    | .running _ _ => .next (s.setProc q { s.proc q with startingTick := s.ticks })
    | _ => .blocked
  | .changeScheduler c q pid sched =>
    match (s.cpu c).pc with
    | .running _ _ =>
      if (s.proc q).pid = pid then .next (s.setProc q { s.proc q with sched := sched })
      else .next s
    | _ => .blocked
  | .tick => .next { s with ticks := s.ticks + 1 }

/-! ## the first state -/

def unusedProc : Proc := ⟨.UNUSED, 0, false, 0, 0, .RR, none⟩

/-- after `userinit`: one runnable process, every CPU at the top of `scheduler()` -/
def init : State where
  proc := Function.update (fun _ => unusedProc) slot0 ⟨.RUNNABLE, 0, false, 1, 0, .RR, none⟩
  cpu := fun _ => ⟨fcfsStart, none⟩
  nextpid := 2
  ticks := 0

end Sched
