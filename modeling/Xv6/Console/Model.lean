import Xv6.Lib.Run
import Xv6.Lib.Bytes

/-!
# The console

`console.c`: the ring of input bytes with its three indices, the interrupt handler that edits and
commits lines, the history of commands that the two arrow codes bring back, and `consoleread`.

* `consoleintr`     one input byte; `blocked` stands for a call that never returns;
* `consoleread`     a read from where it starts or wakes up to where it sleeps or returns;
* `step`            an input byte, or a reader that has the lock.

What is written to the screen, and the list of processes that `^P` prints, are left out.
-/

namespace Console
open Run Bytes

def INPUT_BUF_SIZE : Nat := 128

def MAX_HISTORY : Nat := 16

def UP_ARROW : Byte := 65

def DOWN_ARROW : Byte := 66

/-- `C(x)` -/
def ctrl (x : Char) : Byte := BitVec.ofNat 8 (x.toNat - '@'.toNat)

def newline : Byte := 10

/-! ## the ring -/

structure Cons where
  buf : Buf
  r : BitVec 32
  w : BitVec 32
  e : BitVec 32

namespace Cons

def get (c : Cons) (i : BitVec 32) : Byte := c.buf (i.toNat % INPUT_BUF_SIZE)

def put (c : Cons) (i : BitVec 32) (b : Byte) : Cons :=
  { c with buf := Function.update c.buf (i.toNat % INPUT_BUF_SIZE) b }

/-- the loop of `^U`.  The turns are bounded by the distance from `w` to `e`. -/
def killLine : Nat → Cons → Cons
  | 0, c => c
  | n + 1, c =>
    if c.e ≠ c.w ∧ c.get (c.e - 1) ≠ newline then killLine n { c with e := c.e - 1 } else c

/-- the loop of `eraseCurrentLineOnScreen`: whether it ends within so many turns.  The `int` is taken
to wrap around, as it does on the machine. -/
def eraseLoop (c : Cons) : (fuel : Nat) → (length : BitVec 32) → Bool
  | 0, length => length = 1
  | fuel + 1, length =>
    if length ≠ 1 then eraseLoop c fuel (if c.e ≠ c.r then length - 1 else length) else true

def eraseCurrentLineOnScreen (c : Cons) : Option Cons :=
  if c.eraseLoop (2 ^ 32) (c.e - c.r - 1) then some { c with e := c.r } else none

def copyLoop (b : Buf) : (n i : Nat) → Cons → Cons
  | 0, _, c => c
  | n + 1, i, c => copyLoop b n (i + 1) (c.put (c.r + BitVec.ofNat 32 i) (b i))

def copyBufferToScreen (c : Cons) (b : Buf) (length : BitVec 32) : Cons :=
  let c := copyLoop b length.toNat 0 c
  { c with e := c.r + length }

end Cons

/-! ## the history -/

structure History where
  bufferArr : Nat → Buf
  lengthsArr : Nat → BitVec 32
  lastCommandIndex : Nat
  numOfCommmandsInMem : Nat
  currentHistory : Int

structure State where
  cons : Cons
  history : History
  firstSave : Bool
  oldcmd : Bool

/-- `tempIndex`; `%` of C rounds towards zero -/
def History.tempIndex (h : History) : Nat := (h.currentHistory.tmod MAX_HISTORY).toNat

def isHistory (c : Cons) : Bool :=
  "history".toList.zipIdx.all fun (x, i) => c.get (c.r + BitVec.ofNat 32 i) = BitVec.ofNat 8 x.toNat

/-- the command becomes the entry `last` -/
def History.save (h : History) (last : Nat) (command : Buf) (len : BitVec 32) : History where
  bufferArr := Function.update h.bufferArr last fun i =>
    if i < len.toNat then command i else h.bufferArr last i
  lengthsArr := Function.update h.lengthsArr last len
  lastCommandIndex := last
  numOfCommmandsInMem :=
    if h.numOfCommmandsInMem < MAX_HISTORY then h.numOfCommmandsInMem + 1 else h.numOfCommmandsInMem
  currentHistory := last

def savecommandtohistory (s : State) : State :=
  let len := s.cons.e - s.cons.r - 1
  if isHistory s.cons ∨ len = 0 then s
  else
    let h := s.history
    let last := if s.firstSave then h.lastCommandIndex else (h.lastCommandIndex + 1) % MAX_HISTORY
    { s with
      firstSave := false
      history := h.save last (fun i => s.cons.get (s.cons.r + BitVec.ofNat 32 i)) len }

/-! ## the interrupt handler -/

/-- the line on the screen becomes the command at `tempIndex` -/
def State.recall (s : State) : Option Cons :=
  s.cons.eraseCurrentLineOnScreen.map fun c =>
    c.copyBufferToScreen (s.history.bufferArr s.history.tempIndex)
      (s.history.lengthsArr s.history.tempIndex)

def upArrow (s : State) : Outcome State :=
  let h := s.history
  if h.currentHistory ≥ 0 then
    match s.recall with
    | none => .blocked
    | some c =>
      let cur := if h.currentHistory = 0 then (h.lastCommandIndex : Int) else h.currentHistory
      .next
        { s with
          cons := c
          oldcmd := if h.currentHistory = h.lastCommandIndex then true else s.oldcmd
          history := { h with currentHistory := (cur - 1).tmod MAX_HISTORY } }
  else .next s

def downArrow (s : State) : Outcome State :=
  let h := s.history
  if h.currentHistory ≠ -1 then
    match s.recall with
    | none => .blocked
    | some c =>
      if h.currentHistory = h.lastCommandIndex then
        .next { s with cons := c, oldcmd := true, history := { h with currentHistory := 0 } }
      else
        .next { s with
                cons := c
                history := { h with currentHistory := (h.currentHistory + 1).tmod MAX_HISTORY } }
  else .next s

/-- the line is handed to the readers -/
def State.commit (s : State) : State :=
  let s := if s.oldcmd then s else savecommandtohistory s
  { s with cons := { s.cons with w := s.cons.e }, oldcmd := false }

/-- the `default` case -/
def insert (s : State) (c : Byte) : State :=
  if c ≠ 0 ∧ (s.cons.e - s.cons.r).toNat < INPUT_BUF_SIZE then
    let c := if c = 13 then newline else c
    let s := { s with cons := { s.cons.put s.cons.e c with e := s.cons.e + 1 } }
    if c = newline ∨ c = ctrl 'D' ∨ (s.cons.e - s.cons.r).toNat = INPUT_BUF_SIZE then s.commit else s
  else s

def consoleintr (s : State) (c : Byte) : Outcome State :=
  if c = ctrl 'P' then .next s
  else if c = ctrl 'U' then
    .next { s with cons := s.cons.killLine (s.cons.e - s.cons.w).toNat }
  else if c = ctrl 'H' ∨ c = 0x7f then
    if s.cons.e ≠ s.cons.w then .next { s with cons := { s.cons with e := s.cons.e - 1 } } else .next s
  else if c = UP_ARROW then upArrow s
  else if c = DOWN_ARROW then downArrow s
  else .next (insert s c)

/-! ## readers -/

inductive ReadEnd where
  | returned (value : Int)
  /-- with so many bytes still to come -/
  | asleep (n : Nat)

/-- `consoleread` while it has the lock, with the bytes it delivers.  `killed` and `copied` are what
`killed` and `either_copyout` answer. -/
def consoleread (killed : Bool) (copied : Nat → Bool) (target : Nat) :
    (n : Nat) → Cons → Cons × ReadEnd × List Byte
  | 0, c => (c, .returned target, [])
  | n + 1, c =>
    if c.r = c.w then (c, if killed then .returned (-1) else .asleep (n + 1), [])
    else
      let b := c.get c.r
      let c := { c with r := c.r + 1 }
      if b = ctrl 'D' then
        (if n + 1 < target then { c with r := c.r - 1 } else c, .returned (target - (n + 1)), [])
      else if copied n = false then (c, .returned (target - (n + 1)), [])
      else if b = newline then (c, .returned (target - n), [b])
      else
        let (c, x, bs) := consoleread killed copied target n c
        (c, x, b :: bs)

/-! ## the system -/

/-- the console, and for each reader that sleeps `n` and `target` -/
structure Config where
  state : State
  reader : Nat → Option (Nat × Nat)

inductive Event where
  | intr (c : Byte)
  /-- the process `p` calls `consoleread` -/
  | read (p : Nat) (n : Int) (killed : Bool) (copied : Nat → Bool)
  /-- the process `p` comes back from `sleep` -/
  | wake (p : Nat) (killed : Bool) (copied : Nat → Bool)

def Config.readFrom (c : Config) (p n target : Nat) (killed : Bool) (copied : Nat → Bool) : Config :=
  let (cons, x, _) := consoleread killed copied target n c.state.cons
  { state := { c.state with cons := cons }
    reader := Function.update c.reader p (match x with
      | .returned _ => none
      | .asleep n => some (n, target)) }

def step (c : Config) : Event → Outcome Config
  | .intr b => (consoleintr c.state b).map fun s => { c with state := s }
  | .read p n killed copied =>
    match c.reader p with
    | none => .next (c.readFrom p n.toNat n.toNat killed copied)
    | some _ => .blocked
  | .wake p killed copied =>
    match c.reader p with
    | some (n, target) => .next (c.readFrom p n target killed copied)
    | none => .blocked

/-- everything is zero but `firstSave` -/
def Config.start : Config where
  state :=
    { cons := ⟨fun _ => 0, 0, 0, 0⟩
      history := ⟨fun _ _ => 0, fun _ => 0, 0, 0, 0⟩
      firstSave := true
      oldcmd := false }
  reader := fun _ => none

end Console
