import Xv6.Lib.Run
import Xv6.Lib.Bytes

/-!
# The log (`kernel/log.c`)

The machine is the in-memory log, the disk, the block contents that `bread` returns (`cache`), the
operations between `begin_op` and `end_op`, and the thread that commits or recovers.  Events are

* the critical sections of `begin_op`, `log_write`, `end_op` of any operation (an operation that
  has to sleep is `blocked`); `logWrite i b d` is "modify the buffer of block `b` to `d` and call
  `log_write`", which happens under the lock of the buffer;
* `io`: the next block write of `commit()` or of `recover_from_log()`, or a turn of its loops;
* `crash`: memory is lost, the disk stays, and the machine starts `recover_from_log()`.

`disk` and `cache` are separate: what an operation has modified reaches the disk only through
`write_log` and `install_trans`.

Three fields are bookkeeping that no step reads.  `ops` holds, for each running operation, the
distinct blocks it has logged.  `snaps` is the sequence of group commits, as the contents of the
disk blocks after each of them (oldest first; the head is what the last boot started from), and
`returned` is the index of the last one whose `commit()` has returned.
-/

namespace Log
open Run Bytes Function

/-- `MAXOPBLOCKS`, `LOGSIZE` of `param.h` -/
def MAXOPBLOCKS : Nat := 10

def LOGSIZE : Nat := MAXOPBLOCKS * 3

abbrev Blockno := BitVec 32

/-- what `initlog` takes from the superblock -/
structure Conf where
  start : Nat
  size : Nat
  size_pos : 0 < size

/-- the superblock of `mkfs`: `logstart = 2`, `nlog = LOGSIZE` -/
def mkfsConf : Conf := ⟨2, LOGSIZE, by decide⟩

/-! ## the header block -/

/-- `hb->block[i] = log.lh.block[i]` for the rest of the loop, from index `i` -/
def putBlocks (hb : Buf) (i : Nat) : List Blockno → Buf
  | [] => hb
  | b :: bs => putBlocks (set32 hb (4 + 4 * i) b) (i + 1) bs

/-- the buffer that `write_head` writes -/
def headBuf (hb : Buf) (lh : List Blockno) : Buf :=
  putBlocks (set32 hb 0 (BitVec.ofNat 32 lh.length)) 0 lh

/-- `read_head`: `n` is an `int`, a negative one gives no iteration -/
def readHead (hb : Buf) : List Blockno :=
  (List.range (get32 hb 0).toInt.toNat).map fun i => get32 hb (4 + 4 * i)

/-! ## states -/

inductive Phase where
  /-- operations run -/
  | run
  /-- `commit()`: `write_log` before its `tail`-th write -/
  | writeLog (tail : Nat)
  | writeHead
  | install (tail : Nat)
  /-- `commit()` before its second `write_head` -/
  | clear
  /-- `commit()` has returned, `committing` is still set -/
  | done
  /-- `recover_from_log()` -/
  | readHead
  | recInstall (tail : Nat)
  | recClear
  | recovered
  deriving DecidableEq, Repr

/-- no operation can start before `initlog()` has returned -/
def Phase.booting : Phase → Bool
  | .readHead | .recInstall _ | .recClear | .recovered => true
  | _ => false

structure State where
  disk : Nat → Buf
  cache : Nat → Buf
  lh : List Blockno
  outstanding : Nat
  committing : Bool
  phase : Phase
  ops : Nat → Option (List Blockno)
  snaps : List (Nat → Buf)
  returned : Nat

inductive Event where
  | beginOp (i : Nat)
  | logWrite (i : Nat) (b : Blockno) (d : Buf)
  | endOp (i : Nat)
  | io
  | crash

/-- `bwrite` of the buffer of block `b` with contents `d` -/
def State.bwrite (s : State) (b : Nat) (d : Buf) : State :=
  { s with disk := Function.update s.disk b d, cache := Function.update s.cache b d }

/-- outside the log area -/
def Home (K : Conf) (b : Nat) : Prop := b < K.start ∨ K.start + K.size ≤ b

instance (K : Conf) (b : Nat) : Decidable (Home K b) := inferInstanceAs (Decidable (_ ∨ _))

/-- the loop of `log_write` with absorption -/
def absorb (lh : List Blockno) (b : Blockno) : List Blockno := if b ∈ lh then lh else lh ++ [b]

/-! ## steps -/

def beginOp (s : State) (i : Nat) : Outcome State :=
  match s.ops i with
  | some _ => .blocked
  | none =>
    if s.phase.booting then .blocked
    else if s.committing then .blocked
    else if s.lh.length + (s.outstanding + 1) * MAXOPBLOCKS > LOGSIZE then .blocked
    else .next { s with outstanding := s.outstanding + 1, ops := Function.update s.ops i (some []) }

def logWrite (K : Conf) (s : State) (i : Nat) (b : Blockno) (d : Buf) : Outcome State :=
  match s.ops i with
  | none => .blocked
  | some l =>
    if ¬ Home K b.toNat then .blocked
    else if s.lh.length ≥ LOGSIZE ∨ s.lh.length ≥ K.size - 1 then .panic "too big a transaction"
    else if s.outstanding < 1 then .panic "log_write outside of trans"
    else .next { s with
      cache := Function.update s.cache b.toNat d
      lh := absorb s.lh b
      ops := Function.update s.ops i (some (absorb l b)) }

def endOp (s : State) (i : Nat) : Outcome State :=
  match s.ops i with
  | none => .blocked
  | some _ =>
    if s.committing then .panic "log.committing"
    else if s.outstanding - 1 = 0 then
      .next { s with
        outstanding := 0
        ops := Function.update s.ops i none
        committing := true
        -- commit() does nothing when `log.lh.n` is 0
        phase := if 0 < s.lh.length then .writeLog 0 else .done
        snaps := s.snaps ++ [s.cache]
        returned := if 0 < s.lh.length then s.returned else s.snaps.length }
    else .next { s with outstanding := s.outstanding - 1, ops := Function.update s.ops i none }

/-- one turn of the loop of `install_trans` -/
def installStep (K : Conf) (s : State) (tail : Nat) (again stop : Phase) : State :=
  match s.lh[tail]? with
  | some b => { s.bwrite b.toNat (s.cache (K.start + tail + 1)) with phase := again }
  | none => { s with lh := [], phase := stop }

/-- `write_head()` -/
def writeHead (K : Conf) (s : State) : State := s.bwrite K.start (headBuf (s.cache K.start) s.lh)

def io (K : Conf) (s : State) : Outcome State :=
  match s.phase with
  | .run => .blocked
  | .writeLog tail =>
    match s.lh[tail]? with
    | some b => .next { s.bwrite (K.start + tail + 1) (s.cache b.toNat) with phase := .writeLog (tail + 1) }
    | none => .next { s with phase := .writeHead }
  | .writeHead => .next { writeHead K s with phase := .install 0 }
  | .install tail => .next (installStep K s tail (.install (tail + 1)) .clear)
  | .clear => .next { writeHead K s with phase := .done, returned := s.snaps.length - 1 }
  | .done => .next { s with phase := .run, committing := false }
  | .readHead => .next { s with lh := readHead (s.cache K.start), phase := .recInstall 0 }
  | .recInstall tail => .next (installStep K s tail (.recInstall (tail + 1)) .recClear)
  | .recClear => .next { writeHead K s with phase := .recovered }
  -- initlog() returns; a new sequence of commits starts from what is on the disk
  | .recovered => .next { s with phase := .run, snaps := [s.disk], returned := 0 }

def crash (s : State) : State :=
  { s with
    cache := s.disk, lh := [], outstanding := 0, committing := false, phase := .readHead,
    ops := fun _ => none }

def step (K : Conf) (s : State) : Event → Outcome State
  | .beginOp i => beginOp s i
  | .logWrite i b d => logWrite K s i b d
  | .endOp i => endOp s i
  | .io => io K s
  | .crash => .next (crash s)

/-- a machine that has booted from the disk `d` -/
def init (d : Nat → Buf) : State where
  disk := d
  cache := d
  lh := []
  outstanding := 0
  committing := false
  phase := .run
  ops := fun _ => none
  snaps := [d]
  returned := 0

/-! ## absorption -/

variable {l : List Blockno} {b : Blockno} {s s' : State} {i : Nat} {K : Conf}

theorem absorb_of_mem (h : b ∈ l) : absorb l b = l := if_pos h

theorem absorb_of_notMem (h : b ∉ l) : absorb l b = l ++ [b] :=
  if_neg h

theorem mem_absorb {c : Blockno} : c ∈ absorb l b ↔ c ∈ l ∨ c = b := by
  by_cases h : b ∈ l
  · rw [absorb_of_mem h]
    constructor
    · exact Or.inl
    · rintro (hc | rfl)
      · exact hc
      · exact h
  · rw [absorb_of_notMem h]; simp

theorem length_absorb_le (l : List Blockno) (b : Blockno) :
    l.length ≤ (absorb l b).length ∧ (absorb l b).length ≤ l.length + 1 := by
  by_cases h : b ∈ l
  · rw [absorb_of_mem h]; omega
  · rw [absorb_of_notMem h, List.length_append, List.length_singleton]; omega

/-! ## what a step does -/

theorem beginOp_next (h : beginOp s i = .next s') :
    s.ops i = none ∧ s.phase.booting = false ∧ s.committing = false ∧
      s.lh.length + (s.outstanding + 1) * MAXOPBLOCKS ≤ LOGSIZE ∧
      s' = { s with outstanding := s.outstanding + 1, ops := update s.ops i (some []) } := by
  unfold beginOp at h
  cases hop : s.ops i with
  | some l => simp [hop] at h
  | none =>
    simp only [hop] at h
    obtain ⟨hboot, h⟩ := blocked_ite h
    obtain ⟨hcom, h⟩ := blocked_ite h
    obtain ⟨hroom, h⟩ := blocked_ite h
    cases h
    exact ⟨rfl, by simpa using hboot, by simpa using hcom, by omega, rfl⟩

theorem logWrite_next {d : Buf} (h : logWrite K s i b d = .next s') :
    ∃ l, s.ops i = some l ∧ Home K b.toNat ∧ s.lh.length < LOGSIZE ∧ s.lh.length < K.size - 1 ∧
      s' = { s with
        cache := update s.cache b.toNat d
        lh := absorb s.lh b
        ops := update s.ops i (some (absorb l b)) } := by
  unfold logWrite at h
  cases hop : s.ops i with
  | none => simp [hop] at h
  | some l =>
    simp only [hop] at h
    obtain ⟨hhome, h⟩ := blocked_ite h
    obtain ⟨hbig, h⟩ := panic_ite h
    split at h
    · cases h
    · cases h
      exact ⟨l, rfl, Decidable.not_not.mp hhome, by omega, by omega, rfl⟩

/-- an `end_op` that is not the last one, and the last one, which starts `commit()` -/
theorem endOp_next (h : endOp s i = .next s') : ∃ l, s.ops i = some l ∧ s.committing = false ∧
      ((s.outstanding - 1 ≠ 0 ∧
          s' = { s with outstanding := s.outstanding - 1, ops := update s.ops i none }) ∨
        (s.outstanding - 1 = 0 ∧
          s' = { s with
            outstanding := 0
            ops := update s.ops i none
            committing := true
            phase := if 0 < s.lh.length then .writeLog 0 else .done
            snaps := s.snaps ++ [s.cache]
            returned := if 0 < s.lh.length then s.returned else s.snaps.length })) := by
  unfold endOp at h
  cases hop : s.ops i with
  | none => simp [hop] at h
  | some l =>
    simp only [hop] at h
    obtain ⟨hcom, h⟩ := panic_ite h
    split at h
    · rename_i h0
      cases h
      exact ⟨l, rfl, by simpa using hcom, .inr ⟨h0, rfl⟩⟩
    · rename_i h0
      cases h
      exact ⟨l, rfl, by simpa using hcom, .inl ⟨h0, rfl⟩⟩

/-- the steps of the thread that commits or recovers -/
inductive IoStep (K : Conf) (s : State) : State → Prop
  | writeLog {t : Nat} {b : Blockno} (hp : s.phase = .writeLog t) (hb : s.lh[t]? = some b) :
    IoStep K s { s.bwrite (K.start + t + 1) (s.cache b.toNat) with phase := .writeLog (t + 1) }
  | logWritten {t : Nat} (hp : s.phase = .writeLog t) (hb : s.lh[t]? = none) :
    IoStep K s { s with phase := .writeHead }
  | writeHead (hp : s.phase = .writeHead) : IoStep K s { writeHead K s with phase := .install 0 }
  | install {t : Nat} {b : Blockno} (hp : s.phase = .install t) (hb : s.lh[t]? = some b) :
    IoStep K s { s.bwrite b.toNat (s.cache (K.start + t + 1)) with phase := .install (t + 1) }
  | installed {t : Nat} (hp : s.phase = .install t) (hb : s.lh[t]? = none) :
    IoStep K s { s with lh := [], phase := .clear }
  | clear (hp : s.phase = .clear) :
    IoStep K s { writeHead K s with phase := .done, returned := s.snaps.length - 1 }
  | done (hp : s.phase = .done) : IoStep K s { s with phase := .run, committing := false }
  | readHead (hp : s.phase = .readHead) :
    IoStep K s { s with lh := readHead (s.cache K.start), phase := .recInstall 0 }
  | recInstall {t : Nat} {b : Blockno} (hp : s.phase = .recInstall t) (hb : s.lh[t]? = some b) :
    IoStep K s { s.bwrite b.toNat (s.cache (K.start + t + 1)) with phase := .recInstall (t + 1) }
  | recInstalled {t : Nat} (hp : s.phase = .recInstall t) (hb : s.lh[t]? = none) :
    IoStep K s { s with lh := [], phase := .recClear }
  | recClear (hp : s.phase = .recClear) : IoStep K s { writeHead K s with phase := .recovered }
  | recovered (hp : s.phase = .recovered) :
    IoStep K s { s with phase := .run, snaps := [s.disk], returned := 0 }

theorem io_next (h : io K s = .next s') : IoStep K s s' := by
  unfold io at h
  cases hp : s.phase with
  | run => simp [hp] at h
  | writeLog t =>
    simp only [hp] at h
    cases hb : s.lh[t]? with
    | some b => rw [hb] at h; cases h; exact .writeLog hp hb
    | none => rw [hb] at h; cases h; exact .logWritten hp hb
  | writeHead => simp only [hp] at h; cases h; exact .writeHead hp
  | install t =>
    simp only [hp, installStep] at h
    cases hb : s.lh[t]? with
    | some b => rw [hb] at h; cases h; exact .install hp hb
    | none => rw [hb] at h; cases h; exact .installed hp hb
  | clear => simp only [hp] at h; cases h; exact .clear hp
  | done => simp only [hp] at h; cases h; exact .done hp
  | readHead => simp only [hp] at h; cases h; exact .readHead hp
  | recInstall t =>
    simp only [hp, installStep] at h
    cases hb : s.lh[t]? with
    | some b => rw [hb] at h; cases h; exact .recInstall hp hb
    | none => rw [hb] at h; cases h; exact .recInstalled hp hb
  | recClear => simp only [hp] at h; cases h; exact .recClear hp
  | recovered => simp only [hp] at h; cases h; exact .recovered hp

theorem IoStep.io_eq (h : IoStep K s s') : io K s = .next s' := by
  cases h with
  | writeLog hp hb | logWritten hp hb => simp only [io, hp, hb]
  | writeHead hp | clear hp | done hp | readHead hp | recClear hp | recovered hp => simp only [io, hp]
  | install hp hb | installed hp hb | recInstall hp hb | recInstalled hp hb =>
    simp only [io, hp, installStep, hb]

end Log
