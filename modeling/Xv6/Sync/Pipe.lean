import Xv6.Sync.SleepLock

/-!
# Pipes

The bytes of a pipe come out in the order in which they went in, with counters that wrap around
(`pipe_fifo`).

Who sleeps on a pipe should have a reason: a reader that it is empty and can still be written, a
writer that it is full and can still be read.  One exit of `pipewrite` breaks that: when the reader is
gone or the process is killed it returns -1 without a `wakeup(&pi->nread)`, also if it has just put
bytes into the ring (`pipewrite_early_exit`).  Along every run in which no call leaves that way with
such bytes, the reasons hold (`pipe_sleepers`).
-/

namespace Sync
open Run Prog Bytes
open Sched (Slot NPROC ProcState slot0)

/-! ## order -/

/-- **Pipes are first in, first out.**  For every run of the calls from every initial state the ring
holds at most `PIPESIZE` bytes, and the bytes taken out of it, followed by those still in it, are
those taken from the writers. -/
theorem pipe_fifo (c0 c : Config kernel) (es : List (Event kernel Call)) (h0 : Initial c0)
    (hx : exec (step Call.code) c0 es = .next c) (j : Nat) :
    ((c.pipe j).nwrite - (c.pipe j).nread).toNat ≤ PIPESIZE ∧
      (c.pipe j).removed ++ (c.pipe j).contents = (c.pipe j).accepted := by
  have hg : Along (step Call.code) (rules false false).Guarded c0 es := by
    refine along_of_forall (fun c e p l x _ _ => ?_) c0 es
    cases l with
    | sleep i =>
      cases x with
      | clear => exact fun e => absurd e Bool.false_ne_true
      | _ => exact trivial
    | pipe j =>
      cases x with
      | giveUp fresh => exact fun e => absurd e Bool.false_ne_true
      | _ => exact trivial
    | _ => exact trivial
  exact (monitor_run (rules_sound false false) h0.toFresh (h0.inv false false) (fun _ => trivial) hg hx).1 (.pipe j)

/-- two bytes are written, one of them is read -/
def writeTwoReadOne : List (Event kernel Call) :=
  .start slot0 (.pipewrite 0 (fun i => some (BitVec.ofNat 8 (7 + i))) 2 3) ::
    List.replicate 207 (.step slot0) ++
  .start slot1 (.piperead 0 (fun _ => true) 1 1) :: List.replicate 4 (.step slot1)

theorem pipe_fifo_two :
    ∃ c, exec (step Call.code) boot writeTwoReadOne = .next c ∧ (c.pipe 0).accepted = [7, 8] ∧
      (c.pipe 0).removed = [7] ∧ ((c.pipe 0).nwrite - (c.pipe 0).nread).toNat ≤ PIPESIZE ∧
      (c.pipe 0).removed ++ (c.pipe 0).contents = (c.pipe 0).accepted := by
  obtain ⟨c, hx, h1, h2⟩ := exists_of_check (p := fun c : Config kernel =>
      (c.pipe 0).accepted = [7, 8] ∧ (c.pipe 0).removed = [7])
    (o := exec (step Call.code) boot writeTwoReadOne) (by decide +kernel)
  exact ⟨c, hx, h1, h2, pipe_fifo boot c writeTwoReadOne boot_initial hx 0⟩

/-! ## sleepers -/

/-- while the lock of a pipe is free, a reader that sleeps has an empty pipe that can be written, and a
writer a full one that can be read -/
def RightlyAsleep (c : Config kernel) : Prop :=
  ∀ j, c.sys.lock (.of (.pipe j)) = none → ∀ p,
    (c.SleepsOn p (.nread j) → (c.pipe j).Empty ∧ (c.pipe j).writeopen = true) ∧
    (c.SleepsOn p (.nwrite j) → (c.pipe j).Full ∧ (c.pipe j).readopen = true)

/-- the operation is not the early exit of a `pipewrite` that has put bytes into the ring -/
def givesUpClean : Option (Op kernel) → Bool
  | some (.act (.pipe _) (PipeAct.giveUp fresh)) => fresh = 0
  | _ => true

/-- a `pipewrite` that finds the reader gone or itself killed has put no byte into the ring since it
took the lock, came back from `sleep` or woke the readers -/
def noEarlyExit (c : Config kernel) : Event kernel Call → Bool
  | .step p => givesUpClean (c.op p)
  | _ => true

theorem noEarlyExit_guarded {c : Config kernel} {e : Event kernel Call} (h : noEarlyExit c e = true) :
    (rules false true).Guarded c e := by
  rintro p l x rfl hop
  dsimp only [noEarlyExit] at h
  rw [hop] at h
  cases l with
  | sleep i =>
    cases x with
    | clear => exact fun e => absurd e Bool.false_ne_true
    | _ => exact trivial
  | pipe j =>
    cases x with
    | giveUp fresh => exact fun _ => of_decide_eq_true h
    | _ => exact trivial
  | _ => exact trivial

theorem reason_nread {a b : Bool} {l : KLock} {d : l.Data} {j : Nat}
    (h : (rules a b).reason l (.nread j) d) : l = .pipe j := by
  cases l with
  | pipe j' =>
    obtain ⟨rfl, -⟩ := h
    rfl
  | _ => exact absurd h id

theorem reason_nwrite {a b : Bool} {l : KLock} {d : l.Data} {j : Nat}
    (h : (rules a b).reason l (.nwrite j) d) : l = .pipe j := by
  cases l with
  | pipe j' =>
    obtain ⟨rfl, -⟩ := h
    rfl
  | _ => exact absurd h id

/-- **Nobody sleeps on a pipe without a reason,** along every run without such an exit. -/
theorem pipe_sleepers (c0 c : Config kernel) (es : List (Event kernel Call)) (h0 : Initial c0)
    (hC : Along (step Call.code) (fun c e => noEarlyExit c e = true) c0 es)
    (hx : exec (step Call.code) c0 es = .next c) : RightlyAsleep c := by
  have hg := along_mono (fun c e h => noEarlyExit_guarded h) hC
  obtain ⟨-, -, hr⟩ := monitor_run (rules_sound false true) h0.toFresh (h0.inv false true) (fun _ => trivial) hg hx
  intro j hl p
  refine ⟨fun hp => ?_, fun hp => ?_⟩
  · obtain ⟨ch, l, hch, ⟨d, hd⟩, hreason⟩ := hr p hp.1
    cases hp.2.symm.trans hch
    cases reason_nread hd
    exact (hreason hl).2 rfl
  · obtain ⟨ch, l, hch, ⟨d, hd⟩, hreason⟩ := hr p hp.1
    cases hp.2.symm.trans hch
    cases reason_nwrite hd
    exact (hreason hl).2 rfl

/-- a reader waits for the first byte -/
def readerWaits : List (Event kernel Call) :=
  .start slot0 (.piperead 0 (fun _ => true) 1 2) :: List.replicate 11 (.step slot0)

theorem pipe_sleepers_reader :
    ∃ c, exec (step Call.code) boot readerWaits = .next c ∧ c.SleepsOn slot0 (.nread 0) ∧
      RightlyAsleep c := by
  obtain ⟨c, hx, h1, h2⟩ := exists_of_check (p := fun c : Config kernel =>
      (c.sys.proc slot0).state = .SLEEPING ∧ (c.sys.proc slot0).chan = some (.nread 0))
    (o := exec (step Call.code) boot readerWaits) (by decide +kernel)
  have hC : Along (step Call.code) (fun c e => noEarlyExit c e = true) boot readerWaits :=
    along_of_check (by decide +kernel)
  exact ⟨c, hx, ⟨h1, h2⟩, pipe_sleepers boot c readerWaits boot_initial hC hx⟩

/-- while the reader waits, a writer of two bytes puts the first one into the ring, is killed, and
leaves -/
def earlyExit : List (Event kernel Call) :=
  readerWaits ++
  .start slot1 (.pipewrite 0 (fun _ => some 7) 2 3) :: List.replicate 7 (.step slot1) ++
  .start slot2 (.kill 2) :: List.replicate 8 (.step slot2) ++
  List.replicate 7 (.step slot1)

/-- the reader sleeps on although there is a byte for it -/
theorem pipewrite_early_exit :
    ∃ c, exec (step Call.code) boot earlyExit = .next c ∧ ¬ RightlyAsleep c := by
  obtain ⟨c, hx, h1, h2, h3, h4⟩ := exists_of_check (p := fun c : Config kernel =>
      (c.sys.proc slot0).state = .SLEEPING ∧ (c.sys.proc slot0).chan = some (.nread 0) ∧
        c.sys.lock (.of (.pipe 0)) = none ∧ (c.pipe 0).nread ≠ (c.pipe 0).nwrite)
    (o := exec (step Call.code) boot earlyExit) (by decide +kernel)
  exact ⟨c, hx, fun h => h4 ((h 0 h3 slot0).1 ⟨h1, h2⟩).1⟩

end Sync
