import Xv6.Sync.Rules

/-!
# Wakeups and sleep-locks

`sleep` and `wakeup` lose no wakeup, whatever code uses them; and with `acquiresleep` and
`releasesleep` at most one process has a sleep-lock, and nobody sleeps on one that is free.

* `Initial`               the kernel before the calls;
* `no_lost_wakeup`        both statements.
-/

namespace Sync
open Run Prog
open Sched (Slot NPROC ProcState slot0)

section
variable {M : Monitor}

/-- the process `q` is about to return from `wakeup(ch)` -/
def Config.wakeupEnds (c : Config M) (q : Slot) (ch : M.Chan) : Bool :=
  match c.thread q with
  | some ⟨.act (.wakeup ch') _, .loop i⟩ => ch' = ch ∧ i = NPROC
  | _ => false

/-- the process `p` is in `sleep(ch, l)` -/
def Config.inSleep (c : Config M) (p : Slot) (ch : M.Chan) (l : M.Lk) : Bool :=
  match c.thread p with
  | some ⟨.act (.sleep ch' l') _, _⟩ => ch' = ch ∧ l' = l
  | _ => false

theorem wakeupEnds_iff {c : Config M} {q : Slot} {ch : M.Chan} (h : c.wakeupEnds q ch = true) :
    ∃ k, c.thread q = some ⟨.act (.wakeup ch) k, .loop NPROC⟩ := by
  unfold Config.wakeupEnds at h
  split at h
  · rename_i ch' k i ht
    obtain ⟨rfl, rfl⟩ := of_decide_eq_true h
    exact ⟨k, ht⟩
  · cases h

theorem inSleep_iff {c : Config M} {p : Slot} {ch : M.Chan} {l : M.Lk} (h : c.inSleep p ch l = true) :
    ∃ t, c.thread p = some t ∧ t.op = some (.sleep ch l) := by
  unfold Config.inSleep at h
  split at h
  · rename_i ch' l' k pc ht
    obtain ⟨rfl, rfl⟩ := of_decide_eq_true h
    exact ⟨_, ht, rfl⟩
  · cases h

end

section
variable (c : Config kernel)

def Config.sleepLock (i : Nat) : SleepLock := c.sys.data (.sleep i)

def Config.pipe (j : Nat) : Pipe := c.sys.data (.pipe j)

/-- the process sleeps on the channel -/
def Config.SleepsOn (p : Slot) (ch : KChan) : Prop :=
  (c.sys.proc p).state = .SLEEPING ∧ (c.sys.proc p).chan = some ch

/-- nobody is in a call; every sleep-lock is free, as `initsleeplock` leaves it; and every pipe may
hold some bytes already, with its counters anywhere -/
structure Initial : Prop extends c.Fresh where
  released : ∀ i, c.sleepLock i = ⟨false, 0, []⟩
  pipes : ∀ j, Fifo (c.pipe j)

end

section
variable {c : Config kernel} {e : Event kernel Call}

theorem Initial.inv (h : Initial c) (a b : Bool) (l : KLock) : (rules a b).J l (c.sys.data l) := by
  cases l with
  | sleep i =>
    intro _
    show Exclusive (c.sleepLock i)
    rw [h.released i]
    exact .inl ⟨rfl, rfl⟩
  | pipe j => exact h.pipes j
  | _ => exact trivial

/-- every process runs in user space, with its slot and one more as its pid -/
def boot : Config kernel where
  sys := {
    data := fun l => match l with
      | .sleep _ => ⟨false, 0, []⟩
      | .pipe _ => ⟨fun _ => 0, 0, 0, true, true, [], []⟩
      | .cons => ⟨fun _ => 0, 0, 0, 0⟩
      | .ticks => (0 : BitVec 32)
      | .wait => fun _ => []
    lock := fun _ => none
    noff := fun _ => 0
    proc := fun p => ⟨.RUNNING, none, false, p.val + 1⟩ }
  thread := fun _ => none

theorem boot_initial : Initial boot := by
  refine ⟨⟨fun _ => rfl, fun _ e => ?_, fun _ => rfl, fun _ => rfl⟩, fun _ => rfl, fun _ => ?_⟩
  · cases e
  refine ⟨?_, ?_⟩
  · show Ring.count (0 : BitVec 32) 0 ≤ PIPESIZE
    rw [Ring.count_eq_zero.mpr rfl]
    exact Nat.zero_le _
  · show [] ++ Ring.contents PIPESIZE _ (0 : BitVec 32) 0 = []
    rw [Ring.contents_self]
    rfl

def slot1 : Slot := ⟨1, by decide⟩

def slot2 : Slot := ⟨2, by decide⟩

/-- if the operation clears a sleep-lock, the process has it -/
def clearsOwn (c : Config kernel) (p : Slot) : Option (Op kernel) → Bool
  | some (.act (.sleep i) SleepAct.clear) => p ∈ (c.sleepLock i).holders
  | _ => true

/-- a `releasesleep` that clears a lock is by a process that has it -/
def holderReleases (c : Config kernel) : Event kernel Call → Bool
  | .step p => clearsOwn c p (c.op p)
  | _ => true

theorem holderReleases_guarded (h : holderReleases c e = true) : (rules true false).Guarded c e := by
  rintro p l x rfl hop
  dsimp only [holderReleases] at h
  rw [hop] at h
  cases l with
  | sleep i =>
    cases x with
    | clear => exact fun _ => of_decide_eq_true h
    | _ => exact trivial
  | pipe j =>
    cases x with
    | giveUp fresh => exact fun e => absurd e Bool.false_ne_true
    | _ => exact trivial
  | _ => exact trivial

theorem reason_sleep {a b : Bool} {l : KLock} {d : l.Data} {i : Nat}
    (h : (rules a b).reason l (.sleep i) d) : l = .sleep i := by
  cases l with
  | sleep i' =>
    obtain ⟨rfl, -⟩ := h
    rfl
  | _ => exact absurd h id

theorem holders_length {d : SleepLock} (h : Exclusive d) : d.holders.length ≤ 1 := by
  rcases h with ⟨-, h⟩ | ⟨-, p, h⟩
  · rw [h]
    exact Nat.zero_le 1
  · rw [h]
    exact Nat.le_refl 1

end

/-- **No lost wakeup.**  Whatever code uses them: when a `wakeup(ch)` of the process `q`, which has
the lock `l`, is about to return, every process in `sleep(ch, l)` is runnable or runs.  With
sleep-locks released by their holders, at most one process has one, and while its spinlock is free
nobody sleeps on it unless it is locked. -/
theorem no_lost_wakeup :
    (∀ (M : Monitor) (κ : Type) (code : Slot → κ → Code M Unit) (c0 c : Config M)
      (es : List (Event M κ)), c0.Fresh → exec (step code) c0 es = .next c →
      ∀ q ch l p, c.wakeupEnds q ch = true → c.sys.lock (.of l) = some q → c.inSleep p ch l = true →
        (c.sys.proc p).state = .RUNNABLE ∨ (c.sys.proc p).state = .RUNNING) ∧
    ∀ (c0 c : Config kernel) (es : List (Event kernel Call)), Initial c0 →
      Along (step Call.code) (fun c e => holderReleases c e = true) c0 es →
      exec (step Call.code) c0 es = .next c →
      ∀ i, (c.sleepLock i).holders.length ≤ 1 ∧
        (c.sys.lock (.of (.sleep i)) = none → ∀ p, c.SleepsOn p (.sleep i) →
          (c.sleepLock i).locked = true) := by
  refine ⟨?_, ?_⟩
  · intro M κ code c0 c es h0 hx q ch l p hq hl hp
    obtain ⟨k, hq⟩ := wakeupEnds_iff hq
    obtain ⟨t, ht, ho⟩ := inSleep_iff hp
    exact wakeup_run h0 hx hq hl ht ho
  · intro c0 c es h0 hC hx i
    have hg := along_mono (fun c e h => holderReleases_guarded h) hC
    obtain ⟨hJ, -, hr⟩ := monitor_run (rules_sound true false) h0.toFresh (h0.inv true false) (fun _ => trivial) hg hx
    refine ⟨holders_length (hJ (.sleep i) rfl), ?_⟩
    intro hl p hp
    obtain ⟨ch, l, hch, ⟨d, hd⟩, hreason⟩ := hr p hp.1
    cases hp.2.symm.trans hch
    cases reason_sleep hd
    exact (hreason hl).2 rfl

/-- one process takes the sleep-lock, another one waits for it, the first one releases it and is about
to return from `wakeup` -/
def handover : List (Event kernel Call) :=
  .start slot0 (.acquiresleep 0 1) :: List.replicate 5 (.step slot0) ++
  .start slot1 (.acquiresleep 0 2) :: List.replicate 7 (.step slot1) ++
  .start slot0 (.releasesleep 0) :: List.replicate 193 (.step slot0)

theorem no_lost_wakeup_handover :
    ∃ c, exec (step Call.code) boot handover = .next c ∧
      ((c.sys.proc slot1).state = .RUNNABLE ∨ (c.sys.proc slot1).state = .RUNNING) ∧
      (c.sleepLock 0).holders.length ≤ 1 ∧
      (c.sys.lock (.of (.sleep 0)) = none → ∀ p, c.SleepsOn p (.sleep 0) →
        (c.sleepLock 0).locked = true) := by
  obtain ⟨c, hx, hq, hl, hp⟩ := exists_of_check (p := fun c : Config kernel =>
      c.wakeupEnds slot0 (.sleep 0) = true ∧ c.sys.lock (.of (.sleep 0)) = some slot0 ∧
        c.inSleep slot1 (.sleep 0) (.sleep 0) = true)
    (o := exec (step Call.code) boot handover) (by decide +kernel)
  have hC : Along (step Call.code) (fun c e => holderReleases c e = true) boot handover :=
    along_of_check (by decide +kernel)
  obtain ⟨h1, h2⟩ := no_lost_wakeup
  exact ⟨c, hx, h1 kernel Call Call.code boot c handover boot_initial.toFresh hx slot0 _ _ slot1 hq hl hp,
    h2 boot c handover boot_initial hC hx 0⟩

end Sync
