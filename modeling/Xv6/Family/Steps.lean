import Xv6.Family.Model

/-!
# What the steps do to families

For parents and children it only matters whether a slot is free, being set up by `fork`, in use, or a
zombie.  Most steps change nothing of that (`Calm`); the others are `fork` in three sections, the
adoption of one child by `init`, the end of `exit`, and `wait` when it returns a child (`Move`).

* `Kind`, `Kin`           what counts of a slot;
* `Move`, `step_cases`    what one event does.
-/

namespace Family
open Run Function
open Sched (NPROC Slot ProcState slot0)

inductive Kind where
  | free | embryo | live | dead
  deriving DecidableEq

def kind : ProcState → Kind
  | .UNUSED => .free
  | .USED => .embryo
  | .ZOMBIE => .dead
  | _ => .live

/-- what counts of a slot -/
structure Kin where
  kind : Kind
  parent : Option Slot
  pid : Word
  xstate : Word

def Proc.kin (x : Proc) : Kin := ⟨kind x.state, x.parent, x.pid, x.xstate⟩

def State.kin (s : State) (q : Slot) : Kin := (s.proc q).kin

/-! ## positions -/

/-- the process has `wait_lock` -/
def Pc.locks : Pc → Bool
  | .reparent _ _ | .reparentWake _ _ _ | .exitWake _ _ | .exitZombie _ => true
  | .waitScan _ _ | .waitTest _ | .waitSleep => true
  | _ => false

/-- the child that `fork` is setting up -/
def Pc.child : Pc → Option Slot
  | .setParent q _ | .setRunnable q _ => some q
  | _ => none

def Pc.exiting : Pc → Bool
  | .exitBegin _ | .reparent _ _ | .reparentWake _ _ _ | .exitWake _ _ | .exitZombie _ => true
  | _ => false

/-- `reparent` has passed the slot `j` -/
def Pc.Past : Pc → Nat → Prop
  | .reparent i _, j => j < i
  | .reparentWake i _ _, j => j ≤ i
  | .exitWake _ _, _ => True
  | .exitZombie _, _ => True
  | _, _ => False

/-- a position in one of the calls -/
def Pc.busy : Pc → Bool
  | .user | .zombie => false
  | _ => true

/-- the process `p` may go from the position `a` to `b` when its family stays as it is -/
structure Slides (s : State) (p : Slot) (a b : Pc) : Prop where
  child : b.child = none ∨ b = a
  past : ∀ j : Slot, b.Past j → a.Past j ∨ (s.kin j).parent ≠ some p
  exiting : b.exiting = true → a.exiting = true ∨ p ≠ slot0
  live : b.busy = true → a.busy = true ∨ (s.kin p).kind = .live

/-- `wait_lock` stays with whom it is, or `p` takes it, or gives it back -/
def Locks (s s' : State) (p : Slot) (a b : Pc) : Prop :=
  s'.waitLock = s.waitLock ∧ b.locks = a.locks ∨
  s.waitLock = none ∧ s'.waitLock = some p ∨
  a.locks = true ∧ s'.waitLock = none ∧ b.locks = false

/-- a step that leaves the families as they are -/
structure Calm (s s' : State) (p : Slot) : Prop where
  kin : ∀ q, s'.kin q = s.kin q
  pc : ∀ q, q ≠ p → s'.pc q = s.pc q
  slides : Slides s p (s.pc p) (s'.pc p)
  locks : Locks s s' p (s.pc p) (s'.pc p)
  nextpid : s'.nextpid = s.nextpid
  allocated : s'.allocated = s.allocated
  exits : s'.exits = s.exits
  reaped : s'.reaped = s.reaped

/-- the state but for the positions, the lock, the clock and what is not kin -/
inductive Move (s : State) : Event → State → Prop
  | calm {e s'} (p : Slot) : Calm s s' p → Move s e s'
  | alloc {p q} : (s.proc p).state = .RUNNING → s.pc p = .alloc q.val → (s.proc q).state = .UNUSED →
      Move s (.step p true) ((s.alloc q).goto p (.setParent q s.nextpid))
  | allocFail {p q} : (s.proc p).state = .RUNNING → s.pc p = .alloc q.val →
      (s.proc q).state = .UNUSED →
      Move s (.step p false)
        (((s.alloc q).setProc q (freed ((s.alloc q).proc q))).return p failed)
  | setParent {p q pid ok} : (s.proc p).state = .RUNNING → s.pc p = .setParent q pid →
      s.waitLock = none →
      Move s (.step p ok)
        ((s.setProc q { s.proc q with parent := some p }).goto p (.setRunnable q pid))
  | setRunnable {p q pid ok} : (s.proc p).state = .RUNNING → s.pc p = .setRunnable q pid →
      Move s (.step p ok) ((s.setProc q { s.proc q with state := .RUNNABLE }).return p pid)
  | adopt {p ok status} {q : Slot} : (s.proc p).state = .RUNNING → s.pc p = .reparent q.val status →
      (s.proc q).parent = some p →
      Move s (.step p ok) ((s.setProc q { s.proc q with parent := some slot0 }).goto p
        (.reparentWake q.val 0 status))
  | die {p ok status} : (s.proc p).state = .RUNNING → s.pc p = .exitZombie status →
      Move s (.step p ok) (s.die p status)
  | reap {p havekids} {q : Slot} : (s.proc p).state = .RUNNING → s.pc p = .waitScan q.val havekids →
      (s.proc q).parent = some p → (s.proc q).state = .ZOMBIE →
      Move s (.step p true) (s.reap p q)

/-! ## steps that leave the families as they are -/

section
variable {s s' : State} {p q : Slot} {b : Pc}

theorem setProc_self (s : State) (p : Slot) (x : Proc) : (s.setProc p x).proc p = x :=
  update_self ..

theorem setProc_of_ne (s : State) {p q : Slot} (x : Proc) (h : q ≠ p) :
    (s.setProc p x).proc q = s.proc q := update_of_ne h _ _

theorem goto_self (s : State) (p : Slot) (b : Pc) : (s.goto p b).pc p = b := update_self ..

theorem goto_of_ne (s : State) {p q : Slot} (b : Pc) (h : q ≠ p) : (s.goto p b).pc q = s.pc q :=
  update_of_ne h _ _

theorem kin_setProc {x : Proc} (h : x.kin = s.kin p) (q : Slot) : (s.setProc p x).kin q = s.kin q := by
  by_cases e : q = p
  · subst e
    rw [State.kin, setProc_self, h]
  · rw [State.kin, setProc_of_ne s x e]
    rfl

theorem kin_wake (s : State) (r : Slot) (ch : Option Chan) (q : Slot) :
    (s.wake r ch).kin q = s.kin q := by
  unfold State.wake
  split
  · rename_i h
    refine kin_setProc ?_ q
    show Kin.mk _ _ _ _ = Kin.mk (kind (s.proc r).state) _ _ _
    rw [h.1]
    rfl
  · rfl

theorem kin_live (h : (s.proc p).state = .RUNNING) : (s.kin p).kind = .live := by
  show kind (s.proc p).state = .live
  rw [h]
  rfl

theorem calm_pc (hk : ∀ q, s'.kin q = s.kin q) (hpc : s'.pc = update s.pc p b)
    (hs : Slides s p (s.pc p) b) (hl : Locks s s' p (s.pc p) b) (hn : s'.nextpid = s.nextpid)
    (ha : s'.allocated = s.allocated) (he : s'.exits = s.exits) (hr : s'.reaped = s.reaped) :
    Calm s s' p := by
  have e : s'.pc p = b := by rw [hpc, update_self]
  refine ⟨hk, fun q hq => ?_, ?_, ?_, hn, ha, he, hr⟩
  · rw [hpc, update_of_ne hq]
  · rwa [e]
  · rwa [e]

theorem calm_stay (hk : ∀ q, s'.kin q = s.kin q) (hpc : s'.pc = s.pc) (hl : s'.waitLock = s.waitLock)
    (hn : s'.nextpid = s.nextpid) (ha : s'.allocated = s.allocated) (he : s'.exits = s.exits)
    (hr : s'.reaped = s.reaped) : Calm s s' p := by
  refine ⟨hk, fun q _ => by rw [hpc], ?_, ?_, hn, ha, he, hr⟩
  · rw [hpc]
    exact ⟨.inr rfl, fun j h => .inl h, fun h => .inl h, fun h => .inl h⟩
  · rw [hpc]
    exact .inl ⟨hl, rfl⟩

/-- a position outside `exit`, with no child being set up -/
def Pc.plain : Pc → Bool
  | .setParent _ _ | .setRunnable _ _ => false
  | .exitBegin _ | .reparent _ _ | .reparentWake _ _ _ | .exitWake _ _ | .exitZombie _ => false
  | _ => true

theorem slides_plain {a : Pc} (h : b.plain = true) (hp : (s.kin p).kind = .live) : Slides s p a b := by
  refine ⟨.inl ?_, fun j hj => ?_, fun e => ?_, fun _ => .inr hp⟩
  · cases b <;> first | rfl | cases h
  · cases b <;> first | exact absurd hj id | cases h
  · cases b <;> first | cases h; done | cases e

theorem slides_exit {a : Pc} (hb : b.child = none) (ha : a.exiting = true) (hp : (s.kin p).kind = .live)
    (h : ∀ j : Slot, b.Past j → a.Past j ∨ (s.kin j).parent ≠ some p) : Slides s p a b :=
  ⟨.inl hb, h, fun _ => .inl ha, fun _ => .inr hp⟩

theorem calm_goto (hs : Slides s p (s.pc p) b) (hl : b.locks = (s.pc p).locks) :
    Calm s (s.goto p b) p :=
  calm_pc (fun _ => rfl) rfl hs (.inl ⟨rfl, hl⟩) rfl rfl rfl rfl

theorem calm_return {r : Word} (hp : (s.kin p).kind = .live) (hl : (s.pc p).locks = false) :
    Calm s (s.return p r) p :=
  calm_pc (fun _ => rfl) rfl (slides_plain rfl hp) (.inl ⟨rfl, hl.symm⟩) rfl rfl rfl rfl

theorem calm_unlock {r : Word} (hp : (s.kin p).kind = .live) (hl : (s.pc p).locks = true) :
    Calm s ({ s with waitLock := none }.return p r) p :=
  calm_pc (fun _ => rfl) rfl (slides_plain rfl hp) (.inr (.inr ⟨hl, rfl, rfl⟩)) rfl rfl rfl rfl

theorem calm_lock (hl : s.waitLock = none) (hs : Slides s p (s.pc p) b) :
    Calm s ({ s with waitLock := some p }.goto p b) p :=
  calm_pc (fun _ => rfl) rfl hs (.inr (.inl ⟨hl, rfl⟩)) rfl rfl rfl rfl

theorem calm_setProc {x : Proc} (hx : x.kin = s.kin q) (hs : Slides s p (s.pc p) b)
    (hl : b.locks = (s.pc p).locks) : Calm s ((s.setProc q x).goto p b) p :=
  calm_pc (fun r => kin_setProc hx r) rfl hs (.inl ⟨rfl, hl⟩) rfl rfl rfl rfl

theorem wake_pc (s : State) (q : Slot) (ch : Option Chan) : (s.wake q ch).pc = s.pc := by
  unfold State.wake
  split <;> rfl

theorem wake_eq (s : State) (q : Slot) (ch : Option Chan) :
    s.wake q ch = { s with proc := (s.wake q ch).proc } := by
  unfold State.wake
  split <;> rfl

theorem calm_wake {ch : Option Chan} (hs : Slides s p (s.pc p) b) (hl : b.locks = (s.pc p).locks) :
    Calm s ((if q = p then s else s.wake q ch).goto p b) p := by
  split
  · exact calm_goto hs hl
  · refine calm_pc (fun r => kin_wake s q ch r) ?_ hs (.inl ⟨?_, hl⟩) ?_ ?_ ?_ ?_
    all_goals rw [wake_eq]; rfl

theorem kin_updatePinfo (x : Proc) : (updatePinfo x).kin = x.kin := by
  unfold updatePinfo
  split <;> rfl

theorem kin_marked (x : Proc) : (marked x).kin = x.kin := by
  unfold marked Proc.kin
  split
  · rename_i h
    rw [h]
    rfl
  · rfl

end

/-! ## one event -/

section
variable {s s' : State} {p : Slot}

theorem resumed_busy {a : Pc} (h : (resumed a).busy = true) : a.busy = true := by
  cases a <;> first | rfl | cases h

theorem slides_resumed (s : State) (p : Slot) (a : Pc) : Slides s p a (resumed a) := by
  refine ⟨?_, fun j hj => .inl ?_, fun e => .inl ?_, fun e => .inl (resumed_busy e)⟩
  · cases a <;> first | exact .inr rfl | exact .inl rfl
  · cases a <;> exact hj
  · cases a <;> exact e

theorem resumed_locks (a : Pc) : (resumed a).locks = a.locks := by cases a <;> rfl

theorem move_fork {i : Nat} {ok : Bool} (hp : (s.proc p).state = .RUNNING) (hpc : s.pc p = .alloc i)
    (h : stepProc s p ok = .next s') : Move s (.step p ok) s' := by
  unfold stepProc at h
  rw [hpc] at h
  dsimp only at h
  split at h
  · rename_i hi
    split at h
    · rename_i hq
      split at h
      · rename_i hok
        cases h
        rw [hok]
        exact .alloc hp hpc hq
      · rename_i hok
        cases h
        rw [Bool.eq_false_iff.mpr hok]
        exact .allocFail hp hpc hq
    · cases h
      exact .calm p (calm_goto (slides_plain rfl (kin_live hp)) (by rw [hpc]; rfl))
  · cases h
    exact .calm p (calm_return (kin_live hp) (by rw [hpc]; rfl))

theorem move_reparent {i : Nat} {status : Word} {ok : Bool} (hp : (s.proc p).state = .RUNNING)
    (hpc : s.pc p = .reparent i status) (h : stepProc s p ok = .next s') : Move s (.step p ok) s' := by
  have hex : (s.pc p).exiting = true := by rw [hpc]; rfl
  have hlk : (s.pc p).locks = true := by rw [hpc]; rfl
  unfold stepProc at h
  rw [hpc] at h
  dsimp only at h
  split at h
  · rename_i hi
    split at h
    · rename_i hq
      cases h
      exact .adopt hp hpc hq
    rename_i hq
    cases h
    refine .calm p (calm_goto (slides_exit rfl hex (kin_live hp) fun j hj => ?_) hlk.symm)
    rw [hpc]
    rcases Nat.lt_succ_iff_lt_or_eq.mp hj with lt | eq
    · exact .inl lt
    · obtain rfl : j = ⟨i, hi⟩ := Fin.ext eq
      exact .inr hq
  · rename_i hi
    cases h
    refine .calm p (calm_goto (slides_exit rfl hex (kin_live hp) fun j _ => ?_) hlk.symm)
    rw [hpc]
    exact .inl (Nat.lt_of_lt_of_le j.isLt (Nat.not_lt.mp hi))

theorem move_exit {ok : Bool} (hp : (s.proc p).state = .RUNNING) (hex : (s.pc p).exiting = true)
    (h : stepProc s p ok = .next s') : Move s (.step p ok) s' := by
  have live := kin_live hp
  cases hpc : s.pc p with
  | exitBegin status =>
    unfold stepProc at h
    rw [hpc] at h
    obtain ⟨hl, rfl⟩ := guard_next h
    exact .calm p (calm_lock hl (slides_exit rfl hex live fun j hj => absurd hj (Nat.not_lt_zero _)))
  | reparent i status => exact move_reparent hp hpc h
  | reparentWake i j status =>
    have hlk : (s.pc p).locks = true := by rw [hpc]; rfl
    unfold stepProc at h
    rw [hpc] at h
    dsimp only at h
    split at h
    · cases h
      refine .calm p (calm_wake (slides_exit rfl hex live fun k hk => ?_) hlk.symm)
      rw [hpc]
      exact .inl hk
    · cases h
      refine .calm p (calm_goto (slides_exit rfl hex live fun k hk => ?_) hlk.symm)
      rw [hpc]
      exact .inl (Nat.lt_succ_iff.mp hk)
  | exitWake j status =>
    have hlk : (s.pc p).locks = true := by rw [hpc]; rfl
    unfold stepProc at h
    rw [hpc] at h
    dsimp only at h
    split at h
    · cases h
      refine .calm p (calm_wake (slides_exit rfl hex live fun k hk => ?_) hlk.symm)
      rw [hpc]
      exact .inl hk
    · cases h
      refine .calm p (calm_goto (slides_exit rfl hex live fun k hk => ?_) hlk.symm)
      rw [hpc]
      exact .inl hk
  | exitZombie status =>
    unfold stepProc at h
    rw [hpc] at h
    cases h
    exact .die hp hpc
  | _ =>
    rw [hpc] at hex
    cases hex

theorem move_waitScan {i : Nat} {havekids ok : Bool} (hp : (s.proc p).state = .RUNNING)
    (hpc : s.pc p = .waitScan i havekids) (h : stepProc s p ok = .next s') :
    Move s (.step p ok) s' := by
  have live := kin_live hp
  have hlk : (s.pc p).locks = true := by rw [hpc]; rfl
  unfold stepProc at h
  rw [hpc] at h
  dsimp only at h
  split at h
  · rename_i hi
    split at h
    · rename_i hq
      split at h
      · rename_i hz
        split at h
        · rename_i hok
          cases h
          rw [hok]
          exact .reap hp hpc hq hz
        · cases h
          exact .calm p (calm_unlock live hlk)
      · cases h
        exact .calm p (calm_goto (slides_plain rfl live) hlk.symm)
    · cases h
      exact .calm p (calm_goto (slides_plain rfl live) hlk.symm)
  · cases h
    exact .calm p (calm_goto (slides_plain rfl live) hlk.symm)

theorem kin_asleep {ch : Option Chan} (hp : (s.proc p).state = .RUNNING) :
    Proc.kin { s.proc p with chan := ch, state := .SLEEPING } = s.kin p := by
  show Kin.mk _ _ _ _ = Kin.mk (kind (s.proc p).state) _ _ _
  rw [hp]
  rfl

theorem move_stepProc {ok : Bool} (hp : (s.proc p).state = .RUNNING)
    (h : stepProc s p ok = .next s') : Move s (.step p ok) s' := by
  have live := kin_live hp
  by_cases hex : (s.pc p).exiting = true
  · exact move_exit hp hex h
  cases hpc : s.pc p with
  | alloc i => exact move_fork hp hpc h
  | waitScan i havekids => exact move_waitScan hp hpc h
  | setParent q pid =>
    unfold stepProc at h
    rw [hpc] at h
    obtain ⟨hl, rfl⟩ := guard_next h
    exact .setParent hp hpc hl
  | setRunnable q pid =>
    unfold stepProc at h
    rw [hpc] at h
    cases h
    exact .setRunnable hp hpc
  | waitBegin =>
    unfold stepProc at h
    rw [hpc] at h
    obtain ⟨hl, rfl⟩ := guard_next h
    exact .calm p (calm_lock hl (slides_plain rfl live))
  | waitTest havekids =>
    have hlk : (s.pc p).locks = true := by rw [hpc]; rfl
    unfold stepProc at h
    rw [hpc] at h
    dsimp only at h
    split at h
    · cases h
      exact .calm p (calm_unlock live hlk)
    · cases h
      exact .calm p (calm_goto (slides_plain rfl live) hlk.symm)
  | waitSleep =>
    have hlk : (s.pc p).locks = true := by rw [hpc]; rfl
    unfold stepProc at h
    rw [hpc] at h
    cases h
    exact .calm p (calm_pc (fun r => kin_setProc (kin_asleep hp) r) rfl (slides_plain rfl live)
      (.inr (.inr ⟨hlk, rfl, rfl⟩)) rfl rfl rfl rfl)
  | kill pid i =>
    have hlk : (s.pc p).locks = false := by rw [hpc]; rfl
    unfold stepProc at h
    rw [hpc] at h
    dsimp only at h
    split at h
    · split at h
      · cases h
        exact .calm p (calm_pc (fun r => kin_setProc (kin_marked _) r) rfl (slides_plain rfl live)
          (.inl ⟨rfl, hlk.symm⟩) rfl rfl rfl rfl)
      · cases h
        exact .calm p (calm_goto (slides_plain rfl live) hlk.symm)
    · cases h
      exact .calm p (calm_return live hlk)
  | _ =>
    unfold stepProc at h
    rw [hpc] at h hex
    first | cases h; done | exact absurd rfl hex

theorem calm_begin {b : Pc} (h : s.Idle p) (hb : b.plain = true) (hl : b.locks = false) :
    Calm s (s.goto p b) p :=
  calm_goto (slides_plain hb (kin_live h.1)) (by rw [h.2]; exact hl)

theorem calm_clock (h : stepClock s = .next s') : Calm s s' p := by
  unfold stepClock at h
  split at h
  · cases h
  · split at h
    · cases h
      exact calm_stay (fun r => kin_setProc (kin_updatePinfo _) r) rfl rfl rfl rfl rfl rfl
    · cases h
      exact calm_stay (fun _ => rfl) rfl rfl rfl rfl rfl rfl
  · split at h
    · cases h
      refine calm_stay (fun r => kin_wake s _ _ r) ?_ ?_ ?_ ?_ ?_ ?_
      all_goals rw [wake_eq]
    · cases h
      exact calm_stay (fun _ => rfl) rfl rfl rfl rfl rfl rfl

theorem step_cases {e : Event} (h : step s e = .next s') : Move s e s' := by
  cases e with
  | step p ok =>
    obtain ⟨hp, h⟩ := ite_blocked h
    exact move_stepProc hp h
  | clock => exact .calm slot0 (calm_clock h)
  | wakeup ch q =>
    cases h
    refine .calm slot0 (calm_stay (fun r => kin_wake s q _ r) ?_ ?_ ?_ ?_ ?_ ?_)
    all_goals rw [wake_eq]
  | tick =>
    obtain ⟨-, rfl⟩ := guard_next h
    exact .calm slot0 (calm_stay (fun _ => rfl) rfl rfl rfl rfl rfl rfl)
  | exit p status =>
    obtain ⟨hi, h⟩ := ite_blocked h
    obtain ⟨hp, h⟩ := panic_ite h
    cases h
    refine .calm p (calm_goto ⟨.inl rfl, fun j hj => absurd hj id, fun _ => .inr hp,
      fun _ => .inr (kin_live hi.1)⟩ ?_)
    rw [hi.2]
    rfl
  | sleep p ch =>
    obtain ⟨hi, rfl⟩ := guard_next h
    refine .calm p (calm_setProc (kin_asleep hi.1) (slides_plain rfl (kin_live hi.1)) ?_)
    rw [hi.2]
    rfl
  | yield p =>
    obtain ⟨hi, rfl⟩ := guard_next h
    refine .calm p (calm_stay (fun r => kin_setProc ?_ r) rfl rfl rfl rfl rfl rfl)
    show Kin.mk _ _ _ _ = Kin.mk (kind (s.proc p).state) _ _ _
    rw [hi.1]
    rfl
  | dispatch p =>
    obtain ⟨hi, rfl⟩ := guard_next h
    refine .calm p (calm_setProc ?_ (slides_resumed s p _) (resumed_locks _))
    show Kin.mk _ _ _ _ = Kin.mk (kind (s.proc p).state) _ _ _
    rw [hi]
    rfl
  | fork p | wait p | kill p pid =>
    obtain ⟨hi, rfl⟩ := guard_next h
    exact .calm p (calm_begin hi rfl rfl)

end

end Family
