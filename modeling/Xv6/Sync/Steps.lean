import Xv6.Sync.Model
import Mathlib.Data.Finset.Card

/-!
# What the steps do, and where processes are

* `Micro`, `micro_cases`    one step inside an operation;
* `Move`, `step_cases`      one event;
* `Keeps`                   what an event leaves of the other processes;
* `Wf`, `wf_step`, `wf_run` the position of a process fits its state, its channel and the locks.
-/

namespace Sync
open Run Prog Function Finset Option
open Sched (Slot NPROC ProcState)

variable {M : Monitor} {κ : Type} {code : Slot → κ → Code M Unit}

/-! ## what one step does -/

namespace State
variable {s s' : State M} {p q : Slot} {l x : Spin M}

theorem acquire_next (h : s.acquire p l = .next s') : s.lock l = none ∧ s' = s.hold p l := by
  unfold acquire at h
  cases hl : s.lock l with
  | none =>
    rw [hl] at h
    cases h
    exact ⟨rfl, rfl⟩
  | some q =>
    rw [hl] at h
    dsimp only at h
    split at h <;> cases h

theorem release_next (h : s.release p l = .next s') : s.lock l = some p ∧ s' = s.drop p l := by
  unfold release at h
  split at h
  · cases h
    exact ⟨by assumption, rfl⟩
  · cases h

theorem sched_next (h : s.sched p = .next s') :
    s.lock (.proc p) = some p ∧ s.noff p = 1 ∧ s' = s.drop p (.proc p) := by
  obtain ⟨h1, h⟩ := panic_ite h
  obtain ⟨h2, h⟩ := panic_ite h
  split at h
  · cases h
  · cases h
    exact ⟨not_not.mp h1, not_not.mp h2, rfl⟩

end State

/-- the steps of the process `p` inside its operations -/
inductive Micro (s : State M) (p : Slot) : (o : Op M) → Pc → State M → Pc ⊕ o.Res → Prop
  | acquire {l} : s.lock (.of l) = none → Micro s p (.acquire l) .call (s.hold p (.of l)) (.inr ())
  | release {l} : s.lock (.of l) = some p →
      Micro s p (.release l) .call (s.drop p (.of l)) (.inr ())
  | act {l a} : Micro s p (.act l a) .call
      { s with data := Function.update s.data l (M.eff a p (s.proc p).pid (s.data l)).2 }
      (.inr (M.eff a p (s.proc p).pid (s.data l)).1)
  | sleepCall {c l} : s.lock (.proc p) = none →
      Micro s p (.sleep c l) .call (s.hold p (.proc p)) (.inl .sleepRelease)
  | sleepRelease {c l} : s.lock (.of l) = some p →
      Micro s p (.sleep c l) .sleepRelease (s.drop p (.of l)) (.inl .sleepChan)
  | sleepChan {c l} :
      Micro s p (.sleep c l) .sleepChan (s.setProc p { s.proc p with chan := some c })
        (.inl .sleepState)
  | sleepState {c l} :
      Micro s p (.sleep c l) .sleepState (s.setProc p { s.proc p with state := .SLEEPING })
        (.inl .sleepSched)
  | sleepSched {c l} : s.lock (.proc p) = some p → s.noff p = 1 →
      Micro s p (.sleep c l) .sleepSched (s.drop p (.proc p)) (.inl .asleep)
  | sleepTidy {c l} :
      Micro s p (.sleep c l) .sleepTidy (s.setProc p { s.proc p with chan := none })
        (.inl .sleepUnlock)
  | sleepUnlock {c l} : s.lock (.proc p) = some p →
      Micro s p (.sleep c l) .sleepUnlock (s.drop p (.proc p)) (.inl .sleepAcquire)
  | sleepAcquire {c l} : s.lock (.of l) = none →
      Micro s p (.sleep c l) .sleepAcquire (s.hold p (.of l)) (.inr ())
  | wakeupCall {c} : Micro s p (.wakeup c) .call s (.inl (.loop 0))
  | wakeupSkip {c} : Micro s p (.wakeup c) (.loop p.val) s (.inl (.loop (p.val + 1)))
  | wakeupLock {c} {q : Slot} : q ≠ p → s.lock (.proc q) = none →
      Micro s p (.wakeup c) (.loop q.val) (s.hold p (.proc q)) (.inl (.locked q))
  | wakeupEnd {c i} : NPROC ≤ i → Micro s p (.wakeup c) (.loop i) s (.inr ())
  | wakeupBody {c q} : Micro s p (.wakeup c) (.locked q) (s.wake q c) (.inl (.unlock q))
  | wakeupNext {c q} : s.lock (.proc q) = some p →
      Micro s p (.wakeup c) (.unlock q) (s.drop p (.proc q)) (.inl (.loop (q.val + 1)))
  | killedCall : s.lock (.proc p) = none →
      Micro s p .killed .call (s.hold p (.proc p)) (.inl .killedRead)
  | killedRead : Micro s p .killed .killedRead s (.inl (.killedUnlock (s.proc p).killed))
  | killedUnlock {k} : s.lock (.proc p) = some p →
      Micro s p .killed (.killedUnlock k) (s.drop p (.proc p)) (.inr k)
  | killCall {pid} : Micro s p (.kill pid) .call s (.inl (.loop 0))
  | killLock {pid} {q : Slot} : s.lock (.proc q) = none →
      Micro s p (.kill pid) (.loop q.val) (s.hold p (.proc q)) (.inl (.locked q))
  | killEnd {pid i} : NPROC ≤ i → Micro s p (.kill pid) (.loop i) s (.inr false)
  | killBody {pid q} : (s.proc q).pid = pid →
      Micro s p (.kill pid) (.locked q) (s.kill q) (.inl (.found q))
  | killMiss {pid q} : (s.proc q).pid ≠ pid →
      Micro s p (.kill pid) (.locked q) s (.inl (.unlock q))
  | killNext {pid q} : s.lock (.proc q) = some p →
      Micro s p (.kill pid) (.unlock q) (s.drop p (.proc q)) (.inl (.loop (q.val + 1)))
  | killFound {pid q} : s.lock (.proc q) = some p →
      Micro s p (.kill pid) (.found q) (s.drop p (.proc q)) (.inr true)

section
variable {s : State M} {p : Slot} {o : Op M} {pc : Pc} {r : State M × (Pc ⊕ o.Res)}

theorem map_goto {x : Outcome (State M)} {pc' : Pc} (h : x.map (goto pc') = .next r) :
    ∃ s', x = .next s' ∧ r = (s', .inl pc') := by
  obtain ⟨s', hx, rfl⟩ := map_next h
  exact ⟨s', hx, rfl⟩

theorem map_done {x : Outcome (State M)} {a : o.Res} (h : x.map (done a) = .next r) :
    ∃ s', x = .next s' ∧ r = (s', .inr a) := by
  obtain ⟨s', hx, rfl⟩ := map_next h
  exact ⟨s', hx, rfl⟩

end

theorem micro_cases {s : State M} {p : Slot} {o : Op M} {pc : Pc} {r : State M × (Pc ⊕ o.Res)}
    (h : micro s p o pc = .next r) : Micro s p o pc r.1 r.2 := by
  unfold micro at h
  split at h
  · obtain ⟨s', hx, rfl⟩ := map_done h
    obtain ⟨hl, rfl⟩ := State.acquire_next hx
    exact .acquire hl
  · obtain ⟨s', hx, rfl⟩ := map_done h
    obtain ⟨hl, rfl⟩ := State.release_next hx
    exact .release hl
  · cases h
    exact .act
  · obtain ⟨s', hx, rfl⟩ := map_goto h
    obtain ⟨hl, rfl⟩ := State.acquire_next hx
    exact .sleepCall hl
  · obtain ⟨s', hx, rfl⟩ := map_goto h
    obtain ⟨hl, rfl⟩ := State.release_next hx
    exact .sleepRelease hl
  · cases h
    exact .sleepChan
  · cases h
    exact .sleepState
  · obtain ⟨s', hx, rfl⟩ := map_goto h
    obtain ⟨hl, hn, rfl⟩ := State.sched_next hx
    exact .sleepSched hl hn
  · cases h
    exact .sleepTidy
  · obtain ⟨s', hx, rfl⟩ := map_goto h
    obtain ⟨hl, rfl⟩ := State.release_next hx
    exact .sleepUnlock hl
  · obtain ⟨s', hx, rfl⟩ := map_done h
    obtain ⟨hl, rfl⟩ := State.acquire_next hx
    exact .sleepAcquire hl
  · cases h
    exact .wakeupCall
  · rename_i c i
    split at h
    · rename_i hi
      split at h
      · rename_i e
        subst e
        cases h
        exact .wakeupSkip
      · rename_i hne
        obtain ⟨s', hx, rfl⟩ := map_goto h
        obtain ⟨hl, rfl⟩ := State.acquire_next hx
        exact .wakeupLock hne hl
    · rename_i hi
      cases h
      exact .wakeupEnd (Nat.le_of_not_lt hi)
  · cases h
    exact .wakeupBody
  · obtain ⟨s', hx, rfl⟩ := map_goto h
    obtain ⟨hl, rfl⟩ := State.release_next hx
    exact .wakeupNext hl
  · obtain ⟨s', hx, rfl⟩ := map_goto h
    obtain ⟨hl, rfl⟩ := State.acquire_next hx
    exact .killedCall hl
  · cases h
    exact .killedRead
  · obtain ⟨s', hx, rfl⟩ := map_done h
    obtain ⟨hl, rfl⟩ := State.release_next hx
    exact .killedUnlock hl
  · cases h
    exact .killCall
  · split at h
    · rename_i hi
      obtain ⟨s', hx, rfl⟩ := map_goto h
      obtain ⟨hl, rfl⟩ := State.acquire_next hx
      exact .killLock hl
    · rename_i hi
      cases h
      exact .killEnd (Nat.le_of_not_lt hi)
  · split at h
    · cases h
      exact .killBody (by assumption)
    · cases h
      exact .killMiss (by assumption)
  · obtain ⟨s', hx, rfl⟩ := map_goto h
    obtain ⟨hl, rfl⟩ := State.release_next hx
    exact .killNext hl
  · obtain ⟨s', hx, rfl⟩ := map_done h
    obtain ⟨hl, rfl⟩ := State.release_next hx
    exact .killFound hl
  · cases h

/-- what an event does -/
inductive Move (code : Slot → κ → Code M Unit) (c : Config M) : Event M κ → Config M → Prop
  | start {p k} : c.thread p = none → (c.sys.proc p).state = .RUNNING →
      Move code c (.start p k) (c.setThread c.sys p (some ⟨code p k, .call⟩))
  | ret {p u pc} : c.thread p = some ⟨.ret u, pc⟩ → Move code c (.step p) (c.setThread c.sys p none)
  | micro {p o k pc s r} : c.thread p = some ⟨.act o k, pc⟩ → Micro c.sys p o pc s r →
      Move code c (.step p) (c.setThread s p (some (.after o k r)))
  | preempt {p} : (c.sys.proc p).state = .RUNNING → c.sys.noff p = 0 → c.sys.lock (.proc p) = none →
      Move code c (.preempt p) (c.setThread (c.sys.setProc p { c.sys.proc p with state := .RUNNABLE }) p
        ((c.thread p).map fun t => ⟨t.code, .preempted t.pc⟩))
  | enter {p} : (c.sys.proc p).state = .RUNNABLE → c.sys.lock (.proc p) = none → c.thread p = none →
      Move code c (.dispatch p)
        { c with sys := c.sys.setProc p { c.sys.proc p with state := .RUNNING } }
  | wake {p code'} : (c.sys.proc p).state = .RUNNABLE → c.sys.lock (.proc p) = none →
      c.thread p = some ⟨code', .asleep⟩ →
      Move code c (.dispatch p)
        (c.setThread ((c.sys.setProc p { c.sys.proc p with state := .RUNNING }).hold p (.proc p)) p
          (some ⟨code', .sleepTidy⟩))
  | resume {p code' pc} : (c.sys.proc p).state = .RUNNABLE → c.sys.lock (.proc p) = none →
      c.thread p = some ⟨code', .preempted pc⟩ →
      Move code c (.dispatch p)
        (c.setThread (c.sys.setProc p { c.sys.proc p with state := .RUNNING }) p (some ⟨code', pc⟩))
  | interrupt {l a} : c.sys.lock (.of l) = none →
      Move code c (.interrupt l a) { c with sys := { c.sys with
        data := Function.update c.sys.data l (M.intr a (c.sys.data l)) } }
  | signal {ch q} : c.sys.lock (.proc q) = none →
      Move code c (.signal ch q) { c with sys := c.sys.wake q ch }
  | turnover {p x} : c.thread p = none → c.sys.lock (.proc p) = none → x.state ≠ .SLEEPING →
      Move code c (.turnover p x) { c with sys := c.sys.setProc p x }

theorem stepThread_cases {c c' : Config M} {p : Slot} {t : Thread M} (ht : c.thread p = some t)
    (h : stepThread c p t = .next c') : Move code c (.step p) c' := by
  obtain ⟨co, pc⟩ := t
  cases co with
  | ret u =>
    cases h
    exact .ret ht
  | panic msg => cases h
  | act o k =>
    obtain ⟨r, hr, rfl⟩ := map_next h
    exact .micro ht (micro_cases hr)

theorem dispatch_cases {c c' : Config M} {p : Slot} (hs : (c.sys.proc p).state = .RUNNABLE)
    (hl : c.sys.lock (.proc p) = none) (h : dispatch c p = .next c') :
    Move code c (.dispatch p) c' := by
  unfold dispatch at h
  split at h
  · rename_i ht
    cases h
    exact .enter hs hl ht
  · rename_i ht
    cases h
    exact .wake hs hl ht
  · rename_i ht
    cases h
    exact .resume hs hl ht
  · cases h

theorem step_cases {c c' : Config M} {e : Event M κ} (h : step code c e = .next c') :
    Move code c e c' := by
  cases e with
  | start p k =>
    obtain ⟨hc, rfl⟩ := guard_next h
    exact .start hc.1 hc.2
  | step p =>
    dsimp only [step] at h
    cases ht : c.thread p with
    | none =>
      rw [ht] at h
      cases h
    | some t =>
      rw [ht] at h
      exact stepThread_cases ht h
  | preempt p =>
    obtain ⟨hc, rfl⟩ := guard_next h
    exact .preempt hc.1 hc.2.1 hc.2.2
  | dispatch p =>
    obtain ⟨hc, h⟩ := ite_blocked h
    exact dispatch_cases hc.1 hc.2 h
  | interrupt l a =>
    dsimp only [step] at h
    split at h
    · cases h
      exact .interrupt (by assumption)
    · cases h
  | signal ch q =>
    dsimp only [step] at h
    split at h
    · cases h
      exact .signal (by assumption)
    · cases h
  | turnover p x =>
    obtain ⟨hc, rfl⟩ := guard_next h
    exact .turnover hc.1 hc.2.1 hc.2.2

/-! ## the other processes -/

/-- of the process `p` only this may change: it is woken, while it does not have `p->lock` -/
structure Keeps (s s' : State M) (p : Slot) : Prop where
  noff : s'.noff p = s.noff p
  lock : ∀ x, s'.lock x = some p ↔ s.lock x = some p
  chan : (s'.proc p).chan = (s.proc p).chan
  pid : (s'.proc p).pid = (s.proc p).pid
  state : (s'.proc p).state = (s.proc p).state ∨
    s.lock (.proc p) ≠ some p ∧ (s.proc p).state = .SLEEPING ∧ (s'.proc p).state = .RUNNABLE

section
variable {s s' : State M} {p p' q : Slot} {x : Spin M}

theorem Keeps.refl (s : State M) (p : Slot) : Keeps s s p :=
  ⟨rfl, fun _ => Iff.rfl, rfl, rfl, .inl rfl⟩

theorem keeps_hold (hx : s.lock x = none) (hp : p' ≠ p) : Keeps s (s.hold p x) p' := by
  refine ⟨update_of_ne hp _ _, fun y => ?_, rfl, rfl, .inl rfl⟩
  show update s.lock x (some p) y = some p' ↔ _
  by_cases e : y = x
  · rw [e, update_self, hx]
    constructor
    · intro h
      exact absurd (some.inj h).symm hp
    · intro h
      cases h
  · rw [update_of_ne e]

theorem keeps_drop (hx : s.lock x = some p) (hp : p' ≠ p) : Keeps s (s.drop p x) p' := by
  refine ⟨update_of_ne hp _ _, fun y => ?_, rfl, rfl, .inl rfl⟩
  show update s.lock x none y = some p' ↔ _
  by_cases e : y = x
  · rw [e, update_self, hx]
    constructor
    · intro h
      cases h
    · intro h
      exact absurd (some.inj h).symm hp
  · rw [update_of_ne e]

theorem keeps_setProc {y : Proc M} (hp : p' ≠ p) : Keeps s (s.setProc p y) p' := by
  have h : (s.setProc p y).proc p' = s.proc p' := update_of_ne hp _ _
  exact ⟨rfl, fun _ => Iff.rfl, by rw [h], by rw [h], .inl (by rw [h])⟩

/-- the scheduler switches to another process, which has `p->lock` then -/
theorem keeps_switch {y : Proc M} (hl : s.lock (.proc p) = none) (hp : p' ≠ p) :
    Keeps s ((s.setProc p y).hold p (.proc p)) p' := by
  have h1 : Keeps s (s.setProc p y) p' := keeps_setProc hp
  have h2 : Keeps (s.setProc p y) _ p' := keeps_hold hl hp
  exact ⟨h2.noff.trans h1.noff, fun x => (h2.lock x).trans (h1.lock x), h2.chan.trans h1.chan,
    h2.pid.trans h1.pid, .inl (congrArg Proc.state (update_of_ne hp _ _))⟩

theorem keeps_data {d : (l : M.Lk) → M.Data l} : Keeps s { s with data := d } p' :=
  ⟨rfl, fun _ => Iff.rfl, rfl, rfl, .inl rfl⟩

theorem keeps_wake {c : M.Chan} (hq : s.lock (.proc q) ≠ some q) : Keeps s (s.wake q c) p' := by
  unfold State.wake
  split
  · rename_i h
    by_cases e : p' = q
    · subst e
      have hy : (s.setProc p' { s.proc p' with state := .RUNNABLE }).proc p'
          = { s.proc p' with state := .RUNNABLE } := update_self ..
      exact ⟨rfl, fun _ => Iff.rfl, by rw [hy], by rw [hy], .inr ⟨hq, h.1, by rw [hy]⟩⟩
    · exact keeps_setProc e
  · exact Keeps.refl s p'

theorem kill_self (s : State M) (q : Slot) : (s.kill q).proc q = { s.proc q with
    killed := true
    state := if (s.proc q).state = .SLEEPING then .RUNNABLE else (s.proc q).state } :=
  update_self ..

theorem keeps_kill (hq : p' = q → s.lock (.proc q) = some q → (s.proc q).state ≠ .SLEEPING) :
    Keeps s (s.kill q) p' := by
  by_cases e : p' = q
  · subst e
    have hy := kill_self s p'
    refine ⟨rfl, fun _ => Iff.rfl, by rw [hy], by rw [hy], ?_⟩
    rw [hy]
    by_cases hs : (s.proc p').state = .SLEEPING
    · exact .inr ⟨fun h => hq rfl h hs, hs, if_pos hs⟩
    · exact .inl (if_neg hs)
  · exact keeps_setProc e

end

/-! ## positions -/

/-- no `p->lock` is held here, and the process runs -/
def Pc.Calm : Pc → Prop
  | .call | .loop _ | .sleepAcquire => True
  | _ => False

/-- the process `p` is at `pc` of its operation `o` -/
def At (s : State M) (p : Slot) (o : Option (Op M)) : Pc → Prop
  | .call | .loop _ | .sleepAcquire => (s.proc p).state = .RUNNING
  | .sleepRelease | .sleepChan | .sleepTidy | .sleepUnlock | .killedRead | .killedUnlock _ =>
    (s.proc p).state = .RUNNING ∧ s.lock (.proc p) = some p
  | .sleepState =>
    (s.proc p).state = .RUNNING ∧ s.lock (.proc p) = some p ∧
      ∃ c l, o = some (.sleep c l) ∧ (s.proc p).chan = some c
  | .sleepSched =>
    (s.proc p).state = .SLEEPING ∧ s.lock (.proc p) = some p ∧
      ∃ c l, o = some (.sleep c l) ∧ (s.proc p).chan = some c
  | .asleep =>
    ((s.proc p).state = .SLEEPING ∨ (s.proc p).state = .RUNNABLE) ∧ s.noff p = 0 ∧
      ∃ c l, o = some (.sleep c l) ∧ (s.proc p).chan = some c
  | .locked q | .unlock q | .found q => (s.proc p).state = .RUNNING ∧ s.lock (.proc q) = some p
  | .preempted pc => (s.proc p).state = .RUNNABLE ∧ s.noff p = 0 ∧ pc.Calm

section
variable {s s' : State M} {p : Slot} {o : Option (Op M)} {pc : Pc}

theorem At.of_calm (h : pc.Calm) (hs : (s.proc p).state = .RUNNING) : At s p o pc := by
  cases pc with
  | call | loop i | sleepAcquire => exact hs
  | _ => exact absurd h id

theorem Keeps.state_of_ne (h : Keeps s s' p) (hs : (s.proc p).state ≠ .SLEEPING) :
    (s'.proc p).state = (s.proc p).state := by
  rcases h.state with h | h
  · exact h
  · exact absurd h.2.1 hs

theorem Keeps.running (h : Keeps s s' p) (hs : (s.proc p).state = .RUNNING) :
    (s'.proc p).state = .RUNNING := by
  rw [h.state_of_ne (by rw [hs]; decide), hs]

theorem Keeps.at (h : Keeps s s' p) (ha : At s p o pc) : At s' p o pc := by
  cases pc with
  | call | loop i | sleepAcquire => exact h.running ha
  | sleepRelease | sleepChan | sleepTidy | sleepUnlock | killedRead | killedUnlock k | locked q | unlock q
  | found q => exact ⟨h.running ha.1, (h.lock _).mpr ha.2⟩
  | sleepState =>
    obtain ⟨h1, h2, c, l, h3, h4⟩ := ha
    exact ⟨h.running h1, (h.lock _).mpr h2, c, l, h3, h.chan.trans h4⟩
  | sleepSched =>
    obtain ⟨h1, h2, c, l, h3, h4⟩ := ha
    refine ⟨?_, (h.lock _).mpr h2, c, l, h3, h.chan.trans h4⟩
    rcases h.state with e | e
    · rw [e, h1]
    · exact absurd h2 e.1
  | asleep =>
    obtain ⟨h1, h2, c, l, h3, h4⟩ := ha
    refine ⟨?_, h.noff.trans h2, c, l, h3, h.chan.trans h4⟩
    rcases h.state with e | e
    · rwa [e]
    · exact .inr e.2.2
  | preempted pc =>
    obtain ⟨h1, h2, h3⟩ := ha
    refine ⟨?_, h.noff.trans h2, h3⟩
    rw [h.state_of_ne (by rw [h1]; decide), h1]

end

/-! ## counting the locks -/

/-- `noff` is the number of locks that the process holds -/
def Counted (s : State M) (p : Slot) : Prop :=
  ∃ F : Finset (Spin M), (∀ x, x ∈ F ↔ s.lock x = some p) ∧ F.card = s.noff p

section
variable {s s' : State M} {p : Slot} {x : Spin M}

theorem Counted.not_held (h : Counted s p) (h0 : s.noff p = 0) (x : Spin M) : s.lock x ≠ some p := by
  obtain ⟨F, hF, hc⟩ := h
  intro hx
  rw [h0, card_eq_zero] at hc
  have hm := (hF x).mpr hx
  rw [hc] at hm
  exact absurd hm (notMem_empty x)

theorem Counted.congr (h : Counted s p) (hl : ∀ x, s'.lock x = some p ↔ s.lock x = some p)
    (hn : s'.noff p = s.noff p) : Counted s' p := by
  obtain ⟨F, hF, hc⟩ := h
  exact ⟨F, fun x => (hF x).trans (hl x).symm, hc.trans hn.symm⟩

theorem Counted.hold (h : Counted s p) (hx : s.lock x = none) : Counted (s.hold p x) p := by
  obtain ⟨F, hF, hc⟩ := h
  have hm : x ∉ F := by
    intro hm
    rw [(hF x).mp hm] at hx
    cases hx
  refine ⟨insert x F, fun y => ?_, ?_⟩
  · show _ ↔ update s.lock x (some p) y = some p
    rw [mem_insert, hF]
    by_cases e : y = x
    · rw [e, update_self]
      simp
    · rw [update_of_ne e]
      simp [e]
  · show _ = update s.noff p (s.noff p + 1) p
    rw [card_insert_of_notMem hm, hc, update_self]

theorem Counted.drop (h : Counted s p) (hx : s.lock x = some p) : Counted (s.drop p x) p := by
  obtain ⟨F, hF, hc⟩ := h
  have hm : x ∈ F := (hF x).mpr hx
  refine ⟨F.erase x, fun y => ?_, ?_⟩
  · show _ ↔ update s.lock x none y = some p
    rw [mem_erase, hF]
    by_cases e : y = x
    · rw [e, update_self]
      simp
    · rw [update_of_ne e]
      simp [e]
  · show _ = update s.noff p (s.noff p - 1) p
    rw [card_erase_of_mem hm, hc, update_self]

end

/-! ## the steps inside an operation -/

section
variable {s s' : State M} {p p' : Slot} {o : Op M} {pc : Pc} {r : Pc ⊕ o.Res}

theorem setProc_self (s : State M) (p : Slot) (x : Proc M) : (s.setProc p x).proc p = x :=
  update_self ..

theorem setProc_of_ne (s : State M) {p q : Slot} (x : Proc M) (h : q ≠ p) :
    (s.setProc p x).proc q = s.proc q := update_of_ne h _ _

theorem hold_self (s : State M) (p : Slot) (x : Spin M) : (s.hold p x).lock x = some p :=
  update_self ..

theorem hold_of_ne (s : State M) (p : Slot) {x y : Spin M} (h : y ≠ x) :
    (s.hold p x).lock y = s.lock y := update_of_ne h _ _

theorem drop_self (s : State M) (p : Slot) (x : Spin M) : (s.drop p x).lock x = none :=
  update_self ..

theorem drop_of_ne (s : State M) (p : Slot) {x y : Spin M} (h : y ≠ x) :
    (s.drop p x).lock y = s.lock y := update_of_ne h _ _

theorem wake_running {q : Slot} {c : M.Chan} (h : (s.proc p).state = .RUNNING) :
    ((s.wake q c).proc p).state = .RUNNING := by
  unfold State.wake
  split
  · rename_i hq
    have hne : p ≠ q := by
      intro e
      rw [← e, h] at hq
      cases hq.1
    rw [setProc_of_ne s _ hne, h]
  · exact h

theorem wake_lock (s : State M) (q : Slot) (c : M.Chan) : (s.wake q c).lock = s.lock := by
  unfold State.wake
  split <;> rfl

theorem wake_noff (s : State M) (q : Slot) (c : M.Chan) : (s.wake q c).noff = s.noff := by
  unfold State.wake
  split <;> rfl

theorem wake_data (s : State M) (q : Slot) (c : M.Chan) : (s.wake q c).data = s.data := by
  unfold State.wake
  split <;> rfl

theorem kill_running {q : Slot} (h : (s.proc p).state = .RUNNING) :
    ((s.kill q).proc p).state = .RUNNING := by
  by_cases e : p = q
  · subst e
    rw [kill_self, h]
    rfl
  · rw [State.kill, setProc_of_ne s _ e, h]

theorem Micro.keeps (h : Micro s p o pc s' r) (ha : At s p (some o) pc) (hp : p' ≠ p) :
    Keeps s s' p' := by
  have other : ∀ q : Slot, s.lock (.proc q) = some p → p' = q → s.lock (.proc q) ≠ some q := by
    intro q hq e hq'
    rw [hq'] at hq
    exact hp (e.trans (some.inj hq))
  cases h with
  | acquire h | sleepCall h | sleepAcquire h | wakeupLock hq h | killedCall h | killLock h =>
    exact keeps_hold h hp
  | release h | sleepRelease h | sleepSched h hn | sleepUnlock h | wakeupNext h | killedUnlock h
  | killNext h | killFound h => exact keeps_drop h hp
  | act => exact keeps_data
  | sleepChan | sleepState | sleepTidy => exact keeps_setProc hp
  | wakeupCall | wakeupSkip | wakeupEnd h | killedRead | killCall | killEnd h | killMiss h =>
    exact Keeps.refl s p'
  | @wakeupBody c q =>
    by_cases e : p' = q
    · exact keeps_wake (other q ha.2 e)
    · unfold State.wake
      split
      · exact keeps_setProc e
      · exact Keeps.refl s p'
  | @killBody pid q h => exact keeps_kill fun e hq => absurd hq (other q ha.2 e)

theorem Micro.counted (h : Micro s p o pc s' r) (hc : Counted s p) : Counted s' p := by
  cases h with
  | acquire h | sleepCall h | sleepAcquire h | wakeupLock hq h | killedCall h | killLock h => exact hc.hold h
  | release h | sleepRelease h | sleepSched h hn | sleepUnlock h | wakeupNext h | killedUnlock h
  | killNext h | killFound h => exact hc.drop h
  | wakeupBody => exact hc.congr (fun x => by rw [wake_lock]) (by rw [wake_noff])
  | _ => exact hc.congr (fun x => Iff.rfl) rfl

theorem Micro.at {k : o.Res → Code M Unit} (h : Micro s p o pc s' r) (ha : At s p (some o) pc) :
    At s' p (Thread.after o k r).op (Thread.after o k r).pc := by
  cases h with
  | acquire h | release h | act | sleepAcquire h | wakeupCall | wakeupSkip | wakeupEnd h | killedRead
  | killCall | killEnd h | killMiss h => exact ha
  | sleepCall h | wakeupLock hq h | killedCall h | killLock h => exact ⟨ha, hold_self s p _⟩
  | sleepRelease h => exact ⟨ha.1, (drop_of_ne s p (by intro e; cases e)).trans ha.2⟩
  | @sleepChan c l =>
    exact ⟨by rw [setProc_self]; exact ha.1, ha.2, c, l, rfl, by rw [setProc_self]⟩
  | @sleepState c l =>
    obtain ⟨h1, h2, c', l', h3, h4⟩ := ha
    exact ⟨by rw [setProc_self], h2, c', l', h3, by rw [setProc_self]; exact h4⟩
  | sleepSched h hn =>
    obtain ⟨h1, h2, h3⟩ := ha
    refine ⟨.inl h1, ?_, h3⟩
    show update s.noff p (s.noff p - 1) p = 0
    rw [update_self, hn]
  | sleepTidy => exact ⟨by rw [setProc_self]; exact ha.1, ha.2⟩
  | sleepUnlock h | wakeupNext h | killedUnlock h | killNext h | killFound h => exact ha.1
  | wakeupBody => exact ⟨wake_running ha.1, by rw [wake_lock]; exact ha.2⟩
  | killBody h => exact ⟨kill_running ha.1, ha.2⟩

end

/-! ## every event -/

structure Wf (c : Config M) : Prop where
  counted : ∀ p, Counted c.sys p
  pos : ∀ p t, c.thread p = some t → At c.sys p t.op t.pc
  idle : ∀ p, c.thread p = none → (c.sys.proc p).state ≠ .SLEEPING

section
variable {c c' : Config M} {s : State M} {p : Slot} {t : Option (Thread M)} {e : Event M κ}

theorem setThread_self (c : Config M) (s : State M) (p : Slot) (t : Option (Thread M)) :
    (c.setThread s p t).thread p = t := update_self ..

theorem setThread_of_ne (c : Config M) (s : State M) {p q : Slot} (t : Option (Thread M))
    (h : q ≠ p) : (c.setThread s p t).thread q = c.thread q := update_of_ne h _ _

theorem Keeps.ne_sleeping {s s' : State M} (h : Keeps s s' p) (hs : (s.proc p).state ≠ .SLEEPING) :
    (s'.proc p).state ≠ .SLEEPING := by
  rwa [h.state_of_ne hs]

theorem Wf.update (h : Wf c) (hk : ∀ p', p' ≠ p → Keeps c.sys s p') (hc : Counted s p)
    (ht : ∀ u, t = some u → At s p u.op u.pc)
    (hi : t = none → (s.proc p).state ≠ .SLEEPING) : Wf (c.setThread s p t) := by
  refine ⟨fun p' => ?_, fun p' u hu => ?_, fun p' hu => ?_⟩
  · by_cases e : p' = p
    · rwa [e]
    · exact (h.counted p').congr (hk p' e).lock (hk p' e).noff
  · by_cases e : p' = p
    · subst e
      rw [setThread_self] at hu
      exact ht u hu
    · rw [setThread_of_ne c s t e] at hu
      exact (hk p' e).at (h.pos p' u hu)
  · by_cases e : p' = p
    · subst e
      rw [setThread_self] at hu
      exact hi hu
    · rw [setThread_of_ne c s t e] at hu
      exact (hk p' e).ne_sleeping (h.idle p' hu)

theorem Wf.sys (h : Wf c) (hk : ∀ p', Keeps c.sys s p') : Wf { c with sys := s } :=
  ⟨fun p => (h.counted p).congr (hk p).lock (hk p).noff, fun p t ht => (hk p).at (h.pos p t ht),
    fun p ht => (hk p).ne_sleeping (h.idle p ht)⟩

theorem At.ret_awake {s : State M} {pc : Pc} (h : At s p none pc) :
    (s.proc p).state ≠ .SLEEPING := by
  cases pc with
  | sleepState | sleepSched | asleep =>
    obtain ⟨-, -, c, l, h, -⟩ := h
    cases h
  | call | loop i | sleepAcquire => rw [show (s.proc p).state = .RUNNING from h]; decide
  | _ => rw [h.1]; decide

theorem At.calm {s : State M} {o : Option (Op M)} {pc : Pc} (h : At s p o pc)
    (hs : (s.proc p).state = .RUNNING) (hl : ∀ x, s.lock x ≠ some p) : pc.Calm := by
  cases pc with
  | call | loop i | sleepAcquire => exact trivial
  | sleepState | sleepSched => exact absurd h.2.1 (hl _)
  | asleep =>
    rcases h.1 with e | e <;> rw [hs] at e <;> cases e
  | preempted pc =>
    have e := h.1
    rw [hs] at e
    cases e
  | _ => exact absurd h.2 (hl _)

theorem wf_step (h : Wf c) (hs : Move code c e c') : Wf c' := by
  cases hs with
  | @start p k ht hr =>
    refine h.update (fun p' _ => Keeps.refl _ p') (h.counted p) ?_ (by intro e; cases e)
    intro u hu
    cases hu
    exact hr
  | @ret p u pc ht =>
    exact h.update (fun p' _ => Keeps.refl _ p') (h.counted p) (by intro u e; cases e)
      fun _ => (h.pos p _ ht).ret_awake
  | @micro p o k pc s r ht hm =>
    have ha : At c.sys p (some o) pc := h.pos p _ ht
    refine h.update (fun p' hp => hm.keeps ha hp) (hm.counted (h.counted p)) ?_ (by intro e; cases e)
    intro u hu
    cases hu
    exact hm.at ha
  | @preempt p hr hn hl =>
    refine h.update (fun p' hp => keeps_setProc hp)
      ((h.counted p).congr (fun x => Iff.rfl) rfl) ?_ ?_
    · intro u hu
      obtain ⟨t, ht, rfl⟩ := map_eq_some_iff.mp hu
      have hcalm := (h.pos p t ht).calm hr ((h.counted p).not_held hn)
      exact ⟨by rw [setProc_self], hn, hcalm⟩
    · intro _ e
      rw [setProc_self] at e
      cases e
  | @enter p hr hl ht =>
    have : Wf (c.setThread (c.sys.setProc p { c.sys.proc p with state := .RUNNING }) p none) := by
      refine h.update (fun p' hp => keeps_setProc hp) ((h.counted p).congr (fun x => Iff.rfl) rfl)
        (by intro u e; cases e) fun _ e => ?_
      rw [setProc_self] at e
      cases e
    rwa [Config.setThread, ← ht, update_eq_self] at this
  | @wake p code' hr hl ht =>
    refine h.update (fun p' hp => keeps_switch hl hp) ?_ ?_ (by intro e; cases e)
    · have h1 : Counted (c.sys.setProc p { c.sys.proc p with state := .RUNNING }) p :=
        (h.counted p).congr (fun x => Iff.rfl) rfl
      exact h1.hold hl
    · intro u hu
      cases hu
      exact ⟨congrArg Proc.state (setProc_self ..), hold_self ..⟩
  | @resume p code' pc hr hl ht =>
    have ha := h.pos p _ ht
    refine h.update (fun p' hp => keeps_setProc hp) ((h.counted p).congr (fun x => Iff.rfl) rfl) ?_
      (by intro e; cases e)
    intro u hu
    cases hu
    exact At.of_calm ha.2.2 (by rw [setProc_self])
  | interrupt hl => exact h.sys fun p' => keeps_data
  | @signal ch q hl =>
    exact h.sys fun p' => keeps_wake (by rw [hl]; intro e; cases e)
  | @turnover p x ht hl hx =>
    have : Wf (c.setThread (c.sys.setProc p x) p none) := by
      refine h.update (fun p' hp => keeps_setProc hp) ((h.counted p).congr (fun x => Iff.rfl) rfl)
        (by intro u e; cases e) fun _ => ?_
      rwa [setProc_self]
    rwa [Config.setThread, ← ht, update_eq_self] at this

theorem Config.Fresh.wf (h : c.Fresh) : Wf c := by
  refine ⟨fun p => ⟨∅, fun x => ?_, ?_⟩, fun p t ht => ?_, fun p _ => h.awake p⟩
  · rw [h.free x]
    simp
  · rw [h.off p]
    rfl
  · rw [h.idle p] at ht
    cases ht

end

end Sync
