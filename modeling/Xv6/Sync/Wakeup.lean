import Xv6.Sync.Steps

/-!
# No wakeup is lost

A process begins to wait in `sleep(ch, lk)` by releasing `lk`, and from before that it has `p->lock`
until it is `SLEEPING` and off its CPU.  Whoever holds `lk` and has passed its slot in `wakeup(ch)`
has had `p->lock` in between, and has woken it.

* `Waiting`, `waiting_step`  who waits, and the one way to begin;
* `Passed`, `passed_step`    nobody that a `wakeup` under `lk` has passed waits;
* `wakeup_run`               so when it returns, every process in `sleep(ch, lk)` can run.
-/

namespace Sync
open Run Prog Option
open Sched (Slot NPROC ProcState)

variable {M : Monitor} {κ : Type} {code : Slot → κ → Code M Unit} {c c' : Config M} {e : Event M κ}
  {p q : Slot} {ch : M.Chan} {l : M.Lk}

/-! ## waiting -/

/-- in `sleep`, behind `release(lk)`, with `p->lock` -/
def Pc.Window : Pc → Prop
  | .sleepChan | .sleepState | .sleepSched => True
  | _ => False

/-- the thread has released `l` in `sleep(ch, l)` and has not been woken -/
def Waits (s : State M) (p : Slot) (t : Thread M) (ch : M.Chan) (l : M.Lk) : Prop :=
  t.op = some (.sleep ch l) ∧ (t.pc.Window ∨ t.pc = .asleep ∧ (s.proc p).state = .SLEEPING)

def Waiting (c : Config M) (p : Slot) (ch : M.Chan) (l : M.Lk) : Prop :=
  ∃ t, c.thread p = some t ∧ Waits c.sys p t ch l

/-- the step in which `p` begins to wait -/
structure Enters (c : Config M) (e : Event M κ) (c' : Config M) (p : Slot) (ch : M.Chan)
    (l : M.Lk) : Prop where
  event : e = .step p
  thread : ∃ k, c.thread p = some ⟨.act (.sleep ch l) k, .sleepRelease⟩
  lock : c.sys.lock (.of l) = some p
  sys : c'.sys = c.sys.drop p (.of l)

variable {pc : Pc} {s s' : State M} {t : Thread M}

theorem Pc.Calm.not_window (h : pc.Calm) : ¬ (pc.Window ∨ pc = .asleep) := by
  cases pc with
  | call | loop i | sleepAcquire =>
    rintro (h | h)
    · exact h
    · cases h
  | _ => exact absurd h id

theorem Keeps.waits (h : Keeps s s' p) (hw : Waits s' p t ch l) : Waits s p t ch l := by
  obtain ⟨ho, hw⟩ := hw
  refine ⟨ho, hw.imp_right fun ⟨hpc, hs⟩ => ⟨hpc, ?_⟩⟩
  rcases h.state with e | e
  · rw [← e, hs]
  · rw [hs] at e
    cases e.2.2

theorem waiting_setThread {t : Option (Thread M)} (hk : ∀ p', p' ≠ q → Keeps c.sys s p')
    (hw : Waiting (c.setThread s q t) p ch l) :
    Waiting c p ch l ∨ p = q ∧ ∃ u, t = some u ∧ Waits s p u ch l := by
  obtain ⟨u, hu, hw⟩ := hw
  by_cases e : p = q
  · subst e
    rw [setThread_self] at hu
    exact .inr ⟨rfl, u, hu, hw⟩
  · rw [setThread_of_ne c s t e] at hu
    exact .inl ⟨u, hu, (hk p e).waits hw⟩

theorem waiting_sys (hk : ∀ p', c.thread p' ≠ none → Keeps c.sys s p')
    (hw : Waiting { c with sys := s } p ch l) : Waiting c p ch l := by
  obtain ⟨u, hu, hw⟩ := hw
  have hn : c.thread p ≠ none := by
    intro e
    rw [show c.thread p = some u from hu] at e
    cases e
  exact ⟨u, hu, (hk p hn).waits hw⟩

theorem Micro.waits {o : Op M} {r : Pc ⊕ o.Res} {k : o.Res → Code M Unit}
    (h : Micro s p o pc s' r) (ha : At s p (some o) pc)
    (hw : Waits s' p (Thread.after o k r) ch l) :
    Waits s p ⟨.act o k, pc⟩ ch l ∨
      o = .sleep ch l ∧ pc = .sleepRelease ∧ s.lock (.of l) = some p ∧ s' = s.drop p (.of l) := by
  obtain ⟨ho, hw⟩ := hw
  cases h with
  | sleepRelease h =>
    cases ho
    exact .inr ⟨rfl, rfl, h, rfl⟩
  | sleepChan | sleepState | sleepSched h hn =>
    cases ho
    exact .inl ⟨rfl, .inl trivial⟩
  | _ =>
    rcases hw with hw | hw
    · exact absurd hw id
    · cases hw.1

/-- **Waiting begins in one way only.** -/
theorem waiting_step (h : Wf c) (hs : Move code c e c') (hw : Waiting c' p ch l) :
    Waiting c p ch l ∨ Enters c e c' p ch l := by
  cases hs with
  | @start q k ht hr =>
    rcases waiting_setThread (fun p' _ => Keeps.refl _ p') hw with hw | ⟨rfl, u, hu, -, hw⟩
    · exact .inl hw
    · cases hu
      rcases hw with hw | hw
      · exact absurd hw id
      · cases hw.1
  | @ret q u pc ht =>
    rcases waiting_setThread (fun p' _ => Keeps.refl _ p') hw with hw | ⟨-, u, hu, -⟩
    · exact .inl hw
    · cases hu
  | @micro q o k pc s r ht hm =>
    have ha : At c.sys q (some o) pc := h.pos q _ ht
    rcases waiting_setThread (fun p' hp => hm.keeps ha hp) hw with hw | ⟨rfl, u, hu, hw⟩
    · exact .inl hw
    cases hu
    rcases hm.waits ha hw with hw | ⟨ho, hpc, hl, hs⟩
    · exact .inl ⟨_, ht, hw⟩
    · subst ho
      subst hpc
      exact .inr ⟨rfl, ⟨k, ht⟩, hl, hs⟩
  | @preempt q hr hn hl =>
    rcases waiting_setThread (fun p' hp => keeps_setProc hp) hw with hw | ⟨rfl, u, hu, -, hw⟩
    · exact .inl hw
    · obtain ⟨t, -, rfl⟩ := map_eq_some_iff.mp hu
      rcases hw with hw | hw
      · exact absurd hw id
      · cases hw.1
  | @enter q hr hl ht | @turnover q x ht hl hx =>
    refine .inl (waiting_sys (fun p' hp => keeps_setProc ?_) hw)
    rintro rfl
    exact hp ht
  | @wake q code' hr hl ht =>
    obtain ⟨u, hu, ho, hw⟩ := hw
    by_cases e : p = q
    · subst e
      rw [setThread_self] at hu
      cases hu
      rcases hw with hw | hw
      · exact absurd hw id
      · cases hw.1
    · rw [setThread_of_ne c _ _ e] at hu
      refine .inl ⟨u, hu, ho, hw.imp_right fun hw => ⟨hw.1, ?_⟩⟩
      rw [← hw.2]
      exact congrArg Proc.state (setProc_of_ne c.sys _ e).symm
  | @resume q code' pc hr hl ht =>
    rcases waiting_setThread (fun p' hp => keeps_setProc hp) hw with hw | ⟨rfl, u, hu, -, hw⟩
    · exact .inl hw
    · cases hu
      exact absurd (hw.imp_right And.left) (h.pos p _ ht).2.2.not_window
  | interrupt hl => exact .inl (waiting_sys (fun p' _ => keeps_data) hw)
  | @signal ch' q hl =>
    exact .inl (waiting_sys (fun p' _ => keeps_wake (by rw [hl]; intro e; cases e)) hw)

/-! ## what a wakeup in progress has passed -/

/-- the loop has passed the slot `j` -/
def Pc.Past : Pc → Nat → Prop
  | .loop i, j => j < i
  | .locked q, j => j < q.val
  | .unlock q, j => j ≤ q.val
  | .preempted (.loop i), j => j < i
  | _, _ => False

/-- whoever is in `wakeup(ch)` with the lock `l` has passed nobody that waits in `sleep(ch, l)` -/
def Passed (c : Config M) : Prop :=
  ∀ q t ch l (p : Slot), c.thread q = some t → t.op = some (.wakeup ch) → t.pc.Past p →
    c.sys.lock (.of l) = some q → ¬ Waiting c p ch l

/-- how a `wakeup` has come to pass the slot `p` -/
structure Came (c c' : Config M) (q : Slot) (ch : M.Chan) (l : M.Lk) (p : Slot) : Prop where
  lock : c.sys.lock (.of l) = some q
  thread : ∃ t, c.thread q = some t ∧ t.op = some (.wakeup ch) ∧
    (t.pc.Past p ∨ p = q ∨ t.pc = .locked p ∧ c'.sys = c.sys.wake p ch)

theorem came_of_keeps (hk : Keeps c.sys c'.sys q) (ht : c.thread q = some t)
    (ho : t.op = some (.wakeup ch)) (hp : t.pc.Past p) (hl : c'.sys.lock (.of l) = some q) :
    Came c c' q ch l p := ⟨(hk.lock _).mp hl, t, ht, ho, .inl hp⟩

theorem Micro.came {o : Op M} {r : Pc ⊕ o.Res} {k : o.Res → Code M Unit}
    (h : Micro s q o pc s' r) (ho : (Thread.after o k r).op = some (.wakeup ch))
    (hp : (Thread.after o k r).pc.Past p) (hl : s'.lock (.of l) = some q) :
    o = .wakeup ch ∧ s.lock (.of l) = some q ∧ (pc.Past p ∨ p = q ∨ pc = .locked p ∧ s' = s.wake p ch) := by
  cases h with
  | wakeupCall => exact absurd hp (Nat.not_lt_zero _)
  | wakeupSkip =>
    cases ho
    refine ⟨rfl, hl, ?_⟩
    rcases Nat.lt_succ_iff_lt_or_eq.mp hp with hp | hp
    · exact .inl hp
    · exact .inr (.inl (Fin.ext hp))
  | wakeupLock hq h =>
    cases ho
    rw [hold_of_ne s q (by intro e; cases e)] at hl
    exact ⟨rfl, hl, .inl hp⟩
  | @wakeupBody c q' =>
    cases ho
    rw [wake_lock] at hl
    refine ⟨rfl, hl, ?_⟩
    rcases Nat.lt_or_eq_of_le (show p.val ≤ q'.val from hp) with hp | hp
    · exact .inl hp
    · have e : p = q' := Fin.ext hp
      subst e
      exact .inr (.inr ⟨rfl, rfl⟩)
  | @wakeupNext c q' h =>
    cases ho
    rw [drop_of_ne s q (by intro e; cases e)] at hl
    exact ⟨rfl, hl, .inl (Nat.lt_succ_iff.mp hp)⟩
  | killCall | killLock h | killMiss h | killNext h => cases ho
  | _ => exact absurd hp id

theorem came_step (h : Wf c) (hs : Move code c e c') (ht : c'.thread q = some t)
    (ho : t.op = some (.wakeup ch)) (hp : t.pc.Past p) (hl : c'.sys.lock (.of l) = some q) :
    Came c c' q ch l p := by
  cases hs with
  | @start p' k ht' hr =>
    by_cases e : q = p'
    · subst e
      rw [setThread_self] at ht
      cases ht
      exact absurd hp id
    · rw [setThread_of_ne c _ _ e] at ht
      exact came_of_keeps (Keeps.refl _ q) ht ho hp hl
  | @ret p' u pc ht' =>
    by_cases e : q = p'
    · subst e
      rw [setThread_self] at ht
      cases ht
    · rw [setThread_of_ne c _ _ e] at ht
      exact came_of_keeps (Keeps.refl _ q) ht ho hp hl
  | @micro p' o k pc s r ht' hm =>
    by_cases e : q = p'
    · subst e
      rw [setThread_self] at ht
      cases ht
      obtain ⟨rfl, hl, hp⟩ := hm.came ho hp hl
      exact ⟨hl, _, ht', rfl, hp⟩
    · rw [setThread_of_ne c _ _ e] at ht
      exact came_of_keeps (hm.keeps (h.pos p' _ ht') e) ht ho hp hl
  | @preempt p' hr hn hl' =>
    by_cases e : q = p'
    · subst e
      rw [setThread_self] at ht
      obtain ⟨u, hu, rfl⟩ := map_eq_some_iff.mp ht
      refine ⟨hl, u, hu, ho, .inl ?_⟩
      obtain ⟨co, pc⟩ := u
      cases pc with
      | loop i => exact hp
      | _ => exact absurd hp id
    · rw [setThread_of_ne c _ _ e] at ht
      exact came_of_keeps (keeps_setProc e) ht ho hp hl
  | @enter p' hr hl' ht' | interrupt hl' | @turnover p' x ht' hl' hx => exact ⟨hl, t, ht, ho, .inl hp⟩
  | @wake p' code' hr hl' ht' =>
    by_cases e : q = p'
    · subst e
      rw [setThread_self] at ht
      cases ht
      exact absurd hp id
    · rw [setThread_of_ne c _ _ e] at ht
      have hl1 : (c.sys.setProc p' { c.sys.proc p' with state := .RUNNING }).lock (.of l) = some q :=
        (hold_of_ne _ p' (by intro e; cases e)).symm.trans hl
      exact ⟨hl1, t, ht, ho, .inl hp⟩
  | @resume p' code' pc hr hl' ht' =>
    by_cases e : q = p'
    · subst e
      rw [setThread_self] at ht
      cases ht
      refine ⟨hl, _, ht', ho, .inl ?_⟩
      have hcalm := (h.pos q _ ht').2.2
      cases pc with
      | loop i => exact hp
      | call | sleepAcquire => exact absurd hp id
      | _ => exact absurd hcalm id
    · rw [setThread_of_ne c _ _ e] at ht
      exact came_of_keeps (keeps_setProc e) ht ho hp hl
  | @signal ch' q' hl' =>
    exact came_of_keeps (keeps_wake (by rw [hl']; intro e; cases e)) ht ho hp hl

theorem wake_chan (h : ((s.wake p ch).proc p).state = .SLEEPING) : ((s.wake p ch).proc p).chan ≠ some ch := by
  unfold State.wake at h ⊢
  split
  · rename_i hs
    rw [if_pos hs, setProc_self] at h
    cases h
  · rename_i hs
    rw [if_neg hs] at h
    intro hc
    exact hs ⟨h, hc⟩

/-- whoever has just been woken from `ch` by another process does not wait on it -/
theorem not_waiting_wake (h : Wf c) (hs : c.sys = s.wake p ch)
    (hq : c.sys.lock (.proc p) = some q) (hp : p ≠ q) : ¬ Waiting c p ch l := by
  rintro ⟨⟨co, pc⟩, ht, ho, hw⟩
  have ha := h.pos p _ ht
  have hown : c.sys.lock (.proc p) ≠ some p := by
    rw [hq]
    intro e
    exact hp (some.inj e).symm
  rcases hw with hw | ⟨hpc, hw⟩
  · cases pc with
    | sleepChan => exact hown ha.2
    | sleepState | sleepSched => exact hown ha.2.1
    | _ => exact hw
  · cases hpc
    obtain ⟨-, -, c1, l1, h1, h2⟩ := ha
    cases ho.symm.trans h1
    rw [hs] at hw h2
    exact wake_chan hw h2

theorem passed_step (h : Wf c) (hP : Passed c) (hs : Move code c e c') : Passed c' := by
  intro q t ch l p ht ho hp hl hw
  obtain ⟨hl0, u, hu, huo, hpast⟩ := came_step h hs ht ho hp hl
  rcases waiting_step h hs hw with hw0 | he
  · rcases hpast with hpast | rfl | ⟨hpc, hsys⟩
    · exact hP q u ch l p hu huo hpast hl0 hw0
    · obtain ⟨v, hv, hvo, -⟩ := hw0
      rw [hu] at hv
      cases hv
      rw [huo] at hvo
      cases hvo
    have ha := h.pos q u hu
    rw [hpc] at ha
    have hne : p ≠ q := by
      rintro rfl
      obtain ⟨v, hv, hvo, -⟩ := hw0
      rw [hu] at hv
      cases hv
      rw [huo] at hvo
      cases hvo
    refine not_waiting_wake (wf_step h hs) hsys ?_ hne hw
    rw [hsys, wake_lock]
    exact ha.2
  · rw [he.sys, drop_self] at hl
    cases hl

/-! ## runs -/

theorem Config.Fresh.passed (h : c.Fresh) : Passed c := by
  intro q t ch l p ht
  rw [h.idle q] at ht
  cases ht

theorem wf_run {c0 : Config M} {es : List (Event M κ)} (h0 : c0.Fresh)
    (hx : exec (step code) c0 es = .next c) : Wf c ∧ Passed c := by
  refine exec_inv (fun c => Wf c ∧ Passed c) ?_ ⟨h0.wf, h0.passed⟩
    (along_of_forall (fun _ _ => trivial) _ _) hx
  intro c e c' h _ hs
  exact ⟨wf_step h.1 (step_cases hs), passed_step h.1 h.2 (step_cases hs)⟩

/-- **No lost wakeup.**  When a `wakeup(ch)` under the lock `l` is about to return, every process in
`sleep(ch, l)` is runnable or runs. -/
theorem wakeup_run {c0 : Config M} {es : List (Event M κ)} (h0 : c0.Fresh)
    (hx : exec (step code) c0 es = .next c) {k : Unit → Code M Unit}
    (hq : c.thread q = some ⟨.act (.wakeup ch) k, .loop NPROC⟩) (hl : c.sys.lock (.of l) = some q)
    (hp : c.thread p = some t) (ho : t.op = some (.sleep ch l)) :
    (c.sys.proc p).state = .RUNNABLE ∨ (c.sys.proc p).state = .RUNNING := by
  obtain ⟨hwf, hP⟩ := wf_run h0 hx
  have hnw := hP q _ ch l p hq rfl p.isLt hl
  have ha := hwf.pos p t hp
  obtain ⟨co, pc⟩ := t
  cases pc with
  | call | loop i | sleepAcquire => exact .inr ha
  | sleepSched => exact absurd ⟨_, hp, ho, .inl trivial⟩ hnw
  | asleep =>
    rcases ha.1 with hs | hs
    · exact absurd ⟨_, hp, ho, .inr ⟨rfl, hs⟩⟩ hnw
    · exact .inl hs
  | preempted pc => exact .inl ha.1
  | _ => exact .inr ha.1

end Sync
