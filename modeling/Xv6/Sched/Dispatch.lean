import Xv6.Sched.Model

/-!
# Single dispatch

`round_robin` tests `p->state == RUNNABLE` under `p->lock`; `fcfs` tests `minP->state` BEFORE it
takes `minP->lock` and does not look again.  Between the two another CPU can switch to the same
process, and then two CPUs run it (`fcfs_double_dispatch`).

That window is the only way to lose the property.  `Undisturbed` says that no CPU switches to a
process while another CPU stands in the window for it; `single_dispatch` shows that along every
run with this condition no process is on two CPUs and every switch starts from `RUNNABLE`.

* `step_cases`   what one step can do;
* `Inv`          the invariant, with the processes tested by `fcfs` in the field `tested`.
-/

set_option linter.unusedVariables false

namespace Sched
open Run List

/-- the next step of CPU `c` is a switch to `p` -/
def Switches (s : State) (c : Nat) (p : Slot) : Prop :=
  (s.cpu c).pc = .fcfsSwitch p ∨
    ∃ found, (s.cpu c).pc = .roundRobin p found ∧ (s.proc p).state = .RUNNABLE ∧
      (s.proc p).sched = .RR

/-- no CPU switches to a process that the `fcfs` of another CPU has tested and not yet locked -/
def Undisturbed (s : State) (e : Event) : Prop :=
  ∀ c p, e = .scheduler c → Switches s c p → ∀ c', c' ≠ c → (s.cpu c').pc ≠ .fcfsSwitch p

def Pc.isRunning : Pc → Bool
  | .running _ _ => true
  | _ => false

/-! ## what one step can do -/

/-- CPU `c` goes on inside its scheduler loops -/
def Scans (s : State) (c : Nat) (s' : State) : Prop :=
  ∃ pc, (s.cpu c).pc.isRunning = false ∧ pc.isRunning = false ∧
    (∀ m, pc = .fcfsSwitch m → (s.proc m).state = .RUNNABLE) ∧ s' = s.setCpu c ⟨pc, none⟩

/-- a process gives its CPU back with a new state; the states of the others stay -/
def GivesBack (s s' : State) : Prop :=
  ∃ c p ret x t, (s.cpu c).pc = .running p ret ∧ t.cpu = s.cpu ∧
    (∀ q, (t.proc q).state = (s.proc q).state) ∧ s' = schedBack t c p ret x

/-- only the table changes, and no `RUNNING` or `RUNNABLE` slot changes its state -/
def Touches (s s' : State) : Prop :=
  s'.cpu = s.cpu ∧ ∀ q, (s'.proc q).state = (s.proc q).state ∨
    ((s.proc q).state ≠ .RUNNING ∧ (s.proc q).state ≠ .RUNNABLE)

theorem afterFcfs_isRunning (found : Bool) : (afterFcfs found).isRunning = false := by
  cases found <;> rfl

theorem fcfsNext_isRunning (i : Slot) (minP : Option Slot) (found : Bool) :
    (fcfsNext i minP found).isRunning = false := by
  unfold fcfsNext
  split
  · rfl
  · cases minP with
    | none => exact afterFcfs_isRunning found
    | some m => rfl

theorem roundRobinNext_isRunning (i : Slot) (found : Bool) :
    (roundRobinNext i found).isRunning = false := by
  unfold roundRobinNext
  split <;> rfl

theorem afterFcfs_ne_switch (found : Bool) (m : Slot) : afterFcfs found ≠ .fcfsSwitch m := by
  cases found <;> simp [afterFcfs, fcfsStart]

theorem fcfsNext_ne_switch (i : Slot) (minP : Option Slot) (found : Bool) (m : Slot) :
    fcfsNext i minP found ≠ .fcfsSwitch m := by
  unfold fcfsNext
  split
  · simp
  · cases minP with
    | none => exact afterFcfs_ne_switch found m
    | some m => simp

theorem roundRobinNext_ne_switch (i : Slot) (found : Bool) (m : Slot) :
    roundRobinNext i found ≠ .fcfsSwitch m := by
  unfold roundRobinNext
  split <;> simp [fcfsStart]

theorem Ret.pc_isRunning (ret : Ret) : ret.pc.isRunning = false := by
  cases ret with
  | fcfs => exact afterFcfs_isRunning true
  | roundRobin i => exact roundRobinNext_isRunning i true

theorem Ret.pc_ne_switch (ret : Ret) (m : Slot) : ret.pc ≠ .fcfsSwitch m := by
  cases ret with
  | fcfs => exact afterFcfs_ne_switch true m
  | roundRobin i => exact roundRobinNext_ne_switch i true m

variable {s s' : State} {c : Nat}

theorem scans_setCpu {pc : Pc} (h : (s.cpu c).pc.isRunning = false)
    (h1 : pc.isRunning = false) (h2 : ∀ m, pc = .fcfsSwitch m → (s.proc m).state = .RUNNABLE) :
    Scans s c (s.setCpu c ⟨pc, none⟩) :=
  ⟨pc, h, h1, h2, rfl⟩

theorem schedulerStep_cases (h : schedulerStep s c = .next s') :
    Scans s c s' ∨ ∃ p ret, Switches s c p ∧ s' = switchTo s c p ret := by
  unfold schedulerStep at h
  cases hpc : (s.cpu c).pc with
  | fcfsState i minP found =>
    have hr : (s.cpu c).pc.isRunning = false := by rw [hpc]; rfl
    simp only [hpc] at h
    split at h <;> cases h
    · exact .inl (scans_setCpu hr (fcfsNext_isRunning ..)
        fun m hm => absurd hm (fcfsNext_ne_switch _ _ _ _))
    · exact .inl (scans_setCpu hr rfl fun m hm => by simp at hm)
  | fcfsSched i minP found =>
    have hr : (s.cpu c).pc.isRunning = false := by rw [hpc]; rfl
    simp only [hpc] at h
    split at h <;> cases h
    · exact .inl (scans_setCpu hr rfl fun m hm => by simp at hm)
    · exact .inl (scans_setCpu hr (fcfsNext_isRunning ..)
        fun m hm => absurd hm (fcfsNext_ne_switch _ _ _ _))
  | fcfsMin i minP found =>
    have hr : (s.cpu c).pc.isRunning = false := by rw [hpc]; rfl
    simp only [hpc] at h
    cases h
    exact .inl (scans_setCpu hr (fcfsNext_isRunning ..)
      fun m hm => absurd hm (fcfsNext_ne_switch _ _ _ _))
  | fcfsTest m found =>
    have hr : (s.cpu c).pc.isRunning = false := by rw [hpc]; rfl
    simp only [hpc] at h
    split at h <;> cases h
    · rename_i hm
      refine .inl (scans_setCpu hr rfl fun m' hm' => ?_)
      cases hm'
      exact hm
    · exact .inl (scans_setCpu hr (afterFcfs_isRunning _)
        fun m hm => absurd hm (afterFcfs_ne_switch _ _))
  | fcfsSwitch m =>
    simp only [hpc] at h
    cases h
    exact .inr ⟨m, .fcfs, .inl hpc, rfl⟩
  | roundRobin i found =>
    have hr : (s.cpu c).pc.isRunning = false := by rw [hpc]; rfl
    simp only [hpc] at h
    split at h <;> cases h
    · rename_i hi
      exact .inr ⟨i, _, .inr ⟨found, hpc, hi⟩, rfl⟩
    · exact .inl (scans_setCpu hr (roundRobinNext_isRunning ..)
        fun m hm => absurd hm (roundRobinNext_ne_switch _ _ _))
  | running p ret => simp [hpc] at h

theorem setProc_touches {q : Slot} {x : Proc}
    (h : x.state = (s.proc q).state ∨ ((s.proc q).state ≠ .RUNNING ∧ (s.proc q).state ≠ .RUNNABLE)) :
    Touches s (s.setProc q x) := by
  refine ⟨rfl, fun q' => ?_⟩
  by_cases e : q' = q
  · subst e
    simpa [State.setProc] using h
  · simp [State.setProc, e]

/-- **What one step can do.** -/
theorem step_cases {e : Event} (h : step s e = .next s') : (∃ c, e = .scheduler c ∧ Scans s c s') ∨
      (∃ c p ret, e = .scheduler c ∧ Switches s c p ∧ s' = switchTo s c p ret) ∨
      GivesBack s s' ∨ Touches s s' := by
  cases e with
  | scheduler c =>
    rcases schedulerStep_cases h with h | ⟨p, ret, h1, h2⟩
    · exact .inl ⟨c, rfl, h⟩
    · exact .inr (.inl ⟨c, p, ret, rfl, h1, h2⟩)
  | yield c | sleep c chan =>
    simp only [step] at h
    split at h <;> cases h
    rename_i p ret hpc
    exact .inr (.inr (.inl ⟨c, p, ret, _, s, hpc, rfl, fun _ => rfl, rfl⟩))
  | exit c =>
    simp only [step] at h
    split at h
    · rename_i p ret hpc
      split at h <;> cases h
      refine .inr (.inr (.inl ⟨c, p, ret, _, { s with proc := reparent s.proc p }, hpc, rfl,
        fun q => ?_, rfl⟩))
      simp only [reparent]
      split <;> rfl
    · cases h
  | wakeup c q chan =>
    simp only [step] at h
    split at h <;> cases h
    · rename_i hq
      exact .inr (.inr (.inr (setProc_touches (.inr (by simp [hq.2.1])))))
    · exact .inr (.inr (.inr ⟨rfl, fun _ => .inl rfl⟩))
  | kill c q pid =>
    simp only [step] at h
    split at h
    · split at h <;> cases h
      · refine .inr (.inr (.inr (setProc_touches ?_)))
        by_cases hq : (s.proc q).state = .SLEEPING
        · exact .inr (by simp [hq])
        · exact .inl (by simp [hq])
      · exact .inr (.inr (.inr ⟨rfl, fun _ => .inl rfl⟩))
    · cases h
  | wait c q =>
    simp only [step] at h
    split at h
    · split at h <;> cases h
      rename_i hq
      exact .inr (.inr (.inr (setProc_touches (.inr (by simp [hq.2])))))
    · cases h
  | allocproc c q =>
    simp only [step] at h
    split at h
    · split at h <;> cases h
      rename_i hq
      exact .inr (.inr (.inr (setProc_touches (s := s) (.inr (by simp [hq])))))
    · cases h
  | forkFail c q | forkDone c q =>
    simp only [step] at h
    split at h
    · split at h <;> cases h
      rename_i hq
      exact .inr (.inr (.inr (setProc_touches (.inr (by simp [hq.1])))))
    · cases h
  | forkTick c q =>
    simp only [step] at h
    split at h <;> cases h
    exact .inr (.inr (.inr (setProc_touches (.inl rfl))))
  | changeScheduler c q pid sched =>
    simp only [step] at h
    split at h
    · split at h <;> cases h
      · exact .inr (.inr (.inr (setProc_touches (.inl rfl))))
      · exact .inr (.inr (.inr ⟨rfl, fun _ => .inl rfl⟩))
    · cases h
  | tick =>
    cases h
    exact .inr (.inr (.inr ⟨rfl, fun _ => .inl rfl⟩))

/-! ## the invariant -/

structure Inv (s : State) : Prop where
  /-- `c->proc` is set exactly while the CPU is inside `swtch` -/
  proc_iff : ∀ c p, (s.cpu c).proc = some p ↔ ∃ ret, (s.cpu c).pc = .running p ret
  running : ∀ c p, (s.cpu c).proc = some p → (s.proc p).state = .RUNNING
  single : ∀ c c' p, (s.cpu c).proc = some p → (s.cpu c').proc = some p → c = c'
  /-- a process that `fcfs` has tested and not yet locked is still `RUNNABLE` -/
  tested : ∀ c m, (s.cpu c).pc = .fcfsSwitch m → (s.proc m).state = .RUNNABLE

theorem Inv.init : Inv init := by
  refine ⟨fun c p => ?_, fun c p h => ?_, fun c c' p h => ?_, fun c m h => ?_⟩
  · simp [Sched.init, fcfsStart]
  · simp [Sched.init] at h
  · simp [Sched.init] at h
  · simp [Sched.init, fcfsStart] at h

theorem ne_running_of_isRunning {pc : Pc} (h : pc.isRunning = false) (p : Slot) (ret : Ret) :
    pc ≠ .running p ret := by
  rintro rfl
  cases h

theorem Inv.scans (hi : Inv s) (h : Scans s c s') : Inv s' := by
  obtain ⟨pc, hold, hnew, hsw, rfl⟩ := h
  refine ⟨fun c' p => ?_, fun c' p hp => ?_, fun c1 c2 p h1 h2 => ?_, fun c' m hm => ?_⟩
  · by_cases e : c' = c
    · subst e
      simp [State.setCpu, ne_running_of_isRunning hnew]
    · simpa [State.setCpu, e] using hi.proc_iff c' p
  · by_cases e : c' = c
    · subst e
      simp [State.setCpu] at hp
    · exact hi.running c' p (by simpa [State.setCpu, e] using hp)
  · have e1 : c1 ≠ c := by rintro rfl; simp [State.setCpu] at h1
    have e2 : c2 ≠ c := by rintro rfl; simp [State.setCpu] at h2
    exact hi.single c1 c2 p (by simpa [State.setCpu, e1] using h1)
      (by simpa [State.setCpu, e2] using h2)
  · by_cases e : c' = c
    · subst e
      exact hsw m (by simpa [State.setCpu] using hm)
    · exact hi.tested c' m (by simpa [State.setCpu, e] using hm)

theorem Inv.touches (hi : Inv s) (h : Touches s s') : Inv s' := by
  obtain ⟨hc, hst⟩ := h
  refine ⟨fun c p => ?_, fun c p hp => ?_, fun c1 c2 p h1 h2 => ?_, fun c m hm => ?_⟩
  · rw [hc]; exact hi.proc_iff c p
  · rw [hc] at hp
    have hr := hi.running c p hp
    rcases hst p with h | h
    · rw [h, hr]
    · exact absurd hr h.1
  · rw [hc] at h1 h2
    exact hi.single c1 c2 p h1 h2
  · rw [hc] at hm
    have hr := hi.tested c m hm
    rcases hst m with h | h
    · rw [h, hr]
    · exact absurd hr h.2

/-- the process that gives its CPU back is on no other CPU and in nobody's window -/
theorem Inv.givesBack (hi : Inv s) (h : GivesBack s s') : Inv s' := by
  obtain ⟨c, p, ret, x, t, hpc, hcpu, hst, rfl⟩ := h
  have hp : (s.cpu c).proc = some p := (hi.proc_iff c p).mpr ⟨ret, hpc⟩
  have hstate : ∀ q, q ≠ p → ((schedBack t c p ret x).proc q).state = (s.proc q).state := by
    intro q hq
    simp [schedBack, State.setProc, State.setCpu, hq, hst]
  have hother : ∀ c', c' ≠ c → (schedBack t c p ret x).cpu c' = s.cpu c' := by
    intro c' hc'
    simp [schedBack, State.setProc, State.setCpu, hc', hcpu]
  have hself : (schedBack t c p ret x).cpu c = ⟨ret.pc, none⟩ := by
    simp [schedBack, State.setProc, State.setCpu]
  refine ⟨fun c' q => ?_, fun c' q hq => ?_, fun c1 c2 q h1 h2 => ?_, fun c' m hm => ?_⟩
  · by_cases e : c' = c
    · subst e
      rw [hself]
      simp [ne_running_of_isRunning ret.pc_isRunning]
    · rw [hother c' e]; exact hi.proc_iff c' q
  · by_cases e : c' = c
    · subst e
      simp [hself] at hq
    rw [hother c' e] at hq
    have hne : q ≠ p := by
      rintro rfl
      exact e (hi.single c' c q hq hp)
    rw [hstate q hne]
    exact hi.running c' q hq
  · have e1 : c1 ≠ c := by rintro rfl; simp [hself] at h1
    have e2 : c2 ≠ c := by rintro rfl; simp [hself] at h2
    rw [hother c1 e1] at h1
    rw [hother c2 e2] at h2
    exact hi.single c1 c2 q h1 h2
  · by_cases e : c' = c
    · subst e
      rw [hself] at hm
      exact absurd hm (ret.pc_ne_switch m)
    rw [hother c' e] at hm
    have ht := hi.tested c' m hm
    have hne : m ≠ p := by
      rintro rfl
      rw [hi.running c m hp] at ht
      cases ht
    rwa [hstate m hne]

/-- a switch starts from `RUNNABLE`: `round_robin` has just looked, `fcfs` has the invariant -/
theorem Inv.switches_runnable (hi : Inv s) {p : Slot} (h : Switches s c p) :
    (s.proc p).state = .RUNNABLE := by
  rcases h with h | ⟨found, _, h, _⟩
  · exact hi.tested c p h
  · exact h

theorem Inv.switch (hi : Inv s) {p : Slot} {ret : Ret}
    (h : Switches s c p) (hu : ∀ c', c' ≠ c → (s.cpu c').pc ≠ .fcfsSwitch p) :
    Inv (switchTo s c p ret) := by
  have hrun := hi.switches_runnable h
  -- nobody has `p`: whoever had it would make it `RUNNING`
  have hfree : ∀ c', (s.cpu c').proc ≠ some p := by
    intro c' hc'
    rw [hi.running c' p hc'] at hrun
    cases hrun
  have hother : ∀ c', c' ≠ c → (switchTo s c p ret).cpu c' = s.cpu c' := by
    intro c' hc'
    simp [switchTo, State.setProc, State.setCpu, hc']
  have hself : (switchTo s c p ret).cpu c = ⟨.running p ret, some p⟩ := by
    simp [switchTo, State.setProc, State.setCpu]
  have hstate : ∀ q, q ≠ p → ((switchTo s c p ret).proc q).state = (s.proc q).state := by
    intro q hq
    simp [switchTo, State.setProc, State.setCpu, hq]
  refine ⟨fun c' q => ?_, fun c' q hq => ?_, fun c1 c2 q h1 h2 => ?_, fun c' m hm => ?_⟩
  · by_cases e : c' = c
    · subst e
      rw [hself]
      simp
    · rw [hother c' e]; exact hi.proc_iff c' q
  · by_cases e : c' = c
    · subst e
      rw [hself] at hq
      cases hq
      simp [switchTo, State.setProc, State.setCpu]
    · rw [hother c' e] at hq
      have hne : q ≠ p := by
        rintro rfl
        exact hfree c' hq
      rw [hstate q hne]
      exact hi.running c' q hq
  · by_cases e1 : c1 = c <;> by_cases e2 : c2 = c
    · rw [e1, e2]
    · rw [e1, hself] at h1
      rw [hother c2 e2] at h2
      cases h1
      exact absurd h2 (hfree c2)
    · rw [hother c1 e1] at h1
      rw [e2, hself] at h2
      cases h2
      exact absurd h1 (hfree c1)
    · rw [hother c1 e1] at h1
      rw [hother c2 e2] at h2
      exact hi.single c1 c2 q h1 h2
  · by_cases e : c' = c
    · subst e
      rw [hself] at hm
      cases hm
    rw [hother c' e] at hm
    have hne : m ≠ p := by
      rintro rfl
      exact hu c' e hm
    rw [hstate m hne]
    exact hi.tested c' m hm

theorem Inv.next {e : Event} (hi : Inv s) (hu : Undisturbed s e) (h : step s e = .next s') : Inv s' := by
  rcases step_cases h with ⟨c, -, hsc⟩ | ⟨c, p, ret, rfl, hsw, rfl⟩ | h | h
  · exact hi.scans hsc
  · exact hi.switch hsw (hu c p rfl hsw)
  · exact hi.givesBack h
  · exact hi.touches h

/-! ## the theorem -/

/-- no process is on two CPUs -/
def OnOneCpu (s : State) : Prop :=
  ∀ c c' p, (s.cpu c).proc = some p → (s.cpu c').proc = some p → c = c'

/-- if the event puts a process on a CPU, the process was `RUNNABLE` -/
def FromRunnable (s : State) (e : Event) : Prop :=
  ∀ s' c p, step s e = .next s' → (s.cpu c).proc ≠ some p → (s'.cpu c).proc = some p →
    (s.proc p).state = .RUNNABLE

theorem Inv.fromRunnable (hi : Inv s) (e : Event) : FromRunnable s e := by
  intro s' c p h hold hnew
  rcases step_cases h with ⟨c0, rfl, pc, -, -, -, rfl⟩ | ⟨c0, q, ret, rfl, hsw, rfl⟩ |
    ⟨c0, q, ret, x, t, -, hcpu, -, rfl⟩ | ⟨hc, -⟩
  · by_cases e : c = c0
    · subst e
      simp [State.setCpu] at hnew
    · exact absurd (by simpa [State.setCpu, e] using hnew) hold
  · by_cases e : c = c0
    · subst e
      have hq : q = p := by simpa [switchTo, State.setProc, State.setCpu] using hnew
      rw [← hq]
      exact hi.switches_runnable hsw
    · exact absurd (by simpa [switchTo, State.setProc, State.setCpu, e] using hnew) hold
  · by_cases e : c = c0
    · subst e
      simp [schedBack, State.setProc, State.setCpu] at hnew
    · exact absurd (by simpa [schedBack, State.setProc, State.setCpu, e, hcpu] using hnew) hold
  · rw [hc] at hnew
    exact absurd hnew hold

/-- one CPU alone disturbs nobody: there the property needs no condition -/
theorem undisturbed_of_one_cpu (c0 : Nat) (es : List Event) :
    ∀ s, (∀ c, c ≠ c0 → ∀ m, (s.cpu c).pc ≠ .fcfsSwitch m) →
      (∀ c, .scheduler c ∈ es → c = c0) → Along step Undisturbed s es := by
  induction es with
  | nil => intro s _ _; exact trivial
  | cons e es ih =>
    intro s hs hes
    have hes' : ∀ c, .scheduler c ∈ es → c = c0 := fun c hc => hes c (mem_cons_of_mem _ hc)
    refine ⟨fun c p he _ c' hc' => hs c' ?_ p, fun s' hstep => ih s' (fun c hc m => ?_) hes'⟩
    · rw [← hes c (by rw [he]; exact mem_cons_self)]; exact hc'
    rcases step_cases hstep with ⟨c1, rfl, pc, -, -, -, rfl⟩ | ⟨c1, p, ret, rfl, -, rfl⟩ |
      ⟨c1, p, ret, x, t, -, hcpu, -, rfl⟩ | ⟨hcpu, -⟩
    · have hne : c ≠ c1 := by rw [hes c1 mem_cons_self]; exact hc
      simpa [State.setCpu, hne] using hs c hc m
    · have hne : c ≠ c1 := by rw [hes c1 mem_cons_self]; exact hc
      simpa [switchTo, State.setProc, State.setCpu, hne] using hs c hc m
    · by_cases hne : c = c1
      · subst hne
        simpa [schedBack, State.setProc, State.setCpu] using ret.pc_ne_switch m
      · simpa [schedBack, State.setProc, State.setCpu, hne, hcpu] using hs c hc m
    · rw [hcpu]; exact hs c hc m

/-- **Single dispatch.**  Along every run in which no CPU switches to a process that stands in
the `fcfs` window of another CPU, no process is on two CPUs, the processes on CPUs are `RUNNING`,
and every switch starts from `RUNNABLE`. -/
theorem single_dispatch (es : List Event) (s : State) (hu : Along step Undisturbed init es)
    (h : exec step init es = .next s) :
    OnOneCpu s ∧ (∀ c p, (s.cpu c).proc = some p → (s.proc p).state = .RUNNING) ∧
      ∀ e, FromRunnable s e := by
  have hi : Inv s := exec_inv Inv (fun _ _ _ hi hu h => hi.next hu h) Inv.init hu h
  exact ⟨hi.single, hi.running, hi.fromRunnable⟩

/-- the first process reaches CPU 0: one scan of `fcfs` and one step of `round_robin` -/
theorem single_dispatch_first : ∃ s, exec step init (List.replicate 66 (.scheduler 0)) = .next s ∧
    (s.cpu 0).proc = some slot0 ∧ OnOneCpu s ∧ (s.proc slot0).state = .RUNNING := by
  obtain ⟨s, hs, h0⟩ : ∃ s, exec step init (List.replicate 66 (.scheduler 0)) = .next s ∧
      (s.cpu 0).proc = some slot0 :=
    exists_of_check (by decide +kernel)
  have hu : Along step Undisturbed init (List.replicate 66 (.scheduler 0)) := by
    refine undisturbed_of_one_cpu 0 _ init (fun c _ m => ?_) (fun c hc => ?_)
    · simp [init, fcfsStart]
    · simpa using List.eq_of_mem_replicate hc
  obtain ⟨h1, h2, -⟩ := single_dispatch _ s hu hs
  exact ⟨s, hs, h0, h1, h2 0 slot0 h0⟩

/-- process 1 is switched to FCFS on CPU 0 and yields; then both CPUs scan, both pass the
unlocked test, and both switch -/
def doubleRun : List Event :=
  List.replicate 66 (.scheduler 0) ++ [.changeScheduler 0 slot0 1 .FCFS, .yield 0] ++
    List.replicate 130 (.scheduler 0) ++ List.replicate 67 (.scheduler 1) ++
    [.scheduler 0, .scheduler 1]

theorem fcfs_double_dispatch : ∃ s, exec step init doubleRun = .next s ∧ ¬ OnOneCpu s := by
  obtain ⟨s, hs, h0, h1⟩ : ∃ s, exec step init doubleRun = .next s ∧
      (s.cpu 0).proc = some slot0 ∧ (s.cpu 1).proc = some slot0 :=
    exists_of_check
      (by decide +kernel)
  exact ⟨s, hs, fun h => absurd (h 0 1 slot0 h0 h1) (by decide)⟩

end Sched
