import Mathlib.Logic.Function.Basic

/-!
# Runs of a machine given by a step function

A machine has states `σ`, events `ε` and a step function that says what an event does in a state:
it moves on (`next`), it ends in a panic with a message, or it cannot happen now (`blocked`: a
lock is held, a condition is awaited).  Nondeterminism is in the choice of the events.

* `exec step s es`       the run of the list `es` from `s`;
* `Along step C s es`    every event of the run meets the condition `C` in the state before it;
* `exec_inv`             an invariant kept by every step that meets `C` holds after every run
                         along `C`;
* `exec_no_panic`        if moreover no such step panics, no run along `C` does;
* `exec_simulates`       a simulation step by step is one of whole runs.
-/

namespace Run

/-- what an event does in a state -/
inductive Outcome (σ : Type*) where
  | next (s : σ)
  | panic (msg : String)
  | blocked

def Outcome.map {σ τ : Type*} (f : σ → τ) : Outcome σ → Outcome τ
  | .next s => .next (f s)
  | .panic msg => .panic msg
  | .blocked => .blocked

variable {σ : Type*} {msg : String}

theorem map_next {τ : Type*} {f : σ → τ} {o : Outcome σ} {y : τ} (h : o.map f = .next y) :
    ∃ x, o = .next x ∧ f x = y := by
  cases o with
  | next x => exact ⟨x, rfl, Outcome.next.inj h⟩
  | panic msg | blocked => cases h

section
variable {c : Prop} {_ : Decidable c} {o : Outcome σ} {a b : σ}

/-! What a guarded event says when it moves on. -/

theorem ite_blocked (h : (if c then o else .blocked) = .next b) : c ∧ o = .next b := by
  split at h
  case isTrue hc => exact ⟨hc, h⟩
  case isFalse => cases h

theorem ite_panic (h : (if c then o else .panic msg) = .next b) : c ∧ o = .next b := by
  split at h
  case isTrue hc => exact ⟨hc, h⟩
  case isFalse => cases h

theorem panic_ite (h : (if c then .panic msg else o) = .next b) : ¬ c ∧ o = .next b := by
  split at h
  case isTrue => cases h
  case isFalse hc => exact ⟨hc, h⟩

theorem blocked_ite (h : (if c then .blocked else o) = .next b) : ¬ c ∧ o = .next b := by
  split at h
  case isTrue => cases h
  case isFalse hc => exact ⟨hc, h⟩

theorem guard_next (h : (if c then Outcome.next a else .blocked) = .next b) : c ∧ b = a :=
  (ite_blocked h).imp_right fun e => (Outcome.next.inj e).symm

end

def Outcome.bind {σ τ : Type*} (o : Outcome σ) (f : σ → Outcome τ) : Outcome τ :=
  match o with
  | .next x => f x
  | .panic msg => .panic msg
  | .blocked => .blocked

instance : Monad Outcome where
  pure := .next
  bind := Outcome.bind

theorem next_bind {σ τ : Type _} (x : σ) (f : σ → Outcome τ) : (Outcome.next x >>= f) = f x := rfl

theorem bind_next {σ τ : Type _} {o : Outcome σ} {f : σ → Outcome τ} {y : τ} (h : o >>= f = .next y) :
    ∃ x, o = .next x ∧ f x = .next y := by
  cases o with
  | next x => exact ⟨x, rfl, h⟩
  | panic msg | blocked => cases h

/-- a test of the state a run ends in -/
def Outcome.check {σ : Type*} (p : σ → Prop) [DecidablePred p] : Outcome σ → Bool
  | .next s => decide (p s)
  | _ => false

/-- a test for a panic -/
def Outcome.isPanic {σ : Type*} (msg : String) : Outcome σ → Bool
  | .panic m => m == msg
  | _ => false

theorem next_ne_panic {s : σ} : Outcome.next s ≠ .panic msg := by
  nofun

theorem blocked_ne_panic : (Outcome.blocked : Outcome σ) ≠ .panic msg := by
  nofun

theorem blocked_ne_next {s : σ} : Outcome.blocked ≠ .next s := by
  nofun

theorem eq_panic_of_isPanic {o : Outcome σ} (h : o.isPanic msg = true) : o = .panic msg := by
  cases o with
  | next s | blocked => cases h
  | panic m => rw [eq_of_beq h]

theorem exists_of_check {p : σ → Prop} [DecidablePred p] {o : Outcome σ}
    (h : o.check p = true) : ∃ s, o = .next s ∧ p s := by
  cases o with
  | next s => exact ⟨s, rfl, of_decide_eq_true h⟩
  | panic msg | blocked => cases h

section
variable {σ ε : Type*} (step : σ → ε → Outcome σ)

/-- the run of a list of events, head first -/
def exec : σ → List ε → Outcome σ
  | s, [] => .next s
  | s, e :: es =>
    match step s e with
    | .next s' => exec s' es
    | .panic msg => .panic msg
    | .blocked => .blocked

/-- every event of the run meets `C` in the state before it -/
def Along (C : σ → ε → Prop) : σ → List ε → Prop
  | _, [] => True
  | s, e :: es => C s e ∧ ∀ s', step s e = .next s' → Along C s' es

variable {step}

variable {es : List ε} {s t : σ} {e : ε} {C : σ → ε → Prop}

theorem exec_cons_next {s' : σ} (h : step s e = .next s') : exec step s (e :: es) = exec step s' es := by
  simp only [exec, h]

theorem exec_cons (h : exec step s (e :: es) = .next t) :
    ∃ s', step s e = .next s' ∧ exec step s' es = .next t := by
  cases hs : step s e with
  | next s' => exact ⟨s', rfl, by rwa [exec_cons_next hs] at h⟩
  | panic msg | blocked => simp [exec, hs] at h

theorem exec_append {a b : List ε} (h : exec step s a = .next t) : exec step s (a ++ b) = exec step t b := by
  induction a generalizing s with
  | nil => cases h; rfl
  | cons e a ih =>
    obtain ⟨s', hs, ha⟩ := exec_cons h
    rw [List.cons_append, exec_cons_next hs, ih ha]

/-- **Invariants of runs.**  What every step that meets `C` keeps holds after every run along
`C`. -/
theorem exec_inv (I : σ → Prop) (hI : ∀ s e s', I s → C s e → step s e = .next s' → I s')
    (hs : I s) (hC : Along step C s es) (h : exec step s es = .next t) : I t := by
  induction es generalizing s with
  | nil => cases h; exact hs
  | cons e es ih =>
    obtain ⟨s', hs', h'⟩ := exec_cons h
    exact ih (hI s e s' hs hC.1 hs') (hC.2 s' hs') h'

/-- **Simulation.**  If every step is a step of another machine, or none, then so is every run. -/
theorem exec_simulates {τ δ : Type*} {step' : τ → δ → Outcome τ} (R : σ → τ → Prop)
    (hR : ∀ s e s' x, R s x → step s e = .next s' → R s' x ∨ ∃ d x', step' x d = .next x' ∧ R s' x')
    {x : τ} (hs : R s x) (h : exec step s es = .next t) : ∃ ds y, exec step' x ds = .next y ∧ R t y := by
  induction es generalizing s x with
  | nil =>
    cases h
    exact ⟨[], x, rfl, hs⟩
  | cons e es ih =>
    obtain ⟨s', hs', h'⟩ := exec_cons h
    rcases hR s e s' x hs hs' with hs | ⟨d, x', hx, hs⟩
    · exact ih hs h'
    · obtain ⟨ds, y, hy, ht⟩ := ih hs h'
      exact ⟨d :: ds, y, (exec_cons_next hx).trans hy, ht⟩

variable (step)

/-- a weight, summed over the events of a run -/
def tally (w : σ → ε → Nat) : σ → List ε → Nat
  | _, [] => 0
  | s, e :: es =>
    w s e + match step s e with
      | .next s' => tally w s' es
      | _ => 0

variable {step}

theorem tally_cons_next {w : σ → ε → Nat} {s' : σ} (h : step s e = .next s') :
    tally step w s (e :: es) = w s e + tally step w s' es := by
  simp only [tally, h]

/-- **Balance of a run.**  What every event adds to `g` and takes away. -/
theorem exec_tally (I : σ → Prop) (hI : ∀ s e s', I s → step s e = .next s' → I s')
    {g : σ → Nat} {add sub : σ → ε → Nat}
    (hg : ∀ s e s', I s → step s e = .next s' → g s' + sub s e = g s + add s e)
    (hs : I s) (h : exec step s es = .next t) :
    g t + tally step sub s es = g s + tally step add s es := by
  induction es generalizing s with
  | nil =>
    cases h
    rfl
  | cons e es ih =>
    obtain ⟨s', hs', h'⟩ := exec_cons h
    have h1 := hg s e s' hs hs'
    have h2 := ih (hI s e s' hs hs') h'
    rw [tally_cons_next hs', tally_cons_next hs']
    omega

/-- **Runs without a panic.** -/
theorem exec_no_panic (I : σ → Prop) (hI : ∀ s e s', I s → C s e → step s e = .next s' → I s') {msg : String}
    (hp : ∀ s e, I s → C s e → step s e ≠ .panic msg)
    (hs : I s) (hC : Along step C s es) : exec step s es ≠ .panic msg := by
  induction es generalizing s with
  | nil => intro h; cases h
  | cons e es ih =>
    have hne := hp s e hs hC.1
    intro h
    cases hs' : step s e with
    | next s' =>
      rw [exec_cons_next hs'] at h
      exact ih (hI s e s' hs hC.1 hs') (hC.2 s' hs') h
    | panic m =>
      simp only [exec, hs'] at h
      cases h
      exact hne hs'
    | blocked => simp [exec, hs'] at h

theorem along_of_forall (hC : ∀ s e, C s e) (s : σ) (es : List ε) : Along step C s es := by
  induction es generalizing s with
  | nil => exact trivial
  | cons e es ih => exact ⟨hC s e, fun s' _ => ih s'⟩

theorem along_of_mem (hC : ∀ e ∈ es, ∀ s, C s e) (s : σ) : Along step C s es := by
  induction es generalizing s with
  | nil => exact trivial
  | cons e es ih =>
    exact ⟨hC e List.mem_cons_self s, fun s' _ => ih (fun e' he => hC e' (List.mem_cons_of_mem _ he)) s'⟩

theorem along_mono {D : σ → ε → Prop} (hCD : ∀ s e, C s e → D s e)
    (h : Along step C s es) : Along step D s es := by
  induction es generalizing s with
  | nil => exact trivial
  | cons e es ih => exact ⟨hCD s e h.1, fun s' hs' => ih (h.2 s' hs')⟩

variable (step)

/-- a condition tested along a run -/
def alongCheck (C : σ → ε → Prop) [∀ s e, Decidable (C s e)] : σ → List ε → Bool
  | _, [] => true
  | s, e :: es =>
    decide (C s e) && match step s e with
      | .next s' => alongCheck C s' es
      | _ => true

variable {step}

theorem along_of_check [∀ s e, Decidable (C s e)]
    (h : alongCheck step C s es = true) : Along step C s es := by
  induction es generalizing s with
  | nil => exact trivial
  | cons e es ih =>
    obtain ⟨h1, h2⟩ := Bool.and_eq_true_iff.mp h
    refine ⟨of_decide_eq_true h1, fun s' hs' => ih ?_⟩
    rwa [hs'] at h2

end

end Run
