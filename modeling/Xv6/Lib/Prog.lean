import Xv6.Lib.Run

/-!
# Programs of atomic actions

A program is what a thread does between two points where others can see its work: it performs
atomic actions `o : Op` on a shared state, goes on with the answer, and ends with a result or in a
panic.

* `Prog.run sem p s`       the program alone, from the state `s`;
* `Prog.run_act`, `Prog.run_bind`   runs of an action and of a sequence;
* `undef`                  the panic that stands for behaviour outside the model;
* `unblocked sem`          the actions, where one that has to wait counts as a panic.
-/

open Run

inductive Prog (Op : Type) (Res : Op → Type) (α : Type) where
  | ret (a : α)
  | panic (msg : String)
  | act (o : Op) (k : Res o → Prog Op Res α)

namespace Prog

/-- what a program has to prove that it never meets -/
def undef : String := "undefined behaviour"

variable {Op : Type} {Res : Op → Type} {α β σ : Type}

def bind : Prog Op Res α → (α → Prog Op Res β) → Prog Op Res β
  | .ret a, g => g a
  | .panic msg, _ => .panic msg
  | .act o k, g => .act o fun x => (k x).bind g

instance : Monad (Prog Op Res) where
  pure := .ret
  bind := bind

/-- one action -/
def perform (o : Op) : Prog Op Res (Res o) := .act o .ret

@[simp] theorem pure_eq (a : α) : (pure a : Prog Op Res α) = .ret a := rfl

@[simp] theorem bind_eq (p : Prog Op Res α) (g : α → Prog Op Res β) : p >>= g = p.bind g := rfl

@[simp] theorem ret_bind (a : α) (g : α → Prog Op Res β) : (Prog.ret a).bind g = g a := rfl

@[simp] theorem panic_bind (msg : String) (g : α → Prog Op Res β) :
    (Prog.panic msg : Prog Op Res α).bind g = .panic msg := rfl

@[simp] theorem act_bind (o : Op) (k : Res o → Prog Op Res α) (g : α → Prog Op Res β) :
    (Prog.act o k).bind g = .act o fun x => (k x).bind g := rfl

@[simp] theorem perform_bind (o : Op) (g : Res o → Prog Op Res β) :
    (perform o).bind g = .act o g := rfl

theorem bind_assoc {γ : Type} (p : Prog Op Res α) (f : α → Prog Op Res β) (g : β → Prog Op Res γ) :
    (p.bind f).bind g = p.bind fun a => (f a).bind g := by
  induction p with
  | ret a | panic msg => rfl
  | act o k ih => exact congrArg (Prog.act o) (funext ih)

/-- the action a program begins with -/
def first : Prog Op Res α → Option Op
  | .act o _ => some o
  | _ => none

theorem first_bind (p : Prog Op Res α) (g : α → Prog Op Res β) :
    (p.bind g).first = p.first ∨ p.first = none := by
  cases p with
  | ret a | panic msg => exact .inr rfl
  | act o k => exact .inl rfl

/-- the program alone -/
def run (sem : (o : Op) → σ → Outcome (Res o × σ)) : Prog Op Res α → σ → Outcome (α × σ)
  | .ret a, s => .next (a, s)
  | .panic msg, _ => .panic msg
  | .act o k, s =>
    match sem o s with
    | .next (x, s') => (k x).run sem s'
    | .panic msg => .panic msg
    | .blocked => .blocked

variable {sem : (o : Op) → σ → Outcome (Res o × σ)}

variable {s s' : σ} {a : α} {p : Prog Op Res α}

theorem run_act_next {o : Op} {k : Res o → Prog Op Res α} {x : Res o}
    (h : sem o s = .next (x, s')) : (Prog.act o k).run sem s = (k x).run sem s' := by
  simp only [run, h]

theorem run_act {o : Op} {k : Res o → Prog Op Res α} {t : σ} (h : (Prog.act o k).run sem s = .next (a, t)) :
    ∃ x s', sem o s = .next (x, s') ∧ (k x).run sem s' = .next (a, t) := by
  simp only [run] at h
  cases hs : sem o s with
  | next x =>
    rw [hs] at h
    exact ⟨x.1, x.2, rfl, h⟩
  | panic msg | blocked =>
    rw [hs] at h
    cases h

theorem runs_act {o : Op} {k : Res o → Prog Op Res α} {x : Res o}
    (h : sem o s = .next (x, s')) (hk : ∃ t, (k x).run sem s' = .next (a, t)) :
    ∃ t, ((perform o).bind k).run sem s = .next (a, t) := by
  rwa [perform_bind, run_act_next h]

theorem run_bind_next {g : α → Prog Op Res β}
    (h : p.run sem s = .next (a, s')) : (p.bind g).run sem s = (g a).run sem s' := by
  induction p generalizing s with
  | ret b =>
    cases h
    rfl
  | panic msg => cases h
  | act o k ih =>
    obtain ⟨x, s1, hs, hk⟩ := run_act h
    rw [act_bind, run_act_next hs]
    exact ih x hk

/-- a run of a sequence that comes to its end went through both parts -/
theorem run_bind {g : α → Prog Op Res β} {t : σ} {b : β} (h : (p.bind g).run sem s = .next (b, t)) :
    ∃ a s', p.run sem s = .next (a, s') ∧ (g a).run sem s' = .next (b, t) := by
  induction p generalizing s with
  | ret a => exact ⟨a, s, rfl, h⟩
  | panic msg => cases h
  | act o k ih =>
    obtain ⟨x, s1, hs, hk⟩ := run_act h
    obtain ⟨a, s', h1, h2⟩ := ih x hk
    exact ⟨a, s', by rwa [run_act_next hs], h2⟩

/-- an action that has to wait counts as a panic -/
def unblocked (sem : (o : Op) → σ → Outcome (Res o × σ)) (o : Op) (s : σ) : Outcome (Res o × σ) :=
  match sem o s with
  | .next y => .next y
  | .panic msg => .panic msg
  | .blocked => .panic undef

theorem unblocked_next {o : Op} {y : Res o × σ} : unblocked sem o s = .next y ↔ sem o s = .next y := by
  unfold unblocked
  cases sem o s with
  | next z => rfl
  | panic msg | blocked => exact ⟨fun h => (by cases h), fun h => (by cases h)⟩

theorem unblocked_ne_blocked {o : Op} : unblocked sem o s ≠ .blocked := by
  unfold unblocked
  cases sem o s with
  | next z | panic msg | blocked => exact fun h => by cases h

theorem run_unblocked {y : α × σ} : p.run (unblocked sem) s = .next y ↔ p.run sem s = .next y := by
  induction p generalizing s with
  | ret a | panic msg => rfl
  | act o k ih =>
    constructor
    · intro h
      obtain ⟨x, s', hs, hk⟩ := run_act h
      rw [run_act_next (unblocked_next.mp hs)]
      exact (ih x).mp hk
    · intro h
      obtain ⟨x, s', hs, hk⟩ := run_act h
      rw [run_act_next (unblocked_next.mpr hs)]
      exact (ih x).mpr hk

end Prog
