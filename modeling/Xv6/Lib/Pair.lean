import Xv6.Lib.Prog

/-!
# Programs on two states

A program can act on two states that have nothing to do with each other.  Its runs are then runs of its
left part on the first state (`run_left`), and what it does to the second state can be read off its text
(`After`).

* `Prog.inl`          a program on the first state alone;
* `Prog.left`         a program without its actions on the second state, whose answers are known;
* `run_left`          the run on both states, seen from the first;
* `After`, `After.bind`, `After.run`   what holds of the second state afterwards.
-/

open Run

namespace Prog

variable {Op Op' : Type} {Res : Op → Type} {Res' : Op' → Type} {α β σ τ : Type}

/-- a program on the first state -/
def inl : Prog Op Res α → Prog (Op ⊕ Op') (Sum.elim Res Res') α
  | .ret a => .ret a
  | .panic msg => .panic msg
  | .act o k => .act (.inl o) fun x => inl (k x)

/-- the actions on both states -/
def pairSem (sem : (o : Op) → σ → Outcome (Res o × σ)) (sem' : (o : Op') → τ → Outcome (Res' o × τ)) :
    (o : Op ⊕ Op') → σ × τ → Outcome (Sum.elim Res Res' o × (σ × τ))
  | .inl o, w => (sem o w.1).map fun y => (y.1, (y.2, w.2))
  | .inr o, w => (sem' o w.2).map fun y => (y.1, (w.1, y.2))

/-- the program without its actions on the second state, which are answered by `ans` -/
def left (ans : (o : Op') → Res' o) : Prog (Op ⊕ Op') (Sum.elim Res Res') α → Prog Op Res α
  | .ret a => .ret a
  | .panic msg => .panic msg
  | .act (.inl o) k => .act o fun x => left ans (k x)
  | .act (.inr o) k => left ans (k (ans o))

variable {ans : (o : Op') → Res' o}

theorem left_bind (p : Prog (Op ⊕ Op') (Sum.elim Res Res') α)
    (g : α → Prog (Op ⊕ Op') (Sum.elim Res Res') β) :
    (p.bind g).left ans = (p.left ans).bind fun a => (g a).left ans := by
  induction p with
  | ret a | panic msg => rfl
  | act o k ih =>
    cases o with
    | inl o => exact congrArg (Prog.act o) (funext ih)
    | inr o => exact ih (ans o)

theorem left_inl (p : Prog Op Res α) : (inl p : Prog (Op ⊕ Op') (Sum.elim Res Res') α).left ans = p := by
  induction p with
  | ret a | panic msg => rfl
  | act o k ih => exact congrArg (Prog.act o) (funext ih)

variable {sem : (o : Op) → σ → Outcome (Res o × σ)} {sem' : (o : Op') → τ → Outcome (Res' o × τ)}

variable {p : Prog (Op ⊕ Op') (Sum.elim Res Res') α}

theorem run_left (hans : ∀ o t x t', sem' o t = .next (x, t') → x = ans o)
    {w w' : σ × τ} {a : α}
    (h : p.run (pairSem sem sem') w = .next (a, w')) : (p.left ans).run sem w.1 = .next (a, w'.1) := by
  induction p generalizing w with
  | ret a =>
    cases h
    rfl
  | panic msg => cases h
  | act o k ih =>
    obtain ⟨x, u, hx, hk⟩ := run_act h
    cases o with
    | inl o =>
      obtain ⟨y, hy, e⟩ := map_next (hx : (sem o w.1).map _ = .next (x, u))
      cases e
      rw [left, run_act_next hy]
      exact ih _ hk
    | inr o =>
      obtain ⟨y, hy, e⟩ := map_next (hx : (sem' o w.2).map _ = .next (x, u))
      cases e
      rw [left, ← hans o _ _ _ hy]
      exact ih _ (w := (w.1, y.2)) hk

/-- whatever the first state answers, the program ends with a result and a second state in `Q` -/
def After (sem' : (o : Op') → τ → Outcome (Res' o × τ)) :
    Prog (Op ⊕ Op') (Sum.elim Res Res') α → τ → (α → τ → Prop) → Prop
  | .ret a, t, Q => Q a t
  | .panic _, _, _ => True
  | .act (.inl o) k, t, Q => ∀ x : Res o, After sem' (k x) t Q
  | .act (.inr o) k, t, Q => ∀ (x : Res' o) t', sem' o t = .next (x, t') → After sem' (k x) t' Q

theorem After.bind {g : α → Prog (Op ⊕ Op') (Sum.elim Res Res') β}
    {t : τ} {P : α → τ → Prop} {Q : β → τ → Prop} (h : After sem' p t P)
    (hg : ∀ a t, P a t → After sem' (g a) t Q) : After sem' (p.bind g) t Q := by
  induction p generalizing t with
  | ret a => exact hg a t h
  | panic msg => trivial
  | act o k ih =>
    cases o with
    | inl o => exact fun x => ih x (h x)
    | inr o => exact fun x t' hx => ih x (h x t' hx)

theorem After.mono {t : τ} {Q Q' : α → τ → Prop}
    (h : After sem' p t Q) (hQ : ∀ a t, Q a t → Q' a t) : After sem' p t Q' := by
  induction p generalizing t with
  | ret a => exact hQ a t h
  | panic msg => trivial
  | act o k ih =>
    cases o with
    | inl o => exact fun x => ih x (h x)
    | inr o => exact fun x t' hx => ih x (h x t' hx)

theorem After.inl (p : Prog Op Res α) (t : τ) :
    After sem' (inl p : Prog (Op ⊕ Op') (Sum.elim Res Res') α) t fun _ t' => t' = t := by
  induction p with
  | ret a => rfl
  | panic msg => trivial
  | act o k ih => exact fun x => ih x

theorem After.run {w w' : σ × τ} {a : α} {Q : α → τ → Prop}
    (hp : After sem' p w.2 Q) (h : p.run (pairSem sem sem') w = .next (a, w')) : Q a w'.2 := by
  induction p generalizing w with
  | ret a =>
    cases h
    exact hp
  | panic msg => cases h
  | act o k ih =>
    obtain ⟨x, u, hx, hk⟩ := run_act h
    cases o with
    | inl o =>
      obtain ⟨y, hy, e⟩ := map_next (hx : (sem o w.1).map _ = .next (x, u))
      cases e
      exact ih _ (w := (y.2, w.2)) (hp y.1) hk
    | inr o =>
      obtain ⟨y, hy, e⟩ := map_next (hx : (sem' o w.2).map _ = .next (x, u))
      cases e
      exact ih _ (hp y.1 y.2 hy) hk

end Prog
