import Mathlib.Logic.Basic

/-!
# Computations with a bounded depth

A recursive function of a program takes the depth it may go to.  Its result is `outOfDepth`, an
error, or a value.

* `Gives x a`     `x` is `a`, if the depth is enough;
* `Halts p x`     the depth is enough, and a value satisfies `p`;
* `Le x y`        more depth: `y` is `x`, or `x` is `outOfDepth`;
* `Sim R x y`     the same outcome, with values related by `R`.

Each has a rule for `>>=`.
-/

namespace Depth
open Option

/-- a result of type `α`, an error, or `outOfDepth` -/
abbrev Comp (ε α : Type) : Type := ExceptT ε Option α

section
variable {ε α β γ δ : Type}

def outOfDepth : Comp ε α := ExceptT.mk none

variable {x y : Comp ε α} {f : α → Comp ε β} {b : β} {a : α} {p : α → Prop} {R : α → β → Prop}

theorem bind_eq_pure (h : (x >>= f) = pure b) : ∃ a, x = pure a ∧ f a = pure b := by
  match x, h with
  | none, h => cases h
  | some (.error e), h => cases h
  | some (.ok a), h => exact ⟨a, rfl, h⟩

theorem pure_inj {b : α} (h : (pure a : Comp ε α) = pure b) : a = b :=
  Except.ok.inj (some.inj h)

theorem throw_ne_pure {e : ε} : (throw e : Comp ε α) ≠ pure a := by
  intro h
  cases some.inj h

/-- the result is `a`, if the depth is enough -/
def Gives (x : Comp ε α) (a : α) : Prop := x = outOfDepth ∨ x = pure a

theorem Gives.bind (hx : Gives x a) (hf : Gives (f a) b) : Gives (x >>= f) b := by
  rcases hx with rfl | rfl
  · exact .inl rfl
  · rwa [pure_bind]

/-- the depth is enough, and a value satisfies `p` -/
def Halts (p : α → Prop) (x : Comp ε α) : Prop := x ≠ outOfDepth ∧ ∀ a, x = pure a → p a

theorem Halts.throw {e : ε} : Halts p (throw e : Comp ε α) :=
  ⟨fun h => some_ne_none _ h, fun _ h => absurd h throw_ne_pure⟩

theorem Halts.pure (h : p a) : Halts p (pure a : Comp ε α) :=
  ⟨fun h => some_ne_none _ h, fun _ hb => pure_inj hb ▸ h⟩

theorem Halts.bind {q : β → Prop} (hx : Halts p x) (hf : ∀ a, p a → Halts q (f a)) : Halts q (x >>= f) := by
  match x, hx with
  | none, hx => exact absurd rfl hx.1
  | some (.error e), _ => exact Halts.throw
  | some (.ok a), hx => exact hf a (hx.2 a rfl)

theorem Halts.mono {q : α → Prop} (hx : Halts p x) (h : ∀ a, p a → q a) :
    Halts q x := ⟨hx.1, fun a ha => h a (hx.2 a ha)⟩

/-- `y` is the result of `x`, or `x` ran out of depth -/
def Le (x y : Comp ε α) : Prop := x = outOfDepth ∨ x = y

theorem Le.refl (x : Comp ε α) : Le x x := .inr rfl

theorem Le.trans {z : Comp ε α} (h : Le x y) (h' : Le y z) : Le x z := by
  rcases h with rfl | rfl
  · exact .inl rfl
  · exact h'

theorem Le.bind {g : α → Comp ε β} (hx : Le x y) (hf : ∀ a, Le (f a) (g a)) : Le (x >>= f) (y >>= g) := by
  rcases hx with rfl | rfl
  · exact .inl rfl
  · match x with
    | none => exact .inl rfl
    | some (.error e) => exact .inr rfl
    | some (.ok a) => exact hf a

theorem Le.ite {x' y' : Comp ε α} {p : Prop} [Decidable p] (h : Le x y) (h' : Le x' y') :
    Le (if p then x else x') (if p then y else y') := by
  split
  · exact h
  · exact h'

/-- the same outcome, with related results -/
def Sim (R : α → β → Prop) (x : Comp ε α) (y : Comp ε β) : Prop :=
  (x = outOfDepth ∧ y = outOfDepth) ∨ (∃ e, x = throw e ∧ y = throw e) ∨
    ∃ a b, x = pure a ∧ y = pure b ∧ R a b

theorem Sim.outOfDepth : Sim R (outOfDepth : Comp ε α) (outOfDepth : Comp ε β) := .inl ⟨rfl, rfl⟩

theorem Sim.throw (e : ε) : Sim R (throw e : Comp ε α) (throw e : Comp ε β) :=
  .inr (.inl ⟨e, rfl, rfl⟩)

theorem Sim.pure (h : R a b) : Sim R (pure a : Comp ε α) (pure b : Comp ε β) :=
  .inr (.inr ⟨a, b, rfl, rfl, h⟩)

theorem Sim.bind {Q : γ → δ → Prop} {y : Comp ε β}
    {f : α → Comp ε γ} {g : β → Comp ε δ} (h : Sim R x y) (hf : ∀ a b, R a b → Sim Q (f a) (g b)) :
    Sim Q (x >>= f) (y >>= g) := by
  rcases h with ⟨rfl, rfl⟩ | ⟨e, rfl, rfl⟩ | ⟨a, b, rfl, rfl, hab⟩
  · exact Sim.outOfDepth
  · exact Sim.throw e
  · exact hf a b hab

theorem Sim.ite {x' : Comp ε α} {y y' : Comp ε β} {p q : Prop} [Decidable p]
    [Decidable q] (hpq : p ↔ q) (h : q → Sim R x y) (h' : ¬ q → Sim R x' y') :
    Sim R (if p then x else x') (if q then y else y') := by
  by_cases hq : q
  · rw [if_pos hq, if_pos (hpq.mpr hq)]
    exact h hq
  · rw [if_neg hq, if_neg (fun hp => hq (hpq.mp hp))]
    exact h' hq

end

end Depth
