import Xv6.Lib.Prog
import Mathlib.Algebra.Group.Hom.Defs
import Mathlib.Algebra.BigOperators.Fin
import Mathlib.Algebra.BigOperators.Group.List.Basic

/-!
# Ownership of shared resources by concurrent programs

Threads run programs of atomic actions on one shared state.  What a thread owns is an element `r`
of a commutative monoid; the invariant `Inv s r` of the shared state speaks about the sum of what
all threads own.  An action is verified once, against every amount `f` that others may own
(`Does`); a program is verified from its actions (`Safe`), and whatever the others own stays as it
is (`keeps`).

* `Safe M B p r Q`     with `r` of its own and `B` lent by its caller, the program `p` never ends in a
                       fatal panic, and else with a result and a remainder that meet `Q`;
* `Safe.bind`, `Safe.frame`, `Safe.lend`, `Safe.shift`, `Safe.call`, `Safe.forM`   the rules;
* `Safe.run`           what it means for a program that runs alone;
* `Safe.returns`       if all panics are fatal and no action has to wait, it comes to its end;
* `Safe.step`          what it means for one action of a thread among others.

`pages` maps what is owned to the plain resources in it, of which every action gains and loses
some; so the plain resources of a thread can be read off its actions.  An action may also ask for
another one to follow at once (`owes`).
-/

open Run List

/-- a shared state with its actions and what threads may own of it -/
structure Machine (σ Op : Type) (Res : Op → Type) (R H : Type) [AddCommMonoid R]
    [AddCommMonoid H] where
  sem : (o : Op) → σ → Outcome (Res o × σ)
  Inv : σ → R → Prop
  keeps : R → σ → σ → Prop
  keeps_refl : ∀ f s, keeps f s s
  keeps_trans : ∀ f s t u, keeps f s t → keeps f t u → keeps f s u
  keeps_left : ∀ f g s t, keeps (f + g) s t → keeps f s t
  pages : R →+ H
  gain : (o : Op) → Res o → H
  loss : (o : Op) → Res o → H
  owes : (o : Op) → Res o → Option Op → Prop
  owes_none : ∀ o x, owes o x none → ∀ q, owes o x q
  /-- the panics that are to be ruled out -/
  fatal : String → Prop

namespace Own
open Prog

variable {σ Op : Type} {Res : Op → Type} {R H : Type} [AddCommMonoid R] [AddCommMonoid H]
  (M : Machine σ Op Res R H) {α β ι : Type}

/-- the action `o` with `r` at hand, whatever else is owned beside the lent `B` -/
def Does (B : R) (o : Op) (r : R) (Q : Res o → R → Prop) : Prop :=
  ∀ f s, M.Inv s (r + (B + f)) → (∀ msg, M.fatal msg → M.sem o s ≠ .panic msg) ∧
    ∀ x s', M.sem o s = .next (x, s') → ∃ r', Q x r' ∧ M.Inv s' (r' + (B + f)) ∧
      M.keeps (B + f) s s' ∧ M.pages r' + M.loss o x = M.pages r + M.gain o x

/-- the action `o` moreover asks for nothing to follow -/
structure Acts (B : R) (o : Op) (r : R) (Q : Res o → R → Prop) : Prop where
  does : Does M B o r Q
  calm : ∀ x q, M.owes o x q

/-- the same resources under another name -/
def Shift (r r' : R) : Prop := M.pages r = M.pages r' ∧ ∀ f s, M.Inv s (r + f) → M.Inv s (r' + f)

def Safe (B : R) : Prog Op Res α → R → (α → R → Prop) → Prop
  | .ret a, r, Q => ∃ r', Shift M r r' ∧ Q a r'
  | .panic msg, _, _ => ¬ M.fatal msg
  | .act o k, r, Q => Does M B o r fun x r' => M.owes o x (k x).first ∧ Safe B (k x) r' Q

variable {M} {B b r r' f : R} {o : Op} {p : Prog Op Res α} {Q Q' : α → R → Prop}

/-! ## actions -/

variable {P : Res o → R → Prop} {k : Res o → Prog Op Res α} {s : σ}

theorem Does.mono {P' : Res o → R → Prop} (h : Does M B o r P) (hP : ∀ x r', P x r' → P' x r') :
    Does M B o r P' := by
  intro f s hs
  obtain ⟨hu, hn⟩ := h f s hs
  refine ⟨hu, fun x s' hx => ?_⟩
  obtain ⟨r', hq, hrest⟩ := hn x s' hx
  exact ⟨r', hP x r' hq, hrest⟩

theorem Acts.mono {P' : Res o → R → Prop} (h : Acts M B o r P) (hP : ∀ x r', P x r' → P' x r') :
    Acts M B o r P' :=
  ⟨h.does.mono hP, h.calm⟩

theorem Does.frame (h : Does M B o r P) (g : R) :
    Does M B o (r + g) fun x r' => ∃ r0, r' = r0 + g ∧ P x r0 := by
  intro f s hs
  have e : ∀ x : R, x + g + (B + f) = x + (B + (f + g)) := fun x => by
    rw [add_assoc, add_comm g (B + f), add_assoc]
  rw [e] at hs
  obtain ⟨hu, hn⟩ := h (f + g) s hs
  refine ⟨hu, fun x s' hx => ?_⟩
  obtain ⟨r', hq, hi, hk, hp⟩ := hn x s' hx
  refine ⟨r' + g, ⟨r', rfl, hq⟩, ?_, ?_, ?_⟩
  · rwa [e]
  · rw [← add_assoc] at hk
    exact M.keeps_left _ _ _ _ hk
  · rw [map_add, map_add, add_right_comm, hp, add_right_comm]

theorem Does.lend (h : Does M (B + b) o r P) : Does M B o (r + b) fun x r' => ∃ r0, r' = r0 + b ∧ P x r0 := by
  intro f s hs
  have e : ∀ x : R, x + b + (B + f) = x + (B + b + f) := fun x => by
    rw [add_assoc, add_left_comm b B f, add_assoc B b f]
  rw [e] at hs
  obtain ⟨hu, hn⟩ := h f s hs
  refine ⟨hu, fun x s' hx => ?_⟩
  obtain ⟨r', hq, hi, hk, hp⟩ := hn x s' hx
  refine ⟨r' + b, ⟨r', rfl, hq⟩, ?_, ?_, ?_⟩
  · rwa [e]
  · rw [add_right_comm] at hk
    exact M.keeps_left _ _ _ _ hk
  · rw [map_add, map_add, add_right_comm, hp, add_right_comm]

theorem Does.shift (hr : Shift M r r') (h : Does M B o r' P) : Does M B o r P := by
  intro f s hs
  obtain ⟨hu, hn⟩ := h f s (hr.2 _ _ hs)
  refine ⟨hu, fun x s' hx => ?_⟩
  rw [hr.1]
  exact hn x s' hx

/-! ## programs -/

theorem Shift.rfl : Shift M r r := ⟨Eq.refl _, fun _ _ h => h⟩

theorem Shift.trans {r'' : R} (h : Shift M r r') (h' : Shift M r' r'') : Shift M r r'' :=
  ⟨h.1.trans h'.1, fun f s hs => h'.2 f s (h.2 f s hs)⟩

theorem Shift.frame (h : Shift M r r') (g : R) : Shift M (r + g) (r' + g) := by
  refine ⟨by rw [map_add, map_add, h.1], fun f s hs => ?_⟩
  rw [add_assoc] at hs ⊢
  exact h.2 _ s hs

theorem Safe.ret {a : α} (h : Q a r) : Safe M B (.ret a) r Q := ⟨r, Shift.rfl, h⟩

theorem Safe.panic {msg : String} (h : ¬ M.fatal msg) : Safe M B (.panic msg) r Q := h

theorem Safe.act
    (h : Does M B o r fun x r' => M.owes o x (k x).first ∧ Safe M B (k x) r' Q) :
    Safe M B (.act o k) r Q := h

theorem Safe.ite {c : Prop} [Decidable c] {q : Prog Op Res α} (hp : c → Safe M B p r Q)
    (hq : ¬ c → Safe M B q r Q) : Safe M B (if c then p else q) r Q := by
  split
  · exact hp ‹_›
  · exact hq ‹_›

theorem Safe.bindAct
    (h : Acts M B o r fun x r' => Safe M B (k x) r' Q) : Safe M B ((Prog.perform o).bind k) r Q :=
  Safe.act (h.does.mono fun x _ hx => ⟨h.calm x _, hx⟩)

theorem Safe.perform (h : Acts M B o r P) : Safe M B (Prog.perform o) r P :=
  Safe.act (h.does.mono fun x _ hx => ⟨h.calm x _, Safe.ret hx⟩)

theorem Safe.shift (hr : Shift M r r') (h : Safe M B p r' Q) : Safe M B p r Q := by
  cases p with
  | ret a =>
    obtain ⟨r'', hs, hq⟩ := h
    exact ⟨r'', hr.trans hs, hq⟩
  | panic msg => exact h
  | act o k => exact Does.shift hr h

theorem Safe.mono (h : Safe M B p r Q) (hQ : ∀ a r', Q a r' → Q' a r') : Safe M B p r Q' := by
  induction p generalizing r with
  | ret a =>
    obtain ⟨r', hs, hq⟩ := h
    exact ⟨r', hs, hQ a r' hq⟩
  | panic msg => exact h
  | act o k ih => exact Does.mono h fun x r' hx => ⟨hx.1, ih x hx.2⟩

theorem Safe.bind {P : α → R → Prop} {g : α → Prog Op Res β} {Q : β → R → Prop}
    (h : Safe M B p r P) (hg : ∀ a r', P a r' → Safe M B (g a) r' Q) :
    Safe M B (p.bind g) r Q := by
  induction p generalizing r with
  | ret a =>
    obtain ⟨r', hs, hq⟩ := h
    exact Safe.shift hs (hg a r' hq)
  | panic msg => exact h
  | act o k ih =>
    refine Does.mono h fun x r' hx => ⟨?_, ih x hx.2⟩
    rcases first_bind (k x) g with e | e
    · rw [e]
      exact hx.1
    · rw [e] at hx
      exact M.owes_none o x hx.1 _

theorem Safe.frame (h : Safe M B p r Q) (g : R) :
    Safe M B p (r + g) fun a r' => ∃ r0, r' = r0 + g ∧ Q a r0 := by
  induction p generalizing r with
  | ret a =>
    obtain ⟨r', hs, hq⟩ := h
    exact ⟨r' + g, hs.frame g, r', rfl, hq⟩
  | panic msg => exact h
  | act o k ih =>
    refine Does.mono (Does.frame h g) ?_
    rintro x _ ⟨r0, rfl, ho, hx⟩
    exact ⟨ho, ih x hx⟩

theorem Safe.lend (h : Safe M (B + b) p r Q) :
    Safe M B p (r + b) fun a r' => ∃ r0, r' = r0 + b ∧ Q a r0 := by
  induction p generalizing r with
  | ret a =>
    obtain ⟨r', hs, hq⟩ := h
    exact ⟨r' + b, hs.frame b, r', rfl, hq⟩
  | panic msg => exact h
  | act o k ih =>
    refine Does.mono (Does.lend h) ?_
    rintro x _ ⟨r0, rfl, ho, hx⟩
    exact ⟨ho, ih x hx⟩

theorem Safe.call {g r0 : R} {P : α → R → Prop} {k : α → Prog Op Res β} {Q : β → R → Prop}
    (h : Safe M B p r P) (e : r0 = r + g) (hk : ∀ a r', P a r' → Safe M B (k a) (r' + g) Q) :
    Safe M B (p.bind k) r0 Q := by
  rw [e]
  refine Safe.bind (h.frame g) ?_
  rintro a _ ⟨r', rfl, hp⟩
  exact hk a r' hp

theorem Safe.callLend {r0 : R} {P : α → R → Prop} {k : α → Prog Op Res β} {Q : β → R → Prop}
    (h : Safe M (B + b) p r P) (e : r0 = r + b) (hk : ∀ a r', P a r' → Safe M B (k a) (r' + b) Q) :
    Safe M B (p.bind k) r0 Q := by
  rw [e]
  refine Safe.bind h.lend ?_
  rintro a _ ⟨r', rfl, hp⟩
  exact hk a r' hp

theorem Safe.forM {l : List ι} {body : ι → Prog Op Res PUnit} {g : ι → R}
    (h : ∀ i ∈ l, Safe M B (body i) (g i) fun _ r => r = 0) :
    Safe M B (l.forM body) (l.map g).sum fun _ r => r = 0 := by
  induction l with
  | nil => exact Safe.ret (by simp)
  | cons i l ih =>
    have hhead := (h i mem_cons_self).frame (l.map g).sum
    have htail := ih fun j hj => h j (mem_cons_of_mem _ hj)
    rw [map_cons, sum_cons]
    refine Safe.bind hhead ?_
    rintro _ _ ⟨r0, rfl, rfl⟩
    rwa [zero_add]

theorem Safe.forM_gain {l : List ι} {body : ι → Prog Op Res PUnit} {g : ι → R}
    (h : ∀ i ∈ l, Safe M B (body i) 0 fun _ r => r = g i) :
    Safe M B (l.forM body) 0 fun _ r => r = (l.map g).sum := by
  induction l with
  | nil => exact Safe.ret rfl
  | cons i l ih =>
    have htail := ih fun j hj => h j (mem_cons_of_mem _ hj)
    refine Safe.bind (h i mem_cons_self) ?_
    rintro _ _ rfl
    rw [← zero_add (g i)]
    refine (htail.frame (g i)).mono ?_
    rintro _ _ ⟨r0, rfl, rfl⟩
    rw [map_cons, sum_cons, add_comm]

theorem Safe.forM_finRange {n : Nat} {body : Fin n → Prog Op Res PUnit} {g : Fin n → R} {x : R}
    (h : ∀ i, Safe M B (body i) (g i) fun _ r => r = 0) (hp : Safe M B p x Q) :
    Safe M B (((List.finRange n).forM body).bind fun _ => p) (∑ i, g i + x) Q := by
  rw [Fin.sum_univ_def]
  refine Safe.call (Safe.forM fun i _ => h i) rfl ?_
  rintro _ _ rfl
  rwa [zero_add]

/-! ## soundness -/

theorem Safe.step (h : Safe M B (.act o k) r Q) {s' : σ} {x : Res o}
    (hs : M.Inv s (r + (B + f))) (hx : M.sem o s = .next (x, s')) :
    M.owes o x (k x).first ∧ ∃ r', Safe M B (k x) r' Q ∧ M.Inv s' (r' + (B + f)) ∧
      M.keeps (B + f) s s' ∧ M.pages r' + M.loss o x = M.pages r + M.gain o x := by
  obtain ⟨r', ⟨ho, hk⟩, hrest⟩ := (h f s hs).2 x s' hx
  exact ⟨ho, r', hk, hrest⟩

theorem Safe.step_ne_panic (h : Safe M B (.act o k) r Q)
    {msg : String} (hs : M.Inv s (r + (B + f))) (hm : M.fatal msg) : M.sem o s ≠ .panic msg :=
  (h f s hs).1 msg hm

theorem Safe.run (h : Safe M B p r Q) {t : σ} {a : α} (hs : M.Inv s (r + (B + f)))
    (hr : p.run M.sem s = .next (a, t)) :
    ∃ r', Q a r' ∧ M.Inv t (r' + (B + f)) ∧ M.keeps (B + f) s t := by
  induction p generalizing r s with
  | ret b =>
    cases hr
    obtain ⟨r', hsh, hq⟩ := h
    exact ⟨r', hq, hsh.2 _ _ hs, M.keeps_refl _ _⟩
  | panic msg => cases hr
  | act o k ih =>
    cases hx : M.sem o s with
    | next x =>
      rw [run_act_next (show M.sem o s = .next (x.1, x.2) from hx)] at hr
      obtain ⟨-, r1, h1, hi1, hk1, -⟩ := h.step hs hx
      obtain ⟨r2, hq, hi2, hk2⟩ := ih x.1 h1 hi1 hr
      exact ⟨r2, hq, hi2, M.keeps_trans _ _ _ _ hk1 hk2⟩
    | panic msg | blocked =>
      simp only [Prog.run, hx] at hr
      cases hr

theorem Safe.returns (h : Safe M B p r Q) (hf : ∀ msg, M.fatal msg) (hb : ∀ o s, M.sem o s ≠ .blocked)
    (hs : M.Inv s (r + (B + f))) : ∃ a t, p.run M.sem s = .next (a, t) := by
  induction p generalizing r s with
  | ret a => exact ⟨a, s, rfl⟩
  | panic msg => exact absurd (hf msg) h
  | act o k ih =>
    cases hx : M.sem o s with
    | next x =>
      rw [run_act_next (show M.sem o s = .next (x.1, x.2) from hx)]
      obtain ⟨-, r1, h1, hi1, -, -⟩ := h.step hs hx
      exact ih x.1 h1 hi1
    | panic msg => exact absurd hx (h.step_ne_panic hs (hf msg))
    | blocked => exact absurd hx (hb o s)

end Own
