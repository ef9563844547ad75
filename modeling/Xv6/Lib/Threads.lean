import Xv6.Lib.Own
import Mathlib.Algebra.Order.Group.Multiset

/-!
# Threads that share a state

A configuration is a shared state with a program for each of the threads that are running.  A thread
carries the plain resources it holds as a ghost: what it starts with, and then what its actions gain
and lose.

* `stepThread`          one action of one thread;
* `Shares`              the threads own shares of the state, and every one is safe with its own;
* `stepThread_shares`, `Shares.spawn`   every step keeps that;
* `stepThread_ne_panic` and no step ends in a fatal panic.
-/

open Run Prog Function Finset

namespace Own

structure Thread (Op : Type) (Res : Op → Type) (X : Type) where
  prog : Prog Op Res PUnit
  held : Multiset X

structure Config (σ ι Op : Type) (Res : Op → Type) (X : Type) where
  sys : σ
  thread : ι → Option (Thread Op Res X)

/-- the action that a thread is about to take -/
def Config.next {σ ι Op : Type} {Res : Op → Type} {X : Type} (c : Config σ ι Op Res X) (i : ι) :
    Option Op :=
  (c.thread i).bind fun t => t.prog.first

theorem Config.next_act {σ ι Op : Type} {Res : Op → Type} {X : Type} {c : Config σ ι Op Res X} {i : ι}
    {t : Thread Op Res X} {o : Op} {k : Res o → Prog Op Res PUnit}
    (ht : c.thread i = some t) (hp : t.prog = .act o k) : c.next i = some o := by
  rw [Config.next, ht, Option.bind_some, hp]
  rfl

section
variable {σ ι Op X : Type} {Res : Op → Type} {R : Type} [Fintype ι] [DecidableEq ι]
  [AddCommMonoid R] (M : Machine σ Op Res R (Multiset X))

/-- the share `r` of a thread; `End` is what it may leave behind -/
def Share (End : R → Prop) : Option (Thread Op Res X) → R → Prop
  | none, r => r = 0
  | some t, r => M.pages r = t.held ∧ Safe M 0 t.prog r fun _ r => End r

structure Shares (End : R → Prop) (c : Config σ ι Op Res X) (r : ι → R) : Prop where
  inv : M.Inv c.sys (∑ i, r i)
  share : ∀ i, Share M End (c.thread i) (r i)

variable {M} {End : R → Prop} {c c' : Config σ ι Op Res X} {r : ι → R} {i : ι}

theorem sum_update (r : ι → R) (i : ι) (x : R) :
    ∑ j, update r i x j = x + ∑ j ∈ Finset.univ.erase i, r j := by
  rw [← add_sum_erase _ _ (mem_univ i), update_self]
  refine congrArg (x + ·) (sum_congr rfl fun j hj => ?_)
  exact update_of_ne (ne_of_mem_erase hj) _ _

theorem Shares.change {s : σ} {o : Option (Thread Op Res X)} {x : R} (h : Shares M End c r)
    (hinv : M.Inv s (x + ∑ j ∈ Finset.univ.erase i, r j)) (hx : Share M End o x) :
    Shares M End ⟨s, update c.thread i o⟩ (update r i x) := by
  refine ⟨?_, fun j => ?_⟩
  · rwa [sum_update]
  by_cases e : j = i
  · subst e
    show Share M End (update c.thread j o j) (update r j x j)
    rwa [update_self, update_self]
  · show Share M End (update c.thread i o j) (update r i x j)
    rw [update_of_ne e, update_of_ne e]
    exact h.share j

theorem Shares.split (h : Shares M End c r) (i : ι) :
    M.Inv c.sys (r i + (0 + ∑ j ∈ Finset.univ.erase i, r j)) := by
  have := h.inv
  rwa [← add_sum_erase _ _ (mem_univ i), ← zero_add (∑ j ∈ univ.erase i, r j)] at this

theorem Shares.spawn {s : σ} {t : Thread Op Res X} {x : R} (h : Shares M End c r)
    (hi : c.thread i = none) (hinv : M.Inv s (x + ∑ j, r j)) (hheld : M.pages x = t.held)
    (hsafe : Safe M 0 t.prog x fun _ r => End r) :
    ∃ r', Shares M End ⟨s, update c.thread i (some t)⟩ r' := by
  refine ⟨update r i x, h.change ?_ ⟨hheld, hsafe⟩⟩
  have hz : r i = 0 := by
    have := h.share i
    rwa [hi] at this
  rwa [← add_sum_erase _ _ (mem_univ i), hz, zero_add] at hinv

theorem Shares.acts {t : Thread Op Res X} {o : Op} {k : Res o → Prog Op Res PUnit} {x : Res o} {s : σ}
    (h : Shares M End c r) (ht : c.thread i = some t) (hp : t.prog = .act o k)
    (hx : M.sem o c.sys = .next (x, s)) :
    M.owes o x (k x).first ∧ M.loss o x ≤ t.held + M.gain o x := by
  have hi := h.share i
  rw [ht] at hi
  obtain ⟨hheld, hsafe⟩ := hi
  rw [hp] at hsafe
  obtain ⟨ho, r', -, -, -, hpages⟩ := hsafe.step (h.split i) hx
  refine ⟨ho, ?_⟩
  rw [← hheld, ← hpages]
  exact Multiset.le_add_left _ _

variable [DecidableEq X]

/-- one action, or the end of a thread that is through with its program -/
def stepThread (sem : (o : Op) → σ → Outcome (Res o × σ)) (gain loss : (o : Op) → Res o → Multiset X)
    (c : Config σ ι Op Res X) (i : ι) : Outcome (Config σ ι Op Res X) :=
  match c.thread i with
  | none => .blocked
  | some t =>
    match t.prog with
    | .ret _ => .next { c with thread := Function.update c.thread i none }
    | .panic msg => .panic msg
    | .act o k =>
      match sem o c.sys with
      | .next (x, s) =>
        .next ⟨s, Function.update c.thread i (some ⟨k x, t.held + gain o x - loss o x⟩)⟩
      | .panic msg => .panic msg
      | .blocked => .blocked

omit [Fintype ι] in
theorem stepThread_cases {sem : (o : Op) → σ → Outcome (Res o × σ)}
    {gain loss : (o : Op) → Res o → Multiset X} (hs : stepThread sem gain loss c i = .next c') :
    (c.next i = none ∧ c'.sys = c.sys) ∨
      ∃ t o k x, c.thread i = some t ∧ t.prog = .act o k ∧ sem o c.sys = .next (x, c'.sys) ∧
        c'.thread = update c.thread i (some ⟨k x, t.held + gain o x - loss o x⟩) := by
  unfold stepThread at hs
  cases ht : c.thread i with
  | none =>
    rw [ht] at hs
    cases hs
  | some t =>
    rw [ht] at hs
    cases hp : t.prog with
    | ret a =>
      simp only [hp] at hs
      cases hs
      refine .inl ⟨?_, rfl⟩
      rw [Config.next, ht, Option.bind_some, hp]
      rfl
    | panic msg =>
      simp only [hp] at hs
      cases hs
    | act o k =>
      simp only [hp] at hs
      cases hsem : sem o c.sys with
      | next y =>
        rw [hsem] at hs
        cases hs
        exact .inr ⟨t, o, k, y.1, rfl, hp, hsem, rfl⟩
      | panic msg | blocked =>
        rw [hsem] at hs
        cases hs

theorem stepThread_shares (hEnd : ∀ s x f, End x → M.Inv s (x + f) → M.Inv s f)
    (h : Shares M End c r) (hs : stepThread M.sem M.gain M.loss c i = .next c') : ∃ r', Shares M End c' r' := by
  have hi := h.share i
  have hinv := h.split i
  unfold stepThread at hs
  cases ht : c.thread i with
  | none =>
    rw [ht] at hs
    cases hs
  | some t =>
    rw [ht] at hs hi
    obtain ⟨hheld, hsafe⟩ := hi
    cases hp : t.prog with
    | ret a =>
      simp only [hp] at hs
      rw [hp] at hsafe
      cases hs
      obtain ⟨r', hsh, hend⟩ := hsafe
      refine ⟨update r i 0, h.change ?_ rfl⟩
      have := hEnd _ _ _ hend (hsh.2 _ _ hinv)
      exact this
    | panic msg =>
      simp only [hp] at hs
      cases hs
    | act o k =>
      simp only [hp] at hs
      rw [hp] at hsafe
      cases hsem : M.sem o c.sys with
      | next y =>
        rw [hsem] at hs
        cases hs
        obtain ⟨-, r', hsafe', hinv', -, hpages⟩ := hsafe.step hinv hsem
        rw [zero_add] at hinv'
        refine ⟨update r i r', h.change hinv' ⟨?_, hsafe'⟩⟩
        rw [← hheld, ← hpages]
        exact (Multiset.add_sub_cancel_right).symm
      | panic msg | blocked =>
        rw [hsem] at hs
        cases hs

theorem stepThread_ne_panic {msg : String} (h : Shares M End c r) (hm : M.fatal msg) :
    stepThread M.sem M.gain M.loss c i ≠ .panic msg := by
  have hi := h.share i
  have hinv := h.split i
  intro hs
  unfold stepThread at hs
  cases ht : c.thread i with
  | none =>
    rw [ht] at hs
    cases hs
  | some t =>
    rw [ht] at hs hi
    obtain ⟨hheld, hsafe⟩ := hi
    cases hp : t.prog with
    | ret a =>
      simp only [hp] at hs
      cases hs
    | panic msg' =>
      simp only [hp] at hs
      rw [hp] at hsafe
      cases hs
      exact hsafe hm
    | act o k =>
      simp only [hp] at hs
      rw [hp] at hsafe
      have hne := hsafe.step_ne_panic hinv hm
      cases hsem : M.sem o c.sys with
      | next y | blocked =>
        rw [hsem] at hs
        cases hs
      | panic msg' =>
        rw [hsem] at hs
        cases hs
        exact hne hsem

end

end Own
