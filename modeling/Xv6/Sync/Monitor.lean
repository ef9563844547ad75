import Xv6.Sync.Wakeup
import Mathlib.Data.Set.Basic

/-!
# Programs that sleep for a reason and wake whom they have to

Every lock has an invariant for its data, and every channel a reason: what holds of the data while
somebody sleeps on it.  A process that ends the reason of a channel under the lock owes a `wakeup` of
it, and has to make that good before it lets go of the lock.

* `Rules`                 invariants, reasons, and the runs that are looked at (`guard`);
* `Ok`                    a program pays what it owes, and sleeps only for a reason;
* `Owns`, `owns_step`     what holds while such programs run;
* `monitor_run`           so, while the lock is free, whoever sleeps has the reason.
-/

namespace Sync
open Run Prog Function Option
open Sched (Slot NPROC ProcState)

structure Rules (M : Monitor) where
  J : (l : M.Lk) → M.Data l → Prop
  reason : (l : M.Lk) → M.Chan → M.Data l → Prop
  guard : (l : M.Lk) → M.Act l → Slot → M.Data l → Prop
  /-- what holds besides while the lock is free -/
  rest : (l : M.Lk) → M.Data l → Prop := fun _ _ => True

variable {M : Monitor} {κ : Type} {code : Slot → κ → Code M Unit} (R : Rules M)

/-- the locks that a process has, with the data and the channels it owes a wakeup -/
abbrev Held (M : Monitor) : Type := (l : M.Lk) → Option (M.Data l × Set M.Chan)

/-- the channels whose reason ends -/
def Rules.ended (l : M.Lk) (d d' : M.Data l) : Set M.Chan :=
  { ch | R.reason l ch d ∧ ¬ R.reason l ch d' }

/-- the program of the process `p` with the locks `H` -/
def Ok (p : Slot) (pid : Int) : Code M Unit → Held M → Prop
  | .ret _, H => ∀ l, H l = none
  | .panic _, _ => True
  | .act (.acquire l) k, H =>
    ∀ d, R.J l d → R.rest l d → Ok p pid (k ()) (Function.update H l (some (d, ∅)))
  | .act (.release l) k, H =>
    (∃ d, H l = some (d, ∅) ∧ R.rest l d) ∧ Ok p pid (k ()) (Function.update H l none)
  | .act (.act l a) k, H => ∃ d D, H l = some (d, D) ∧ (R.guard l a p d →
      R.J l (M.eff a p pid d).2 ∧ Ok p pid (k (M.eff a p pid d).1)
        (Function.update H l (some ((M.eff a p pid d).2, D ∪ R.ended l d (M.eff a p pid d).2))))
  | .act (.sleep ch l) k, H =>
    (∃ d, H l = some (d, ∅) ∧ R.rest l d ∧ R.reason l ch d) ∧
      ∀ d, R.J l d → R.rest l d → Ok p pid (k ()) (Function.update H l (some (d, ∅)))
  | .act (.wakeup ch) k, H => Ok p pid (k ()) fun l => (H l).map fun x => (x.1, x.2 \ {ch})
  | .act .killed k, H => ∀ b, Ok p pid (k b) H
  | .act (.kill _) k, H => ∀ b, Ok p pid (k b) H

/-- in `sleep`, without its lock -/
def Pc.Released : Pc → Prop
  | .sleepChan | .sleepState | .sleepSched | .asleep | .sleepTidy | .sleepUnlock | .sleepAcquire
  | .preempted .sleepAcquire => True
  | _ => False

/-- the same for a process inside an operation -/
def OkAt (p : Slot) (pid : Int) (t : Thread M) (H : Held M) : Prop :=
  (t.pc.Released → ∃ ch l k, t.code = .act (.sleep ch l) k ∧ H l = none ∧
    ∀ d, R.J l d → R.rest l d → Ok R p pid (k ()) (Function.update H l (some (d, ∅)))) ∧
  (¬ t.pc.Released → Ok R p pid t.code H)

structure Owns (c : Config M) (H : Slot → Held M) : Prop where
  J : ∀ l, R.J l (c.sys.data l)
  rest : ∀ l, c.sys.lock (.of l) = none → R.rest l (c.sys.data l)
  held : ∀ p l x, H p l = some x → c.sys.lock (.of l) = some p ∧ x.1 = c.sys.data l
  lock : ∀ p l, c.sys.lock (.of l) = some p → H p l ≠ none
  ok : ∀ p t, c.thread p = some t → OkAt R p (c.sys.proc p).pid t (H p)
  idle : ∀ p, c.thread p = none → ∀ l, H p l = none
  reason : ∀ p ch l, Waiting c p ch l →
    R.reason l ch (c.sys.data l) ∨ ∃ q x, H q l = some x ∧ ch ∈ x.2

/-- the event is in the runs that are looked at -/
def Rules.Guarded (c : Config M) (e : Event M κ) : Prop :=
  ∀ p l a, e = .step p → c.op p = some (.act l a) → R.guard l a p (c.sys.data l)

variable {R} {c c' : Config M} {e : Event M κ} {H : Slot → Held M} {p q : Slot} {s : State M}
  {t : Option (Thread M)}

theorem Micro.pid {s s' : State M} {o : Op M} {pc : Pc} {r : Pc ⊕ o.Res} (h : Micro s p o pc s' r)
    (q : Slot) : (s'.proc q).pid = (s.proc q).pid := by
  have hset : ∀ (x : Proc M) (q' : Slot), x.pid = (s.proc q').pid →
      ((s.setProc q' x).proc q).pid = (s.proc q).pid := by
    intro x q' hx
    by_cases e : q = q'
    · rw [e, setProc_self, hx]
    · rw [setProc_of_ne s x e]
  cases h with
  | sleepChan | sleepState | sleepTidy => exact hset _ p rfl
  | @wakeupBody c q' =>
    unfold State.wake
    split
    · exact hset _ q' rfl
    · rfl
  | @killBody pid q' h => exact hset _ q' rfl
  | _ => rfl

variable {pc : Pc} {l : M.Lk} {ch : M.Chan} {h : Held M} {pid : Int}

theorem Owns.change (hO : Owns R c H) (h : Held M) (hk : ∀ q, q ≠ p → Keeps c.sys s q)
    (hd : ∀ l q, q ≠ p → c.sys.lock (.of l) = some q → s.data l = c.sys.data l)
    (hJ : ∀ l, R.J l (s.data l)) (hf : ∀ l, s.lock (.of l) = none → R.rest l (s.data l))
    (hh : ∀ l x, h l = some x → s.lock (.of l) = some p ∧ x.1 = s.data l)
    (hl : ∀ l, s.lock (.of l) = some p → h l ≠ none)
    (hok : ∀ u, t = some u → OkAt R p (s.proc p).pid u h) (hidle : t = none → ∀ l, h l = none)
    (hr : ∀ p' ch l, Waiting (c.setThread s p t) p' ch l → R.reason l ch (s.data l) ∨
      (∃ x, h l = some x ∧ ch ∈ x.2) ∨ ∃ q x, q ≠ p ∧ H q l = some x ∧ ch ∈ x.2) :
    Owns R (c.setThread s p t) (update H p h) := by
  refine ⟨hJ, hf, fun q l x hx => ?_, fun q l hq => ?_, fun q u hu => ?_, fun q hu => ?_,
    fun p' ch l hw => ?_⟩
  · by_cases e : q = p
    · subst e
      rw [update_self] at hx
      exact hh l x hx
    · rw [update_of_ne e] at hx
      obtain ⟨h1, h2⟩ := hO.held q l x hx
      exact ⟨((hk q e).lock _).mpr h1, h2.trans (hd l q e h1).symm⟩
  · by_cases e : q = p
    · subst e
      rw [update_self]
      exact hl l hq
    · rw [update_of_ne e]
      exact hO.lock q l (((hk q e).lock _).mp hq)
  · by_cases e : q = p
    · subst e
      rw [setThread_self] at hu
      rw [update_self]
      exact hok u hu
    · rw [setThread_of_ne c s t e] at hu
      rw [update_of_ne e]
      show OkAt R q (s.proc q).pid u (H q)
      rw [(hk q e).pid]
      exact hO.ok q u hu
  · by_cases e : q = p
    · subst e
      rw [setThread_self] at hu
      rw [update_self]
      exact hidle hu
    · rw [setThread_of_ne c s t e] at hu
      rw [update_of_ne e]
      exact hO.idle q hu
  · rcases hr p' ch l hw with h1 | ⟨x, hx, hx2⟩ | ⟨q, x, hq, hx, hx2⟩
    · exact .inl h1
    · exact .inr ⟨p, x, by rw [update_self]; exact hx, hx2⟩
    · exact .inr ⟨q, x, by rw [update_of_ne hq]; exact hx, hx2⟩

/-- whoever holds a lock is the only one that owes anything for it -/
theorem Owns.owner (hO : Owns R c H) {x : M.Data l × Set M.Chan}
    (hx : H q l = some x) (hp : c.sys.lock (.of l) = some p) : q = p :=
  some.inj ((hO.held q l x hx).1.symm.trans hp)

theorem Owns.waited (hO : Owns R c H) {p' : Slot} (hw : Waiting c p' ch l) :
    R.reason l ch (c.sys.data l) ∨ (∃ x, H p l = some x ∧ ch ∈ x.2) ∨
      ∃ q x, q ≠ p ∧ H q l = some x ∧ ch ∈ x.2 := by
  rcases hO.reason p' ch l hw with h | ⟨q, x, hx, hx2⟩
  · exact .inl h
  · by_cases e : q = p
    · subst e
      exact .inr (.inl ⟨x, hx, hx2⟩)
    · exact .inr (.inr ⟨q, x, e, hx, hx2⟩)

theorem Owns.same (hO : Owns R c H) (hk : ∀ q, q ≠ p → Keeps c.sys s q) (hd : s.data = c.sys.data)
    (hlk : ∀ l, s.lock (.of l) = some p ↔ c.sys.lock (.of l) = some p)
    (hok : ∀ u, t = some u → OkAt R p (s.proc p).pid u (H p))
    (hidle : t = none → ∀ l, H p l = none)
    (hw : ∀ p' ch l, Waiting (c.setThread s p t) p' ch l → Waiting c p' ch l) :
    Owns R (c.setThread s p t) H := by
  have h := hO.change (H p) hk (fun l q _ _ => congrFun hd l)
    (by rw [hd]; exact hO.J) (fun l hl => by
      rw [hd]
      refine hO.rest l (eq_none_iff_forall_ne_some.mpr fun q hq => ?_)
      by_cases e : q = p
      · rw [(hlk l).mpr (e ▸ hq)] at hl
        cases hl
      · rw [((hk q e).lock _).mpr hq] at hl
        cases hl) (fun l x hx => by
      rw [hd, hlk]
      exact hO.held p l x hx) (fun l hl => hO.lock p l ((hlk l).mp hl)) hok hidle
    (fun p' ch l h => by
      rw [hd]
      exact hO.waited (hw p' ch l h))
  rwa [update_eq_self] at h

theorem Owns.sys (hO : Owns R c H) (hlk : ∀ l, s.lock (.of l) = c.sys.lock (.of l))
    (hJ : ∀ l, R.J l (s.data l))
    (hf : ∀ l, c.sys.lock (.of l) = none → R.rest l (s.data l))
    (hd : ∀ l q, c.sys.lock (.of l) = some q → s.data l = c.sys.data l)
    (hpid : ∀ p, c.thread p ≠ none → (s.proc p).pid = (c.sys.proc p).pid)
    (hr : ∀ l ch, R.reason l ch (c.sys.data l) → R.reason l ch (s.data l))
    (hw : ∀ p' ch l, Waiting { c with sys := s } p' ch l → Waiting c p' ch l) :
    Owns R { c with sys := s } H := by
  refine ⟨hJ, fun l hl => hf l ((hlk l).symm.trans hl), fun q l x hx => ?_, fun q l hq => ?_,
    fun q u hu => ?_, hO.idle, fun p' ch l h => ?_⟩
  · obtain ⟨h1, h2⟩ := hO.held q l x hx
    exact ⟨(hlk l).trans h1, h2.trans (hd l q h1).symm⟩
  · exact hO.lock q l ((hlk l).symm.trans hq)
  · rw [hpid q (by intro e; rw [show c.thread q = some u from hu] at e; cases e)]
    exact hO.ok q u hu
  · exact (hO.reason p' ch l (hw p' ch l h)).imp_left (hr l ch)

/-! ## the steps -/

section
variable {l : M.Lk} {u : Thread M}

theorem of_ne {l l' : M.Lk} (h : l' ≠ l) : (Spin.of l' : Spin M) ≠ .of l := by
  intro e
  exact h (Spin.of.inj e)

theorem of_ne_proc {l : M.Lk} {q : Slot} : (Spin.of l : Spin M) ≠ .proc q := by
  intro h
  cases h

theorem Owns.take (hO : Owns R c H) (hl : c.sys.lock (.of l) = none)
    (hok : OkAt R p (c.sys.proc p).pid u (update (H p) l (some (c.sys.data l, ∅))))
    (hw : ∀ p' ch l', Waiting (c.setThread (c.sys.hold p (.of l)) p (some u)) p' ch l' →
      Waiting c p' ch l') :
    Owns R (c.setThread (c.sys.hold p (.of l)) p (some u))
      (update H p (update (H p) l (some (c.sys.data l, ∅)))) := by
  refine hO.change _ (fun q hq => keeps_hold hl hq) (fun _ _ _ _ => rfl) hO.J ?_ ?_ ?_ ?_
    (by intro e; cases e) ?_
  · intro l' hl'
    by_cases e : l' = l
    · subst e
      rw [hold_self] at hl'
      cases hl'
    · rw [hold_of_ne _ _ (of_ne e)] at hl'
      exact hO.rest l' hl'
  · intro l' x hx
    by_cases e : l' = l
    · subst e
      rw [update_self] at hx
      cases hx
      exact ⟨hold_self .., rfl⟩
    · rw [update_of_ne e] at hx
      rw [hold_of_ne _ _ (of_ne e)]
      exact hO.held p l' x hx
  · intro l' hl'
    by_cases e : l' = l
    · subst e
      rw [update_self]
      intro h
      cases h
    · rw [update_of_ne e]
      rw [hold_of_ne _ _ (of_ne e)] at hl'
      exact hO.lock p l' hl'
  · intro u' hu
    cases hu
    exact hok
  · intro p' ch l' h
    rcases hO.waited (p := p) (hw p' ch l' h) with h | ⟨x, hx, hx2⟩ | h
    · exact .inl h
    · refine .inr (.inl ⟨x, ?_, hx2⟩)
      have e : l' ≠ l := by
        rintro rfl
        rw [(hO.held p l' x hx).1] at hl
        cases hl
      rwa [update_of_ne e]
    · exact .inr (.inr h)

theorem Owns.leave (hO : Owns R c H) (hl : c.sys.lock (.of l) = some p)
    (hx : ∃ d, H p l = some (d, ∅) ∧ R.rest l d)
    (hok : OkAt R p (c.sys.proc p).pid u (update (H p) l none))
    (hw : ∀ p' ch l', Waiting (c.setThread (c.sys.drop p (.of l)) p (some u)) p' ch l' →
      Waiting c p' ch l' ∨ R.reason l' ch (c.sys.data l')) :
    Owns R (c.setThread (c.sys.drop p (.of l)) p (some u))
      (update H p (update (H p) l none)) := by
  obtain ⟨d, hd, hrest⟩ := hx
  refine hO.change _ (fun q hq => keeps_drop hl hq) (fun _ _ _ _ => rfl) hO.J ?_ ?_ ?_ ?_
    (by intro e; cases e) ?_
  · intro l' hl'
    by_cases e : l' = l
    · subst e
      exact (hO.held p l' _ hd).2 ▸ hrest
    · rw [drop_of_ne _ _ (of_ne e)] at hl'
      exact hO.rest l' hl'
  · intro l' x hx'
    by_cases e : l' = l
    · subst e
      rw [update_self] at hx'
      cases hx'
    · rw [update_of_ne e] at hx'
      rw [drop_of_ne _ _ (of_ne e)]
      exact hO.held p l' x hx'
  · intro l' hl'
    by_cases e : l' = l
    · subst e
      rw [drop_self] at hl'
      cases hl'
    · rw [update_of_ne e]
      rw [drop_of_ne _ _ (of_ne e)] at hl'
      exact hO.lock p l' hl'
  · intro u' hu
    cases hu
    exact hok
  · intro p' ch l' h
    rcases hw p' ch l' h with h | h
    · rcases hO.waited (p := p) h with h | ⟨x, hx', hx2⟩ | h
      · exact .inl h
      · by_cases e : l' = l
        · subst e
          rw [hd] at hx'
          cases hx'
          exact absurd hx2 (Set.notMem_empty ch)
        · refine .inr (.inl ⟨x, ?_, hx2⟩)
          rwa [update_of_ne e]
      · exact .inr (.inr h)
    · exact .inl h

theorem Owns.act (hO : Owns R c H) {d : M.Data l} {D : Set M.Chan} (hx : H p l = some (d, D))
    {d' : M.Data l} (hJ : R.J l d')
    (hok : OkAt R p (c.sys.proc p).pid u (update (H p) l (some (d', D ∪ R.ended l d d'))))
    (hw : ∀ p' ch l', Waiting (c.setThread { c.sys with data := update c.sys.data l d' } p
      (some u)) p' ch l' → Waiting c p' ch l') :
    Owns R (c.setThread { c.sys with data := update c.sys.data l d' } p (some u))
      (update H p (update (H p) l (some (d', D ∪ R.ended l d d')))) := by
  have hlock := (hO.held p l _ hx).1
  have hd : d = c.sys.data l := (hO.held p l _ hx).2
  refine hO.change _ (fun q hq => keeps_data) ?_ ?_ ?_ ?_ ?_ ?_ (by intro e; cases e) ?_
  · intro l' q hq hl'
    refine update_of_ne ?_ _ _
    rintro rfl
    rw [hlock] at hl'
    exact hq (some.inj hl').symm
  · intro l'
    show R.J l' (update c.sys.data l d' l')
    by_cases e : l' = l
    · subst e
      rwa [update_self]
    · rw [update_of_ne e]
      exact hO.J l'
  · intro l' hl'
    have e : l' ≠ l := by
      rintro rfl
      rw [show c.sys.lock (.of l') = none from hl'] at hlock
      cases hlock
    show R.rest l' (update c.sys.data l d' l')
    rw [update_of_ne e]
    exact hO.rest l' hl'
  · intro l' x hx'
    show _ ∧ x.1 = update c.sys.data l d' l'
    by_cases e : l' = l
    · subst e
      rw [update_self] at hx'
      cases hx'
      exact ⟨hlock, by rw [update_self]⟩
    · rw [update_of_ne e] at hx' ⊢
      exact hO.held p l' x hx'
  · intro l' hl'
    by_cases e : l' = l
    · subst e
      rw [update_self]
      intro h
      cases h
    · rw [update_of_ne e]
      exact hO.lock p l' hl'
  · intro u' hu
    cases hu
    exact hok
  · intro p' ch l' h
    show R.reason l' ch (update c.sys.data l d' l') ∨ _
    by_cases e : l' = l
    · subst e
      rw [update_self]
      rcases hO.waited (hw p' ch l' h) with h | ⟨x, hx', hx2⟩ | ⟨q, x, hq, hx', -⟩
      · by_cases hr : R.reason l' ch d'
        · exact .inl hr
        · refine .inr (.inl ⟨_, update_self .., Or.inr ⟨?_, hr⟩⟩)
          rwa [hd]
      · rw [hx] at hx'
        cases hx'
        exact .inr (.inl ⟨_, update_self .., Or.inl hx2⟩)
      · exact absurd (hO.owner hx' hlock) hq
    · rw [update_of_ne e, update_of_ne e]
      exact hO.waited (hw p' ch l' h)

theorem Owns.paid (hO : Owns R c H) {ch : M.Chan}
    (hok : OkAt R p (c.sys.proc p).pid u fun l => (H p l).map fun x => (x.1, x.2 \ {ch}))
    (hw : ∀ p' ch l', Waiting (c.setThread c.sys p (some u)) p' ch l' → Waiting c p' ch l')
    (hpast : ∀ p' l', c.sys.lock (.of l') = some p → ¬ Waiting c p' ch l') :
    Owns R (c.setThread c.sys p (some u))
      (update H p fun l => (H p l).map fun x => (x.1, x.2 \ {ch})) := by
  refine hO.change _ (fun q _ => Keeps.refl _ q) (fun _ _ _ _ => rfl) hO.J hO.rest ?_ ?_ ?_
    (by intro e; cases e) ?_
  · intro l' x hx
    obtain ⟨y, hy, rfl⟩ := map_eq_some_iff.mp hx
    exact hO.held p l' y hy
  · intro l' hl' h
    exact hO.lock p l' hl' (map_eq_none_iff.mp h)
  · intro u' hu
    cases hu
    exact hok
  · intro p' ch' l' h
    rcases hO.waited (hw p' ch' l' h) with h1 | ⟨x, hx, hx2⟩ | h1
    · exact .inl h1
    · refine .inr (.inl ⟨(x.1, x.2 \ {ch}), ?_, hx2, ?_⟩)
      · rw [hx]
        rfl
      · rintro rfl
        exact hpast p' l' (hO.held p l' x hx).1 (hw p' ch' l' h)
    · exact .inr (.inr h1)

end

/-- the calls keep the rules, and the handlers leave invariants and reasons alone -/
structure Rules.Sound (R : Rules M) (code : Slot → κ → Code M Unit) : Prop where
  ok : ∀ k p pid, Ok R p pid (code p k) fun _ => none
  intr : ∀ l (a : M.Intr l) d, R.J l d → R.J l (M.intr a d)
  rest : ∀ l (a : M.Intr l) d, R.rest l d → R.rest l (M.intr a d)
  reason : ∀ l (a : M.Intr l) ch d, R.reason l ch d → R.reason l ch (M.intr a d)

theorem waiting_of_step (h : Wf c) (hs : Move code c (.step p) c') {u : Thread M}
    (hu : c.thread p = some u) (hpc : u.pc ≠ .sleepRelease) {p' : Slot}
    (hw : Waiting c' p' ch l) : Waiting c p' ch l := by
  rcases waiting_step h hs hw with hw | he
  · exact hw
  obtain ⟨k, hk⟩ := he.thread
  cases he.event
  rw [hu] at hk
  cases hk
  exact absurd rfl hpc

theorem okAt_of {u : Thread M} (hr : ¬ u.pc.Released)
    (hok : Ok R p pid u.code h) : OkAt R p pid u h := ⟨fun hr' => absurd hr' hr, fun _ => hok⟩

theorem okAt_sleep {k : Unit → Code M Unit} (hr : pc.Released) (hl : h l = none)
    (hok : ∀ d, R.J l d → R.rest l d → Ok R p pid (k ()) (update h l (some (d, ∅)))) :
    OkAt R p pid ⟨.act (.sleep ch l) k, pc⟩ h :=
  ⟨fun _ => ⟨ch, l, k, rfl, hl, hok⟩, fun hn => absurd hr hn⟩

theorem OkAt.sleep {k : Unit → Code M Unit}
    (hok : OkAt R p pid ⟨.act (.sleep ch l) k, pc⟩ h) (hr : pc.Released) :
    h l = none ∧ ∀ d, R.J l d → R.rest l d → Ok R p pid (k ()) (update h l (some (d, ∅))) := by
  obtain ⟨ch', l', k', e, h1, h2⟩ := hok.1 hr
  cases e
  exact ⟨h1, h2⟩

theorem owns_micro (hwf : Wf c) (hP : Passed c) (hO : Owns R c H) {o : Op M}
    {k : o.Res → Code M Unit} {r : Pc ⊕ o.Res} (hg : R.Guarded (κ := κ) c (.step p))
    (ht : c.thread p = some ⟨.act o k, pc⟩) (hm : Micro c.sys p o pc s r)
    (hmove : Move code c (.step p) (c.setThread s p (some (.after o k r)))) :
    ∃ H', Owns R (c.setThread s p (some (.after o k r))) H' := by
  have ha : At c.sys p (some o) pc := hwf.pos p _ ht
  have hok := hO.ok p _ ht
  have hk : ∀ q, q ≠ p → Keeps c.sys s q := fun q hq => hm.keeps ha hq
  have hw : pc ≠ .sleepRelease → ∀ p' ch l,
      Waiting (c.setThread s p (some (.after o k r))) p' ch l → Waiting c p' ch l :=
    fun hpc p' ch l h => waiting_of_step hwf hmove ht hpc h
  -- the process stays inside the operation, with its locks as they are
  have stay : pc ≠ .sleepRelease → s.data = c.sys.data →
      (∀ l, s.lock (.of l) = some p ↔ c.sys.lock (.of l) = some p) →
      OkAt R p (c.sys.proc p).pid (.after o k r) (H p) →
      ∃ H', Owns R (c.setThread s p (some (.after o k r))) H' := by
    intro hpc hd hl h
    refine ⟨H, hO.same hk hd hl (fun u hu => ?_) (by intro e; cases e) (hw hpc)⟩
    cases hu
    rwa [hm.pid p]
  have own : ∀ (q : Slot) (x : State M), x = c.sys.hold p (.proc q) ∨ x = c.sys.drop p (.proc q) →
      ∀ l, x.lock (.of l) = some p ↔ c.sys.lock (.of l) = some p := by
    rintro q x (rfl | rfl) l
    · rw [hold_of_ne _ _ of_ne_proc]
    · rw [drop_of_ne _ _ of_ne_proc]
  cases hm with
  | @acquire l hl =>
    have h : Ok R p _ (.act (.acquire l) k) (H p) := hok.2 id
    exact ⟨_, hO.take hl (okAt_of id (h _ (hO.J l) (hO.rest l hl))) (hw (by intro e; cases e))⟩
  | @release l hl =>
    have h : Ok R p _ (.act (.release l) k) (H p) := hok.2 id
    exact ⟨_, hO.leave hl h.1 (okAt_of id h.2)
      fun p' ch l' hw' => .inl (hw (by intro e; cases e) p' ch l' hw')⟩
  | @act l a =>
    have h : Ok R p _ (.act (.act l a) k) (H p) := hok.2 id
    obtain ⟨d, D, hx, h⟩ := h
    have hd : d = c.sys.data l := (hO.held p l _ hx).2
    subst hd
    have hop : c.op p = some (.act l a) := by
      rw [Config.op, ht]
      rfl
    obtain ⟨hJ, h⟩ := h (hg p l a rfl hop)
    exact ⟨_, hO.act hx hJ (okAt_of id h) (hw (by intro e; cases e))⟩
  | sleepCall hl | wakeupLock hq hl | killedCall hl | killLock hl =>
    exact stay (by intro e; cases e) rfl (own _ _ (.inl rfl)) (okAt_of id (hok.2 id))
  | @sleepRelease ch l hl =>
    have h : Ok R p _ (.act (.sleep ch l) k) (H p) := hok.2 id
    obtain ⟨⟨d, hx, hrest, hr⟩, h⟩ := h
    refine ⟨_, hO.leave hl ⟨d, hx, hrest⟩ (okAt_sleep trivial (update_self ..) ?_) ?_⟩
    · intro d' hd' hf
      rw [update_idem]
      exact h d' hd' hf
    intro p' ch' l' hw'
    rcases waiting_step hwf hmove hw' with hw' | he
    · exact .inl hw'
    obtain ⟨k', hk'⟩ := he.thread
    cases he.event
    rw [ht] at hk'
    cases hk'
    have hd : d = c.sys.data l := (hO.held p l _ hx).2
    rw [← hd]
    exact .inr hr
  | sleepChan | sleepState | sleepTidy =>
    have h := hok.sleep trivial
    exact stay (by intro e; cases e) rfl (fun _ => Iff.rfl) (okAt_sleep trivial h.1 h.2)
  | sleepSched hl hn | sleepUnlock hl =>
    have h := hok.sleep trivial
    exact stay (by intro e; cases e) rfl (own _ _ (.inr rfl)) (okAt_sleep trivial h.1 h.2)
  | @sleepAcquire ch l hl =>
    have h := hok.sleep trivial
    exact ⟨_, hO.take hl (okAt_of id (h.2 _ (hO.J l) (hO.rest l hl))) (hw (by intro e; cases e))⟩
  | wakeupCall | wakeupSkip | killedRead | killCall | killBody hq | killMiss hq =>
    exact stay (by intro e; cases e) rfl (fun _ => Iff.rfl) (okAt_of id (hok.2 id))
  | @wakeupEnd ch i hi =>
    have h : Ok R p _ (.act (.wakeup ch) k) (H p) := hok.2 id
    refine ⟨_, hO.paid (okAt_of id h) (hw (by intro e; cases e)) ?_⟩
    intro p' l' hl' hw'
    exact hP p _ ch l' p' ht rfl (show p'.val < i from lt_of_lt_of_le p'.isLt hi) hl' hw'
  | @wakeupBody ch q =>
    exact stay (by intro e; cases e) (wake_data ..) (fun l => by rw [wake_lock]) (okAt_of id (hok.2 id))
  | wakeupNext hl | killNext hl =>
    exact stay (by intro e; cases e) rfl (own _ _ (.inr rfl)) (okAt_of id (hok.2 id))
  | @killedUnlock b hl =>
    have h : Ok R p _ (.act .killed k) (H p) := hok.2 id
    exact stay (by intro e; cases e) rfl (own _ _ (.inr rfl)) (okAt_of id (h b))
  | @killEnd pid i hi =>
    have h : Ok R p _ (.act (.kill pid) k) (H p) := hok.2 id
    exact stay (by intro e; cases e) rfl (fun _ => Iff.rfl) (okAt_of id (h false))
  | @killFound pid q hl =>
    have h : Ok R p _ (.act (.kill pid) k) (H p) := hok.2 id
    exact stay (by intro e; cases e) rfl (own _ _ (.inr rfl)) (okAt_of id (h true))

theorem okAt_preempted {co : Code M Unit} (hc : pc.Calm) :
    OkAt R p pid ⟨co, .preempted pc⟩ h ↔ OkAt R p pid ⟨co, pc⟩ h := by
  have e : (Pc.preempted pc).Released ↔ pc.Released := by
    cases pc with
    | call | loop i | sleepAcquire => exact Iff.rfl
    | _ => exact absurd hc id
  unfold OkAt
  rw [e]

theorem owns_step (hR : R.Sound code) (hwf : Wf c) (hP : Passed c) (hO : Owns R c H)
    (hg : R.Guarded c e) (hs : Move code c e c') : ∃ H', Owns R c' H' := by
  have hw : (∀ p, e ≠ .step p) → ∀ p' ch l, Waiting c' p' ch l → Waiting c p' ch l := by
    intro he p' ch l hw
    rcases waiting_step hwf hs hw with hw | hE
    · exact hw
    · exact absurd hE.event (he p')
  cases hs with
  | @start p k ht hr =>
    refine ⟨H, hO.same (fun q _ => Keeps.refl _ q) rfl (fun _ => Iff.rfl) ?_ (by intro e; cases e)
      (hw (by intro p e; cases e))⟩
    intro u hu
    cases hu
    rw [funext (hO.idle p ht)]
    exact okAt_of id (hR.ok k p _)
  | @ret p u pc ht =>
    have hok := hO.ok p _ ht
    have hnr : ¬ pc.Released := by
      intro hr
      obtain ⟨ch, l, k, e, -⟩ := hok.1 hr
      cases e
    have hmove : Move code c (.step p) (c.setThread c.sys p none) := .ret ht
    refine ⟨H, hO.same (fun q _ => Keeps.refl _ q) rfl (fun _ => Iff.rfl) (by intro u e; cases e)
      (fun _ => hok.2 hnr) ?_⟩
    intro p' ch l hw'
    rcases waiting_step hwf hmove hw' with hw' | he
    · exact hw'
    · obtain ⟨k, hk⟩ := he.thread
      cases he.event
      rw [ht] at hk
      cases hk
  | micro ht hm =>
    have move : Move code c _ _ := .micro ht hm
    exact owns_micro hwf hP hO hg ht hm move
  | @preempt p hr hn hl =>
    refine ⟨H, hO.same (fun q hq => keeps_setProc hq) rfl (fun _ => Iff.rfl) ?_ ?_
      (hw (by intro p e; cases e))⟩
    · intro u hu
      obtain ⟨t, ht, rfl⟩ := map_eq_some_iff.mp hu
      have hcalm := (hwf.pos p t ht).calm hr ((hwf.counted p).not_held hn)
      rw [setProc_self]
      exact (okAt_preempted hcalm).mpr (hO.ok p t ht)
    · intro hn
      exact hO.idle p (map_eq_none_iff.mp hn)
  | @enter p hr hl ht =>
    have h : Owns R (c.setThread (c.sys.setProc p { c.sys.proc p with state := .RUNNING }) p none) H := by
      refine hO.same (fun q hq => keeps_setProc hq) rfl (fun _ => Iff.rfl) (by intro u e; cases e)
        (fun _ => hO.idle p ht) ?_
      rw [Config.setThread, ← ht, update_eq_self]
      exact hw (by intro p e; cases e)
    rw [Config.setThread, ← ht, update_eq_self] at h
    exact ⟨H, h⟩
  | @wake p code' hr hl ht =>
    have hok := hO.ok p _ ht
    refine ⟨H, hO.same (fun q hq => keeps_switch hl hq) rfl (fun l => ?_) ?_ (by intro e; cases e)
      (hw (by intro p e; cases e))⟩
    · rw [hold_of_ne _ _ of_ne_proc]
      rfl
    intro u hu
    cases hu
    show OkAt R p ((c.sys.setProc p _).proc p).pid _ _
    rw [setProc_self]
    obtain ⟨ch, l, k, rfl, h1, h2⟩ := hok.1 trivial
    exact okAt_sleep trivial h1 h2
  | @resume p code' pc hr hl ht =>
    refine ⟨H, hO.same (fun q hq => keeps_setProc hq) rfl (fun _ => Iff.rfl) ?_ (by intro e; cases e)
      (hw (by intro p e; cases e))⟩
    intro u hu
    cases hu
    rw [setProc_self]
    exact (okAt_preempted (hwf.pos p _ ht).2.2).mp (hO.ok p _ ht)
  | @interrupt l a hl =>
    have hd : ∀ l', l' ≠ l →
        update c.sys.data l (M.intr a (c.sys.data l)) l' = c.sys.data l' :=
      fun l' hne => update_of_ne hne _ _
    refine ⟨H, hO.sys (fun _ => rfl) ?_ ?_ ?_ (fun _ _ => rfl) ?_ (hw (by intro p e; cases e))⟩
    · intro l'
      show R.J l' (update c.sys.data l (M.intr a (c.sys.data l)) l')
      by_cases e : l' = l
      · subst e
        rw [update_self]
        exact hR.intr l' a _ (hO.J l')
      · rw [hd l' e]
        exact hO.J l'
    · intro l' hl'
      show R.rest l' (update c.sys.data l (M.intr a (c.sys.data l)) l')
      by_cases e : l' = l
      · subst e
        rw [update_self]
        exact hR.rest l' a _ (hO.rest l' hl')
      · rw [hd l' e]
        exact hO.rest l' hl'
    · intro l' q hq
      refine hd l' ?_
      rintro rfl
      rw [hl] at hq
      cases hq
    · intro l' ch h
      show R.reason l' ch (update c.sys.data l (M.intr a (c.sys.data l)) l')
      by_cases e : l' = l
      · subst e
        rw [update_self]
        exact hR.reason l' a ch _ h
      · rwa [hd l' e]
  | @signal ch q hl =>
    refine ⟨H, hO.sys (fun l => by rw [wake_lock]) (by rw [wake_data]; exact hO.J)
      (by rw [wake_data]; exact hO.rest) (fun l p _ => by rw [wake_data]) (fun p _ => ?_)
      (by rw [wake_data]; exact fun _ _ h => h) (hw (by intro p e; cases e))⟩
    have keeps : Keeps c.sys (c.sys.wake q ch) p := keeps_wake (by rw [hl]; intro e; cases e)
    exact keeps.pid
  | @turnover p x ht hl hx =>
    refine ⟨H, hO.sys (fun _ => rfl) hO.J hO.rest (fun _ _ _ => rfl) (fun q hq => ?_) (fun _ _ h => h)
      (hw (by intro p e; cases e))⟩
    have hne : q ≠ p := by
      rintro rfl
      exact hq ht
    rw [setProc_of_ne c.sys x hne]

/-! ## runs -/

theorem Config.Fresh.not_waiting (h : c.Fresh) : ¬ Waiting c p ch l := by
  rintro ⟨t, ht, -⟩
  rw [h.idle p] at ht
  cases ht

theorem Config.Fresh.owns (h : c.Fresh) (hJ : ∀ l, R.J l (c.sys.data l))
    (hf : ∀ l, R.rest l (c.sys.data l)) :
    Owns R c fun _ _ => none := by
  refine ⟨hJ, fun l _ => hf l, fun p l x e => ?_, fun p l hl => ?_, fun p t ht => ?_, fun _ _ _ => rfl,
    fun p ch l hw => ?_⟩
  · cases e
  · rw [h.free] at hl
    cases hl
  · rw [h.idle p] at ht
    cases ht
  · exact absurd hw h.not_waiting

/-- every process sleeps on a channel that has a reason under its lock -/
def Paired (R : Rules M) (c : Config M) : Prop :=
  ∀ p ch l, Waiting c p ch l → ∃ d, R.reason l ch d

theorem paired_step (hwf : Wf c) (hO : Owns R c H) (hp : Paired R c) (hs : Move code c e c') :
    Paired R c' := by
  intro p ch l hw
  rcases waiting_step hwf hs hw with hw | he
  · exact hp p ch l hw
  · obtain ⟨k, hk⟩ := he.thread
    have h : Ok R p _ (.act (.sleep ch l) k) (H p) := (hO.ok p _ hk).2 id
    obtain ⟨⟨d, -, -, hr⟩, -⟩ := h
    exact ⟨d, hr⟩

theorem owns_run {c0 : Config M} {es : List (Event M κ)} (hR : R.Sound code) (h0 : c0.Fresh)
    (hJ : ∀ l, R.J l (c0.sys.data l)) (hf : ∀ l, R.rest l (c0.sys.data l))
    (hg : Along (step code) R.Guarded c0 es)
    (hx : exec (step code) c0 es = .next c) : Wf c ∧ Paired R c ∧ ∃ H, Owns R c H := by
  have h := exec_inv (fun c => Wf c ∧ Passed c ∧ Paired R c ∧ ∃ H, Owns R c H) ?_
    ⟨h0.wf, h0.passed, fun _ _ _ hw => absurd hw h0.not_waiting, _, h0.owns hJ hf⟩ hg hx
  · exact ⟨h.1, h.2.2⟩
  · rintro c e c' ⟨hwf, hP, hp, H, hO⟩ hge hs
    have hm := step_cases hs
    exact ⟨wf_step hwf hm, passed_step hwf hP hm, paired_step hwf hO hp hm,
      owns_step hR hwf hP hO hge hm⟩

theorem Wf.waiting (h : Wf c) (hs : (c.sys.proc p).state = .SLEEPING) :
    ∃ ch l, (c.sys.proc p).chan = some ch ∧ Waiting c p ch l := by
  cases ht : c.thread p with
  | none => exact absurd hs (h.idle p ht)
  | some t =>
    have ha := h.pos p t ht
    obtain ⟨co, pc⟩ := t
    cases pc with
    | sleepSched =>
      obtain ⟨-, -, ch, l, ho, hc⟩ := ha
      exact ⟨ch, l, hc, _, ht, ho, .inl trivial⟩
    | asleep =>
      obtain ⟨-, -, ch, l, ho, hc⟩ := ha
      exact ⟨ch, l, hc, _, ht, ho, .inr ⟨rfl, hs⟩⟩
    | call | loop i | sleepAcquire => cases hs.symm.trans ha
    | _ => cases hs.symm.trans ha.1

/-- **Who sleeps has the reason for it,** while the lock is free; and the data always keep their
invariant. -/
theorem monitor_run {c0 : Config M} {es : List (Event M κ)} (hR : R.Sound code) (h0 : c0.Fresh)
    (hJ : ∀ l, R.J l (c0.sys.data l)) (hf : ∀ l, R.rest l (c0.sys.data l))
    (hg : Along (step code) R.Guarded c0 es)
    (hx : exec (step code) c0 es = .next c) :
    (∀ l, R.J l (c.sys.data l)) ∧ (∀ l, c.sys.lock (.of l) = none → R.rest l (c.sys.data l)) ∧
      ∀ p, (c.sys.proc p).state = .SLEEPING → ∃ ch l, (c.sys.proc p).chan = some ch ∧
        (∃ d, R.reason l ch d) ∧ (c.sys.lock (.of l) = none → R.reason l ch (c.sys.data l)) := by
  obtain ⟨hwf, hp, H, hO⟩ := owns_run hR h0 hJ hf hg hx
  refine ⟨hO.J, hO.rest, fun p hs => ?_⟩
  obtain ⟨ch, l, hc, hw⟩ := hwf.waiting hs
  refine ⟨ch, l, hc, hp p ch l hw, fun hl => ?_⟩
  rcases hO.reason p ch l hw with h | ⟨q, x, hx', -⟩
  · exact h
  · rw [(hO.held q l x hx').1] at hl
    cases hl

/-! ## programs with one lock at a time -/

/-- the lock `l` alone -/
def one (l : M.Lk) (d : M.Data l) (D : Set M.Chan) : Held M :=
  Function.update (fun _ => none) l (some (d, D))

section
variable {pid : Int} {l : M.Lk} {d : M.Data l} {D : Set M.Chan} {ch : M.Chan}

theorem one_self : one l d D l = some (d, D) := update_self ..

theorem update_one (x : Option (M.Data l × Set M.Chan)) :
    update (one l d D) l x = update (fun _ => none : Held M) l x :=
  update_idem ..

theorem one_map : (fun l' => (one l d D l').map fun x => (x.1, x.2 \ {ch})) = one l d (D \ {ch}) := by
  funext l'
  by_cases e : l' = l
  · subst e
    rw [one_self, one_self]
    rfl
  · rw [one, one, update_of_ne e, update_of_ne e]
    rfl

variable {g : Unit → Code M Unit}

theorem ok_acquire (h : ∀ d, R.J l d → R.rest l d → Ok R p pid (g ()) (one l d ∅)) :
    Ok R p pid ((acquire l).bind g) fun _ => none := h

theorem ok_release (hD : D = ∅) (hf : R.rest l d) (h : Ok R p pid (g ()) fun _ => none) :
    Ok R p pid ((release l).bind g) (one l d D) := by
  subst hD
  refine ⟨⟨d, one_self, hf⟩, ?_⟩
  rwa [update_one, update_eq_self_iff.mpr rfl]

theorem ok_act {a : M.Act l} {g : M.Ans a → Code M Unit}
    (h : R.guard l a p d → R.J l (M.eff a p pid d).2 ∧ Ok R p pid (g (M.eff a p pid d).1)
      (one l (M.eff a p pid d).2 (D ∪ R.ended l d (M.eff a p pid d).2))) :
    Ok R p pid ((work l a).bind g) (one l d D) := by
  refine ⟨d, D, one_self, fun hg => ⟨(h hg).1, ?_⟩⟩
  rw [update_one]
  exact (h hg).2

theorem ended_self : R.ended l d d = ∅ := by
  ext ch
  exact ⟨fun h => absurd h.1 h.2, fun h => absurd h (Set.notMem_empty ch)⟩

theorem ok_read {a : M.Act l} {g : M.Ans a → Code M Unit} (he : (M.eff a p pid d).2 = d)
    (hJ : R.J l d) (h : R.guard l a p d → Ok R p pid (g (M.eff a p pid d).1) (one l d D)) :
    Ok R p pid ((work l a).bind g) (one l d D) := by
  refine ok_act fun hg => ?_
  rw [he, ended_self, Set.union_empty]
  exact ⟨hJ, h hg⟩

theorem ok_killed {g : Bool → Code M Unit} {H : Held M} (h : ∀ b, Ok R p pid (g b) H) :
    Ok R p pid (killed.bind g) H := h

theorem ok_kill {g : Bool → Code M Unit} {H : Held M} {v : Int} (h : ∀ b, Ok R p pid (g b) H) :
    Ok R p pid ((kill v).bind g) H := h

theorem ok_sleep (hD : D = ∅) (hf : R.rest l d) (hr : R.reason l ch d)
    (h : ∀ d, R.J l d → R.rest l d → Ok R p pid (g ()) (one l d ∅)) :
    Ok R p pid ((sleep ch l).bind g) (one l d D) := by
  subst hD
  refine ⟨⟨d, one_self, hf, hr⟩, fun d' hd' hf' => ?_⟩
  rw [update_one]
  exact h d' hd' hf'

theorem ok_wakeup (h : Ok R p pid (g ()) (one l d (D \ {ch}))) :
    Ok R p pid ((wakeup ch).bind g) (one l d D) := by
  show Ok R p pid (g ()) fun l' => (one l d D l').map fun x => (x.1, x.2 \ {ch})
  rwa [one_map]

end

end Sync
