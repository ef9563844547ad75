import Xv6.Family.Steps

/-!
# Families in every reachable state

* `Tree`        the kin of all slots: who is free has no parent, parents are alive, and nobody but
                `init` is without one;
* `Placed`      what the position of a process in `fork` or `exit` says about them;
* `Inv`         both, and who has `wait_lock`;
* `inv_run`     `Inv` in every reachable state.
-/

namespace Family
open Run Function Option
open Sched (NPROC Slot ProcState slot0)

structure Tree (k : Slot → Kin) : Prop where
  first : (k slot0).kind = .live
  free : ∀ q, (k q).kind = .free → (k q).parent = none ∧ (k q).pid = 0
  parent : ∀ q p, (k q).parent = some p → (k p).kind = .live
  adopted : ∀ q, q ≠ slot0 → (k q).kind = .live ∨ (k q).kind = .dead → (k q).parent ≠ none

structure Placed (k : Slot → Kin) (p : Slot) (a : Pc) : Prop where
  child : ∀ q, a.child = some q → (k q).kind = .embryo
  setParent : ∀ q pid, a = .setParent q pid → (k q).parent = none
  setRunnable : ∀ q pid, a = .setRunnable q pid → (k q).parent = some p
  past : ∀ j : Slot, a.Past j → (k j).parent ≠ some p
  exiting : a.exiting = true → p ≠ slot0
  busy : a.busy = true → (k p).kind = .live

structure Inv (s : State) : Prop where
  tree : Tree s.kin
  placed : ∀ p, Placed s.kin p (s.pc p)
  alone : ∀ p p' q, (s.pc p).child = some q → (s.pc p').child = some q → p = p'
  lock : ∀ p, (s.pc p).locks = true → s.waitLock = some p

/-! ## one slot changes -/

section
variable {k k' : Slot → Kin} {p q r : Slot} {a b : Pc}

theorem tree_update (h : Tree k) (hk : ∀ t, t ≠ q → k' t = k t)
    (hlive : (k q).kind = .live → (k' q).kind = .live ∨ q ≠ slot0 ∧ ∀ t, (k' t).parent ≠ some q)
    (hfree : (k' q).kind = .free → (k' q).parent = none ∧ (k' q).pid = 0)
    (hpar : ∀ t, (k' q).parent = some t → (k' t).kind = .live)
    (hado : (k' q).kind = .live ∨ (k' q).kind = .dead → q ≠ slot0 → (k' q).parent ≠ none) :
    Tree k' := by
  refine ⟨?_, fun t ht => ?_, fun t u hu => ?_, fun t ht hl => ?_⟩
  · by_cases e : slot0 = q
    · rcases hlive (e ▸ h.first) with hl | hn
      · exact e ▸ hl
      · exact absurd e.symm hn.1
    · rw [hk slot0 e]
      exact h.first
  · by_cases e : t = q
    · exact e ▸ hfree (e ▸ ht)
    · rw [hk t e] at ht ⊢
      exact h.free t ht
  · by_cases e : t = q
    · exact hpar u (e ▸ hu)
    have hu0 := hu
    rw [hk t e] at hu0
    have old := h.parent t u hu0
    by_cases e' : u = q
    · rcases hlive (e' ▸ old) with hl | hn
      · exact e' ▸ hl
      · exact absurd (e' ▸ hu) (hn.2 t)
    · rwa [hk u e']
  · by_cases e : t = q
    · exact e ▸ hado (e ▸ hl) (e ▸ ht)
    · rw [hk t e] at hl ⊢
      exact h.adopted t ht hl

theorem placed_update (h : Placed k r a) (hk : ∀ t, t ≠ q → k' t = k t) (hc : a.child ≠ some q)
    (hp : a.Past q → (k' q).parent ≠ some r)
    (hb : r = q → a.busy = true → (k' q).kind = .live) : Placed k' r a := by
  refine ⟨fun t ht => ?_, fun t pid ht => ?_, fun t pid ht => ?_, fun j hj => ?_, h.exiting,
    fun e => ?_⟩
  · rw [hk t fun e => hc (e ▸ ht)]
    exact h.child t ht
  · rw [hk t fun e => hc (by rw [ht, ← e]; rfl)]
    exact h.setParent t pid ht
  · rw [hk t fun e => hc (by rw [ht, ← e]; rfl)]
    exact h.setRunnable t pid ht
  · by_cases e : j = q
    · subst e
      exact hp hj
    · rw [hk j e]
      exact h.past j hj
  · by_cases e' : r = q
    · rw [e']
      exact hb e' e
    · rw [hk r e']
      exact h.busy e

theorem placed_idle (k : Slot → Kin) (p : Slot) (h : a.busy = false) : Placed k p a := by
  refine ⟨fun q e => ?_, fun q pid e => ?_, fun q pid e => ?_, fun j e => ?_, fun e => ?_,
    fun e => absurd (h.symm.trans e) Bool.false_ne_true⟩
  · cases a <;> first | cases h; done | cases e
  · cases e
    cases h
  · cases e
    cases h
  · cases a <;> first | cases h; done | exact absurd e id
  · cases a <;> first | cases h; done | cases e

theorem placed_slides {s : State} (h : Placed s.kin p a) (hs : Slides s p a b) :
    Placed s.kin p b := by
  rcases hs.child with hc | rfl
  · refine ⟨?_, ?_, ?_, fun j hj => ?_, fun e => ?_, fun e => ?_⟩
    · intro t ht
      rw [hc] at ht
      cases ht
    · rintro t pid rfl
      cases hc
    · rintro t pid rfl
      cases hc
    · exact (hs.past j hj).elim (h.past j) id
    · exact (hs.exiting e).elim h.exiting id
    · exact (hs.live e).elim h.busy id
  · exact h

end

/-! ## steps -/

section
variable {s s' : State} {p q : Slot} {b : Pc}

theorem lock_step (h : ∀ r, (s.pc r).locks = true → s.waitLock = some r)
    (hpc : ∀ t, t ≠ p → s'.pc t = s.pc t ∨ s'.pc t = .user) (hb : s'.pc p = b)
    (hl : Locks s s' p (s.pc p) b) (r : Slot) (hr : (s'.pc r).locks = true) :
    s'.waitLock = some r := by
  by_cases e : r = p
  · subst e
    rw [hb] at hr
    rcases hl with ⟨hw, hl⟩ | ⟨-, hw⟩ | ⟨-, -, hl⟩
    · rw [hw]
      exact h r (hl ▸ hr)
    · exact hw
    · exact absurd (hl.symm.trans hr) Bool.false_ne_true
  · have old : s.waitLock = some r := by
      rcases hpc r e with hs | hu
      · exact h r (hs ▸ hr)
      · rw [hu] at hr
        cases hr
    rcases hl with ⟨hw, -⟩ | ⟨hw, -⟩ | ⟨hl, -, -⟩
    · rwa [hw]
    · exact absurd (hw.symm.trans old) (by intro h; cases h)
    · exact absurd (some.inj (old.symm.trans (h p hl))) e

theorem inv_calm (hI : Inv s) (h : Calm s s' p) : Inv s' := by
  have hk : s'.kin = s.kin := funext h.kin
  have hchild : ∀ r t, (s'.pc r).child = some t → (s.pc r).child = some t := by
    intro r t ht
    by_cases e : r = p
    · subst e
      rcases h.slides.child with hc | he
      · exact absurd (hc.symm.trans ht) (by intro h; cases h)
      · rwa [he] at ht
    · rwa [h.pc r e] at ht
  refine ⟨hk ▸ hI.tree, fun r => ?_, fun r r' t hr hr' => ?_, ?_⟩
  · rw [hk]
    by_cases e : r = p
    · subst e
      exact placed_slides (hI.placed r) h.slides
    · rw [h.pc r e]
      exact hI.placed r
  · exact hI.alone r r' t (hchild r t hr) (hchild r' t hr')
  · exact lock_step hI.lock (fun t e => .inl (h.pc t e)) rfl h.locks

theorem kin_self {x : Proc} (h : s'.proc = update s.proc q x) : s'.kin q = x.kin := by
  rw [State.kin, h, update_self]

theorem kin_of_ne {x : Proc} (h : s'.proc = update s.proc q x) (t : Slot) (ht : t ≠ q) :
    s'.kin t = s.kin t := by
  rw [State.kin, h, update_of_ne ht]
  rfl

/-- the process `p` writes the slot `q` and goes to the position `b` -/
theorem inv_write {x : Proc} (hI : Inv s) (hx : s'.proc = update s.proc q x)
    (hpc : ∀ t, t ≠ p → s'.pc t = s.pc t ∨ s'.pc t = .user) (hb : s'.pc p = b)
    (hl : Locks s s' p (s.pc p) b) (tree : Tree s'.kin) (hp : Placed s'.kin p b)
    (hnew : b.child = none ∨ b.child = some q) (hold : ∀ t, t ≠ p → (s.pc t).child ≠ some q)
    (hpast : ∀ t, t ≠ p → (s.pc t).Past q → x.parent ≠ some t)
    (hbusy : q ≠ p → (s.kin q).kind = .live → kind x.state = .live) : Inv s' := by
  have hchild : ∀ r t, r ≠ p → (s'.pc r).child = some t → (s.pc r).child = some t := by
    intro r t e ht
    rcases hpc r e with h | h
    · rwa [h] at ht
    · rw [h] at ht
      cases ht
  have hother : ∀ r t, r ≠ p → (s'.pc r).child = some t → b.child ≠ some t := by
    intro r t e ht h
    rcases hnew with hn | hn
    · exact absurd (hn.symm.trans h) (by intro h; cases h)
    · rw [hn] at h
      cases h
      exact hold r e (hchild r q e ht)
  refine ⟨tree, fun r => ?_, fun r r' t hr hr' => ?_, lock_step hI.lock hpc hb hl⟩
  · by_cases e : r = p
    · subst e
      rwa [hb]
    rcases hpc r e with h | h
    · rw [h]
      apply placed_update (hI.placed r) (kin_of_ne hx) (hold r e)
      · rw [kin_self hx]
        exact hpast r e
      · intro hr hbs
        rw [kin_self hx]
        exact hbusy (hr ▸ e) (hr ▸ (hI.placed r).busy hbs)
    · rw [h]
      exact placed_idle _ _ rfl
  · by_cases e : r = p <;> by_cases e' : r' = p
    · rw [e, e']
    · rw [e, hb] at hr
      exact absurd hr (hother r' t e' hr')
    · rw [e', hb] at hr'
      exact absurd hr' (hother r t e hr)
    · exact hI.alone r r' t (hchild r t e hr) (hchild r' t e' hr')

theorem child_ne (hI : Inv s) (h : (s.kin q).kind ≠ .embryo) (t : Slot) : (s.pc t).child ≠ some q :=
  fun e => h ((hI.placed t).child q e)

theorem kind_eq {k : Kind} {st : ProcState} (h : (s.proc q).state = st) (hk : kind st = k) :
    (s.kin q).kind = k := by
  show kind (s.proc q).state = k
  rw [h, hk]

theorem pc_update (p : Slot) (b : Pc) (t : Slot) (ht : t ≠ p) :
    update s.pc p b t = s.pc t ∨ update s.pc p b t = .user :=
  .inl (update_of_ne ht _ _)

theorem inv_allocproc {x : Proc} (hI : Inv s) (hp : (s.proc p).state = .RUNNING)
    (hl : (s.pc p).locks = false) (hbl : b.locks = false) (hq : (s.proc q).state = .UNUSED)
    (hx : s'.proc = update s.proc q x)
    (hpc : s'.pc = update (update s.pc q .user) p b)
    (hw : s'.waitLock = s.waitLock) (hpar : x.parent = none)
    (hk : kind x.state = .embryo ∧ b = .setParent q x.pid ∨
      kind x.state = .free ∧ x.pid = 0 ∧ b = .user) : Inv s' := by
  have live := kin_live hp
  have hfree : (s.kin q).kind = .free := kind_eq hq rfl
  have hne : p ≠ q := by
    intro e
    rw [e, hfree] at live
    cases live
  have hemb : (s.kin q).kind ≠ .embryo := by
    rw [hfree]
    intro h
    cases h
  have hnl : (s.kin q).kind ≠ .live := by
    rw [hfree]
    intro h
    cases h
  apply inv_write hI hx
  · intro t e
    rw [hpc, update_of_ne e]
    by_cases e' : t = q
    · rw [e', update_self]
      exact .inr rfl
    · exact .inl (update_of_ne e' _ _)
  · rw [hpc, update_self]
  · exact .inl ⟨hw, hbl.trans hl.symm⟩
  · apply tree_update hI.tree (kin_of_ne hx)
    · exact fun h => absurd h hnl
    all_goals rw [kin_self hx]
    · intro h
      refine ⟨hpar, ?_⟩
      rcases hk with ⟨hk, -⟩ | ⟨-, hk, -⟩
      · exact absurd (hk.symm.trans h) (by intro h; cases h)
      · exact hk
    · exact fun t h => absurd (hpar.symm.trans h) (by intro h; cases h)
    · intro h
      rcases hk with ⟨hk, -⟩ | ⟨hk, -⟩
      · rcases h with h | h <;> exact absurd (hk.symm.trans h) (by intro h; cases h)
      · rcases h with h | h <;> exact absurd (hk.symm.trans h) (by intro h; cases h)
  · rcases hk with ⟨hk, rfl⟩ | ⟨-, -, rfl⟩
    · refine ⟨fun t ht => ?_, fun t pid ht => ?_, ?_, fun j h => absurd h id, ?_, fun _ => ?_⟩
      · cases ht
        rwa [kin_self hx]
      · cases ht
        rwa [kin_self hx]
      · intro t pid ht
        cases ht
      · intro h
        cases h
      · rwa [kin_of_ne hx p hne]
    · exact placed_idle _ _ rfl
  · rcases hk with ⟨-, rfl⟩ | ⟨-, -, rfl⟩
    · exact .inr rfl
    · exact .inl rfl
  · exact fun t _ => child_ne hI hemb t
  · rw [hpar]
    intro t _ _ h
    cases h
  · exact fun _ h => absurd h hnl

theorem child_alone (hI : Inv s) (h : (s.pc p).child = some q) (t : Slot) (ht : t ≠ p) :
    (s.pc t).child ≠ some q :=
  fun e => ht (hI.alone t p q e h)

theorem inv_setParent {pid : Word} (hI : Inv s) (hp : (s.proc p).state = .RUNNING)
    (hpc : s.pc p = .setParent q pid) :
    Inv ((s.setProc q { s.proc q with parent := some p }).goto p (.setRunnable q pid)) := by
  have live := kin_live hp
  have hc : (s.pc p).child = some q := by rw [hpc]; rfl
  have hemb : kind (s.proc q).state = .embryo := (hI.placed p).child q hc
  have hne : p ≠ q := by
    intro e
    exact absurd (live.symm.trans (e ▸ hemb)) (by intro h; cases h)
  have hx : ((s.setProc q { s.proc q with parent := some p }).goto p (.setRunnable q pid)).proc
      = update s.proc q { s.proc q with parent := some p } := rfl
  apply inv_write hI hx (pc_update p _) (update_self ..)
  · exact .inl ⟨rfl, by rw [hpc]; rfl⟩
  · apply tree_update hI.tree (kin_of_ne hx)
    · exact fun h => absurd (hemb.symm.trans h) (by intro h; cases h)
    · rw [kin_self hx]
      exact fun h => absurd (hemb.symm.trans h) (by intro h; cases h)
    · rw [kin_self hx]
      intro t ht
      cases ht
      rwa [kin_of_ne hx p hne]
    · rw [kin_self hx]
      intro _ _ h
      cases h
  · refine ⟨fun t ht => ?_, ?_, fun t pid ht => ?_, fun j h => absurd h id, ?_, fun _ => ?_⟩
    · cases ht
      rwa [kin_self hx]
    · intro t pid ht
      cases ht
    · cases ht
      rw [kin_self hx]
      rfl
    · intro h
      cases h
    · rwa [kin_of_ne hx p hne]
  · exact .inr rfl
  · exact child_alone hI hc
  · intro t e _ h
    cases h
    exact e rfl
  · exact fun _ h => absurd (hemb.symm.trans h) (by intro h; cases h)

theorem inv_setRunnable {pid : Word} (hI : Inv s) (hpc : s.pc p = .setRunnable q pid) :
    Inv ((s.setProc q { s.proc q with state := .RUNNABLE }).return p pid) := by
  have hc : (s.pc p).child = some q := by rw [hpc]; rfl
  have hpar : (s.proc q).parent = some p := (hI.placed p).setRunnable q pid hpc
  have hx : ((s.setProc q { s.proc q with state := .RUNNABLE }).return p pid).proc
      = update s.proc q { s.proc q with state := .RUNNABLE } := rfl
  apply inv_write hI hx (pc_update p _) (update_self ..)
  · exact .inl ⟨rfl, by rw [hpc]; rfl⟩
  · have self : ((s.setProc q { s.proc q with state := .RUNNABLE }).return p pid).kin q
        = ⟨.live, (s.proc q).parent, (s.proc q).pid, (s.proc q).xstate⟩ := kin_self hx
    apply tree_update hI.tree (kin_of_ne hx)
    · intro _
      left
      rw [self]
    · rw [self]
      intro h
      cases h
    · rw [self]
      intro t ht
      by_cases e : t = q
      · rw [e, self]
      · rw [kin_of_ne hx t e]
        exact hI.tree.parent q t ht
    · rw [self]
      exact fun _ _ h => absurd (hpar.symm.trans h) (by intro h; cases h)
  · exact placed_idle _ _ rfl
  · exact .inl rfl
  · exact child_alone hI hc
  · exact fun t _ h => (hI.placed t).past q h
  · exact fun _ _ => rfl

theorem inv_adopt {status : Word} (hI : Inv s) (hp : (s.proc p).state = .RUNNING)
    (hpc : s.pc p = .reparent q.val status) (hpar : (s.proc q).parent = some p) :
    Inv ((s.setProc q { s.proc q with parent := some slot0 }).goto p
      (.reparentWake q.val 0 status)) := by
  have live := kin_live hp
  have hex : p ≠ slot0 := (hI.placed p).exiting (by rw [hpc]; rfl)
  have hx : ((s.setProc q { s.proc q with parent := some slot0 }).goto p
      (.reparentWake q.val 0 status)).proc
      = update s.proc q { s.proc q with parent := some slot0 } := rfl
  have hkind : ∀ t, (((s.setProc q { s.proc q with parent := some slot0 }).goto p
      (.reparentWake q.val 0 status)).kin t).kind = (s.kin t).kind := by
    intro t
    by_cases e : t = q
    · rw [e, kin_self hx]
      rfl
    · rw [kin_of_ne hx t e]
  apply inv_write hI hx (pc_update p _) (update_self ..)
  · exact .inl ⟨rfl, by rw [hpc]; rfl⟩
  · apply tree_update hI.tree (kin_of_ne hx)
    · intro h
      left
      rwa [hkind]
    · rw [hkind]
      intro h
      exact absurd (hpar.symm.trans (hI.tree.free q h).1) (by intro h; cases h)
    · rw [kin_self hx]
      intro t ht
      cases ht
      rw [hkind]
      exact hI.tree.first
    · rw [kin_self hx]
      intro _ _ h
      cases h
  · refine ⟨?_, ?_, ?_, fun j hj => ?_, fun _ => hex, fun _ => ?_⟩
    · intro t ht
      cases ht
    · intro t pid ht
      cases ht
    · intro t pid ht
      cases ht
    · by_cases e : j = q
      · rw [e, kin_self hx]
        intro h
        exact hex (some.inj h).symm
      · rw [kin_of_ne hx j e]
        apply (hI.placed p).past j
        rw [hpc]
        exact Nat.lt_of_le_of_ne hj fun h => e (Fin.ext h)
    · rwa [hkind]
  · exact .inl rfl
  · intro t ht e
    cases hc : s.pc t with
    | setParent u pid =>
      rw [hc] at e
      cases e
      exact absurd (hpar.symm.trans ((hI.placed t).setParent _ pid hc)) (by intro h; cases h)
    | setRunnable u pid =>
      rw [hc] at e
      cases e
      exact ht (some.inj (hpar.symm.trans ((hI.placed t).setRunnable _ pid hc))).symm
    | _ =>
      rw [hc] at e
      cases e
  · intro t _ h e
    have := some.inj e
    apply (hI.placed t).exiting ?_ this.symm
    cases hc : s.pc t <;> rw [hc] at h <;> first | rfl | exact absurd h id
  · exact fun _ h => h

theorem inv_die {status : Word} (hI : Inv s) (hp : (s.proc p).state = .RUNNING)
    (hpc : s.pc p = .exitZombie status) : Inv (s.die p status) := by
  have live := kin_live hp
  have hex : p ≠ slot0 := (hI.placed p).exiting (by rw [hpc]; rfl)
  have hx : (s.die p status).proc
      = update s.proc p { s.proc p with xstate := status, state := .ZOMBIE } := rfl
  have self : (s.die p status).kin p = ⟨.dead, (s.proc p).parent, (s.proc p).pid, status⟩ := kin_self hx
  have hpar : ∀ t, ((s.die p status).kin t).parent = (s.kin t).parent := by
    intro t
    by_cases e : t = p
    · rw [e, self]
      rfl
    · rw [kin_of_ne hx t e]
  have hpast : ∀ t, (s.kin t).parent ≠ some p :=
    fun t => (hI.placed p).past t (by rw [hpc]; exact trivial)
  apply inv_write hI hx (pc_update p _) (update_self ..)
  · exact .inr (.inr ⟨by rw [hpc]; rfl, rfl, rfl⟩)
  · apply tree_update hI.tree (kin_of_ne hx)
    · intro _
      right
      exact ⟨hex, fun t => by rw [hpar]; exact hpast t⟩
    · rw [self]
      intro h
      cases h
    · intro t ht
      rw [hpar] at ht
      have e : t ≠ p := fun e => hpast p (e ▸ ht)
      rw [kin_of_ne hx t e]
      exact hI.tree.parent p t ht
    · rw [hpar]
      exact fun _ h => hI.tree.adopted p h (.inl live)
  · exact placed_idle _ _ rfl
  · exact .inl rfl
  · exact fun t _ => child_ne hI (by rw [live]; intro h; cases h) t
  · exact fun t _ h => (hI.placed t).past p h
  · exact fun h => absurd rfl h

theorem inv_reap {havekids : Bool} (hI : Inv s) (hpc : s.pc p = .waitScan q.val havekids)
    (hz : (s.proc q).state = .ZOMBIE) : Inv (s.reap p q) := by
  have dead : (s.kin q).kind = .dead := kind_eq hz rfl
  have hx : (s.reap p q).proc = update s.proc q (freed (s.proc q)) := rfl
  have self : (s.reap p q).kin q = ⟨.free, none, 0, 0⟩ := kin_self hx
  have hnl : (s.kin q).kind ≠ .live := by
    rw [dead]
    intro h
    cases h
  apply inv_write hI hx (pc_update p _) (update_self ..)
  · exact .inr (.inr ⟨by rw [hpc]; rfl, rfl, rfl⟩)
  · apply tree_update hI.tree (kin_of_ne hx)
    · exact fun h => absurd h hnl
    · rw [self]
      exact fun _ => ⟨rfl, rfl⟩
    · rw [self]
      intro t h
      cases h
    · rw [self]
      intro h
      rcases h with h | h <;> cases h
  · exact placed_idle _ _ rfl
  · exact .inl rfl
  · exact fun t _ => child_ne hI (by rw [dead]; intro h; cases h) t
  · intro t _ _ h
    cases h
  · exact fun _ h => absurd h hnl

theorem inv_step {e : Event} (hI : Inv s) (h : step s e = .next s') : Inv s' := by
  cases step_cases h with
  | calm p h => exact inv_calm hI h
  | alloc hp hpc hq =>
    exact inv_allocproc hI hp (by rw [hpc]; rfl) rfl hq rfl rfl rfl
      (hI.tree.free _ (kind_eq hq rfl)).1 (.inl ⟨rfl, rfl⟩)
  | @allocFail p q hp hpc hq =>
    exact inv_allocproc (x := freed ((s.alloc q).proc q)) hI hp (by rw [hpc]; rfl) rfl hq
      (update_idem ..) rfl rfl rfl (.inr ⟨rfl, rfl, rfl⟩)
  | setParent hp hpc _ => exact inv_setParent hI hp hpc
  | setRunnable _ hpc => exact inv_setRunnable hI hpc
  | adopt hp hpc hq => exact inv_adopt hI hp hpc hq
  | die hp hpc => exact inv_die hI hp hpc
  | reap _ hpc _ hz => exact inv_reap hI hpc hz

end

theorem init_kin (q : Slot) :
    init.kin q = if q = slot0 then ⟨.live, none, 1, 0⟩ else ⟨.free, none, 0, 0⟩ := by
  unfold State.kin init
  dsimp only
  rw [update_apply]
  split <;> rfl

theorem inv_init : Inv init := by
  refine ⟨⟨rfl, fun q h => ?_, fun q p h => ?_, fun q hq h => ?_⟩, fun p => placed_idle _ _ rfl, ?_, ?_⟩
  · rw [init_kin] at h ⊢
    split at h
    · cases h
    · rename_i e
      rw [if_neg e]
      exact ⟨rfl, rfl⟩
  · rw [init_kin] at h
    split at h <;> cases h
  · rw [init_kin, if_neg hq] at h
    rcases h with h | h <;> cases h
  · intro p p' q h
    cases h
  · intro p h
    cases h

theorem inv_run {es : List Event} {s : State} (h : exec step init es = .next s) : Inv s :=
  exec_inv Inv (fun _ _ _ hI _ hs => inv_step hI hs) inv_init
    (along_of_forall (fun _ _ => trivial) _ _) h

end Family
