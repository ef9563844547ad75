import Xv6.Sync.Monitor

/-!
# Programs that look at `killed` before they sleep

`K` are the channels on which a killed process must not sleep.  A program that has seen `killed` false
may go to sleep on one of them; only a new look tells it of a `kill` in between.

* `MaySleep K`, `Killable K`   the program may sleep on `K` before it looks again; it looks before
                               every sleep, and never sleeps after it has seen `killed`;
* `Exposed`                    the process is between its look and the sleep;
* `Spared`, `spared_step`      if no `kill` meets an exposed process, no killed process sleeps on `K`.
-/

namespace Sync
open Run Prog
open Sched (Slot NPROC ProcState)

variable {M : Monitor} {κ : Type} {code : Slot → κ → Code M Unit} (K : M.Chan → Prop)

def MaySleep : Code M Unit → Prop
  | .ret _ => False
  | .panic _ => False
  | .act (.sleep ch _) k => K ch ∨ MaySleep (k ())
  | .act .killed _ => False
  | .act (.acquire _) k => MaySleep (k ())
  | .act (.release _) k => MaySleep (k ())
  | .act (.act _ _) k => ∃ x, MaySleep (k x)
  | .act (.wakeup _) k => MaySleep (k ())
  | .act (.kill _) k => ∃ x, MaySleep (k x)

def Killable : Code M Unit → Prop
  | .ret _ => True
  | .panic _ => True
  | .act (.sleep ch _) k => (K ch → ¬ MaySleep K (k ())) ∧ Killable (k ())
  | .act .killed k => ¬ MaySleep K (k true) ∧ ∀ x, Killable (k x)
  | .act (.acquire _) k => Killable (k ())
  | .act (.release _) k => Killable (k ())
  | .act (.act _ _) k => ∀ x, Killable (k x)
  | .act (.wakeup _) k => Killable (k ())
  | .act (.kill _) k => ∀ x, Killable (k x)

/-- the program looks at `killed` before each of its sleeps, and sleeps no more when it has seen it -/
structure Heeds (co : Code M Unit) : Prop where
  killable : Killable K co
  calm : ¬ MaySleep K co

/-- the thread may sleep on `K` before it looks at `killed` -/
def Exposed (t : Thread M) : Prop :=
  (t.pc.Released → ∃ ch l k, t.code = .act (.sleep ch l) k ∧ MaySleep K (k ())) ∧
  (¬ t.pc.Released → MaySleep K t.code)

/-- the event is the section of a `kill` that finds the process `p` -/
def Hits (c : Config M) (e : Event M κ) (p : Slot) : Prop :=
  ∃ q k, e = .step q ∧ c.thread q = some ⟨.act (.kill (c.sys.proc p).pid) k, .locked p⟩

/-- no `kill` finds a process between its look at `killed` and its sleep -/
def Timely (c : Config M) (e : Event M κ) : Prop :=
  ∀ p t, Hits c e p → c.thread p = some t → ¬ Exposed K t

/-- what holds of one thread -/
structure SparedAt (s : State M) (p : Slot) (t : Thread M) : Prop where
  killable : Killable K t.code
  read : ∀ b, t.pc = .killedUnlock b → (s.proc p).killed = b
  spared : (s.proc p).killed = true → ¬ Exposed K t ∧ ∀ ch l, K ch → ¬ Waits s p t ch l

def Spared (c : Config M) : Prop := ∀ p t, c.thread p = some t → SparedAt K c.sys p t

variable {K} {c c' : Config M} {e : Event M κ} {p q : Slot} {s s' : State M} {o : Op M} {pc : Pc}
  {r : Pc ⊕ o.Res}

variable {t : Thread M} {ch : M.Chan} {l : M.Lk} {k : o.Res → Code M Unit}

theorem not_exposed (hr : ¬ t.pc.Released) (h : ¬ MaySleep K t.code) : ¬ Exposed K t := fun he => h (he.2 hr)

theorem exposed_sleep {k : Unit → Code M Unit} (hr : pc.Released) :
    Exposed K ⟨.act (.sleep ch l) k, pc⟩ ↔ MaySleep K (k ()) := by
  constructor
  · intro h
    obtain ⟨ch', l', k', e, h⟩ := h.1 hr
    cases e
    exact h
  · intro h
    exact ⟨fun _ => ⟨ch, l, k, rfl, h⟩, fun hn => absurd hr hn⟩

theorem exposed_congr {k : Unit → Code M Unit} {pc' : Pc}
    (hne : ¬ Exposed K ⟨.act (.sleep ch l) k, pc⟩) (hr : pc.Released) (hr' : pc'.Released) :
    ¬ Exposed K ⟨.act (.sleep ch l) k, pc'⟩ := by
  rw [exposed_sleep hr']
  rwa [exposed_sleep hr] at hne

theorem Micro.killed (h : Micro s q o pc s' r) (p : Slot) :
    (s'.proc p).killed = (s.proc p).killed ∨
      o = .kill (s.proc p).pid ∧ pc = .locked p ∧ s' = s.kill p := by
  have hset : ∀ (x : Proc M) (q' : Slot), x.killed = (s.proc q').killed →
      ((s.setProc q' x).proc p).killed = (s.proc p).killed := by
    intro x q' hx
    by_cases e : p = q'
    · rw [e, setProc_self, hx]
    · rw [setProc_of_ne s x e]
  cases h with
  | sleepChan | sleepState | sleepTidy => exact .inl (hset _ q rfl)
  | @wakeupBody c q' =>
    refine .inl ?_
    unfold State.wake
    split
    · exact hset _ q' rfl
    · rfl
  | @killBody pid q' h =>
    by_cases e : p = q'
    · subst e
      exact .inr ⟨by rw [h], rfl, rfl⟩
    · exact .inl (by rw [State.kill, setProc_of_ne s _ e])
  | _ => exact .inl rfl

theorem kill_not_waits (ha : At s p t.op t.pc)
    (hl : s.lock (.proc p) ≠ some p) : ¬ Waits (s.kill p) p t ch l := by
  rintro ⟨-, hw | ⟨-, hw⟩⟩
  · obtain ⟨co, pc⟩ := t
    cases pc with
    | sleepChan => exact hl ha.2
    | sleepState | sleepSched => exact hl ha.2.1
    | _ => exact hw
  · rw [kill_self] at hw
    split at hw
    · cases hw
    · exact absurd hw (by assumption)

/-- a thread behind a step is as exposed as before, if the process is killed -/
theorem Micro.spared (h : Micro s p o pc s' r)
    (hk : Killable K (.act o k)) (hread : ∀ b, pc = .killedUnlock b → (s.proc p).killed = b)
    (hd : (s.proc p).killed = true) (hne : ¬ Exposed K ⟨.act o k, pc⟩) :
    ¬ Exposed K (Thread.after o k r) := by
  cases h with
  | acquire h | release h | sleepCall h | wakeupEnd h =>
    exact not_exposed id fun hm => hne ⟨fun hr => absurd hr id, fun _ => hm⟩
  | act | killEnd h | killFound h =>
    exact not_exposed id fun hm => hne ⟨fun hr => absurd hr id, fun _ => ⟨_, hm⟩⟩
  | sleepRelease h =>
    intro he
    have released : Pc.Released (.sleepChan : Pc) := trivial
    have hm := (exposed_sleep released).mp he
    exact hne ⟨fun hr => absurd hr id, fun _ => .inr hm⟩
  | sleepChan | sleepState | sleepSched h hn | sleepTidy | sleepUnlock h =>
    exact exposed_congr hne trivial trivial
  | sleepAcquire h =>
    have released : Pc.Released (.sleepAcquire : Pc) := trivial
    exact not_exposed id fun hm => hne ((exposed_sleep released).mpr hm)
  | @killedUnlock b h =>
    have hb : b = true := (hread b rfl).symm.trans hd
    subst hb
    exact not_exposed id hk.1
  | _ => exact not_exposed id fun hm => hne ⟨fun hr => absurd hr id, fun _ => hm⟩

theorem Micro.killable (h : Micro s p o pc s' r)
    (hk : Killable K (.act o k)) : Killable K (Thread.after o k r).code := by
  cases h with
  | acquire h | release h | wakeupEnd h => exact hk
  | act | killEnd h | killFound h => exact hk _
  | sleepAcquire h => exact hk.2
  | killedUnlock h => exact hk.2 _
  | _ => exact hk

/-! ## every event -/

theorem SparedAt.keeps (h : SparedAt K s p t) (hk : Keeps s s' p)
    (hd : (s'.proc p).killed = (s.proc p).killed) : SparedAt K s' p t := by
  refine ⟨h.killable, fun b hb => hd.trans (h.read b hb), fun hkd => ?_⟩
  obtain ⟨h1, h2⟩ := h.spared (hd.symm.trans hkd)
  exact ⟨h1, fun ch l hK hw => h2 ch l hK (hk.waits hw)⟩

theorem SparedAt.kill (h : SparedAt K s p t) (ha : At s p t.op t.pc)
    (hl : s.lock (.proc p) ≠ some p) (hne : ¬ Exposed K t) : SparedAt K (s.kill p) p t := by
  refine ⟨h.killable, fun b hb => ?_, fun _ => ⟨hne, fun ch l _ => kill_not_waits ha hl⟩⟩
  rw [hb] at ha
  exact absurd ha.2 hl

theorem spared_setThread {t : Option (Thread M)}
    (hq : ∀ q u, q ≠ p → c.thread q = some u → SparedAt K s q u)
    (ht : ∀ u, t = some u → SparedAt K s p u) : Spared K (c.setThread s p t) := by
  intro q u hu
  by_cases e : q = p
  · subst e
    rw [setThread_self] at hu
    exact ht u hu
  · rw [setThread_of_ne c s t e] at hu
    exact hq q u e hu

theorem exposed_preempted {co : Code M Unit} (hc : pc.Calm) :
    Exposed K ⟨co, .preempted pc⟩ ↔ Exposed K ⟨co, pc⟩ := by
  have e : (Pc.preempted pc).Released ↔ pc.Released := by
    cases pc with
    | call | loop i | sleepAcquire => exact Iff.rfl
    | _ => exact absurd hc id
  unfold Exposed
  rw [e]

theorem spared_micro (hwf : Wf c) (h : Spared K c)
    (ht : c.thread p = some ⟨.act o k, pc⟩) (hm : Micro c.sys p o pc s r)
    (hC : Timely (κ := κ) K c (.step p)) :
    Spared K (c.setThread s p (some (.after o k r))) := by
  have ha : At c.sys p (some o) pc := hwf.pos p _ ht
  have hhit : ∀ q u, o = .kill (c.sys.proc q).pid → pc = .locked q → c.thread q = some u →
      ¬ Exposed K u := by
    intro q u ho hpc hu
    subst ho
    subst hpc
    exact hC q u ⟨p, k, rfl, ht⟩ hu
  refine spared_setThread (fun q u hq hu => ?_) fun u hu => ?_
  · rcases hm.killed q with hd | ⟨ho, hpc, hs⟩
    · exact (h q u hu).keeps (hm.keeps ha hq) hd
    subst hs
    refine (h q u hu).kill (hwf.pos q u hu) ?_ (hhit q u ho hpc hu)
    rw [hpc] at ha
    rw [ha.2]
    intro e
    exact hq (Option.some.inj e).symm
  cases hu
  have h0 := h p _ ht
  refine ⟨hm.killable h0.killable, fun b hb => ?_, fun hd => ⟨?_, fun ch l hK hw => ?_⟩⟩
  · cases hm with
    | killedRead =>
      cases hb
      rfl
    | _ => cases hb
  · rcases hm.killed p with hd0 | ⟨ho, hpc, hs⟩
    · exact hm.spared h0.killable h0.read (hd0.symm.trans hd) (h0.spared (hd0.symm.trans hd)).1
    have hne := hhit p _ ho hpc ht
    subst ho
    subst hpc
    cases hm with
    | killBody hpid => exact not_exposed id fun hm => hne ⟨fun hr => absurd hr id, fun _ => hm⟩
    | killMiss hpid => exact absurd rfl hpid
  · rcases hm.killed p with hd0 | ⟨ho, hpc, hs⟩
    · have h1 := h0.spared (hd0.symm.trans hd)
      rcases hm.waits ha hw with hw | ⟨rfl, rfl, -, -⟩
      · exact h1.2 ch l hK hw
      · exact h1.1 ⟨fun hr => absurd hr id, fun _ => .inl hK⟩
    subst ho
    subst hpc
    cases hm with
    | killBody hpid =>
      rcases hw.2 with hw | hw
      · exact hw
      · cases hw.1
    | killMiss hpid => exact absurd rfl hpid

theorem spared_step (hK : ∀ p k, Heeds K (code p k)) (hwf : Wf c) (h : Spared K c)
    (hC : Timely K c e) (hs : Move code c e c') : Spared K c' := by
  cases hs with
  | @start p k ht hr =>
    refine spared_setThread (fun q u _ hu => h q u hu) fun u hu => ?_
    cases hu
    refine ⟨(hK p k).1, fun b hb => ?_, fun _ => ⟨not_exposed id (hK p k).2, fun ch l _ hw => ?_⟩⟩
    · cases hb
    · rcases hw.2 with hw | hw
      · exact hw
      · cases hw.1
  | @ret p u pc ht =>
    refine spared_setThread (fun q u _ hu => h q u hu) fun u hu => ?_
    cases hu
  | micro ht hm => exact spared_micro hwf h ht hm hC
  | @preempt p hr hn hl =>
    refine spared_setThread (fun q u hq hu => ?_) fun u hu => ?_
    · exact (h q u hu).keeps (keeps_setProc hq) (congrArg Proc.killed (setProc_of_ne c.sys _ hq))
    obtain ⟨t, ht, rfl⟩ := Option.map_eq_some_iff.mp hu
    have hcalm := (hwf.pos p t ht).calm hr ((hwf.counted p).not_held hn)
    refine ⟨(h p t ht).killable, fun b hb => ?_, fun hd => ⟨?_, fun ch l _ hw => ?_⟩⟩
    · cases hb
    · rw [setProc_self] at hd
      rw [exposed_preempted hcalm]
      exact ((h p t ht).spared hd).1
    · rcases hw.2 with hw | hw
      · exact hw
      · cases hw.1
  | @enter p hr hl ht | @turnover p x ht hl hx =>
    intro q u hu
    have hq : q ≠ p := by
      rintro rfl
      cases ht.symm.trans hu
    exact (h q u hu).keeps (keeps_setProc hq) (congrArg Proc.killed (setProc_of_ne c.sys _ hq))
  | @wake p code' hr hl ht =>
    refine spared_setThread (fun q u hq hu => ?_) fun u hu => ?_
    · exact (h q u hu).keeps (keeps_switch hl hq) (congrArg Proc.killed (setProc_of_ne c.sys _ hq))
    cases hu
    have h0 := h p _ ht
    refine ⟨h0.killable, fun b hb => ?_, fun hd => ⟨?_, fun ch l _ hw => ?_⟩⟩
    · cases hb
    · have hd0 : (c.sys.proc p).killed = true := by
        change ((c.sys.setProc p _).proc p).killed = true at hd
        rwa [setProc_self] at hd
      obtain ⟨-, -, ch, l, hop, -⟩ := hwf.pos p _ ht
      cases code' with
      | ret u | panic msg => cases hop
      | act o k =>
        cases hop
        exact exposed_congr (h0.spared hd0).1 trivial trivial
    · rcases hw.2 with hw | hw
      · exact hw
      · cases hw.1
  | @resume p code' pc hr hl ht =>
    refine spared_setThread (fun q u hq hu => ?_) fun u hu => ?_
    · exact (h q u hu).keeps (keeps_setProc hq) (congrArg Proc.killed (setProc_of_ne c.sys _ hq))
    cases hu
    have h0 := h p _ ht
    have hcalm := (hwf.pos p _ ht).2.2
    refine ⟨h0.killable, fun b hb => ?_, fun hd => ⟨?_, fun ch l _ hw => ?_⟩⟩
    · cases hb
      exact absurd hcalm id
    · rw [setProc_self] at hd
      rw [← exposed_preempted hcalm]
      exact (h0.spared hd).1
    · exact hcalm.not_window (hw.2.imp_right And.left)
  | interrupt hl => exact fun q u hu => (h q u hu).keeps keeps_data rfl
  | @signal ch q' hl =>
    intro q u hu
    refine (h q u hu).keeps (keeps_wake (by rw [hl]; intro e; cases e)) ?_
    unfold State.wake
    split
    · by_cases e : q = q'
      · rw [e, setProc_self]
      · rw [setProc_of_ne c.sys _ e]
    · rfl

/-- **No killed process sleeps on `K`,** along every run in which no `kill` finds a process that is
exposed. -/
theorem killable_run {c0 : Config M} {es : List (Event M κ)}
    (hK : ∀ p k, Heeds K (code p k)) (h0 : c0.Fresh)
    (hC : Along (step code) (Timely K) c0 es) (hx : exec (step code) c0 es = .next c)
    (hch : K ch) (hd : (c.sys.proc p).killed = true) :
    ¬ ((c.sys.proc p).state = .SLEEPING ∧ (c.sys.proc p).chan = some ch) := by
  have h := exec_inv (fun c => Wf c ∧ Spared K c) ?_ ⟨h0.wf, ?_⟩ hC hx
  · rintro ⟨hs, hc⟩
    obtain ⟨ch', l, hc', t, ht, hw⟩ := h.1.waiting hs
    cases hc.symm.trans hc'
    exact ((h.2 p t ht).spared hd).2 ch l hch hw
  · rintro c e c' ⟨hwf, hS⟩ hT hs
    exact ⟨wf_step hwf (step_cases hs), spared_step hK hwf hS hT (step_cases hs)⟩
  · intro p t ht
    cases (h0.idle p).symm.trans ht

/-! ## programs that heed `kill` -/

section
variable {l : M.Lk} {ch : M.Chan} {u : Unit}

theorem heeds_ret : Heeds K (.ret u) := ⟨trivial, id⟩

theorem heeds_panic {msg : String} : Heeds K (.panic msg) := ⟨trivial, id⟩

variable {g : Unit → Code M Unit}

theorem heeds_acquire (h : Heeds K (g ())) : Heeds K ((acquire l).bind g) :=
  ⟨h.killable, h.calm⟩

theorem heeds_release (h : Heeds K (g ())) : Heeds K ((release l).bind g) :=
  ⟨h.killable, h.calm⟩

theorem heeds_wakeup (h : Heeds K (g ())) : Heeds K ((wakeup ch).bind g) :=
  ⟨h.killable, h.calm⟩

theorem heeds_work {a : M.Act l} {g : M.Ans a → Code M Unit} (h : ∀ x, Heeds K (g x)) :
    Heeds K ((work l a).bind g) := ⟨fun x => (h x).killable, fun ⟨x, hx⟩ => (h x).calm hx⟩

theorem heeds_kill {pid : Int} {g : Bool → Code M Unit} (h : ∀ x, Heeds K (g x)) :
    Heeds K ((kill pid).bind g) := ⟨fun x => (h x).killable, fun ⟨x, hx⟩ => (h x).calm hx⟩

theorem heeds_killed {g : Bool → Code M Unit} (ht : Heeds K (g true)) (hf : Killable K (g false)) :
    Heeds K (killed.bind g) := by
  refine ⟨⟨ht.calm, fun x => ?_⟩, id⟩
  cases x with
  | true => exact ht.killable
  | false => exact hf

theorem heeds_sleep (hch : ¬ K ch) (h : Heeds K (g ())) : Heeds K ((sleep ch l).bind g) :=
  ⟨⟨fun hk => absurd hk hch, h.killable⟩, fun hm => hm.elim hch h.calm⟩

theorem killable_sleep (h : Heeds K (g ())) :
    Killable K ((sleep ch l).bind g) := ⟨fun _ => h.calm, h.killable⟩

theorem killable_wakeup (h : Killable K (g ())) : Killable K ((wakeup ch).bind g) := h

theorem killable_work {a : M.Act l} {g : M.Ans a → Code M Unit} (h : ∀ x, Killable K (g x)) :
    Killable K ((work l a).bind g) := h

end

end Sync
