import Xv6.Log.Group

/-!
# Processes that use the log refine the machine of the log

The machine of `Log.Model` has one thread that commits and nobody who waits.  Every run of processes is
a run of that machine: a process that sleeps, wakes up or goes on to `commit()` does nothing there, and
the groups for which `commit()` is called are its commits.  So what is known of the machine, after a
crash too, is known of the processes.

* `refines_next`     a step of a process is a step of the machine, or none;
* `exec_refines`     every run;
* `procs_refine`     what the two have in common at the end.
-/

namespace Log
open Run Bytes Function List Option

def Pc.isOp : Pc → Bool
  | .op => true
  | _ => false

/-- how far a process is in `commit()`, which starts with the header `lh` -/
def Pc.phase (lh : List Blockno) : Pc → Option Phase
  | .commit => some (Procs.startPhase lh)
  | .committing ph => some ph
  | _ => none

namespace Procs

/-- the machine has the state of the processes, from the disk `d` on -/
structure Refines (d : Nat → Buf) (t : Procs) (s : State) : Prop where
  disk : s.disk = t.disk
  cache : s.cache = t.cache
  lh : s.lh = t.lh
  outstanding : (s.outstanding : Int) = t.outstanding
  committing : s.committing = t.committing
  snaps : s.snaps = d :: t.groups.map Group.contents
  ops : Option.isSome ∘ s.ops = Pc.isOp ∘ t.pc
  phase : t.committing = false ∧ s.phase = .run ∨ ∃ i, (t.pc i).phase t.lh = some s.phase

section
variable {K : Conf} {d : Nat → Buf} {t t' : Procs} {s u : State} {A : Finset Nat} {i : Nat} {c : Pc} {ph : Phase}

theorem isOp_goto : Pc.isOp ∘ (t.goto i c).pc = update (Pc.isOp ∘ t.pc) i c.isOp := comp_update ..

theorem isOp_goto_same (h : (t.pc i).isOp = c.isOp) : Pc.isOp ∘ (t.goto i c).pc = Pc.isOp ∘ t.pc := by
  rw [isOp_goto, ← h]
  exact update_eq_self i _

theorem isOp_wakeup : Pc.isOp ∘ t.wakeup.pc = Pc.isOp ∘ t.pc := by
  funext j
  show Pc.isOp (if t.pc j = .asleep then .beginOp else t.pc j) = _
  split
  · rename_i h
    rw [comp_apply, h]
    rfl
  · rfl

theorem inCommit_of_phase {lh : List Blockno} (h : c.phase lh = some ph) : c.inCommit = true := by
  cases c with
  | commit | committing ph => rfl
  | _ => cases h

namespace Refines

theorem init (d : Nat → Buf) : Refines d (start d) (Log.init d) :=
  ⟨rfl, rfl, rfl, rfl, rfl, rfl, rfl, .inl ⟨rfl, rfl⟩⟩

theorem run (h : Refines d t s) (hi : Inv t A) (hc : t.committing = false) : s.phase = .run := by
  rcases h.phase with h | ⟨j, hj⟩
  · exact h.2
  have := (hi.alone j (inCommit_of_phase hj)).1
  rw [hc] at this
  cases this

theorem at_phase (h : Refines d t s) (hi : Inv t A) (hp : (t.pc i).phase t.lh = some ph) : s.phase = ph := by
  obtain ⟨hc, -, honly⟩ := hi.alone i (inCommit_of_phase hp)
  rcases h.phase with h | ⟨j, hj⟩
  · rw [h.1] at hc
    cases hc
  · rw [honly j (inCommit_of_phase hj), hp] at hj
    exact (some.inj hj).symm

theorem isSome_ops (h : Refines d t s) (i : Nat) : (s.ops i).isSome = (t.pc i).isOp := congrFun h.ops i

/-- a move outside of operations and commits is none of the machine -/
theorem move (h : Refines d t s) (hop : (t.pc i).isOp = c.isOp) (hcom : (t.pc i).inCommit = false) :
    Refines d (t.goto i c) s := by
  refine ⟨h.disk, h.cache, h.lh, h.outstanding, h.committing, h.snaps, h.ops.trans (isOp_goto_same hop).symm, ?_⟩
  rcases h.phase with hrun | ⟨j, hj⟩
  · exact .inl hrun
  refine .inr ⟨j, ?_⟩
  rw [goto_pc_of_ne]
  · exact hj
  · intro e
    rw [← e, inCommit_of_phase hj] at hcom
    cases hcom

theorem beginOp (h : Refines d t s) (hi : Inv t A) (hs : beginOp t i = .next t') :
    Refines d t' s ∨ ∃ s', Log.beginOp s i = .next s' ∧ Refines d t' s' := by
  obtain ⟨hp, rfl | ⟨hcom, hroom, rfl⟩⟩ := beginOp_next hs
  · exact .inl (h.move (by rw [hp]; rfl) (by rw [hp]; rfl))
  have hrun := h.run hi hcom
  have hop : s.ops i = none := by
    rw [← not_isSome_iff_eq_none, h.isSome_ops, hp]
    exact Bool.false_ne_true
  have ho := h.outstanding
  refine .inr ⟨{ s with outstanding := s.outstanding + 1, ops := update s.ops i (some []) }, ?_,
    h.disk, h.cache, h.lh, ?_, h.committing, h.snaps, ?_, .inl ⟨hcom, hrun⟩⟩
  · have hroom' : ¬ s.lh.length + (s.outstanding + 1) * MAXOPBLOCKS > LOGSIZE := by
      rw [h.lh]
      unfold MAXOPBLOCKS LOGSIZE at *
      omega
    simp only [Log.beginOp, hop, hrun, h.committing, hcom, if_neg hroom']
    rfl
  · rw [← ho]
    rfl
  · rw [isOp_goto, ← h.ops]
    exact comp_update ..

theorem logWrite {b : Blockno} {x : Buf} (h : Refines d t s) (hi : Inv t A)
    (hs : logWrite K t i b x = .next t') : ∃ s', Log.logWrite K s i b x = .next s' ∧ Refines d t' s' := by
  obtain ⟨hp, hhome, hsize, hsize', rfl⟩ := logWrite_next hs
  obtain ⟨l, hl⟩ := isSome_iff_exists.mp ((h.isSome_ops i).trans (by rw [hp]; rfl))
  have hcom := hi.not_committing hp
  have hpos := (hi.pos hp).2
  have ho := h.outstanding
  refine ⟨{ s with
    cache := update s.cache b.toNat x
    lh := absorb s.lh b
    ops := update s.ops i (some (absorb l b)) }, ?_,
    h.disk, by rw [h.cache], by rw [h.lh], ho, h.committing, h.snaps, ?_, .inl ⟨hcom, h.run hi hcom⟩⟩
  · rw [Log.logWrite, hl]
    dsimp only
    rw [if_neg (not_not.mpr hhome), h.lh, if_neg (by omega), if_neg (by omega)]
  · rw [comp_update, h.ops]
    exact update_eq_self_iff.mpr (by rw [comp_apply, hp]; rfl)

theorem endOp (h : Refines d t s) (hi : Inv t A) (hs : endOp t i = .next t') :
    ∃ s', Log.endOp s i = .next s' ∧ Refines d t' s' := by
  obtain ⟨hp, hcom, hcase⟩ := endOp_next hs
  obtain ⟨l, hl⟩ := isSome_iff_exists.mp ((h.isSome_ops i).trans (by rw [hp]; rfl))
  have hpos := (hi.pos hp).2
  have hout := h.outstanding
  have hscom : s.committing = false := h.committing.trans hcom
  have hops : ∀ c : Pc, c.isOp = false → isSome ∘ update s.ops i none = Pc.isOp ∘ (t.goto i c).pc := by
    intro c hc
    rw [isOp_goto, ← h.ops, hc]
    exact comp_update ..
  rcases hcase with ⟨h0, rfl⟩ | ⟨h0, rfl⟩
  · rw [Log.endOp, hl]
    rw [hscom, if_neg Bool.false_ne_true, if_pos (by omega)]
    refine ⟨_, rfl, h.disk, h.cache, h.lh, h0.symm, rfl, ?_, hops .commit rfl, .inr ⟨i, ?_⟩⟩
    · rw [h.snaps, h.cache, map_append]
      rfl
    show ((t.goto i .commit).pc i).phase t.lh = _
    rw [goto_pc_self, ← h.lh]
    rfl
  · rw [Log.endOp, hl]
    rw [hscom, if_neg Bool.false_ne_true, if_neg (by omega)]
    refine ⟨_, rfl, h.disk, h.cache, h.lh, ?_, hcom.symm, h.snaps, ?_, .inl ⟨hcom, h.run hi hcom⟩⟩
    · show ((s.outstanding - 1 : Nat) : Int) = t.outstanding - 1
      omega
    · rw [isOp_wakeup]
      exact hops .idle rfl

end Refines

/-- a step of `commit()` depends on the disk, the buffers and the header -/
theorem io_congr (v : State) (h : IoStep K s u) (hc : s.phase.ofCommit = true) (hne : s.phase ≠ .done) :
    ∃ r, IoStep K { v with disk := s.disk, cache := s.cache, lh := s.lh, phase := s.phase }
      { v with disk := u.disk, cache := u.cache, lh := u.lh, phase := u.phase, returned := r } := by
  cases h with
  | writeLog hp hb => exact ⟨_, .writeLog hp hb⟩
  | logWritten hp hb => exact ⟨_, .logWritten hp hb⟩
  | writeHead hp => exact ⟨_, .writeHead hp⟩
  | install hp hb => exact ⟨_, .install hp hb⟩
  | installed hp hb => exact ⟨_, .installed hp hb⟩
  | clear hp => exact ⟨_, .clear hp⟩
  | done hp => exact absurd hp hne
  | readHead hp | recInstall hp hb | recInstalled hp hb | recClear hp | recovered hp => rw [hp] at hc; cases hc

theorem Refines.view (h : Refines d t s) :
    { s with disk := t.disk, cache := t.cache, lh := t.lh, phase := s.phase } = s := by
  rw [← h.disk, ← h.cache, ← h.lh]

theorem Refines.commit (h : Refines d t s) (hi : Inv t A) (hs : commit K t i = .next t') :
    Refines d t' s ∨ ∃ s', io K s = .next s' ∧ Refines d t' s' := by
  rcases commit_next hs with ⟨hp, rfl⟩ | ⟨hp, rfl⟩ | ⟨ph, u, hp, hne, hio, rfl⟩
  · have hph : s.phase = startPhase t.lh := h.at_phase hi (i := i) (by rw [hp]; rfl)
    refine .inl ⟨h.disk, h.cache, h.lh, h.outstanding, h.committing, h.snaps, ?_, .inr ⟨i, ?_⟩⟩
    · exact h.ops.trans (isOp_goto_same (by rw [hp]; rfl)).symm
    · rw [goto_pc_self, hph]
      rfl
  · have hph : s.phase = .done := h.at_phase hi (i := i) (by rw [hp]; rfl)
    refine .inr ⟨{ s with phase := .run, committing := false }, by simp only [io, hph],
      h.disk, h.cache, h.lh, h.outstanding, rfl, h.snaps, ?_, .inl ⟨rfl, rfl⟩⟩
    rw [isOp_wakeup, isOp_goto_same (by rw [hp]; rfl)]
    exact h.ops
  · obtain rfl : s.phase = ph := h.at_phase hi (i := i) (by rw [hp]; rfl)
    obtain ⟨r, hstep⟩ := io_congr s hio (hi.phase i _ hp) hne
    have hs : IoStep K s _ := h.view ▸ hstep
    refine .inr ⟨_, hs.io_eq, rfl, rfl, rfl, h.outstanding, h.committing, h.snaps, ?_, .inr ⟨i, ?_⟩⟩
    · exact h.ops.trans (isOp_goto_same (by rw [hp]; rfl)).symm
    · rw [goto_pc_self]
      rfl

/-- **Simulation.**  A step of a process is a step of the machine of `Log.Model`, or none. -/
theorem refines_next {e : Event} (h : Refines d t s) (hi : Inv t A) (hs : step K t e = .next t') :
    Refines d t' s ∨ ∃ e' s', Log.step K s e' = .next s' ∧ Refines d t' s' := by
  cases e with
  | call i =>
    obtain ⟨hp, rfl⟩ := call_next hs
    exact .inl (h.move (by rw [hp]; rfl) (by rw [hp]; rfl))
  | beginOp i => exact (h.beginOp hi hs).imp_right fun h => ⟨.beginOp i, h⟩
  | logWrite i b x => exact .inr ⟨.logWrite i b x, h.logWrite hi hs⟩
  | endOp i => exact .inr ⟨.endOp i, h.endOp hi hs⟩
  | commit i => exact (h.commit hi hs).imp_right fun h => ⟨.io, h⟩

theorem exec_refines {es : List Event} (h : exec (step K) (start d) es = .next t) :
    (∃ A, Inv t A) ∧ ∃ es' s, exec (Log.step K) (Log.init d) es' = .next s ∧ Refines d t s := by
  have hR : ∀ t e t' s, (∃ A, Inv t A) ∧ Refines d t s → step K t e = .next t' →
      (∃ A, Inv t' A) ∧ Refines d t' s ∨
        ∃ e' s', Log.step K s e' = .next s' ∧ (∃ A, Inv t' A) ∧ Refines d t' s' := by
    rintro t e t' s ⟨⟨A, hi⟩, hr⟩ hs
    rcases refines_next hr hi hs with hr' | ⟨e', s', hs', hr'⟩
    · exact .inl ⟨hi.next hs, hr'⟩
    · exact .inr ⟨e', s', hs', hi.next hs, hr'⟩
  obtain ⟨es', s, hs, hi, hr⟩ := exec_simulates (fun t s => (∃ A, Inv t A) ∧ Refines d t s) hR
    ⟨⟨∅, Inv.init d⟩, Refines.init d⟩ h
  exact ⟨hi, es', s, hs, hr⟩

/-- **Refinement.**  A run of processes, in whatever order their steps come, is a run of the machine of
`Log.Model`, with the same disk, buffers, header and counts at the end; its commits are the groups of the
processes, in their order. -/
theorem procs_refine {es : List Event} (h : exec (step K) (start d) es = .next t) :
    ∃ es' s, exec (Log.step K) (Log.init d) es' = .next s ∧ s.disk = t.disk ∧ s.cache = t.cache ∧ s.lh = t.lh ∧
      (s.outstanding : Int) = t.outstanding ∧ s.committing = t.committing ∧
      s.snaps = d :: t.groups.map Group.contents ∧ ∀ i, (s.ops i).isSome = true ↔ t.pc i = .op := by
  obtain ⟨-, es', s, hs, hr⟩ := exec_refines h
  refine ⟨es', s, hs, hr.disk, hr.cache, hr.lh, hr.outstanding, hr.committing, hr.snaps, fun i => ?_⟩
  rw [hr.isSome_ops]
  cases t.pc i with
  | op => exact iff_of_true rfl rfl
  | _ =>
    refine iff_of_false Bool.false_ne_true fun e => ?_
    cases e

/-- two processes, of which the second commits -/
theorem procs_refine_two : ∃ t es s, exec (step mkfsConf) (start fun _ _ => 0) twoOps = .next t ∧
    t.committing = true ∧ exec (Log.step mkfsConf) (Log.init fun _ _ => 0) es = .next s ∧ s.disk = t.disk ∧
    s.snaps = (fun _ _ => 0) :: t.groups.map Group.contents := by
  obtain ⟨t, ht, hc⟩ := exists_of_check (o := exec (step mkfsConf) (start fun _ _ => 0) twoOps)
    (p := fun t : Procs => t.committing = true) (by decide +kernel)
  obtain ⟨es, s, hs, hd, -, -, -, -, hsnaps, -⟩ := procs_refine ht
  exact ⟨t, es, s, ht, hc, hs, hd, hsnaps⟩

end

end Procs

end Log
