import Xv6.Family.Children
import Xv6.Family.Slots

/-!
# `kill` and the free slots

`kill` looks at every slot, and `freeproc` leaves a free slot with the pid 0.  So `kill(0)` finds a
free slot, marks it and returns 0, and the next process in the slot is born killed
(`kill_zero_marks`), since `allocproc` does not reset `killed`.

* `Unmarked`            no free slot is marked, and no `kill` under way looks for the pid 0;
* `kill_only_target`    without `kill(0)`, `kill` changes only the process that has its pid.
-/

namespace Family
open Run Function
open Sched (NPROC Slot ProcState slot0)

/-- the pid that a `kill` looks for -/
def Pc.target : Pc → Option Word
  | .kill pid _ => some pid
  | _ => none

/-- the event is not a call `kill(0)` -/
def killsNamed : Event → Bool
  | .kill _ pid => pid != 0
  | _ => true

/-! ## positions -/

/-- no process goes on to look for another pid -/
def Steady (s s' : State) : Prop :=
  ∀ t, (s'.pc t).target = none ∨ (s'.pc t).target = (s.pc t).target

section
variable {s s' : State} {e : Event} {p q : Slot}

theorem steady_update {b : Pc} (h : s'.pc = update s.pc p b)
    (hb : b.target = none ∨ b.target = (s.pc p).target) : Steady s s' := by
  intro t
  rw [h]
  by_cases e : t = p
  · subst e
    rwa [update_self]
  · rw [update_of_ne e]
    exact .inr rfl

theorem Steady.trans {s'' : State} (h : Steady s s') (h' : Steady s' s'') : Steady s s'' := by
  intro t
  rcases h' t with e | e
  · exact .inl e
  · rw [e]
    exact h t

theorem steady_wake {ch : Option Chan} {b : Pc} (hb : b.target = none) :
    Steady s ((s.wake q ch).goto p b) := by
  apply steady_update ?_ (.inl hb)
  show update (s.wake q ch).pc p b = _
  rw [wake_pc]

theorem steady_alloc : Steady s (s.alloc q) := steady_update rfl (.inl rfl)

theorem steady_stepProc {ok : Bool} (h : stepProc s p ok = .next s') : Steady s s' := by
  unfold stepProc at h
  repeat' split at h
  all_goals cases h
  all_goals first
    | exact steady_update rfl (.inl rfl)
    | exact steady_wake rfl
    | exact steady_alloc.trans (steady_update rfl (.inl rfl))
    | rename_i hpc _ _
      exact steady_update rfl (.inr (by rw [hpc]; rfl))

theorem steady_step (h : step s e = .next s') (he : ∀ p pid, e ≠ .kill p pid) : Steady s s' := by
  have stay : s'.pc = s.pc → Steady s s' := fun h t => .inr (by rw [h])
  cases e with
  | kill p pid => exact absurd rfl (he p pid)
  | step p ok =>
    obtain ⟨-, h⟩ := ite_blocked h
    exact steady_stepProc h
  | clock =>
    dsimp only [step] at h
    unfold stepClock at h
    repeat' split at h
    all_goals cases h
    all_goals first | exact stay rfl | exact stay (wake_pc ..)
  | wakeup ch q =>
    cases h
    exact stay (wake_pc ..)
  | dispatch p =>
    obtain ⟨-, rfl⟩ := guard_next h
    refine steady_update rfl (.inr ?_)
    cases s.pc p <;> rfl
  | _ =>
    dsimp only [step] at h
    repeat' split at h
    all_goals cases h
    all_goals first | exact stay rfl | exact steady_update rfl (.inl rfl)

/-! ## the free slots -/

/-- no free slot is marked, and no `kill` under way looks for the pid 0 -/
structure Unmarked (s : State) : Prop where
  free : ∀ q, (s.proc q).state = .UNUSED → (s.proc q).killed = false
  target : ∀ p, (s.pc p).target ≠ some 0

theorem unmarked_step (hI : Inv s) (hU : Unmarked s) (he : killsNamed e = true)
    (h : step s e = .next s') : Unmarked s' := by
  refine ⟨fun q hq => ?_, fun p => ?_⟩
  · have hw := step_write hI h q
    revert hw hq
    generalize s'.proc q = y
    intro hq hw
    cases hw with
    | mild hm =>
      obtain ⟨st, ch, xs, pa, hst⟩ := hm
      exact hU.free q (hst.mp hq)
    | @mark p _ pid _ hpc hpid =>
      have hst : (s.proc q).state = .UNUSED := by
        by_contra hne
        dsimp only [marked] at hq
        split at hq
        · cases hq
        · exact hne hq
      refine absurd ?_ (hU.target p)
      rw [hpc, ← hpid]
      exact congrArg some (hI.tree.free q (kind_eq hst rfl)).2
    | tick =>
      have hst : (s.proc q).state = .UNUSED := by
        unfold updatePinfo at hq
        split at hq <;> exact hq
      unfold updatePinfo
      split <;> exact hU.free q hst
    | alloc _ _ _ => cases hq
    | free _ => rfl
  · by_cases hk : ∃ r pid, e = .kill r pid
    · obtain ⟨r, pid, rfl⟩ := hk
      obtain ⟨-, rfl⟩ := guard_next h
      by_cases hp : p = r
      · subst hp
        rw [goto_self]
        intro h0
        rw [Option.some.inj h0] at he
        exact absurd he Bool.false_ne_true
      · rw [goto_of_ne s _ hp]
        exact hU.target p
    · rcases steady_step h (fun r pid hr => hk ⟨r, pid, hr⟩) p with ht | ht
      · rw [ht]
        intro h
        cases h
      · rw [ht]
        exact hU.target p

end

theorem unmarked_init : Unmarked init := by
  refine ⟨fun q _ => ?_, fun p h => ?_⟩
  · unfold init
    dsimp only
    rw [update_apply]
    split <;> rfl
  · cases h

theorem unmarked_run {es : List Event} {s : State}
    (hC : Along step (fun _ e => killsNamed e = true) init es) (h : exec step init es = .next s) :
    Inv s ∧ Unmarked s :=
  exec_inv (fun s => Inv s ∧ Unmarked s)
    (fun _ _ _ ⟨hI, hU⟩ he hs => ⟨inv_step hI hs, unmarked_step hI hU he hs⟩)
    ⟨inv_init, unmarked_init⟩ hC h

/-! ## one section of `kill` -/

section
variable {s s' : State} {p : Slot}

theorem kill_section {pid : Word} {i : Nat} {ok : Bool} (hpc : s.pc p = .kill pid i)
    (h : step s (.step p ok) = .next s') :
    (∃ q : Slot, q.val = i ∧ (s.proc q).pid = pid ∧
      s' = (s.setProc q (marked (s.proc q))).return p 0) ∨
    (∃ q : Slot, q.val = i ∧ (s.proc q).pid ≠ pid ∧ s' = s.goto p (.kill pid (i + 1))) ∨
    NPROC ≤ i ∧ s' = s.return p failed := by
  obtain ⟨-, h⟩ := ite_blocked h
  unfold stepProc at h
  rw [hpc] at h
  dsimp only at h
  split at h
  · rename_i hi
    split at h
    · rename_i hq
      cases h
      exact .inl ⟨⟨i, hi⟩, rfl, hq, rfl⟩
    · rename_i hq
      cases h
      exact .inr (.inl ⟨⟨i, hi⟩, rfl, hq, rfl⟩)
  · rename_i hi
    cases h
    exact .inr (.inr ⟨Nat.not_lt.mp hi, rfl⟩)

end

/-- **`kill` affects only its target**, in every run without `kill(0)`.  A section of `kill` either
finds a slot in use with the pid, changes no other slot and returns 0; or it finds another pid and
goes on, or has seen all slots and returns -1, and changes no slot.  A slot that `fork` takes is not
marked. -/
theorem kill_only_target {es : List Event} {s : State}
    (hC : Along step (fun _ e => killsNamed e = true) init es) (h : exec step init es = .next s) :
    (∀ p pid i ok s', s.pc p = .kill pid i → step s (.step p ok) = .next s' →
      (∃ q : Slot, q.val = i ∧ (s.proc q).pid = pid ∧ (s.proc q).state ≠ .UNUSED ∧
        (s'.proc q).killed = true ∧ (∀ r, r ≠ q → s'.proc r = s.proc r) ∧
        s'.pc p = .user ∧ s'.ret p = 0) ∨
      (∃ q : Slot, q.val = i ∧ (s.proc q).pid ≠ pid ∧ s'.proc = s.proc ∧
        s'.pc p = .kill pid (i + 1)) ∨
      NPROC ≤ i ∧ s'.proc = s.proc ∧ s'.pc p = .user ∧ s'.ret p = failed) ∧
    ∀ e q s', (s.proc q).state = .UNUSED → step s e = .next s' → (s'.proc q).state ≠ .UNUSED →
      (s'.proc q).killed = false := by
  obtain ⟨hI, hU⟩ := unmarked_run hC h
  refine ⟨fun p pid i ok s' hpc hs => ?_, fun e q s' hq hs hq' => ?_⟩
  · rcases kill_section hpc hs with ⟨q, hi, hq, rfl⟩ | ⟨q, hi, hq, rfl⟩ | ⟨hi, rfl⟩
    · refine .inl ⟨q, hi, hq, fun hst => ?_, ?_, fun r hr => ?_, ?_, ?_⟩
      · refine absurd ?_ (hU.target p)
        rw [hpc]
        rw [← hq]
        exact congrArg some (hI.tree.free q (kind_eq hst rfl)).2
      · show (update s.proc q _ q).killed = true
        rw [update_self]
        rfl
      · exact update_of_ne hr _ _
      · exact update_self ..
      · exact update_self ..
    · exact .inr (.inl ⟨q, hi, hq, rfl, update_self ..⟩)
    · exact .inr (.inr ⟨hi, rfl, update_self .., update_self ..⟩)
  · have hw := step_write hI hs q
    revert hw hq'
    generalize s'.proc q = y
    intro hq' hw
    cases hw with
    | mild hm =>
      obtain ⟨st, ch, xs, pa, hst⟩ := hm
      exact absurd (hst.mpr hq) hq'
    | mark _ _ =>
      refine absurd ?_ hq'
      dsimp only [marked]
      rw [hq]
      rfl
    | tick =>
      refine absurd ?_ hq'
      unfold updatePinfo
      rw [hq]
      exact hq
    | alloc _ _ _ => exact hU.free q hq
    | free _ => rfl

/-- `init` forks and kills its child -/
def forkKill : List Event :=
  [.dispatch slot0, .fork slot0] ++ List.replicate 4 (.step slot0 true) ++
  [.kill slot0 2, .step slot0 true]

theorem kill_only_target_child :
    ∃ s, exec step init forkKill = .next s ∧ s.pc slot0 = .kill 2 1 ∧
      ∀ s', step s (.step slot0 true) = .next s' →
        (s'.proc slot1).killed = true ∧ s'.proc slot0 = s.proc slot0 := by
  obtain ⟨s, hs, hpc, hpid⟩ := exists_of_check
    (p := fun s : State => s.pc slot0 = .kill 2 1 ∧ (s.proc slot1).pid = 2)
    (show (exec step init forkKill).check _ = true by decide +kernel)
  have named : ∀ e ∈ forkKill, killsNamed e = true := by decide
  have hC : Along step (fun _ e => killsNamed e = true) init forkKill :=
    along_of_mem (fun e he _ => named e he) init
  refine ⟨s, hs, hpc, fun s' hs' => ?_⟩
  rcases (kill_only_target hC hs).1 slot0 2 1 true s' hpc hs' with
    ⟨q, hi, -, -, hk, hr, -⟩ | ⟨q, hi, hq, -⟩ | ⟨hi, -⟩
  · obtain rfl : q = slot1 := Fin.ext hi
    exact ⟨hk, hr slot0 (by decide)⟩
  · obtain rfl : q = slot1 := Fin.ext hi
    exact absurd hpid hq
  · exact absurd hi (by decide)

/-! ## `kill(0)` -/

def killZero : List Event := [.dispatch slot0, .kill slot0 0, .step slot0 true, .step slot0 true]

def forkOnce : List Event := [.fork slot0] ++ List.replicate 4 (.step slot0 true)

/-- `kill(0)` returns 0, though no process has the pid 0; the next child is born killed -/
theorem kill_zero_marks :
    ∃ s, exec step init killZero = .next s ∧ s.pc slot0 = .user ∧ s.ret slot0 = 0 ∧
      (∀ q, (s.proc q).state ≠ .UNUSED → (s.proc q).pid ≠ 0) ∧
      ∃ t, exec step s forkOnce = .next t ∧ t.ret slot0 = 2 ∧ (t.proc slot1).pid = 2 ∧
        (t.proc slot1).state = .RUNNABLE ∧ (t.proc slot1).killed = true := by
  obtain ⟨s, hs, hpc, hret, hpid, ht⟩ := exists_of_check
    (p := fun s : State => s.pc slot0 = .user ∧ s.ret slot0 = 0 ∧
      (∀ q, (s.proc q).state ≠ .UNUSED → (s.proc q).pid ≠ 0) ∧
      (exec step s forkOnce).check (fun t => t.ret slot0 = 2 ∧ (t.proc slot1).pid = 2 ∧
        (t.proc slot1).state = .RUNNABLE ∧ (t.proc slot1).killed = true) = true)
    (show (exec step init killZero).check _ = true by decide +kernel)
  exact ⟨s, hs, hpc, hret, hpid, exists_of_check ht⟩

end Family
