import Xv6.Family.Invariant

/-!
# What the steps write into a slot

Most of them change only `state`, `chan`, `xstate` and `parent`, and do not free the slot or take it
(`Mild`).  The others are a `kill` that finds its pid, the clock, `allocproc` and `freeproc`.

* `Write`, `step_write`    what one event writes.
-/

namespace Family
open Run Function
open Sched (NPROC Slot ProcState slot0)

inductive Mild (x : Proc) : Proc → Prop
  | mk (st : ProcState) (ch : Option Chan) (xs : Word) (pa : Option Slot) :
      (st = .UNUSED ↔ x.state = .UNUSED) →
      Mild x { x with state := st, chan := ch, xstate := xs, parent := pa }

inductive Write (s : State) : Event → Slot → Proc → Prop
  | mild {e q y} : Mild (s.proc q) y → Write s e q y
  | mark {p q pid ok} : s.pc p = .kill pid q.val → (s.proc q).pid = pid →
      Write s (.step p ok) q (marked (s.proc q))
  | tick {q} : Write s .clock q (updatePinfo (s.proc q))
  | alloc {p q ok} : (s.proc p).state = .RUNNING → s.pc p = .alloc q.val →
      (s.proc q).state = .UNUSED →
      Write s (.step p ok) q { s.proc q with state := .USED, pid := s.nextpid, lived := ⟨0, 0, 0⟩ }
  | free {e q} (y : Proc) : Write s e q (freed y)

section
variable {s s' : State} {e : Event} {p q : Slot}

theorem Mild.refl (x : Proc) : Mild x x := .mk x.state x.chan x.xstate x.parent Iff.rfl

theorem mild_state {x : Proc} {st : ProcState} (ch : Option Chan) (h : x.state ≠ .UNUSED)
    (hst : st ≠ .UNUSED) : Mild x { x with state := st, chan := ch } :=
  .mk st ch x.xstate x.parent ⟨fun e => absurd e hst, fun e => absurd e h⟩

theorem write_same (h : s'.proc = s.proc) (q : Slot) : Write s e q (s'.proc q) := by
  rw [h]
  exact .mild (.refl _)

theorem write_update {y : Proc} (h : s'.proc = update s.proc p y) (hy : Write s e p y)
    (q : Slot) : Write s e q (s'.proc q) := by
  rw [h]
  by_cases hq : q = p
  · subst hq
    rwa [update_self]
  · rw [update_of_ne hq]
    exact .mild (.refl _)

theorem write_wake {r : Slot} {ch : Option Chan} (h : s'.proc = (s.wake r ch).proc) (q : Slot) :
    Write s e q (s'.proc q) := by
  unfold State.wake at h
  split at h
  · rename_i hr
    exact write_update h (.mild (mild_state _ (by rw [hr.1]; decide) (by decide))) q
  · exact write_same h q

theorem write_stepProc {ok : Bool} (hI : Inv s) (hp : (s.proc p).state = .RUNNING)
    (h : stepProc s p ok = .next s') (q : Slot) : Write s (.step p ok) q (s'.proc q) := by
  have hu : (s.proc p).state ≠ .UNUSED := by
    rw [hp]
    decide
  unfold stepProc at h
  split at h
  · cases h
  · rename_i i hpc
    split at h
    · split at h
      · rename_i hi hq
        split at h
        · cases h
          exact write_update rfl (.alloc hp hpc hq) q
        · cases h
          exact write_update (update_idem ..) (.free _) q
      · cases h
        exact write_same rfl q
    · cases h
      exact write_same rfl q
  · obtain ⟨-, rfl⟩ := guard_next h
    exact write_update rfl (.mild (.mk _ _ _ _ Iff.rfl)) q
  · rename_i r pid hpc
    cases h
    have embryo := (hI.placed p).child r (by rw [hpc]; rfl)
    refine write_update rfl (.mild (mild_state _ (fun e => ?_) (by decide))) q
    exact absurd (embryo.symm.trans (kind_eq e rfl)) (by decide)
  · obtain ⟨-, rfl⟩ := guard_next h
    exact write_same rfl q
  · split at h
    · split at h
      · cases h
        exact write_update rfl (.mild (.mk _ _ _ _ Iff.rfl)) q
      · cases h
        exact write_same rfl q
    · cases h
      exact write_same rfl q
  · split at h
    · cases h
      split
      · exact write_same rfl q
      · exact write_wake rfl q
    · cases h
      exact write_same rfl q
  · split at h
    · cases h
      split
      · exact write_same rfl q
      · exact write_wake rfl q
    · cases h
      exact write_same rfl q
  · cases h
    exact write_update rfl (.mild (.mk _ _ _ _ ⟨fun e => absurd e (by decide), fun e => absurd e hu⟩)) q
  · cases h
  · obtain ⟨-, rfl⟩ := guard_next h
    exact write_same rfl q
  · split at h
    · split at h
      · split at h
        · split at h
          · cases h
            exact write_update rfl (.free _) q
          · cases h
            exact write_same rfl q
        · cases h
          exact write_same rfl q
      · cases h
        exact write_same rfl q
    · cases h
      exact write_same rfl q
  · split at h
    · cases h
      exact write_same rfl q
    · cases h
      exact write_same rfl q
  · cases h
    exact write_update rfl (.mild (mild_state _ hu (by decide))) q
  · cases h
  · cases h
  · rename_i pid i hpc
    split at h
    · split at h
      · rename_i hi hpid
        cases h
        exact write_update rfl (.mark hpc hpid) q
      · cases h
        exact write_same rfl q
    · cases h
      exact write_same rfl q

theorem write_clock (h : stepClock s = .next s') (q : Slot) : Write s .clock q (s'.proc q) := by
  unfold stepClock at h
  split at h
  · cases h
  · split at h
    · cases h
      exact write_update rfl .tick q
    · cases h
      exact write_same rfl q
  · split at h
    · cases h
      exact write_wake rfl q
    · cases h
      exact write_same rfl q

theorem step_write (hI : Inv s) (h : step s e = .next s') (q : Slot) : Write s e q (s'.proc q) := by
  unfold step at h
  split at h
  · obtain ⟨-, rfl⟩ := guard_next h
    exact write_same rfl q
  · split at h
    · split at h
      · cases h
      · cases h
        exact write_same rfl q
    · cases h
  · obtain ⟨-, rfl⟩ := guard_next h
    exact write_same rfl q
  · obtain ⟨-, rfl⟩ := guard_next h
    exact write_same rfl q
  · obtain ⟨hi, rfl⟩ := guard_next h
    exact write_update rfl (.mild (mild_state _ (by rw [hi.1]; decide) (by decide))) q
  · obtain ⟨hp, h⟩ := ite_blocked h
    exact write_stepProc hI hp h q
  · obtain ⟨hi, rfl⟩ := guard_next h
    exact write_update rfl (.mild (mild_state _ (by rw [hi.1]; decide) (by decide))) q
  · obtain ⟨hi, rfl⟩ := guard_next h
    exact write_update rfl (.mild (mild_state _ (by rw [hi]; decide) (by decide))) q
  · cases h
    exact write_wake rfl q
  · obtain ⟨-, rfl⟩ := guard_next h
    exact write_same rfl q
  · exact write_clock h q

end
end Family
