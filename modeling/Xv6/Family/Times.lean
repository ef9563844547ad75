import Xv6.Family.Children
import Xv6.Family.Slots

/-!
# The times of a process

`update_pinfo` counts in the slot, and neither `freeproc` nor `allocproc` nor `fork` sets the counters
to 0: a process also has the ticks of those who had its slot before (`times_inherited`).

* `Timed`         the counters of a slot in use say what its process has lived through;
* `times_own`     `Timed`, and `procinfo`, in every run where `allocproc` finds the counters at 0.
-/

namespace Family
open Run BitVec
open Sched (NPROC Slot ProcState slot0)

/-- the counters of the slot are 0 -/
def Proc.unspent (x : Proc) : Prop := x.runningTime = 0 ∧ x.readyTime = 0 ∧ x.sleepingTime = 0

instance (x : Proc) : Decidable x.unspent := inferInstanceAs (Decidable (_ ∧ _ ∧ _))

/-- when the next step of the process takes a slot for `fork`, its counters are 0 -/
def takesUnspent (s : State) : Event → Prop
  | .step p _ => ∀ q : Slot, s.pc p = .alloc q.val → (s.proc q).state = .UNUSED → (s.proc q).unspent
  | _ => True

instance (s : State) (e : Event) : Decidable (takesUnspent s e) := by
  cases e <;> dsimp only [takesUnspent] <;> infer_instance

/-- the counters say what the process has lived through -/
structure Timed (x : Proc) : Prop where
  running : x.runningTime = BitVec.ofNat 32 x.lived.running
  ready : x.readyTime = BitVec.ofNat 32 x.lived.ready
  sleeping : x.sleepingTime = BitVec.ofNat 32 x.lived.sleeping

/-- the ticks a process has lived through -/
def Lived.total (l : Lived) : Nat := l.running + l.ready + l.sleeping

section
variable {s s' : State} {e : Event}

theorem timed_updatePinfo {x : Proc} (h : Timed x) : Timed (updatePinfo x) := by
  have succ : ∀ {w : Word} {n : Nat}, w = BitVec.ofNat 32 n → w + 1 = BitVec.ofNat 32 (n + 1) := by
    intro w n hw
    rw [hw]
    exact (ofNat_add n 1).symm
  unfold updatePinfo
  split
  · exact ⟨h.running, h.ready, succ h.sleeping⟩
  · exact ⟨succ h.running, h.ready, h.sleeping⟩
  · exact ⟨h.running, succ h.ready, h.sleeping⟩
  · exact h

theorem updatePinfo_state (x : Proc) : (updatePinfo x).state = x.state := by
  unfold updatePinfo
  split <;> rfl

theorem timed_step (hI : Inv s) (hT : ∀ q, (s.proc q).state ≠ .UNUSED → Timed (s.proc q))
    (he : takesUnspent s e) (h : step s e = .next s') (q : Slot)
    (hq : (s'.proc q).state ≠ .UNUSED) : Timed (s'.proc q) := by
  have hw := step_write hI h q
  revert hw hq
  generalize s'.proc q = y
  intro hq hw
  cases hw with
  | mild hm =>
    obtain ⟨st, ch, xs, pa, hst⟩ := hm
    have old := hT q fun e => hq (hst.mpr e)
    exact ⟨old.running, old.ready, old.sleeping⟩
  | mark _ _ =>
    have old : Timed (s.proc q) := by
      apply hT q
      intro e
      apply hq
      dsimp only [marked]
      rw [e]
      rfl
    exact ⟨old.running, old.ready, old.sleeping⟩
  | tick =>
    rw [updatePinfo_state] at hq
    exact timed_updatePinfo (hT q hq)
  | alloc _ hpc hu =>
    obtain ⟨h1, h2, h3⟩ := he q hpc hu
    exact ⟨h1, h2, h3⟩
  | free _ => exact absurd rfl hq

end

theorem timed_run {es : List Event} {s : State} (hC : Along step takesUnspent init es)
    (h : exec step init es = .next s) :
    Inv s ∧ ∀ q, (s.proc q).state ≠ .UNUSED → Timed (s.proc q) := by
  apply exec_inv (fun s => Inv s ∧ ∀ q, (s.proc q).state ≠ .UNUSED → Timed (s.proc q)) ?_
    ⟨inv_init, fun q _ => ?_⟩ hC h
  · exact fun _ _ _ ⟨hI, hT⟩ he hs => ⟨inv_step hI hs, timed_step hI hT he hs⟩
  · unfold init
    dsimp only
    rw [Function.update_apply]
    split <;> exact ⟨rfl, rfl, rfl⟩

/-! ## `procinfo` -/

section
variable {s : State}

theorem toInt_of_lt {w : Word} {n : Nat} (h : w = BitVec.ofNat 32 n) (hn : n < 2 ^ 31) :
    w.toInt = n := by
  rw [h, toInt_eq_toNat_of_lt] <;> rw [toNat_ofNat] <;> omega

theorem Timed.total {x : Proc} (h : Timed x) :
    x.runningTime + x.sleepingTime + x.readyTime = BitVec.ofNat 32 x.lived.total := by
  rw [h.running, h.ready, h.sleeping, ← ofNat_add, ← ofNat_add]
  rw [Lived.total, Nat.add_right_comm]

theorem procinfo_slot {pid : Word} {i : Info} (h : procinfo s pid = some i) :
    ∃ q, (s.proc q).pid = pid ∧
      i.turnaroundTime = (s.proc q).runningTime + (s.proc q).sleepingTime + (s.proc q).readyTime ∧
      i.cpuBurstTime = (s.proc q).runningTime ∧ i.waitingTime = (s.proc q).sleepingTime := by
  obtain ⟨q, hq, hi⟩ := Option.map_eq_some_iff.mp h
  have hpid := List.find?_some hq
  refine ⟨q, of_decide_eq_true hpid, ?_⟩
  rw [← hi]
  exact ⟨rfl, rfl, rfl⟩

end

/-- **The times are the process's own**, in every run in which `allocproc` takes only slots whose
counters are 0: they add up to the ticks the process has lived through, and `procinfo` reports
these. -/
theorem times_own {es : List Event} {s : State} (hC : Along step takesUnspent init es)
    (h : exec step init es = .next s) :
    (∀ q, (s.proc q).state ≠ .UNUSED → (s.proc q).lived.total < 2 ^ 31 →
      (s.proc q).runningTime.toInt + (s.proc q).readyTime.toInt + (s.proc q).sleepingTime.toInt
        = (s.proc q).lived.total) ∧
    ∀ pid i, pid ≠ 0 → procinfo s pid = some i →
      ∃ q, (s.proc q).pid = pid ∧ (s.proc q).state ≠ .UNUSED ∧
        ((s.proc q).lived.total < 2 ^ 31 → i.turnaroundTime.toInt = (s.proc q).lived.total ∧
          i.cpuBurstTime.toInt = (s.proc q).lived.running ∧
          i.waitingTime.toInt = (s.proc q).lived.sleeping) := by
  obtain ⟨hI, hT⟩ := timed_run hC h
  have bounds : ∀ l : Lived, l.total < 2 ^ 31 →
      l.running < 2 ^ 31 ∧ l.ready < 2 ^ 31 ∧ l.sleeping < 2 ^ 31 := by
    intro l hl
    unfold Lived.total at hl
    omega
  refine ⟨fun q hq hb => ?_, fun pid i hpid hi => ?_⟩
  · obtain ⟨b1, b2, b3⟩ := bounds _ hb
    rw [toInt_of_lt (hT q hq).running b1, toInt_of_lt (hT q hq).ready b2,
      toInt_of_lt (hT q hq).sleeping b3]
    rfl
  · obtain ⟨q, hq, h1, h2, h3⟩ := procinfo_slot hi
    have used : (s.proc q).state ≠ .UNUSED := fun e =>
      hpid (hq.symm.trans (hI.tree.free q (kind_eq e rfl)).2)
    refine ⟨q, hq, used, fun hb => ?_⟩
    obtain ⟨b1, b2, b3⟩ := bounds _ hb
    rw [h1, h2, h3]
    exact ⟨toInt_of_lt (hT q used).total hb, toInt_of_lt (hT q used).running b1,
      toInt_of_lt (hT q used).sleeping b3⟩

/-- `init` forks, and a clock interrupt comes -/
def forkTick : List Event :=
  [.dispatch slot0, .fork slot0] ++ List.replicate 4 (.step slot0 true) ++
  [.tick] ++ List.replicate 130 .clock

theorem times_own_forkTick :
    ∃ s, exec step init forkTick = .next s ∧ (s.proc slot1).state = .RUNNABLE ∧
      (s.proc slot1).lived = ⟨0, 1, 0⟩ ∧
      (s.proc slot1).runningTime.toInt + (s.proc slot1).readyTime.toInt
        + (s.proc slot1).sleepingTime.toInt = 1 := by
  obtain ⟨s, hs, hst, hl⟩ := exists_of_check
    (p := fun s : State => (s.proc slot1).state = .RUNNABLE ∧ (s.proc slot1).lived = ⟨0, 1, 0⟩)
    (show (exec step init forkTick).check _ = true by decide +kernel)
  have hC : Along step takesUnspent init forkTick := along_of_check (by decide +kernel)
  have := (times_own hC hs).1 slot1 (by rw [hst]; decide) (by rw [hl]; decide)
  rw [hl] at this
  exact ⟨s, hs, hst, hl, this⟩

/-! ## a slot with a past -/

/-- the child of `forkTick` exits, `init` waits for it and forks again -/
def forkAgain : List Event :=
  forkTick ++ [.dispatch slot1, .exit slot1 0] ++ List.replicate 132 (.step slot1 true) ++
  [.wait slot0] ++ List.replicate 3 (.step slot0 true) ++
  [.fork slot0] ++ List.replicate 4 (.step slot0 true)

/-- the new child has not lived through a tick, and `procinfo` reports one -/
theorem times_inherited :
    ∃ s, exec step init forkAgain = .next s ∧ (s.proc slot1).state = .RUNNABLE ∧
      (s.proc slot1).pid = 3 ∧ (s.proc slot1).lived = ⟨0, 0, 0⟩ ∧ (s.proc slot1).readyTime = 1 ∧
      (procinfo s 3).map Info.turnaroundTime = some 1 :=
  exists_of_check
    (p := fun s : State => (s.proc slot1).state = .RUNNABLE ∧
      (s.proc slot1).pid = 3 ∧ (s.proc slot1).lived = ⟨0, 0, 0⟩ ∧ (s.proc slot1).readyTime = 1 ∧
      (procinfo s 3).map Info.turnaroundTime = some 1) (by decide +kernel)

end Family
