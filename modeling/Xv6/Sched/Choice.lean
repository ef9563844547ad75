import Xv6.Sched.Dispatch
import Mathlib.Data.List.FinRange

/-!
# What the scheduler of a single CPU chooses

`fcfs` turns the interrupts off before it looks at the table, so on a single CPU nothing else
happens until it switches to a process or returns (`OneCpu`).

* `ScanInv`        what the scan of `fcfs` knows at each of its positions;
* `fcfs_leaves`    how `fcfs` ends: with the chosen process, or with a pass of `round_robin`;
* `fcfsPass`       it does end;
* `turns_eq`       a pass of `round_robin` gives every slot its turn, in order;
* `fcfs_choice`    all of this along every run of a single CPU.
-/

namespace Sched
open Run Function List

/-- CPU 0 is inside `fcfs`, with interrupts off -/
def Pc.inFcfs : Pc → Bool
  | .fcfsState _ _ _ => true
  | .fcfsSched _ _ _ => true
  | .fcfsMin _ _ _ => true
  | .fcfsTest _ _ => true
  | .fcfsSwitch _ => true
  | .roundRobin _ _ => false
  | .running _ _ => false

/-- the CPU an event happens on -/
def Event.cpu : Event → Nat
  | .scheduler c => c
  | .yield c => c
  | .sleep c _ => c
  | .exit c => c
  | .wakeup c _ _ => c
  | .kill c _ _ => c
  | .wait c _ => c
  | .allocproc c _ => c
  | .forkFail c _ => c
  | .forkDone c _ => c
  | .forkTick c _ => c
  | .changeScheduler c _ _ _ => c
  | .tick => 0

/-- there is only CPU 0, and inside `fcfs` it is not interrupted -/
def OneCpu (s : State) (e : Event) : Prop :=
  e.cpu = 0 ∧ ((s.cpu 0).pc.inFcfs = true → e = .scheduler 0)

/-- the steps of `fcfs` until it is left; they leave the table alone -/
inductive FcfsPass : State → State → Prop where
  | last {s t : State} (hs : (s.cpu 0).pc.inFcfs = true) (h : step s (.scheduler 0) = .next t)
      (ht : (t.cpu 0).pc.inFcfs = false) : FcfsPass s t
  | more {s u t : State} (hs : (s.cpu 0).pc.inFcfs = true) (h : step s (.scheduler 0) = .next u)
      (hu : u.proc = s.proc) (ht : FcfsPass u t) : FcfsPass s t

section
variable (proc : Slot → Proc)

/-- `RUNNABLE` with `sched` `FCFS` -/
def Waits (p : Slot) : Prop := (proc p).state = .RUNNABLE ∧ (proc p).sched = .FCFS

/-- the smaller starting tick, and the lower slot among equals -/
def Before (m q : Slot) : Prop :=
  (proc m).startingTick < (proc q).startingTick ∨
    (proc m).startingTick = (proc q).startingTick ∧ m ≤ q

def Chosen (m : Slot) : Prop := Waits proc m ∧ ∀ q, Waits proc q → Before proc m q

/-- `minP` is the choice among the slots below `i` -/
def Scanned (i : Nat) (minP : Option Slot) : Prop :=
  (minP = none → ∀ q : Slot, q.val < i → ¬ Waits proc q) ∧
    ∀ m, minP = some m → m.val < i ∧ Waits proc m ∧ ∀ q : Slot, q.val < i → Waits proc q → Before proc m q

def ScanInv : Pc → Prop
  | .fcfsState i minP found => Scanned proc i minP ∧ found = minP.isSome
  | .fcfsSched i minP found => Scanned proc i minP ∧ found = minP.isSome ∧ (proc i).state = .RUNNABLE
  | .fcfsMin i minP _ => Scanned proc i minP ∧ Waits proc i
  | .fcfsTest m _ => Chosen proc m
  | .fcfsSwitch m => Chosen proc m
  | .roundRobin _ _ => True
  | .running _ _ => True

end

/-! ## the scan -/

section
variable {proc : Slot → Proc} {i : Slot} {minP : Option Slot} {m : Slot}

theorem scanned_zero : Scanned proc 0 none :=
  ⟨fun _ q h => absurd h (Nat.not_lt_zero _), fun m h => by cases h⟩

theorem Scanned.skip (h : Scanned proc i minP) (hi : ¬ Waits proc i) : Scanned proc (i.val + 1) minP := by
  have hlt : ∀ q : Slot, q.val < i.val + 1 → Waits proc q → q.val < i.val := by
    intro q hq hw
    refine Nat.lt_of_le_of_ne (Nat.le_of_lt_succ hq) fun e => hi ?_
    rwa [← Fin.ext e]
  refine ⟨fun e q hq hw => h.1 e q (hlt q hq hw) hw, fun m e => ?_⟩
  obtain ⟨h1, h2, h3⟩ := h.2 m e
  exact ⟨Nat.lt_succ_of_lt h1, h2, fun q hq hw => h3 q (hlt q hq hw) hw⟩

theorem Scanned.compare (h : Scanned proc i minP) (hi : Waits proc i) :
    Scanned proc (i.val + 1) (some (fcfsMinP proc i minP)) := by
  refine ⟨fun e => (by cases e), fun m e => ?_⟩
  have e' : fcfsMinP proc i minP = m := Option.some.inj e
  have hcase : ∀ q : Slot, q.val < i.val + 1 → q.val < i.val ∨ q = i := by
    intro q hq
    exact (Nat.lt_or_eq_of_le (Nat.le_of_lt_succ hq)).imp_right Fin.ext
  cases minP with
  | none =>
    have hm : i = m := e'
    subst hm
    refine ⟨Nat.lt_succ_self _, hi, fun q hq hw => ?_⟩
    rcases hcase q hq with hlt | rfl
    · exact absurd hw (h.1 rfl q hlt)
    · exact .inr ⟨rfl, le_rfl⟩
  | some m0 =>
    obtain ⟨h1, h2, h3⟩ := h.2 m0 rfl
    unfold fcfsMinP at e'
    dsimp only at e'
    split at e'
    · next hlt =>
      subst e'
      refine ⟨Nat.lt_succ_self _, hi, fun q hq hw => ?_⟩
      rcases hcase q hq with hq' | rfl
      · left
        rcases h3 q hq' hw with hb | ⟨hb, -⟩ <;> omega
      · exact .inr ⟨rfl, le_rfl⟩
    · next hlt =>
      subst e'
      refine ⟨Nat.lt_succ_of_lt h1, h2, fun q hq hw => ?_⟩
      rcases hcase q hq with hq' | rfl
      · exact h3 q hq' hw
      · rcases Int.lt_or_eq_of_le (Int.not_lt.mp hlt) with hb | hb
        · exact .inl hb
        · exact .inr ⟨hb, Fin.le_def.mpr (Nat.le_of_lt h1)⟩

theorem Scanned.all (h : Scanned proc NPROC minP) :
    (minP = none → ∀ p, ¬ Waits proc p) ∧ ∀ m, minP = some m → Chosen proc m :=
  ⟨fun e p => h.1 e p p.isLt, fun m e => ⟨(h.2 m e).2.1, fun q => (h.2 m e).2.2 q q.isLt⟩⟩

theorem Scanned.next (h : Scanned proc (i.val + 1) minP) :
    (i.val + 1 < NPROC ∧ ∃ hi, fcfsNext i minP minP.isSome = .fcfsState ⟨i.val + 1, hi⟩ minP minP.isSome) ∨
      (∃ m, Chosen proc m ∧ fcfsNext i minP minP.isSome = .fcfsTest m true) ∨
      (∀ p, ¬ Waits proc p) ∧ fcfsNext i minP minP.isSome = .roundRobin slot0 false := by
  by_cases hi : i.val + 1 < NPROC
  · left
    refine ⟨hi, hi, ?_⟩
    unfold fcfsNext
    rw [dif_pos hi]
  right
  have he : i.val + 1 = NPROC := Nat.le_antisymm i.isLt (Nat.le_of_not_lt hi)
  rw [he] at h
  obtain ⟨hn, hs⟩ := h.all
  unfold fcfsNext
  rw [dif_neg hi]
  cases minP with
  | none => exact .inr ⟨hn rfl, rfl⟩
  | some m => exact .inl ⟨m, hs m rfl, rfl⟩

end

/-! ## one pass of `fcfs` -/

theorem setCpu_cpu (s : State) (c : Nat) (x : Cpu) : (s.setCpu c x).cpu c = x := by
  exact update_self ..

theorem setCpu_setCpu (s : State) (c : Nat) (x y : Cpu) : (s.setCpu c x).setCpu c y = s.setCpu c y := by
  show State.mk s.proc (update (update s.cpu c x) c y) s.nextpid s.ticks = _
  rw [update_idem]
  rfl

/-- the steps that `fcfs` can still make -/
def Pc.rank : Pc → Nat
  | .fcfsState i _ _ => 3 * (NPROC - i.val) + 2
  | .fcfsSched i _ _ => 3 * (NPROC - i.val) + 1
  | .fcfsMin i _ _ => 3 * (NPROC - i.val)
  | .fcfsTest _ _ => 2
  | .fcfsSwitch _ => 1
  | .roundRobin _ _ => 0
  | .running _ _ => 0

/-- the scan goes on -/
def GoesOn (s : State) (t : State) : Prop :=
  ∃ pc, t = s.setCpu 0 ⟨pc, none⟩ ∧ pc.inFcfs = true ∧ ScanInv s.proc pc ∧ pc.rank < (s.cpu 0).pc.rank

/-- `fcfs` ends -/
def Ends (s t : State) : Prop :=
  (∃ m, Chosen s.proc m ∧ t = switchTo s 0 m .fcfs) ∨
    (∀ p, ¬ Waits s.proc p) ∧ t = s.setCpu 0 ⟨.roundRobin slot0 false, none⟩

section
variable {s t : State} {i : Slot} {minP : Option Slot}

theorem Scanned.goes (h : Scanned s.proc (i.val + 1) minP) (hr : 3 * (NPROC - i.val) ≤ (s.cpu 0).pc.rank) :
    GoesOn s (s.setCpu 0 ⟨fcfsNext i minP minP.isSome, none⟩) ∨
      Ends s (s.setCpu 0 ⟨fcfsNext i minP minP.isSome, none⟩) := by
  rcases h.next with ⟨hi, hi', e⟩ | ⟨m, hm, e⟩ | ⟨hn, e⟩
  · rw [e]
    refine .inl ⟨_, rfl, rfl, ⟨h, rfl⟩, ?_⟩
    show 3 * (NPROC - (i.val + 1)) + 2 < _
    omega
  · rw [e]
    refine .inl ⟨_, rfl, rfl, hm, ?_⟩
    show 2 < _
    omega
  · rw [e]
    exact .inr (.inr ⟨hn, rfl⟩)

/-- **One step inside `fcfs`.** -/
theorem fcfs_step (hpc : (s.cpu 0).pc.inFcfs = true) (hi : ScanInv s.proc (s.cpu 0).pc) :
    ∃ t, step s (.scheduler 0) = .next t ∧ (GoesOn s t ∨ Ends s t) := by
  cases e : (s.cpu 0).pc with
  | fcfsState i minP found =>
    rw [e] at hi
    obtain ⟨hsc, rfl⟩ := hi
    have hr : (s.cpu 0).pc.rank = 3 * (NPROC - i.val) + 2 := by rw [e]; rfl
    simp only [step, schedulerStep, e]
    split
    · next h => exact ⟨_, rfl, (hsc.skip fun hw => h hw.1).goes (by omega)⟩
    · next h =>
      refine ⟨_, rfl, .inl ⟨_, rfl, rfl, ⟨hsc, rfl, Decidable.not_not.mp h⟩, ?_⟩⟩
      rw [hr]
      exact Nat.lt_succ_self _
  | fcfsSched i minP found =>
    rw [e] at hi
    obtain ⟨hsc, rfl, hst⟩ := hi
    have hr : (s.cpu 0).pc.rank = 3 * (NPROC - i.val) + 1 := by rw [e]; rfl
    simp only [step, schedulerStep, e]
    split
    · next h =>
      refine ⟨_, rfl, .inl ⟨_, rfl, rfl, ⟨hsc, hst, h⟩, ?_⟩⟩
      rw [hr]
      exact Nat.lt_succ_self _
    · next h => exact ⟨_, rfl, (hsc.skip fun hw => h hw.2).goes (by omega)⟩
  | fcfsMin i minP found =>
    rw [e] at hi
    obtain ⟨hsc, hw⟩ := hi
    have hr : (s.cpu 0).pc.rank = 3 * (NPROC - i.val) := by rw [e]; rfl
    simp only [step, schedulerStep, e]
    exact ⟨_, rfl, (hsc.compare hw).goes (by omega)⟩
  | fcfsTest m found =>
    rw [e] at hi
    have hm : Chosen s.proc m := hi
    simp only [step, schedulerStep, e]
    rw [if_pos hm.1.1]
    refine ⟨_, rfl, .inl ⟨_, rfl, rfl, hm, ?_⟩⟩
    rw [e]
    exact Nat.lt_succ_self _
  | fcfsSwitch m =>
    rw [e] at hi
    have hm : Chosen s.proc m := hi
    simp only [step, schedulerStep, e]
    exact ⟨_, rfl, .inr (.inl ⟨m, hm, rfl⟩)⟩
  | roundRobin i found | running p ret =>
    rw [e] at hpc
    cases hpc

theorem GoesOn.proc_eq (h : GoesOn s t) : t.proc = s.proc := by
  obtain ⟨pc, rfl, -⟩ := h
  rfl

theorem GoesOn.pc (h : GoesOn s t) :
    (t.cpu 0).pc.inFcfs = true ∧ ScanInv t.proc (t.cpu 0).pc ∧ (t.cpu 0).pc.rank < (s.cpu 0).pc.rank := by
  obtain ⟨pc, rfl, h1, h2, h3⟩ := h
  rw [setCpu_cpu]
  exact ⟨h1, h2, h3⟩

theorem Ends.pc (h : Ends s t) : (t.cpu 0).pc.inFcfs = false := by
  rcases h with ⟨m, -, rfl⟩ | ⟨-, rfl⟩
  · rw [switchTo, setCpu_cpu]
    rfl
  · rw [setCpu_cpu]
    rfl

theorem fcfs_leaves (hpc : (s.cpu 0).pc.inFcfs = true) (hi : ScanInv s.proc (s.cpu 0).pc)
    (h : step s (.scheduler 0) = .next t) (ht : (t.cpu 0).pc.inFcfs = false) : Ends s t := by
  obtain ⟨t', h', hg | he⟩ := fcfs_step hpc hi
  · cases Outcome.next.inj (h.symm.trans h')
    rw [hg.pc.1] at ht
    cases ht
  · cases Outcome.next.inj (h.symm.trans h')
    exact he

theorem GoesOn.ends {u : State} (h : GoesOn s u) (he : Ends u t) : Ends s t := by
  obtain ⟨pc, rfl, -⟩ := h
  rcases he with ⟨m, hm, rfl⟩ | ⟨hn, rfl⟩
  · exact .inl ⟨m, hm, setCpu_setCpu (s.setProc m _) 0 ⟨pc, none⟩ _⟩
  · exact .inr ⟨hn, setCpu_setCpu s 0 ⟨pc, none⟩ _⟩

theorem fcfsPass (hpc : (s.cpu 0).pc.inFcfs = true) (hi : ScanInv s.proc (s.cpu 0).pc) :
    ∃ t, FcfsPass s t ∧ Ends s t := by
  induction hn : (s.cpu 0).pc.rank using Nat.strongRecOn generalizing s with
  | ind n ih =>
    obtain ⟨u, hu, hg | he⟩ := fcfs_step hpc hi
    · obtain ⟨h1, h2, h3⟩ := hg.pc
      obtain ⟨t, ht, he⟩ := ih _ (hn ▸ h3) h1 h2 rfl
      exact ⟨t, .more hpc hu hg.proc_eq ht, hg.ends he⟩
    · exact ⟨u, .last hpc hu he.pc, he⟩

end

/-! ## runs -/

section
variable {s t : State} {e : Event}

/-- what an event that is not a step of its scheduler does to CPU 0 -/
theorem step_pc (h : step s e = .next t) (he : e ≠ .scheduler 0) :
    (t.cpu 0).pc = (s.cpu 0).pc ∨ ∃ p ret, (s.cpu 0).pc = .running p ret ∧ (t.cpu 0).pc = ret.pc := by
  rcases step_cases h with ⟨c, rfl, pc, -, -, -, rfl⟩ | ⟨c, p, ret, rfl, -, rfl⟩ |
    ⟨c, p, ret, x, u, hc, hu, -, rfl⟩ | ⟨hc, -⟩
  · left
    have hc : (0 : Nat) ≠ c := fun e => he (e ▸ rfl)
    exact congrArg Cpu.pc (update_of_ne hc _ _)
  · left
    have hc : (0 : Nat) ≠ c := fun e => he (e ▸ rfl)
    exact congrArg Cpu.pc (update_of_ne hc _ _)
  · by_cases h0 : c = 0
    · subst h0
      exact .inr ⟨p, ret, hc, congrArg Cpu.pc (setCpu_cpu _ 0 _)⟩
    · left
      rw [← hu]
      exact congrArg Cpu.pc (update_of_ne (Ne.symm h0) _ _)
  · exact .inl (congrArg (fun f => Cpu.pc (f 0)) hc)

theorem scanInv_start (proc : Slot → Proc) : ScanInv proc fcfsStart := ⟨scanned_zero, rfl⟩

theorem scanInv_roundRobinNext (proc : Slot → Proc) (i : Slot) (found : Bool) :
    ScanInv proc (roundRobinNext i found) := by
  unfold roundRobinNext
  split
  · exact trivial
  · exact scanInv_start proc

theorem scanInv_of_not_inFcfs {proc : Slot → Proc} {pc : Pc} (h : pc.inFcfs = false) : ScanInv proc pc := by
  cases pc with
  | roundRobin i found | running p ret => exact trivial
  | fcfsState i minP found | fcfsSched i minP found | fcfsMin i minP found | fcfsTest m found | fcfsSwitch m =>
    cases h

theorem roundRobin_step {i : Slot} {found : Bool} (hpc : (s.cpu 0).pc = .roundRobin i found) :
    step s (.scheduler 0) = .next
      (if (s.proc i).state = .RUNNABLE ∧ (s.proc i).sched = .RR then switchTo s 0 i (.roundRobin i)
        else s.setCpu 0 ⟨roundRobinNext i found, none⟩) := by
  simp only [step, schedulerStep, hpc]
  split <;> rfl

theorem step_scanInv (hi : ScanInv s.proc (s.cpu 0).pc) (hc : OneCpu s e) (h : step s e = .next t) :
    ScanInv t.proc (t.cpu 0).pc := by
  cases hin : (s.cpu 0).pc.inFcfs with
  | true =>
    cases hc.2 hin
    obtain ⟨t', h', hg | he⟩ := fcfs_step hin hi
    · cases Outcome.next.inj (h.symm.trans h')
      exact hg.pc.2.1
    · cases Outcome.next.inj (h.symm.trans h')
      exact scanInv_of_not_inFcfs he.pc
  | false =>
    by_cases he : e = .scheduler 0
    · subst he
      cases hpc : (s.cpu 0).pc with
      | roundRobin i found =>
        rw [roundRobin_step hpc] at h
        cases h
        split
        · rw [switchTo, setCpu_cpu]
          exact trivial
        · rw [setCpu_cpu]
          exact scanInv_roundRobinNext _ i found
      | running p ret =>
        simp only [step, schedulerStep, hpc] at h
        cases h
      | _ =>
        rw [hpc] at hin
        cases hin
    · rcases step_pc h he with hpc | ⟨p, ret, -, hpc⟩
      · rw [hpc]
        exact scanInv_of_not_inFcfs hin
      · rw [hpc]
        cases ret with
        | fcfs => exact scanInv_start _
        | roundRobin i => exact scanInv_roundRobinNext _ i true

end

/-! ## a pass of `round_robin` -/

/-- the slot whose turn it is in `round_robin` -/
def turn (s : State) (e : Event) : Option Slot :=
  match e, (s.cpu 0).pc with
  | .scheduler 0, .roundRobin i _ => some i
  | _, _ => none

/-- the turns of a run, in order -/
def turns : State → List Event → List Slot
  | _, [] => []
  | s, e :: es =>
    match step s e with
    | .next s' => (turn s e).toList ++ turns s' es
    | _ => []

/-- a single CPU inside a pass of `round_robin` -/
def InPass (s : State) (e : Event) : Prop := OneCpu s e ∧ (s.cpu 0).pc.inFcfs = false

/-- the slots that had their turn -/
def Pc.past : Pc → Nat
  | .roundRobin i _ => i.val
  | .running _ (.roundRobin i) => i.val + 1
  | _ => NPROC

/-- inside a pass, or right behind it -/
def Pc.ofPass : Pc → Prop
  | .roundRobin _ _ => True
  | .running _ (.roundRobin _) => True
  | pc => pc = fcfsStart

section
variable {s t : State} {e : Event}

theorem take_past (i : Slot) :
    (List.finRange NPROC).take i.val ++ [i] = (List.finRange NPROC).take (i.val + 1) := by
  rw [take_add_one, getElem?_eq_getElem (by rw [length_finRange]; exact i.isLt)]
  simp

theorem roundRobinNext_past (i : Slot) (found : Bool) :
    (roundRobinNext i found).ofPass ∧ (roundRobinNext i found).past = i.val + 1 := by
  unfold roundRobinNext
  split
  · exact ⟨trivial, rfl⟩
  · next h => exact ⟨rfl, Nat.le_antisymm (Nat.le_of_not_lt h) i.isLt⟩

theorem step_turn (hp : (s.cpu 0).pc.ofPass) (hc : InPass s e) (h : step s e = .next t) :
    (t.cpu 0).pc.ofPass ∧ (List.finRange NPROC).take (s.cpu 0).pc.past ++ (turn s e).toList =
      (List.finRange NPROC).take (t.cpu 0).pc.past := by
  by_cases he : e = .scheduler 0
  · subst he
    cases hpc : (s.cpu 0).pc with
    | roundRobin i found =>
      have ht : turn s (.scheduler 0) = some i := by simp only [turn, hpc]
      rw [roundRobin_step hpc] at h
      rw [ht]
      cases h
      refine ⟨?_, (take_past i).trans (congrArg (fun n => (finRange NPROC).take n) ?_)⟩
      · split
        · rw [switchTo, setCpu_cpu]
          exact trivial
        · rw [setCpu_cpu]
          exact (roundRobinNext_past i found).1
      · split
        · rw [switchTo, setCpu_cpu]
          rfl
        · rw [setCpu_cpu]
          exact (roundRobinNext_past i found).2.symm
    | running p ret =>
      simp only [step, schedulerStep, hpc] at h
      cases h
    | _ =>
      rw [InPass, hpc] at hc
      cases hc.2
  · have ht : turn s e = none := by
      unfold turn
      split
      · exact absurd rfl he
      · rfl
    rw [ht, Option.toList_none, append_nil]
    rcases step_pc h he with hpc | ⟨p, ret, hs, hpc⟩
    · rw [hpc]
      exact ⟨hp, rfl⟩
    rw [hs] at hp ⊢
    rw [hpc]
    cases ret with
    | fcfs => cases hp
    | roundRobin i =>
      obtain ⟨h1, h2⟩ := roundRobinNext_past i true
      exact ⟨h1, congrArg (fun n => (finRange NPROC).take n) h2.symm⟩

/-- **The turns of a pass.** -/
theorem turns_eq {es : List Event} (hp : (s.cpu 0).pc.ofPass) (hc : Along step InPass s es)
    (h : exec step s es = .next t) :
    (List.finRange NPROC).take (s.cpu 0).pc.past ++ turns s es =
      (List.finRange NPROC).take (t.cpu 0).pc.past := by
  induction es generalizing s with
  | nil =>
    cases h
    rw [turns, append_nil]
  | cons e es ih =>
    obtain ⟨s', hs', h'⟩ := exec_cons h
    obtain ⟨hp', hturn⟩ := step_turn hp hc.1 hs'
    have hcons : turns s (e :: es) = (turn s e).toList ++ turns s' es := by simp only [turns, hs']
    rw [hcons, ← append_assoc, hturn]
    exact ih hp' (hc.2 s' hs') h'

/-- a turn for the slot `i`: it gets the CPU if it is `RUNNABLE` with `sched` `RR`, and nothing else
changes in the table -/
def GetsTurn (s t : State) (i : Slot) : Prop :=
  (∀ q, q ≠ i → t.proc q = s.proc q) ∧
    if (s.proc i).state = .RUNNABLE ∧ (s.proc i).sched = .RR then
      t.proc i = { s.proc i with state := .RUNNING } ∧ (t.cpu 0).proc = some i
    else t.proc i = s.proc i ∧ (t.cpu 0).proc = none

theorem roundRobin_getsTurn {i : Slot} {found : Bool} (hpc : (s.cpu 0).pc = .roundRobin i found)
    (h : step s (.scheduler 0) = .next t) : GetsTurn s t i := by
  rw [roundRobin_step hpc] at h
  cases h
  unfold GetsTurn
  split
  · refine ⟨fun q hq => update_of_ne hq _ _, update_self _ _ _, ?_⟩
    rw [switchTo, setCpu_cpu]
  · refine ⟨fun q hq => rfl, rfl, ?_⟩
    rw [setCpu_cpu]

end

end Sched
