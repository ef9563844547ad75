import Xv6.Sync.Killable
import Xv6.Sync.SleepLock

/-!
# Is `kill` lost?

`wait`, `piperead`, `pipewrite`, `consoleread` and `sys_sleep` test `killed(p)`, which takes and
releases `p->lock`, and then call `sleep`, which takes it again.  A `kill` between the two finds the
process `RUNNING`, sets `killed` and wakes nobody, and the process goes to sleep (`kill_lost`, one run
for each of the five loops).

* `calls_heed`      apart from that window the loops are right;
* `kill_heeded`     along every run in which no `kill` falls into the window of its victim, no killed
                    process sleeps in one of them.
-/

namespace Sync
open Run Prog Bytes
open Sched (Slot NPROC ProcState slot0)

/-- the channels of the killable loops: all but those of sleep-locks -/
def KillChan : KChan → Prop
  | .sleep _ => False
  | _ => True

section
variable {g : Unit → Code kernel Unit} {i j : Nat}

theorem acquiresleepLoop_heeds (fuel : Nat) (h : Heeds (M := kernel) KillChan (g ())) :
    Heeds (M := kernel) KillChan ((acquiresleepLoop i fuel).bind g) := by
  induction fuel with
  | zero => exact heeds_panic
  | succ fuel ih =>
    refine heeds_work fun x => ?_
    cases x with
    | false => exact h
    | true => exact heeds_sleep id ih

theorem readerGone_heeds {g : Bool → Code kernel Unit} (ht : Heeds (M := kernel) KillChan (g true))
    (hf : Killable (M := kernel) KillChan (g false)) :
    Heeds (M := kernel) KillChan ((readerGone j).bind g) := by
  refine heeds_work fun x => ?_
  cases x with
  | true => exact heeds_killed ht hf
  | false => exact ht

theorem pipewriteLoop_heeds {g : Option Nat → Code kernel Unit} (src : Nat → Option Byte) (n : Int)
    (fuel : Nat) {i fresh : Nat} (h : ∀ r, Heeds (M := kernel) KillChan (g r)) :
    Heeds (M := kernel) KillChan ((pipewriteLoop j src n fuel i fresh).bind g) := by
  induction fuel generalizing i fresh with
  | zero => exact heeds_panic
  | succ fuel ih =>
    unfold pipewriteLoop
    split
    · rw [bind_eq, bind_assoc]
      refine readerGone_heeds (heeds_work fun _ => heeds_release (h none)) ?_
      refine killable_work fun x => ?_
      cases x with
      | true => exact killable_wakeup (killable_sleep ih)
      | false =>
        cases src i with
        | none => exact (h _).killable
        | some ch => exact killable_work fun _ => ih.killable
    · exact h _

theorem mustWait_heeds {g : Bool → Code kernel Unit} (h : ∀ r, Heeds (M := kernel) KillChan (g r)) :
    Heeds (M := kernel) KillChan ((mustWait j).bind g) := by
  refine heeds_work fun x => ?_
  cases x with
  | true => exact heeds_work fun r => h r
  | false => exact h false

theorem pipereadWait_heeds {g : Bool → Code kernel Unit} (fuel : Nat)
    (h : ∀ r, Heeds (M := kernel) KillChan (g r)) :
    Heeds (M := kernel) KillChan ((pipereadWait j fuel).bind g) := by
  induction fuel with
  | zero => exact heeds_panic
  | succ fuel ih =>
    rw [pipereadWait, bind_eq, bind_assoc]
    refine mustWait_heeds fun r => ?_
    cases r with
    | false => exact h true
    | true => exact heeds_killed (heeds_release (h false)) (killable_sleep ih)

theorem pipereadCopy_heeds {g : Nat → Code kernel Unit} (dst : Nat → Bool) (m : Nat) {i : Nat}
    (h : ∀ r, Heeds (M := kernel) KillChan (g r)) :
    Heeds (M := kernel) KillChan ((pipereadCopy j dst m i).bind g) := by
  induction m generalizing i with
  | zero => exact h i
  | succ m ih =>
    refine heeds_work fun x => ?_
    cases x with
    | true => exact h i
    | false =>
      refine heeds_work fun x => ?_
      cases dst i with
      | true => exact ih
      | false => exact h i

theorem noWait_heeds {g : Bool → Code kernel Unit} (ht : Heeds (M := kernel) KillChan (g true))
    (hf : Killable (M := kernel) KillChan (g false)) :
    Heeds (M := kernel) KillChan (noWait.bind g) := by
  refine heeds_work fun x => ?_
  cases x with
  | true => exact heeds_killed ht hf
  | false => exact ht

theorem waitLoop_heeds {g : Int → Code kernel Unit} (q : Slot) (copied : Bool) (fuel : Nat)
    (h : ∀ r, Heeds (M := kernel) KillChan (g r)) :
    Heeds (M := kernel) KillChan ((waitLoop q copied fuel).bind g) := by
  induction fuel with
  | zero => exact heeds_panic
  | succ fuel ih =>
    refine heeds_work fun z => ?_
    cases z with
    | some pid =>
      cases copied with
      | true => exact heeds_work fun _ => heeds_release (h _)
      | false => exact heeds_release (h _)
    | none =>
      show Heeds _ (Prog.bind (noWait.bind _) g)
      rw [bind_assoc]
      exact noWait_heeds (heeds_release (h _)) (killable_sleep ih)

theorem consoleWait_heeds {g : Bool → Code kernel Unit} (fuel : Nat)
    (h : ∀ r, Heeds (M := kernel) KillChan (g r)) :
    Heeds (M := kernel) KillChan ((consoleWait fuel).bind g) := by
  induction fuel with
  | zero => exact heeds_panic
  | succ fuel ih =>
    refine heeds_work fun x => ?_
    cases x with
    | false => exact h true
    | true => exact heeds_killed (heeds_release (h false)) (killable_sleep ih)

theorem consoleLoop_heeds {g : Option Nat → Code kernel Unit} (copied : Nat → Bool)
    (target fuel n : Nat) (h : ∀ r, Heeds (M := kernel) KillChan (g r)) :
    Heeds (M := kernel) KillChan ((consoleLoop copied target fuel n).bind g) := by
  induction n with
  | zero => exact h _
  | succ n ih =>
    rw [consoleLoop, bind_eq, bind_assoc]
    refine consoleWait_heeds fuel fun r => ?_
    cases r with
    | false => exact h none
    | true =>
      refine heeds_work fun (c : Byte) => ?_
      show Heeds _ (Prog.bind (if c = Console.ctrl 'D' then _ else _) g)
      split
      · split
        · exact heeds_work fun _ => h _
        · exact h _
      · split
        · split
          · exact h _
          · exact ih
        · exact h _

theorem sysSleepLoop_heeds {g : Int → Code kernel Unit} (n ticks0 : BitVec 32) (fuel : Nat)
    (h : ∀ r, Heeds (M := kernel) KillChan (g r)) :
    Heeds (M := kernel) KillChan ((sysSleepLoop n ticks0 fuel).bind g) := by
  induction fuel with
  | zero => exact heeds_panic
  | succ fuel ih =>
    refine heeds_work fun (t : BitVec 32) => ?_
    show Heeds _ (Prog.bind (if t - ticks0 < n then _ else _) g)
    split
    · exact heeds_killed (heeds_release (h _)) (killable_sleep ih)
    · exact heeds_release (h _)

/-- every call looks at `killed` before it sleeps in one of the loops, and never sleeps there after it
has seen it -/
theorem calls_heed (p : Slot) (k : Call) : Heeds (M := kernel) KillChan (k.code p) := by
  cases k with
  | acquiresleep i fuel =>
    exact heeds_acquire (acquiresleepLoop_heeds fuel (heeds_work fun _ => heeds_release heeds_ret))
  | releasesleep i | pipeclose j writable =>
    exact heeds_acquire (heeds_work fun _ => heeds_wakeup (heeds_release heeds_ret))
  | holdingsleep i => exact heeds_acquire (heeds_work fun _ => heeds_release heeds_ret)
  | pipewrite j src n fuel =>
    refine heeds_acquire ?_
    show Heeds _ (Prog.bind ((pipewriteLoop j src n fuel 0 0).bind _) _)
    rw [bind_assoc]
    refine pipewriteLoop_heeds src n fuel fun r => ?_
    cases r with
    | none => exact heeds_ret
    | some i => exact heeds_wakeup (heeds_release heeds_ret)
  | piperead j dst n fuel =>
    refine heeds_acquire ?_
    show Heeds _ (Prog.bind ((pipereadWait j fuel).bind _) _)
    rw [bind_assoc]
    refine pipereadWait_heeds fuel fun r => ?_
    cases r with
    | false => exact heeds_ret
    | true =>
      show Heeds _ (Prog.bind ((pipereadCopy j dst n.toNat 0).bind _) _)
      rw [bind_assoc]
      exact pipereadCopy_heeds dst n.toNat fun i => heeds_wakeup (heeds_release heeds_ret)
  | wait copied fuel => exact heeds_acquire (waitLoop_heeds p copied fuel fun _ => heeds_ret)
  | consoleread copied n fuel =>
    refine heeds_acquire ?_
    show Heeds _ (Prog.bind ((consoleLoop copied n.toNat fuel n.toNat).bind _) _)
    rw [bind_assoc]
    refine consoleLoop_heeds copied n.toNat fuel n.toNat fun r => ?_
    cases r with
    | none => exact heeds_ret
    | some m => exact heeds_release heeds_ret
  | sysSleep n fuel =>
    exact heeds_acquire (heeds_work fun t => sysSleepLoop_heeds n t fuel fun _ => heeds_ret)
  | kill pid => exact heeds_kill fun _ => heeds_ret

end

/-- no process with `killed` set sleeps in one of the killable loops -/
def KillHeeded (c : Config kernel) : Prop :=
  ∀ p ch, KillChan ch → (c.sys.proc p).killed = true → ¬ c.SleepsOn p ch

/-- **A kill is not lost,** along every run in which no `kill` finds its victim between a `killed`
that said no and the `sleep` behind it. -/
theorem kill_heeded (c0 c : Config kernel) (es : List (Event kernel Call)) (h0 : Initial c0)
    (hC : Along (step Call.code) (Timely (M := kernel) KillChan) c0 es)
    (hx : exec (step Call.code) c0 es = .next c) : KillHeeded c :=
  fun _ _ hch hd => killable_run calls_heed h0.toFresh hC hx hch hd

/-- if a `kill` finds a process now, it is one outside these calls -/
def killsIdle (c : Config kernel) : Event kernel Call → Bool
  | .step q =>
    match c.thread q with
    | some ⟨.act (.kill _) _, .locked p⟩ => (c.thread p).isNone
    | _ => true
  | _ => true

theorem killsIdle_timely {c : Config kernel} {e : Event kernel Call} (h : killsIdle c e = true) :
    Timely (M := kernel) KillChan c e := by
  rintro p t ⟨q, k, rfl, hq⟩ ht
  dsimp only [killsIdle] at h
  rw [hq] at h
  dsimp only at h
  rw [ht] at h
  cases h

/-- a process is killed in user space; then it calls `piperead` -/
def killThenRead : List (Event kernel Call) :=
  .start slot1 (.kill 1) :: List.replicate 5 (.step slot1) ++
  .start slot0 (.piperead 0 (fun _ => true) 1 2) :: List.replicate 6 (.step slot0)

theorem kill_heeded_read :
    ∃ c, exec (step Call.code) boot killThenRead = .next c ∧ (c.sys.proc slot0).killed = true ∧
      KillHeeded c := by
  obtain ⟨c, hx, h1⟩ := exists_of_check (p := fun c : Config kernel =>
      (c.sys.proc slot0).killed = true)
    (o := exec (step Call.code) boot killThenRead) (by decide +kernel)
  have hC : Along (step Call.code) (fun c e => killsIdle c e = true) boot killThenRead :=
    along_of_check (by decide +kernel)
  exact ⟨c, hx, h1, kill_heeded boot c killThenRead boot_initial
    (along_mono (fun _ _ h => killsIdle_timely h) hC) hx⟩

/-- the bytes in the ring of a pipe count as accepted -/
def Pipe.settled (d : Pipe) : Pipe := { d with accepted := d.contents, removed := [] }

/-- a pipe with `PIPESIZE` zeros in its ring -/
def fullPipe : Pipe := ⟨fun _ => 0, 0, BitVec.ofNat 32 PIPESIZE, true, true, [], []⟩

/-- every process has a child, and the pipe 1 is full -/
def busy : Config kernel :=
  { boot with sys := { boot.sys with
      data := fun l => match l with
        | .wait => fun _ => [(99, false)]
        | .pipe 1 => fullPipe.settled
        | l => boot.sys.data l } }

/-- the process in slot 0 begins a call and stops after `n` steps; the one in slot 1 kills it; and the
first goes on for five steps -/
def killBetween (k : Call) (n : Nat) : List (Event kernel Call) :=
  .start slot0 k :: List.replicate n (.step slot0) ++
  .start slot1 (.kill 1) :: List.replicate 5 (.step slot1) ++
  List.replicate 5 (.step slot0)

/-- the five loops, each with the number of steps up to its call of `sleep` -/
def loops : List (Call × Nat) :=
  [(.wait true 2, 6), (.piperead 0 (fun _ => true) 1 2, 6), (.pipewrite 1 (fun _ => some 7) 1 2, 198),
    (.consoleread (fun _ => true) 1 2, 5), (.sysSleep 1 2, 6)]

/-- `kill` has returned, and its victim sleeps in one of the loops -/
def lost (c : Config kernel) : Bool :=
  (c.thread slot1).isNone && (c.sys.proc slot0).killed && (c.sys.proc slot0).state = .SLEEPING &&
    match (c.sys.proc slot0).chan with
    | none => false
    | some (.sleep _) => false
    | some _ => true

theorem lost_not_heeded {c : Config kernel} (h : lost c = true) : ¬ KillHeeded c := by
  intro hk
  unfold lost at h
  simp only [Bool.and_eq_true, decide_eq_true_eq] at h
  obtain ⟨⟨⟨-, hd⟩, hs⟩, hch⟩ := h
  cases hc : (c.sys.proc slot0).chan with
  | none =>
    rw [hc] at hch
    cases hch
  | some ch =>
    rw [hc] at hch
    cases ch with
    | sleep i => cases hch
    | _ =>
      refine hk slot0 _ ?_ hd ⟨hs, hc⟩
      exact trivial

theorem kill_lost : loops.Forall fun x => ∃ c,
    exec (step Call.code) busy (killBetween x.1 x.2) = .next c ∧ lost c = true ∧ ¬ KillHeeded c := by
  have h : ∀ x ∈ loops, (exec (step Call.code) busy (killBetween x.1 x.2)).check
      (fun c => lost c = true) = true := by
    unfold loops
    simp only [List.forall_mem_cons]
    exact ⟨by decide +kernel, by decide +kernel, by decide +kernel, by decide +kernel,
      by decide +kernel, fun x hx => absurd hx List.not_mem_nil⟩
  apply List.forall_iff_forall_mem.mpr
  intro x hx
  obtain ⟨c, hc, hl⟩ := exists_of_check (h x hx)
  exact ⟨c, hc, hl, lost_not_heeded hl⟩

end Sync
