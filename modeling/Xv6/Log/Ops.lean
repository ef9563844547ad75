import Xv6.Log.Model
import Mathlib.Data.Finset.Card

/-!
# The running operations

`log.outstanding` counts the operations between `begin_op` and `end_op`, and these run only while
no commit and no recovery does: `OpsInv s A`, kept by every event (`OpsInv.next`).
-/

namespace Log
open Run Bytes Finset

/-- `A` is the set of the running operations -/
structure OpsInv (s : State) (A : Finset Nat) : Prop where
  mem : ∀ i, i ∈ A ↔ (s.ops i).isSome = true
  card : A.card = s.outstanding
  running : 0 < s.outstanding → s.phase = .run
  committing : s.committing = false → s.phase.booting = false → s.phase = .run

namespace OpsInv
variable {K : Conf} {s s' : State} {A : Finset Nat} {i : Nat}

theorem start (d : Nat → Buf) : OpsInv (init d) ∅ := by
  refine ⟨fun i => ?_, rfl, fun h => absurd h (Nat.lt_irrefl 0), fun _ _ => rfl⟩
  simp [init]

theorem pos_of_some {l : List Blockno} (hi : OpsInv s A) (h : s.ops i = some l) :
    i ∈ A ∧ 0 < s.outstanding := by
  have hmem : i ∈ A := by
    rw [hi.mem, h]
    rfl
  refine ⟨hmem, ?_⟩
  rw [← hi.card]
  exact card_pos.mpr ⟨i, hmem⟩

theorem run_of_some {l : List Blockno} (hi : OpsInv s A) (h : s.ops i = some l) : s.phase = .run :=
  hi.running (hi.pos_of_some h).2

theorem outstanding_eq_zero (hi : OpsInv s A) (hrun : s.phase ≠ .run) : s.outstanding = 0 := by
  rcases Nat.eq_zero_or_pos s.outstanding with h | h
  · exact h
  · exact absurd (hi.running h) hrun

theorem beginOp (hi : OpsInv s A) (h : beginOp s i = .next s') :
    i ∉ A ∧ s.phase = .run ∧ OpsInv s' (insert i A) := by
  obtain ⟨hop, hboot, hcom, -, rfl⟩ := beginOp_next h
  have hnot : i ∉ A := by
    rw [hi.mem, hop]
    exact Bool.false_ne_true
  have hrun : s.phase = .run := hi.committing hcom hboot
  refine ⟨hnot, hrun, fun j => ?_, ?_, fun _ => hrun, fun _ _ => hrun⟩
  · by_cases e : j = i
    · simp [e]
    · simp [e, hi.mem j]
  · rw [card_insert_of_notMem hnot, hi.card]

theorem logWrite {b : Blockno} {d : Buf} (hi : OpsInv s A) (h : logWrite K s i b d = .next s') :
    OpsInv s' A := by
  obtain ⟨l, hop, -, -, -, rfl⟩ := logWrite_next h
  refine ⟨fun j => ?_, hi.card, hi.running, hi.committing⟩
  by_cases e : j = i
  · simp [e, (hi.pos_of_some hop).1]
  · simp [e, hi.mem j]

theorem endOp (hi : OpsInv s A) (h : endOp s i = .next s') : OpsInv s' (A.erase i) := by
  obtain ⟨l, hop, hcom, hcase⟩ := endOp_next h
  have hmem := (hi.pos_of_some hop).1
  have hrun := hi.run_of_some hop
  have hA : ∀ j, j ∈ A.erase i ↔ (Function.update s.ops i none j).isSome = true := by
    intro j
    by_cases e : j = i
    · simp [e]
    · simp [e, hi.mem j]
  have hcard : (A.erase i).card = s.outstanding - 1 := by rw [card_erase_of_mem hmem, hi.card]
  rcases hcase with ⟨-, rfl⟩ | ⟨h0, rfl⟩
  · exact ⟨hA, hcard, fun _ => hrun, fun _ _ => hrun⟩
  · exact ⟨hA, by rw [hcard, h0], fun h1 => absurd h1 (Nat.lt_irrefl 0),
      fun h1 => absurd h1 Bool.noConfusion⟩

theorem quiet (hi : OpsInv s A) (hrun : s.phase ≠ .run) (hops : s'.ops = s.ops)
    (hout : s'.outstanding = s.outstanding)
    (hcom : s'.committing = false → s'.phase.booting = false → s'.phase = .run) : OpsInv s' A := by
  refine ⟨fun j => ?_, ?_, fun h => ?_, hcom⟩
  · rw [hi.mem j, hops]
  · rw [hi.card, hout]
  · rw [hout, hi.outstanding_eq_zero hrun] at h
    exact absurd h (Nat.lt_irrefl 0)

theorem io (hi : OpsInv s A) (h : io K s = .next s') : s.phase ≠ .run ∧ OpsInv s' A := by
  have hstay : s.phase.booting = false → s.phase ≠ .run → s.committing ≠ false :=
    fun hb hr hc => hr (hi.committing hc hb)
  cases io_next h with
  | writeLog hp hb | logWritten hp hb | writeHead hp | install hp hb | installed hp hb | clear hp =>
    exact ⟨by simp [hp], hi.quiet (by simp [hp]) rfl rfl fun h1 =>
      absurd h1 (hstay (by simp [hp, Phase.booting]) (by simp [hp]))⟩
  | done hp | recovered hp => exact ⟨by simp [hp], hi.quiet (by simp [hp]) rfl rfl fun _ _ => rfl⟩
  | readHead hp | recClear hp => exact ⟨by simp [hp], hi.quiet (by simp [hp]) rfl rfl (by simp [Phase.booting])⟩
  | recInstall hp hb | recInstalled hp hb =>
    exact ⟨by simp [hp], hi.quiet (by simp [hp]) rfl rfl (by simp [Phase.booting])⟩

theorem crash (s : State) : OpsInv (crash s) ∅ := by
  refine ⟨fun i => ?_, rfl, fun h => absurd h (Nat.lt_irrefl 0), fun _ h => ?_⟩
  · simp [Log.crash]
  · simp [Log.crash, Phase.booting] at h

theorem next {e : Event} (hi : OpsInv s A) (h : step K s e = .next s') : ∃ A', OpsInv s' A' := by
  cases e with
  | beginOp i => exact ⟨_, (hi.beginOp h).2.2⟩
  | logWrite i b d => exact ⟨_, hi.logWrite h⟩
  | endOp i => exact ⟨_, hi.endOp h⟩
  | io => exact ⟨_, (hi.io h).2⟩
  | crash =>
    cases h
    exact ⟨_, OpsInv.crash s⟩

end OpsInv

end Log
