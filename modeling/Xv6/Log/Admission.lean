import Xv6.Log.Ops
import Mathlib.Algebra.Order.BigOperators.Group.Finset

/-!
# Admission control of the log

`begin_op` lets an operation in when `log.lh.n + (log.outstanding+1)*MAXOPBLOCKS <= LOGSIZE`: it
reckons with `LOGSIZE` blocks.  `mkfs` makes the log `LOGSIZE` blocks long WITH its header, so
`log_write` stops at `log.size - 1 = LOGSIZE - 1` blocks, and it makes this test before it looks
for absorption.  Three operations of `MAXOPBLOCKS` blocks each are let in and the last of their
writes panics (`too_big_at_budget`).

`admission_iff`: for a log made by `mkfs`, operations that keep to at most `m` distinct blocks never
meet the panic exactly when `m < MAXOPBLOCKS`.

With `m = MAXOPBLOCKS - 1` the invariant is `AdmInv`: the blocks in the log and what the running
operations may still add stay at `LOGSIZE - 2`.  A group starts with an empty log, and with a
second operation the slack of one block for each operation adds up to two.
-/

namespace Log
open Run Bytes Function List Finset

/-- an operation logs at most `m` distinct blocks -/
def WithinBudget (m : Nat) (s : State) : Event → Prop
  | .logWrite i b _ =>
    match s.ops i with
    | some l => (absorb l b).length ≤ m
    | none => True
  | _ => True

instance (m : Nat) (s : State) (e : Event) : Decidable (WithinBudget m s e) := by
  unfold WithinBudget
  split
  · split
    · exact inferInstance
    · exact inferInstance
  · exact inferInstance

theorem withinBudget_mono {m m' : Nat} (h : m ≤ m') (s : State) (e : Event)
    (hb : WithinBudget m s e) : WithinBudget m' s e := by
  cases e with
  | logWrite i b d =>
    show match s.ops i with | some l => (absorb l b).length ≤ m' | none => True
    have hb' : match s.ops i with | some l => (absorb l b).length ≤ m | none => True := hb
    cases hi : s.ops i with
    | none => exact trivial
    | some l =>
      rw [hi] at hb'
      exact Nat.le_trans hb' h
  | beginOp i | endOp i | io | crash => exact trivial

/-! ## the invariant -/

/-- what the operation `i` may still add to the log -/
def room (s : State) (i : Nat) : Nat :=
  match s.ops i with
  | some l => MAXOPBLOCKS - 1 - l.length
  | none => 0

theorem room_le (s : State) (i : Nat) : room s i ≤ MAXOPBLOCKS - 1 := by
  unfold room
  split <;> omega

/-- the log holds what the running operations `A` have logged and has room for what they may
still add; a new group starts with an empty log -/
structure AdmInv (s : State) (A : Finset Nat) : Prop extends OpsInv s A where
  empty : s.outstanding = 0 → s.phase = .run ∨ s.phase = .clear ∨ s.phase = .done ∨
    s.phase = .recClear ∨ s.phase = .recovered → s.lh = []
  logged : ∀ i l, s.ops i = some l → ∀ b ∈ l, b ∈ s.lh
  bound : 0 < s.outstanding → s.lh.length + ∑ i ∈ A, room s i ≤ LOGSIZE - 2

theorem AdmInv.init (d : Nat → Buf) : AdmInv (init d) ∅ := by
  refine ⟨OpsInv.start d, fun _ _ => rfl, fun i l h => ?_, fun h => absurd h (Nat.lt_irrefl 0)⟩
  simp [Log.init] at h

variable {s s' : State} {i : Nat} {A : Finset Nat} {K : Conf}

theorem room_congr {t : State} (h : t.ops i = s.ops i) : room t i = room s i := by
  unfold room
  rw [h]

theorem sum_room_le (s : State) (A : Finset Nat) :
    ∑ i ∈ A, room s i ≤ A.card * (MAXOPBLOCKS - 1) := by
  calc ∑ i ∈ A, room s i ≤ ∑ _i ∈ A, (MAXOPBLOCKS - 1) := sum_le_sum fun i _ => room_le s i
    _ = A.card * (MAXOPBLOCKS - 1) := by rw [sum_const, Nat.nsmul_eq_mul]

theorem AdmInv.beginOp (hi : AdmInv s A) (h : beginOp s i = .next s') : AdmInv s' (insert i A) := by
  obtain ⟨hnot, hrun, hops⟩ := hi.toOpsInv.beginOp h
  obtain ⟨hop, hboot, hcom, hroom, rfl⟩ := beginOp_next h
  have hne : ∀ j ∈ A, j ≠ i := fun j hj e => hnot (e ▸ hj)
  refine ⟨hops, fun h0 => ?_, fun j l hj b hb => ?_, fun _ => ?_⟩
  · exact absurd h0 (Nat.succ_ne_zero _)
  · by_cases e : j = i
    · subst e
      have hl : l = [] := by simpa using hj.symm
      rw [hl] at hb
      exact absurd hb not_mem_nil
    · exact hi.logged j l (by simpa [e] using hj) b hb
  rw [sum_insert hnot, sum_congr rfl fun j hj =>
    room_congr (update_of_ne (hne j hj) _ _)]
  have hnew : room { s with
      outstanding := s.outstanding + 1, ops := update s.ops i (some []) } i
      = MAXOPBLOCKS - 1 := by
    simp [room]
  rw [hnew]
  show s.lh.length + (MAXOPBLOCKS - 1 + ∑ j ∈ A, room s j) ≤ LOGSIZE - 2
  have hsum := sum_room_le s A
  have hM : MAXOPBLOCKS = 10 := rfl
  have hL : LOGSIZE = 30 := rfl
  rw [hi.card, hM] at hsum
  rw [hM, hL] at hroom ⊢
  rcases Nat.eq_zero_or_pos s.outstanding with h0 | h0
  · have hlh : s.lh.length = 0 := by rw [hi.empty h0 (.inl hrun)]; rfl
    rw [h0] at hsum
    omega
  · omega

/-- a block that is new for the log is new for the operation, which loses one block of room -/
theorem room_absorb (hi : AdmInv s A) {l : List Blockno}
    (hop : s.ops i = some l) {b : Blockno} (hlen : (absorb l b).length ≤ MAXOPBLOCKS - 1) :
    (absorb s.lh b).length + (MAXOPBLOCKS - 1 - (absorb l b).length)
      ≤ s.lh.length + (MAXOPBLOCKS - 1 - l.length) := by
  by_cases hb : b ∈ l
  · rw [absorb_of_mem hb, absorb_of_mem (hi.logged i l hop b hb)]
  · rw [absorb_of_notMem hb, length_append, length_singleton] at hlen ⊢
    have h2 := (length_absorb_le s.lh b).2
    omega

theorem AdmInv.logWrite {b : Blockno} {d : Buf}
    (hi : AdmInv s A) (hb : WithinBudget (MAXOPBLOCKS - 1) s (.logWrite i b d))
    (h : logWrite K s i b d = .next s') : AdmInv s' A := by
  have hops := hi.toOpsInv.logWrite h
  obtain ⟨l, hop, -, -, -, rfl⟩ := logWrite_next h
  obtain ⟨hmem, hpos⟩ := hi.pos_of_some hop
  have hlen : (absorb l b).length ≤ MAXOPBLOCKS - 1 := by
    have hb' : match s.ops i with | some l => (absorb l b).length ≤ MAXOPBLOCKS - 1 | none => True := hb
    rwa [hop] at hb'
  refine ⟨hops, fun h0 => ?_, fun j l' hj c hc => ?_, fun _ => ?_⟩
  · exact absurd h0 (Nat.pos_iff_ne_zero.mp hpos)
  · by_cases e : j = i
    · subst e
      have hl' : absorb l b = l' := by simpa using hj
      rw [← hl'] at hc
      rcases mem_absorb.mp hc with hc | hc
      · exact mem_absorb.mpr (.inl (hi.logged j l hop c hc))
      · exact mem_absorb.mpr (.inr hc)
    · exact mem_absorb.mpr (.inl (hi.logged j l' (by simpa [e] using hj) c hc))
  · have hold := hi.bound hpos
    rw [← add_sum_erase A _ hmem] at hold ⊢
    rw [sum_congr rfl fun j hj =>
      room_congr (update_of_ne (ne_of_mem_erase hj) _ _)]
    have hnew : room { s with
        cache := update s.cache b.toNat d
        lh := absorb s.lh b
        ops := update s.ops i (some (absorb l b)) } i
        = MAXOPBLOCKS - 1 - (absorb l b).length := by
      simp [room]
    have hwas : room s i = MAXOPBLOCKS - 1 - l.length := by simp [room, hop]
    have hle := room_absorb hi hop hlen
    rw [hnew]
    rw [hwas] at hold
    show (absorb s.lh b).length + _ ≤ _
    omega

theorem AdmInv.endOp (hi : AdmInv s A) (h : endOp s i = .next s') : AdmInv s' (A.erase i) := by
  have hops := hi.toOpsInv.endOp h
  obtain ⟨l, hop, -, hcase⟩ := endOp_next h
  obtain ⟨hmem, hpos⟩ := hi.pos_of_some hop
  have hlog : ∀ j l', update s.ops i none j = some l' → ∀ b ∈ l', b ∈ s.lh := by
    intro j l' hj
    have e : j ≠ i := by
      intro e
      rw [e, update_self] at hj
      cases hj
    rw [update_of_ne e] at hj
    exact hi.logged j l' hj
  rcases hcase with ⟨h0, rfl⟩ | ⟨-, rfl⟩
  · refine ⟨hops, fun h1 => absurd h1 h0, hlog, fun _ => ?_⟩
    have hold := hi.bound hpos
    rw [← add_sum_erase A _ hmem] at hold
    rw [sum_congr rfl fun j hj =>
      room_congr (update_of_ne (ne_of_mem_erase hj) _ _)]
    show s.lh.length + _ ≤ _
    omega
  · refine ⟨hops, fun _ h1 => ?_, hlog, fun h1 => absurd h1 (Nat.lt_irrefl 0)⟩
    rcases Nat.eq_zero_or_pos s.lh.length with hl | hl
    · exact length_eq_zero_iff.mp hl
    · simp [hl] at h1

theorem AdmInv.idle (hi : AdmInv s A) (hrun : s.phase ≠ .run)
    (hp : s.phase = .clear ∨ s.phase = .done ∨ s.phase = .recClear ∨ s.phase = .recovered) :
    s.lh = [] :=
  hi.empty (hi.outstanding_eq_zero hrun) (.inr hp)

theorem AdmInv.io (hi : AdmInv s A) (h : io K s = .next s') : AdmInv s' A := by
  obtain ⟨hrun, hops⟩ := hi.toOpsInv.io h
  have hidle := hi.idle hrun
  have h0 : s'.ops = s.ops ∧ s'.outstanding = 0 := by
    have hz := hi.outstanding_eq_zero hrun
    cases io_next h <;> exact ⟨rfl, hz⟩
  refine ⟨hops, fun _ => ?_, fun j l hj => ?_, fun h1 => ?_⟩
  · cases io_next h with
    | writeLog hp hb | logWritten hp hb | writeHead hp | install hp hb | readHead hp | recInstall hp hb => simp
    | installed hp hb | recInstalled hp hb => exact fun _ => rfl
    | clear hp | done hp | recClear hp | recovered hp => exact fun _ => hidle (by simp [hp])
  · rw [h0.1] at hj
    exact absurd (hi.run_of_some hj) hrun
  · rw [h0.2] at h1
    exact absurd h1 (Nat.lt_irrefl 0)

theorem AdmInv.crash (s : State) : AdmInv (crash s) ∅ := by
  refine ⟨OpsInv.crash s, fun _ _ => rfl, fun i l h => ?_, fun h => absurd h (Nat.lt_irrefl 0)⟩
  simp [Log.crash] at h

theorem AdmInv.next {e : Event} (hi : ∃ A, AdmInv s A)
    (hb : WithinBudget (MAXOPBLOCKS - 1) s e) (h : step K s e = .next s') : ∃ A, AdmInv s' A := by
  obtain ⟨A, hi⟩ := hi
  cases e with
  | beginOp i => exact ⟨_, hi.beginOp h⟩
  | logWrite i b d => exact ⟨_, hi.logWrite hb h⟩
  | endOp i => exact ⟨_, hi.endOp h⟩
  | io => exact ⟨_, hi.io h⟩
  | crash => cases h; exact ⟨_, AdmInv.crash s⟩

/-- a running operation has room for the block it may be about to log -/
theorem not_too_big {e : Event} (hi : ∃ A, AdmInv s A) :
    step mkfsConf s e ≠ .panic "too big a transaction" := by
  obtain ⟨A, hi⟩ := hi
  intro h
  cases e with
  | beginOp i =>
    have h' : beginOp s i = .panic "too big a transaction" := h
    unfold beginOp at h'
    repeat' split at h'
    all_goals cases h'
  | logWrite i b d =>
    have h' : logWrite mkfsConf s i b d = .panic "too big a transaction" := h
    unfold logWrite at h'
    split at h'
    · cases h'
    rename_i l hop
    have hbound := hi.bound (hi.pos_of_some hop).2
    have hL : LOGSIZE = 30 := rfl
    have hK : mkfsConf.size = LOGSIZE := rfl
    split at h'
    · cases h'
    split at h'
    · omega
    · split at h'
      · simp at h'
      · cases h'
  | endOp i =>
    have h' : endOp s i = .panic "too big a transaction" := h
    unfold endOp at h'
    repeat' split at h'
    all_goals simp at h'
  | io =>
    have h' : io mkfsConf s = .panic "too big a transaction" := h
    unfold io at h'
    repeat' split at h'
    all_goals cases h'
  | crash => cases h

/-! ## the boundary -/

/-- operation `i` logs the ten blocks from `100 + 10 * i` on -/
def tenBlocks (i : Nat) : List Event :=
  (List.range 10).map fun k => .logWrite i (BitVec.ofNat 32 (100 + 10 * i + k)) (fun _ => 0)

/-- three operations are let in and use up what was reserved for them -/
def fullGroup : List Event :=
  [.beginOp 0, .beginOp 1, .beginOp 2] ++ tenBlocks 0 ++ tenBlocks 1 ++ tenBlocks 2

theorem too_big_at_budget :
    Along (step mkfsConf) (WithinBudget MAXOPBLOCKS) (init fun _ _ => 0) fullGroup ∧
      exec (step mkfsConf) (init fun _ _ => 0) fullGroup = .panic "too big a transaction" :=
  ⟨along_of_check (by decide +kernel), eq_panic_of_isPanic (by decide +kernel)⟩

/-- **Admission.**  Operations of at most `m` distinct blocks each never fill the log `mkfs` makes,
whatever the disk and the interleaving, exactly when `m` is below `MAXOPBLOCKS`. -/
theorem admission_iff (m : Nat) :
    (∀ (d : Nat → Buf) (es : List Event),
      Along (step mkfsConf) (WithinBudget m) (init d) es →
        exec (step mkfsConf) (init d) es ≠ .panic "too big a transaction") ↔
      m < MAXOPBLOCKS := by
  constructor
  · intro h
    by_contra hm
    have hmono := withinBudget_mono (Nat.le_of_not_lt hm)
    have halong : Along (step mkfsConf) (WithinBudget MAXOPBLOCKS) (init fun _ _ => 0) fullGroup :=
      along_of_check (by decide +kernel)
    have hpanic : exec (step mkfsConf) (init fun _ _ => 0) fullGroup
        = .panic "too big a transaction" := eq_panic_of_isPanic (by decide +kernel)
    exact h _ _ (along_mono hmono halong) hpanic
  · intro hm d es halong
    have hmono := withinBudget_mono (show m ≤ MAXOPBLOCKS - 1 from Nat.le_sub_one_of_lt hm)
    exact exec_no_panic (fun s => ∃ A, AdmInv s A) (fun s e s' hi hb hs => AdmInv.next hi hb hs)
      (fun s e hi _ => not_too_big hi) ⟨∅, AdmInv.init d⟩ (along_mono hmono halong)

end Log
