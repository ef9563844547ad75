import Xv6.Log.Ops

/-!
# The processes that use the log

The same functions of `log.c`, now with every process at its own place in them: in the loop of
`begin_op`, asleep there, between `begin_op` and `end_op`, or in `commit()`.  A step is one section
under `log.lock`, or one step of a `commit()`; a process commits with its own `Phase`, so that nothing
in the model keeps two of them from committing at once.

The last fields are bookkeeping that no step reads: a number for every operation, the operations that
have ended and the calls of `log_write` since the last `commit()` began, and the groups for which
`commit()` was called.

* `Procs.Inv`       no process commits while another one does or while an operation runs;
* `Procs.Inv.next`  every step keeps it.
-/

namespace Log
open Run Bytes Function Finset

inductive Pc where
  | idle
  /-- in the loop of `begin_op`, before it takes the lock -/
  | beginOp
  | asleep
  /-- between `begin_op` and `end_op` -/
  | op
  /-- in `commit()` before it looks at `log.lh.n` -/
  | commit
  | committing (ph : Phase)
  deriving DecidableEq

/-- a call of `log_write` -/
structure Write where
  op : Nat
  block : Blockno
  data : Buf

/-- what a `commit()` is called for -/
structure Group where
  ops : List Nat
  writes : List Write
  header : List Blockno
  contents : Nat → Buf

structure Procs where
  disk : Nat → Buf
  cache : Nat → Buf
  lh : List Blockno
  outstanding : Int
  committing : Bool
  pc : Nat → Pc
  inst : Nat → Nat
  count : Nat
  ended : List Nat
  writes : List Write
  groups : List Group

namespace Procs

inductive Event where
  /-- the process calls `begin_op` -/
  | call (i : Nat)
  | beginOp (i : Nat)
  | logWrite (i : Nat) (b : Blockno) (d : Buf)
  | endOp (i : Nat)
  | commit (i : Nat)

def goto (t : Procs) (i : Nat) (c : Pc) : Procs := { t with pc := Function.update t.pc i c }

/-- `wakeup(&log)` -/
def wakeup (t : Procs) : Procs := { t with pc := fun i => if t.pc i = .asleep then .beginOp else t.pc i }

/-- the machine of `Log.Model` in the phase of one process -/
def view (t : Procs) (ph : Phase) : State where
  disk := t.disk
  cache := t.cache
  lh := t.lh
  outstanding := t.outstanding.toNat
  committing := t.committing
  phase := ph
  ops := fun _ => none
  snaps := []
  returned := 0

def call (t : Procs) (i : Nat) : Outcome Procs :=
  if t.pc i = .idle then .next (t.goto i .beginOp) else .blocked

/-- one turn of the loop of `begin_op` -/
def beginOp (t : Procs) (i : Nat) : Outcome Procs :=
  if t.pc i = .beginOp then
    if t.committing then .next (t.goto i .asleep)
    else if t.lh.length + (t.outstanding + 1) * MAXOPBLOCKS > LOGSIZE then .next (t.goto i .asleep)
    else .next { t.goto i .op with
      outstanding := t.outstanding + 1, inst := Function.update t.inst i t.count, count := t.count + 1 }
  else .blocked

def logWrite (K : Conf) (t : Procs) (i : Nat) (b : Blockno) (d : Buf) : Outcome Procs :=
  if t.pc i = .op ∧ Home K b.toNat then
    if t.lh.length ≥ LOGSIZE ∨ t.lh.length ≥ K.size - 1 then .panic "too big a transaction"
    else if t.outstanding < 1 then .panic "log_write outside of trans"
    else .next { t with
      cache := Function.update t.cache b.toNat d
      lh := absorb t.lh b
      writes := t.writes ++ [⟨t.inst i, b, d⟩] }
  else .blocked

def endOp (t : Procs) (i : Nat) : Outcome Procs :=
  if t.pc i = .op then
    if t.committing then .panic "log.committing"
    else if t.outstanding - 1 = 0 then
      .next { t.goto i .commit with
        outstanding := t.outstanding - 1
        committing := true
        ended := []
        writes := []
        groups := t.groups ++ [⟨t.ended ++ [t.inst i], t.writes, t.lh, t.cache⟩] }
    else
      .next { (t.goto i .idle).wakeup with
        outstanding := t.outstanding - 1, ended := t.ended ++ [t.inst i] }
  else .blocked

/-- the phase in which `commit()` starts -/
def startPhase (lh : List Blockno) : Phase := if 0 < lh.length then .writeLog 0 else .done

/-- the next step of a `commit()`, and of `end_op` after it -/
def commit (K : Conf) (t : Procs) (i : Nat) : Outcome Procs :=
  match t.pc i with
  | .commit => .next (t.goto i (.committing (startPhase t.lh)))
  | .committing .done => .next { (t.goto i .idle).wakeup with committing := false }
  | .committing ph => (io K (t.view ph)).map fun s =>
      { t.goto i (.committing s.phase) with disk := s.disk, cache := s.cache, lh := s.lh }
  | _ => .blocked

def step (K : Conf) (t : Procs) : Event → Outcome Procs
  | .call i => call t i
  | .beginOp i => beginOp t i
  | .logWrite i b d => logWrite K t i b d
  | .endOp i => endOp t i
  | .commit i => commit K t i

/-- after `initlog` -/
def start (d : Nat → Buf) : Procs where
  disk := d
  cache := d
  lh := []
  outstanding := 0
  committing := false
  pc := fun _ => .idle
  inst := fun _ => 0
  count := 0
  ended := []
  writes := []
  groups := []

end Procs

/-! ## places -/

/-- the process is in `commit()`, or in `end_op` after it -/
def Pc.inCommit : Pc → Bool
  | .commit | .committing _ => true
  | _ => false

/-- a phase of `commit()` -/
def Phase.ofCommit : Phase → Bool
  | .writeLog _ | .writeHead | .install _ | .clear | .done => true
  | _ => false

namespace Procs

section
variable {K : Conf} {t t' : Procs} {i j : Nat} {c : Pc}

@[simp] theorem goto_pc_self : (t.goto i c).pc i = c := update_self _ _ _

theorem goto_pc_of_ne (h : j ≠ i) : (t.goto i c).pc j = t.pc j := update_of_ne h _ _

theorem wakeup_pc (h1 : c ≠ .asleep) (h2 : c ≠ .beginOp) : t.wakeup.pc j = c ↔ t.pc j = c := by
  show (if t.pc j = .asleep then Pc.beginOp else t.pc j) = c ↔ _
  split
  · rename_i h
    rw [h]
    exact ⟨fun e => absurd e.symm h2, fun e => absurd e.symm h1⟩
  · exact Iff.rfl

theorem wakeup_inCommit : (t.wakeup.pc j).inCommit = (t.pc j).inCommit := by
  show (if t.pc j = .asleep then Pc.beginOp else t.pc j).inCommit = _
  split
  · rename_i h
    rw [h]
    rfl
  · rfl

/-! ## what a step does -/

theorem call_next (h : call t i = .next t') : t.pc i = .idle ∧ t' = t.goto i .beginOp := by
  obtain ⟨hp, rfl⟩ := guard_next h
  exact ⟨hp, rfl⟩

theorem beginOp_next (h : beginOp t i = .next t') :
    t.pc i = .beginOp ∧ (t' = t.goto i .asleep ∨
      (t.committing = false ∧ t.lh.length + (t.outstanding + 1) * MAXOPBLOCKS ≤ LOGSIZE ∧
        t' = { t.goto i .op with
          outstanding := t.outstanding + 1, inst := update t.inst i t.count,
          count := t.count + 1 })) := by
  obtain ⟨hp, h⟩ := ite_blocked h
  refine ⟨hp, ?_⟩
  split at h
  · cases h
    exact .inl rfl
  rename_i hc
  split at h
  · cases h
    exact .inl rfl
  · rename_i hroom
    cases h
    exact .inr ⟨by simpa using hc, Int.not_lt.mp hroom, rfl⟩

theorem logWrite_next {b : Blockno} {d : Buf} (h : logWrite K t i b d = .next t') :
    t.pc i = .op ∧ Home K b.toNat ∧ t.lh.length < LOGSIZE ∧ t.lh.length < K.size - 1 ∧
      t' = { t with
        cache := update t.cache b.toNat d
        lh := absorb t.lh b
        writes := t.writes ++ [⟨t.inst i, b, d⟩] } := by
  obtain ⟨hp, h⟩ := ite_blocked h
  obtain ⟨hbig, h⟩ := panic_ite h
  split at h
  · cases h
  · cases h
    exact ⟨hp.1, hp.2, by omega, by omega, rfl⟩

theorem endOp_next (h : endOp t i = .next t') :
    t.pc i = .op ∧ t.committing = false ∧
      ((t.outstanding - 1 = 0 ∧ t' = { t.goto i .commit with
          outstanding := t.outstanding - 1
          committing := true
          ended := []
          writes := []
          groups := t.groups ++ [⟨t.ended ++ [t.inst i], t.writes, t.lh, t.cache⟩] }) ∨
        (t.outstanding - 1 ≠ 0 ∧ t' = { (t.goto i .idle).wakeup with
          outstanding := t.outstanding - 1, ended := t.ended ++ [t.inst i] })) := by
  obtain ⟨hp, h⟩ := ite_blocked h
  obtain ⟨hc, h⟩ := panic_ite h
  split at h
  · rename_i h0
    cases h
    exact ⟨hp, by simpa using hc, .inl ⟨h0, rfl⟩⟩
  · rename_i h0
    cases h
    exact ⟨hp, by simpa using hc, .inr ⟨h0, rfl⟩⟩

/-- the start of a `commit()`, a step of it, and the end of `end_op` after it -/
theorem commit_next (h : commit K t i = .next t') :
    (t.pc i = .commit ∧ t' = t.goto i (.committing (startPhase t.lh))) ∨
      (t.pc i = .committing .done ∧ t' = { (t.goto i .idle).wakeup with committing := false }) ∨
      ∃ ph s, t.pc i = .committing ph ∧ ph ≠ .done ∧ IoStep K (t.view ph) s ∧
        t' = { t.goto i (.committing s.phase) with disk := s.disk, cache := s.cache, lh := s.lh } := by
  unfold commit at h
  split at h
  · rename_i hp
    cases h
    exact .inl ⟨hp, rfl⟩
  · rename_i hp
    cases h
    exact .inr (.inl ⟨hp, rfl⟩)
  · rename_i ph hne hp
    obtain ⟨s, hs, rfl⟩ := map_next h
    exact .inr (.inr ⟨ph, s, hp, fun e => hne e, io_next hs, rfl⟩)
  · cases h

/-! ## the invariant -/

/-- `A` is the set of the processes between `begin_op` and `end_op` -/
structure Inv (t : Procs) (A : Finset Nat) : Prop where
  mem : ∀ i, i ∈ A ↔ t.pc i = .op
  card : (A.card : Int) = t.outstanding
  alone : ∀ i, (t.pc i).inCommit = true →
    t.committing = true ∧ A = ∅ ∧ ∀ j, (t.pc j).inCommit = true → j = i
  flag : t.committing = true → ∃ i, (t.pc i).inCommit = true
  phase : ∀ i ph, t.pc i = .committing ph → ph.ofCommit = true

namespace Inv
variable {A : Finset Nat}

theorem init (d : Nat → Buf) : Inv (start d) ∅ := by
  refine ⟨fun i => ?_, rfl, fun i h => ?_, fun h => ?_, fun i ph h => ?_⟩
  · exact ⟨fun h => absurd h (notMem_empty i), fun h => nomatch h⟩
  · cases h
  · cases h
  · cases h

theorem pos (h : Inv t A) (hp : t.pc i = .op) : i ∈ A ∧ 1 ≤ t.outstanding := by
  have hi := (h.mem i).mpr hp
  have hc : 0 < A.card := card_pos.mpr ⟨i, hi⟩
  exact ⟨hi, by rw [← h.card]; omega⟩

/-- no process commits while one is between `begin_op` and `end_op` -/
theorem not_inCommit (h : Inv t A) (hp : t.pc i = .op) (j : Nat) : (t.pc j).inCommit = false := by
  cases hj : (t.pc j).inCommit with
  | false => rfl
  | true =>
    obtain ⟨-, hA, -⟩ := h.alone j hj
    have hi := (h.pos hp).1
    rw [hA] at hi
    exact absurd hi (notMem_empty i)

theorem not_committing (h : Inv t A) (hp : t.pc i = .op) : t.committing = false := by
  cases hc : t.committing with
  | false => rfl
  | true =>
    obtain ⟨j, hj⟩ := h.flag hc
    rw [h.not_inCommit hp j] at hj
    cases hj

theorem move (h : Inv t A) (hop : t.pc i ≠ .op) (hcom : (t.pc i).inCommit = false) (hc : c ≠ .op)
    (hc' : c.inCommit = false) : Inv (t.goto i c) A := by
  have hin : ∀ j, ((t.goto i c).pc j).inCommit = (t.pc j).inCommit := by
    intro j
    by_cases e : j = i
    · rw [e, goto_pc_self, hc', hcom]
    · rw [goto_pc_of_ne e]
  refine ⟨fun j => ?_, h.card, fun j hj => ?_, fun hf => ?_, fun j ph hj => ?_⟩
  · by_cases e : j = i
    · rw [e, goto_pc_self, h.mem i]
      exact iff_of_false hop hc
    · rw [goto_pc_of_ne e]
      exact h.mem j
  · rw [hin] at hj
    obtain ⟨h1, h2, h3⟩ := h.alone j hj
    exact ⟨h1, h2, fun j' hj' => h3 j' (by rwa [hin] at hj')⟩
  · obtain ⟨j, hj⟩ := h.flag hf
    exact ⟨j, by rwa [hin]⟩
  · by_cases e : j = i
    · rw [e, goto_pc_self] at hj
      rw [hj] at hc'
      cases hc'
    · rw [goto_pc_of_ne e] at hj
      exact h.phase j ph hj

theorem beginOp (h : Inv t A) (hs : beginOp t i = .next t') : ∃ A', Inv t' A' := by
  obtain ⟨hp, rfl | ⟨hcom, -, rfl⟩⟩ := beginOp_next hs
  · exact ⟨A, h.move (by rw [hp]; exact nofun) (by rw [hp]; rfl) nofun rfl⟩
  have hnot : i ∉ A := by
    rw [h.mem, hp]
    exact nofun
  have hno : ∀ j, (t.pc j).inCommit = false := by
    intro j
    cases hj : (t.pc j).inCommit with
    | false => rfl
    | true =>
      have := (h.alone j hj).1
      rw [hcom] at this
      cases this
  have hno' : ∀ j, ((t.goto i .op).pc j).inCommit = false := by
    intro j
    by_cases e : j = i
    · rw [e, goto_pc_self]
      rfl
    · rw [goto_pc_of_ne e]
      exact hno j
  refine ⟨insert i A, fun j => ?_, ?_, fun j hj => ?_, fun hf => ?_, fun j ph hj => ?_⟩
  · by_cases e : j = i
    · simp [e]
    · rw [goto_pc_of_ne e, mem_insert, or_iff_right e]
      exact h.mem j
  · rw [card_insert_of_notMem hnot, ← h.card]
    rfl
  · have hj' : ((t.goto i .op).pc j).inCommit = true := hj
    rw [hno' j] at hj'
    cases hj'
  · have hf' : t.committing = true := hf
    rw [hcom] at hf'
    cases hf'
  · have hj' : (t.goto i .op).pc j = .committing ph := hj
    have := hno' j
    rw [hj'] at this
    cases this

theorem logWrite {b : Blockno} {d : Buf} (h : Inv t A) (hs : logWrite K t i b d = .next t') : Inv t' A := by
  obtain ⟨-, -, -, -, rfl⟩ := logWrite_next hs
  exact ⟨h.mem, h.card, h.alone, h.flag, h.phase⟩

theorem endOp (h : Inv t A) (hs : endOp t i = .next t') : Inv t' (A.erase i) := by
  obtain ⟨hp, hcom, hcase⟩ := endOp_next hs
  obtain ⟨hi, hpos⟩ := h.pos hp
  have hno := h.not_inCommit hp
  have hcard : ((A.erase i).card : Int) = t.outstanding - 1 := by
    rw [card_erase_of_mem hi, ← h.card]
    have : 0 < A.card := card_pos.mpr ⟨i, hi⟩
    omega
  have hmem : ∀ c ≠ Pc.op, ∀ j, j ∈ A.erase i ↔ (t.goto i c).pc j = .op := by
    intro c hc j
    by_cases e : j = i
    · rw [e, goto_pc_self]
      exact iff_of_false (notMem_erase i A) hc
    · rw [goto_pc_of_ne e, mem_erase, and_iff_right e]
      exact h.mem j
  rcases hcase with ⟨h0, rfl⟩ | ⟨h0, rfl⟩
  · have honly : ∀ j, ((t.goto i .commit).pc j).inCommit = true → j = i := by
      intro j hj
      by_cases e : j = i
      · exact e
      · rw [goto_pc_of_ne e, hno j] at hj
        cases hj
    have hempty : A.erase i = ∅ := by
      rw [← card_eq_zero]
      omega
    refine ⟨hmem .commit nofun, hcard, fun j hj => ?_, fun _ => ⟨i, ?_⟩, fun j ph hj => ?_⟩
    · obtain rfl := honly j hj
      exact ⟨rfl, hempty, honly⟩
    · rw [goto_pc_self]
      rfl
    · have hj' : (t.goto i .commit).pc j = .committing ph := hj
      obtain rfl := honly j (by rw [hj']; rfl)
      rw [goto_pc_self] at hj'
      cases hj'
  · have hno' : ∀ j, ((t.goto i .idle).wakeup.pc j).inCommit = false := by
      intro j
      rw [wakeup_inCommit]
      by_cases e : j = i
      · rw [e, goto_pc_self]
        rfl
      · rw [goto_pc_of_ne e]
        exact hno j
    refine ⟨fun j => ?_, hcard, fun j hj => ?_, fun hf => ?_, fun j ph hj => ?_⟩
    · rw [hmem .idle nofun j]
      exact (wakeup_pc (c := .op) nofun nofun).symm
    · have hj' : ((t.goto i .idle).wakeup.pc j).inCommit = true := hj
      rw [hno' j] at hj'
      cases hj'
    · have hf' : t.committing = true := hf
      rw [hcom] at hf'
      cases hf'
    · have hj' : (t.goto i .idle).wakeup.pc j = .committing ph := hj
      have := hno' j
      rw [hj'] at this
      cases this

theorem advance (h : Inv t A) (hi : (t.pc i).inCommit = true) {ph : Phase} (hph : ph.ofCommit = true) :
    Inv (t.goto i (.committing ph)) A := by
  obtain ⟨hcom, hA, honly⟩ := h.alone i hi
  have hin : ∀ j, ((t.goto i (.committing ph)).pc j).inCommit = true → j = i := by
    intro j hj
    by_cases e : j = i
    · exact e
    · rw [goto_pc_of_ne e] at hj
      exact honly j hj
  refine ⟨fun j => ?_, h.card, fun j hj => ?_, fun _ => ⟨i, ?_⟩, fun j ph' hj => ?_⟩
  · by_cases e : j = i
    · rw [e, goto_pc_self, hA]
      exact iff_of_false (notMem_empty i) nofun
    · rw [goto_pc_of_ne e]
      exact h.mem j
  · obtain rfl := hin j hj
    exact ⟨hcom, hA, hin⟩
  · rw [goto_pc_self]
    rfl
  · obtain rfl := hin j (by rw [hj]; rfl)
    rw [goto_pc_self] at hj
    cases hj
    exact hph

theorem startPhase_ofCommit (lh : List Blockno) : (startPhase lh).ofCommit = true := by
  unfold startPhase
  split <;> rfl

theorem io_ofCommit {s s' : State} (h : IoStep K s s') (hs : s.phase.ofCommit = true)
    (hne : s.phase ≠ .done) : s'.phase.ofCommit = true := by
  cases h with
  | done hp => exact absurd hp hne
  | readHead hp | recInstall hp hb | recInstalled hp hb | recClear hp | recovered hp => rw [hp] at hs; cases hs
  | _ => rfl

theorem commit (h : Inv t A) (hs : commit K t i = .next t') : Inv t' A := by
  rcases commit_next hs with ⟨hp, rfl⟩ | ⟨hp, rfl⟩ | ⟨ph, s, hp, hne, hio, rfl⟩
  · exact h.advance (by rw [hp]; rfl) (startPhase_ofCommit t.lh)
  · obtain ⟨hcom, hA, honly⟩ := h.alone i (by rw [hp]; rfl)
    have hno : ∀ j, ((t.goto i .idle).wakeup.pc j).inCommit = false := by
      intro j
      rw [wakeup_inCommit]
      by_cases e : j = i
      · rw [e, goto_pc_self]
        rfl
      · rw [goto_pc_of_ne e]
        cases hj : (t.pc j).inCommit with
        | false => rfl
        | true => exact absurd (honly j hj) e
    refine ⟨fun j => ?_, h.card, fun j hj => ?_, fun hf => (nomatch hf), fun j ph hj => ?_⟩
    · rw [wakeup_pc (c := .op) nofun nofun]
      by_cases e : j = i
      · rw [e, goto_pc_self, h.mem, hp]
        exact iff_of_false nofun nofun
      · rw [goto_pc_of_ne e]
        exact h.mem j
    · have hj' : ((t.goto i .idle).wakeup.pc j).inCommit = true := hj
      rw [hno j] at hj'
      cases hj'
    · have hj' : (t.goto i .idle).wakeup.pc j = .committing ph := hj
      have := hno j
      rw [hj'] at this
      cases this
  · have hph := io_ofCommit hio (h.phase i ph hp) hne
    have h' := h.advance (by rw [hp]; rfl) hph
    exact ⟨h'.mem, h'.card, h'.alone, h'.flag, h'.phase⟩

theorem next {e : Event} (h : Inv t A) (hs : step K t e = .next t') : ∃ A', Inv t' A' := by
  cases e with
  | call i =>
    obtain ⟨hp, rfl⟩ := call_next hs
    exact ⟨A, h.move (by rw [hp]; exact nofun) (by rw [hp]; rfl) nofun rfl⟩
  | beginOp i => exact h.beginOp hs
  | logWrite i b d => exact ⟨A, h.logWrite hs⟩
  | endOp i => exact ⟨_, h.endOp hs⟩
  | commit i => exact ⟨A, h.commit hs⟩

end Inv

end

end Procs

end Log
