import Xv6.Console.Model

/-!
# The input ring

`InRing` is what the three indices of the ring should satisfy: what is committed and not yet read,
from `r` to `w`, is part of what is in the ring, from `r` to `e`.

* `eraseCurrentLineOnScreen_eq_some`   when the loop of `eraseCurrentLineOnScreen` ends;
* `recall_keeps_iff`       a command of the history replaces the line from `r`, not from `w`: this
                           is harmless exactly if the command begins with the unread input;
* `step_keeps_iff`         every other step is harmless;
* `ring_safe_iff`          the same for runs.
-/

namespace Console
open Run Bytes Function BitVec

def InRing (c : Cons) : Prop := c.w - c.r ≤ c.e - c.r ∧ c.e - c.r ≤ 128

instance (c : Cons) : Decidable (InRing c) := inferInstanceAs (Decidable (_ ∧ _))

/-- the `i`-th byte from `r` on -/
def Cons.ahead (c : Cons) (i : Nat) : Byte := c.get (c.r + BitVec.ofNat 32 i)

def Cons.unread (c : Cons) : Nat := (c.w - c.r).toNat

/-- the unread input of `c` is still at its place in `c'` -/
def SameUnread (c c' : Cons) : Prop :=
  ∀ i < c.unread, c'.get (c.r + BitVec.ofNat 32 i) = c.ahead i

/-- the byte brings a command of the history back -/
def Recalls (s : State) (b : Byte) : Prop :=
  b = UP_ARROW ∧ s.history.currentHistory ≥ 0 ∨ b = DOWN_ARROW ∧ s.history.currentHistory ≠ -1

/-- the command of the history at `tempIndex` begins with the unread input -/
def BeginsWithUnread (s : State) : Prop :=
  s.cons.unread ≤ (s.history.lengthsArr s.history.tempIndex).toNat ∧
    ∀ i < s.cons.unread, s.history.bufferArr s.history.tempIndex i = s.cons.ahead i

/-- what a step should keep: the order of the indices, and an interrupt the unread input -/
def Keeps (c : Config) (ev : Event) : Prop :=
  ∀ c', step c ev = .next c' → InRing c'.state.cons ∧
    ∀ b, ev = .intr b → SameUnread c.state.cons c'.state.cons

def Harmless (c : Config) : Event → Prop
  | .intr b => Recalls c.state b → BeginsWithUnread c.state
  | _ => True

/-- saved commands fit their buffers -/
def HistoryFits (h : History) : Prop := ∀ t, (h.lengthsArr t).toNat < INPUT_BUF_SIZE

section
variable {c c' : Cons} {s s' : State} {b : Byte}

/-! ## indices -/

theorem slot_eq (r : BitVec 32) (i : Nat) :
    (r + BitVec.ofNat 32 i).toNat % INPUT_BUF_SIZE = (r.toNat + i) % INPUT_BUF_SIZE := by
  rw [toNat_add, toNat_ofNat, Nat.add_mod_mod]
  exact Nat.mod_mod_of_dvd _ (by decide)

theorem slot_ne (r : BitVec 32) {i j : Nat} (hi : i < INPUT_BUF_SIZE) (hj : j < INPUT_BUF_SIZE)
    (h : i ≠ j) :
    (r + BitVec.ofNat 32 i).toNat % INPUT_BUF_SIZE ≠ (r + BitVec.ofNat 32 j).toNat % INPUT_BUF_SIZE := by
  rw [slot_eq, slot_eq]
  unfold INPUT_BUF_SIZE at *
  omega

theorem inRing_iff : InRing c ↔ c.unread ≤ (c.e - c.r).toNat ∧ (c.e - c.r).toNat ≤ INPUT_BUF_SIZE := by
  rw [InRing, Cons.unread, le_def, le_def]
  rfl

theorem add_sub_toNat (r e : BitVec 32) : r + BitVec.ofNat 32 (e - r).toNat = e := by
  rw [BitVec.ofNat_toNat, BitVec.setWidth_eq, BitVec.add_comm, BitVec.sub_add_cancel]

theorem eq_of_sub_toNat {x y : BitVec 32} (h : (x - y).toNat = 0) : x = y := by bv_omega

theorem InRing.unread_le (h : InRing c) : c.unread ≤ INPUT_BUF_SIZE :=
  Nat.le_trans (inRing_iff.mp h).1 (inRing_iff.mp h).2

theorem get_put_self (c : Cons) (i : BitVec 32) (b : Byte) : (c.put i b).get i = b :=
  update_self _ _ _

theorem get_put_ne {i j : BitVec 32} (h : j.toNat % INPUT_BUF_SIZE ≠ i.toNat % INPUT_BUF_SIZE) :
    (c.put i b).get j = c.get j :=
  update_of_ne h _ _

theorem SameUnread.rfl : SameUnread c c := fun _ _ => Eq.refl _

theorem sameUnread_of_buf (h : c'.buf = c.buf) : SameUnread c c' := by
  intro i _
  show c'.buf _ = c.buf _
  rw [h]

/-! ## recalling a command -/

theorem eraseLoop_eq_true (fuel : Nat) (length : BitVec 32) :
    c.eraseLoop fuel length = true ↔ length = 1 ∨ c.e ≠ c.r ∧ (length - 1).toNat ≤ fuel := by
  induction fuel generalizing length with
  | zero =>
    show decide (length = 1) = true ↔ _
    rw [decide_eq_true_iff]
    constructor
    · exact .inl
    · rintro (h | ⟨-, h⟩)
      · exact h
      · exact eq_of_sub_toNat (Nat.le_zero.mp h)
  | succ fuel ih =>
    rw [Cons.eraseLoop]
    by_cases h1 : length = 1
    · rw [if_neg (not_not.mpr h1)]
      exact iff_of_true rfl (.inl h1)
    rw [if_pos h1, ih]
    by_cases he : c.e = c.r
    · simp [he]
    rw [if_pos he]
    simp only [ne_eq, he, not_false_eq_true, true_and, h1, false_or]
    have hdec : (length - 1 - 1).toNat = (length - 1).toNat - 1 := by bv_omega
    have hone : length - 1 = 1 ↔ (length - 1).toNat = 1 := by
      constructor
      · intro h
        rw [h]
        rfl
      · intro h
        exact eq_of_toNat_eq h
    rw [hone, hdec]
    omega

/-- `eraseCurrentLineOnScreen` ends unless the line is empty, and empties the ring -/
theorem eraseCurrentLineOnScreen_eq_some :
    c.eraseCurrentLineOnScreen = some c' ↔ c.e ≠ c.r ∧ c' = { c with e := c.r } := by
  have hloop : c.eraseLoop (2 ^ 32) (c.e - c.r - 1) = true ↔ c.e ≠ c.r := by
    rw [eraseLoop_eq_true]
    constructor
    · rintro (h | ⟨h, -⟩)
      · intro e
        rw [e, BitVec.sub_self] at h
        exact absurd h (by decide)
      · exact h
    · intro h
      exact .inr ⟨h, Nat.le_of_lt (isLt _)⟩
  unfold Cons.eraseCurrentLineOnScreen
  by_cases h : c.e = c.r
  · rw [if_neg (fun ht => hloop.mp ht h)]
    exact iff_of_false nofun fun hc => hc.1 h
  · rw [if_pos (hloop.mpr h), Option.some.injEq]
    exact ⟨fun e => ⟨h, e.symm⟩, fun hc => hc.2.symm⟩

theorem copyLoop_fields (d : Buf) (n i : Nat) (c : Cons) :
    (c.copyLoop d n i).r = c.r ∧ (c.copyLoop d n i).w = c.w ∧ (c.copyLoop d n i).e = c.e := by
  induction n generalizing i c with
  | zero => exact ⟨rfl, rfl, rfl⟩
  | succ n ih => exact ih (i + 1) (c.put (c.r + BitVec.ofNat 32 i) (d i))

theorem copyLoop_get (d : Buf) (n i : Nat) (c : Cons) (hn : i + n ≤ INPUT_BUF_SIZE) {j : Nat}
    (hj : j < INPUT_BUF_SIZE) :
    (c.copyLoop d n i).get (c.r + BitVec.ofNat 32 j) = if i ≤ j ∧ j < i + n then d j else c.ahead j := by
  induction n generalizing i c with
  | zero =>
    rw [if_neg (by omega)]
    rfl
  | succ n ih =>
    have hstep := ih (i + 1) (c.put (c.r + BitVec.ofNat 32 i) (d i)) (by omega)
    refine hstep.trans ?_
    by_cases e : j = i
    · subst e
      rw [if_neg (by omega), if_pos (by omega)]
      exact get_put_self c _ _
    · have hput : (c.put (c.r + BitVec.ofNat 32 i) (d i)).ahead j = c.ahead j :=
        get_put_ne (slot_ne c.r hj (by omega) e)
      rw [hput]
      exact if_congr (by omega) rfl rfl

theorem copyBufferToScreen_get (d : Buf) {len : BitVec 32} (hlen : len.toNat ≤ INPUT_BUF_SIZE) {j : Nat}
    (hj : j < INPUT_BUF_SIZE) :
    (c.copyBufferToScreen d len).get (c.r + BitVec.ofNat 32 j)
      = if j < len.toNat then d j else c.ahead j := by
  have h := copyLoop_get d len.toNat 0 c (by omega) hj
  refine h.trans (if_congr ?_ rfl rfl)
  omega

theorem copyBufferToScreen_fields (d : Buf) (len : BitVec 32) (c : Cons) :
    (c.copyBufferToScreen d len).r = c.r ∧ (c.copyBufferToScreen d len).w = c.w ∧
      (c.copyBufferToScreen d len).e = c.r + len := by
  obtain ⟨hr, hw, -⟩ := copyLoop_fields d len.toNat 0 c
  refine ⟨hr, hw, ?_⟩
  show (c.copyLoop d len.toNat 0).r + len = _
  rw [hr]

/-- what `recall` leaves: `r` and `w` as they were, and the command from `r` on -/
theorem recall_eq_some (hf : HistoryFits s.history) (hs : s.recall = some c') :
    c'.r = s.cons.r ∧ c'.w = s.cons.w ∧
      (c'.e - c'.r).toNat = (s.history.lengthsArr s.history.tempIndex).toNat ∧
      ∀ j < INPUT_BUF_SIZE, c'.get (s.cons.r + BitVec.ofNat 32 j)
        = if j < (s.history.lengthsArr s.history.tempIndex).toNat then
            s.history.bufferArr s.history.tempIndex j
          else s.cons.ahead j := by
  obtain ⟨c0, hc0, rfl⟩ := Option.map_eq_some_iff.mp hs
  obtain ⟨-, rfl⟩ := eraseCurrentLineOnScreen_eq_some.mp hc0
  obtain ⟨hr, hw, he⟩ := copyBufferToScreen_fields (s.history.bufferArr s.history.tempIndex)
    (s.history.lengthsArr s.history.tempIndex) { s.cons with e := s.cons.r }
  refine ⟨hr, hw, ?_, fun j hj => ?_⟩
  · rw [hr, he, BitVec.add_comm, BitVec.add_sub_cancel]
  · exact copyBufferToScreen_get _
      (Nat.le_of_lt (hf s.history.tempIndex)) hj

/-- **A recalled command** keeps the ring in order and the unread input exactly if it begins with the
unread input. -/
theorem recall_keeps_iff (hf : HistoryFits s.history) (hs : s.recall = some c') :
    InRing c' ∧ SameUnread s.cons c' ↔ BeginsWithUnread s := by
  obtain ⟨hr, hw, he, hget⟩ := recall_eq_some hf hs
  have hlen := hf s.history.tempIndex
  have hring : InRing c' ↔ s.cons.unread ≤ (s.history.lengthsArr s.history.tempIndex).toNat := by
    rw [inRing_iff, he]
    have hu : c'.unread = s.cons.unread := by
      unfold Cons.unread
      rw [hr, hw]
    rw [hu]
    exact and_iff_left (Nat.le_of_lt hlen)
  rw [BeginsWithUnread, hring]
  refine and_congr_right fun hu => forall_congr' fun i => imp_congr_right fun hi => ?_
  rw [hget i (by omega), if_pos (by omega)]

/-! ## the other input -/

theorem killLine_spec (n : Nat) (c : Cons) (h : InRing c) (hn : (c.e - c.w).toNat ≤ n) :
    InRing (c.killLine n) ∧ (c.killLine n).r = c.r ∧ (c.killLine n).w = c.w ∧
      (c.killLine n).buf = c.buf ∧
      ((c.killLine n).e = c.w ∨ (c.killLine n).get ((c.killLine n).e - 1) = newline) := by
  induction n generalizing c with
  | zero => exact ⟨h, rfl, rfl, rfl, .inl (eq_of_sub_toNat (Nat.le_zero.mp hn))⟩
  | succ n ih =>
    rw [Cons.killLine]
    split
    · rename_i hc
      refine ih { c with e := c.e - 1 } ?_ ?_
      · rw [inRing_iff] at h ⊢
        unfold Cons.unread INPUT_BUF_SIZE at h ⊢
        have hne := hc.1
        bv_omega
      · have hne := hc.1
        bv_omega
    · rename_i hc
      refine ⟨h, rfl, rfl, rfl, ?_⟩
      by_cases he : c.e = c.w
      · exact .inl he
      · exact .inr (not_not.mp fun hb => hc ⟨he, hb⟩)

theorem append_spec (h : InRing c) (hroom : (c.e - c.r).toNat < INPUT_BUF_SIZE) :
    InRing { c.put c.e b with e := c.e + 1 } ∧ SameUnread c { c.put c.e b with e := c.e + 1 } ∧
      InRing { c.put c.e b with e := c.e + 1, w := c.e + 1 } := by
  have hu := (inRing_iff.mp h).1
  refine ⟨?_, fun i hi => ?_, ?_⟩
  · rw [inRing_iff]
    unfold Cons.unread INPUT_BUF_SIZE at *
    show (c.w - c.r).toNat ≤ (c.e + 1 - c.r).toNat ∧ (c.e + 1 - c.r).toNat ≤ 128
    bv_omega
  · refine get_put_ne ?_
    rw [← add_sub_toNat c.r c.e]
    exact slot_ne c.r (by omega) hroom (by omega)
  · rw [inRing_iff]
    unfold Cons.unread INPUT_BUF_SIZE at *
    show (c.e + 1 - c.r).toNat ≤ (c.e + 1 - c.r).toNat ∧ (c.e + 1 - c.r).toNat ≤ 128
    bv_omega

theorem save_fits {h : History} (hf : HistoryFits h) {last : Nat} {command : Buf} {len : BitVec 32}
    (hlen : len.toNat < INPUT_BUF_SIZE) : HistoryFits (h.save last command len) := by
  intro t
  show (update h.lengthsArr last len t).toNat < _
  by_cases e : t = last
  · rwa [e, update_self]
  · rw [update_of_ne e]
    exact hf t

theorem savecommandtohistory_spec (hf : HistoryFits s.history)
    (hlen : (s.cons.e - s.cons.r - 1).toNat < INPUT_BUF_SIZE) :
    (savecommandtohistory s).cons = s.cons ∧ HistoryFits (savecommandtohistory s).history := by
  unfold savecommandtohistory
  dsimp only
  split
  · exact ⟨rfl, hf⟩
  · exact ⟨rfl, save_fits hf hlen⟩

theorem commit_spec (hf : HistoryFits s.history)
    (hlen : (s.cons.e - s.cons.r - 1).toNat < INPUT_BUF_SIZE) :
    s.commit.cons = { s.cons with w := s.cons.e } ∧ HistoryFits s.commit.history := by
  obtain ⟨hc, hh⟩ := savecommandtohistory_spec hf hlen
  unfold State.commit
  cases s.oldcmd with
  | true => exact ⟨rfl, hf⟩
  | false =>
    refine ⟨?_, hh⟩
    show { (savecommandtohistory s).cons with w := (savecommandtohistory s).cons.e } = _
    rw [hc]

theorem length_lt {e r : BitVec 32} (h : (e - r).toNat < INPUT_BUF_SIZE) :
    (e + 1 - r - 1).toNat < INPUT_BUF_SIZE := by
  bv_omega

theorem insert_spec (h : InRing s.cons) (hf : HistoryFits s.history) :
    InRing (insert s b).cons ∧ SameUnread s.cons (insert s b).cons := by
  unfold insert
  split
  · rename_i hc
    dsimp only
    generalize (if b = 13 then newline else b) = d
    obtain ⟨h1, h2, h3⟩ := append_spec (b := d) h hc.2
    split
    · obtain ⟨hcons, -⟩ := commit_spec
        (s := { s with cons := { s.cons.put s.cons.e d with e := s.cons.e + 1 } }) hf (length_lt hc.2)
      rw [hcons]
      exact ⟨h3, h2⟩
    · exact ⟨h1, h2⟩
  · exact ⟨h, SameUnread.rfl⟩

theorem insert_fits (hf : HistoryFits s.history) : HistoryFits (insert s b).history := by
  unfold insert
  split
  · rename_i hc
    dsimp only
    generalize (if b = 13 then newline else b) = d
    split
    · exact (commit_spec
        (s := { s with cons := { s.cons.put s.cons.e d with e := s.cons.e + 1 } }) hf (length_lt hc.2)).2
    · exact hf
  · exact hf

theorem consoleintr_spec (h : InRing s.cons) (hf : HistoryFits s.history) (hb : ¬ Recalls s b) :
    ∃ s', consoleintr s b = .next s' ∧ InRing s'.cons ∧ SameUnread s.cons s'.cons := by
  unfold consoleintr
  split
  · exact ⟨s, rfl, h, SameUnread.rfl⟩
  split
  · obtain ⟨hr, -, -, hbuf, -⟩ := killLine_spec (s.cons.e - s.cons.w).toNat s.cons h (Nat.le_refl _)
    exact ⟨_, rfl, hr, sameUnread_of_buf hbuf⟩
  split
  · split
    · rename_i hne
      refine ⟨_, rfl, ?_, sameUnread_of_buf rfl⟩
      rw [inRing_iff] at h ⊢
      unfold Cons.unread INPUT_BUF_SIZE at *
      bv_omega
    · exact ⟨s, rfl, h, SameUnread.rfl⟩
  split
  · rename_i hup
    rw [upArrow, if_neg fun hc => hb (.inl ⟨hup, hc⟩)]
    exact ⟨s, rfl, h, SameUnread.rfl⟩
  split
  · rename_i hdown
    rw [downArrow, if_neg fun hc => hb (.inr ⟨hdown, hc⟩)]
    exact ⟨s, rfl, h, SameUnread.rfl⟩
  · obtain ⟨h1, h2⟩ := insert_spec h hf
    exact ⟨_, rfl, h1, h2⟩

theorem consoleintr_recalls (hb : Recalls s b) :
    (consoleintr s b = .blocked ∧ s.recall = none) ∨
      ∃ s' c', consoleintr s b = .next s' ∧ s.recall = some c' ∧ s'.cons = c' := by
  rcases hb with ⟨rfl, hc⟩ | ⟨rfl, hc⟩
  · have e : consoleintr s UP_ARROW = upArrow s := rfl
    rw [e]
    rw [upArrow, if_pos hc]
    cases s.recall with
    | none => exact .inl ⟨rfl, rfl⟩
    | some c' => exact .inr ⟨_, c', rfl, rfl, rfl⟩
  · have e : consoleintr s DOWN_ARROW = downArrow s := rfl
    rw [e]
    unfold downArrow
    rw [if_pos hc]
    cases s.recall with
    | none => exact .inl ⟨rfl, rfl⟩
    | some c' =>
      dsimp only
      split <;> exact .inr ⟨_, c', rfl, rfl, rfl⟩

theorem upArrow_fits (hf : HistoryFits s.history) (hs : upArrow s = .next s') :
    HistoryFits s'.history := by
  unfold upArrow at hs
  dsimp only at hs
  split at hs
  · cases hr : s.recall with
    | none =>
      rw [hr] at hs
      cases hs
    | some c =>
      rw [hr] at hs
      cases hs
      exact hf
  · cases hs
    exact hf

theorem downArrow_fits (hf : HistoryFits s.history) (hs : downArrow s = .next s') :
    HistoryFits s'.history := by
  unfold downArrow at hs
  dsimp only at hs
  split at hs
  · cases hr : s.recall with
    | none =>
      rw [hr] at hs
      cases hs
    | some c =>
      rw [hr] at hs
      dsimp only at hs
      split at hs <;> cases hs <;> exact hf
  · cases hs
    exact hf

theorem consoleintr_fits (hf : HistoryFits s.history) (hs : consoleintr s b = .next s') :
    HistoryFits s'.history := by
  unfold consoleintr at hs
  split at hs
  · cases hs
    exact hf
  split at hs
  · cases hs
    exact hf
  split at hs
  · split at hs <;> cases hs <;> exact hf
  split at hs
  · exact upArrow_fits hf hs
  split at hs
  · exact downArrow_fits hf hs
  · cases hs
    exact insert_fits hf

/-! ## reading -/

theorem consoleread_spec (killed : Bool) (copied : Nat → Bool) (target n : Nat) (c : Cons) (h : InRing c) :
    InRing (consoleread killed copied target n c).1 := by
  induction n generalizing c with
  | zero => exact h
  | succ n ih =>
    have hr : c.r ≠ c.w → InRing { c with r := c.r + 1 } := by
      intro hne
      rw [inRing_iff] at h ⊢
      unfold Cons.unread INPUT_BUF_SIZE at *
      bv_omega
    rw [consoleread]
    split
    · exact h
    rename_i hne
    dsimp only
    split
    · split
      · show InRing { c with r := c.r + 1 - 1 }
        rwa [add_sub_cancel]
      · exact hr hne
    · split
      · exact hr hne
      · split
        · exact hr hne
        · exact ih _ (hr hne)

/-! ## runs -/

variable {x x' : Config} {ev : Event}

theorem step_fits (hf : HistoryFits x.state.history) (hs : step x ev = .next x') :
    HistoryFits x'.state.history := by
  cases ev with
  | intr b =>
    obtain ⟨s, hc, rfl⟩ := map_next hs
    exact consoleintr_fits hf hc
  | read p n killed copied | wake p killed copied =>
    unfold step at hs
    dsimp only at hs
    split at hs <;> cases hs
    exact hf

theorem recall_eq_none (hs : s.recall = none) : s.cons.e = s.cons.r := by
  apply Classical.byContradiction
  intro he
  have hc := eraseCurrentLineOnScreen_eq_some.mpr ⟨he, rfl⟩
  rw [State.recall, hc] at hs
  cases hs

theorem beginsWithUnread_of_empty (h : InRing s.cons) (he : s.cons.e = s.cons.r) : BeginsWithUnread s := by
  have hu : s.cons.unread = 0 := by
    have := (inRing_iff.mp h).1
    rw [he, BitVec.sub_self] at this
    exact Nat.le_zero.mp this
  rw [BeginsWithUnread, hu]
  exact ⟨Nat.zero_le _, fun i hi => absurd hi (Nat.not_lt_zero i)⟩

theorem keeps_intr_next {s' : State} (hs : consoleintr x.state b = .next s') :
    Keeps x (.intr b) ↔ InRing s'.cons ∧ SameUnread x.state.cons s'.cons := by
  have hstep : step x (.intr b) = .next { x with state := s' } := by
    show (consoleintr x.state b).map _ = _
    rw [hs]
    rfl
  constructor
  · intro h
    obtain ⟨h1, h2⟩ := h _ hstep
    exact ⟨h1, h2 b rfl⟩
  · intro h c' hc'
    rw [hstep] at hc'
    cases hc'
    exact ⟨h.1, fun _ _ => h.2⟩

theorem keeps_intr_blocked (hs : consoleintr x.state b = .blocked) : Keeps x (.intr b) := by
  intro c' hc'
  have hstep : step x (.intr b) = .blocked := by
    show (consoleintr x.state b).map _ = _
    rw [hs]
    rfl
  rw [hstep] at hc'
  cases hc'

theorem step_keeps_iff (h : InRing x.state.cons) (hf : HistoryFits x.state.history) :
    Keeps x ev ↔ Harmless x ev := by
  cases ev with
  | intr b =>
    by_cases hb : Recalls x.state b
    · have hcond : Harmless x (.intr b) ↔ BeginsWithUnread x.state := ⟨fun hh => hh hb, fun hh _ => hh⟩
      rw [hcond]
      rcases consoleintr_recalls hb with ⟨hblocked, hnone⟩ | ⟨s', c', hs', hrec, hc'⟩
      · exact iff_of_true (keeps_intr_blocked hblocked)
          (beginsWithUnread_of_empty h (recall_eq_none hnone))
      · rw [keeps_intr_next hs', hc']
        exact recall_keeps_iff hf hrec
    · obtain ⟨s', hs', h1, h2⟩ := consoleintr_spec h hf hb
      rw [keeps_intr_next hs']
      exact iff_of_true ⟨h1, h2⟩ fun hr => absurd hr hb
  | read p n killed copied | wake p killed copied =>
    refine iff_of_true (fun c' hc' => ?_) trivial
    unfold step at hc'
    dsimp only at hc'
    split at hc' <;> cases hc'
    exact ⟨consoleread_spec killed copied _ _ _ h, fun b hb => nomatch hb⟩

theorem along_keeps_iff (h : InRing x.state.cons) (hf : HistoryFits x.state.history) (es : List Event) :
    Along step Keeps x es ↔ Along step Harmless x es := by
  induction es generalizing x with
  | nil => exact Iff.rfl
  | cons ev es ih =>
    show (Keeps x ev ∧ ∀ x', step x ev = .next x' → Along step Keeps x' es)
      ↔ (Harmless x ev ∧ ∀ x', step x ev = .next x' → Along step Harmless x' es)
    rw [← step_keeps_iff h hf]
    refine and_congr_right fun hk => forall_congr' fun x' => imp_congr_right fun hs => ?_
    exact ih (hk x' hs).1 (step_fits hf hs)

/-- **The input ring.**  Along any run of input bytes and reads, every step keeps the order of the
indices and every interrupt the unread input, if and only if every command that an arrow recalls begins
with the input that is unread then; in particular if nothing is unread. -/
theorem ring_safe_iff (es : List Event) :
    Along step Keeps Config.start es ↔ Along step Harmless Config.start es := by
  have hf : HistoryFits Config.start.state.history := by
    intro t
    show (0 : BitVec 32).toNat < INPUT_BUF_SIZE
    decide
  exact along_keeps_iff (by decide) hf es

/-- `x` and a newline, read; then `yz` and a newline, and an arrow -/
def arrowEvents : List Event :=
  [.intr 120, .intr 13, .read 0 100 false fun _ => true, .intr 121, .intr 122, .intr 13, .intr UP_ARROW]

/-- after the arrow `w` is ahead of `e`, and a second one overwrites the first of the unread bytes -/
theorem arrow_overwrites : ∃ c c', exec step Config.start arrowEvents = .next c ∧
    ¬ InRing c.state.cons ∧ step c (.intr UP_ARROW) = .next c' ∧
    ¬ SameUnread c.state.cons c'.state.cons := by
  obtain ⟨c, hc, hring, hunread, hahead, hnext⟩ := exists_of_check
    (o := exec step Config.start arrowEvents)
    (p := fun c : Config => ¬ InRing c.state.cons ∧ c.state.cons.unread = 3 ∧
      c.state.cons.ahead 0 = 121 ∧ (step c (.intr UP_ARROW)).check
        (fun c' => c'.state.cons.get (c.state.cons.r + BitVec.ofNat 32 0) = 120) = true)
    (by decide +kernel)
  obtain ⟨c', hc', hget⟩ := exists_of_check hnext
  refine ⟨c, c', hc, hring, hc', fun hs => ?_⟩
  have h0 := hs 0 (by rw [hunread]; decide)
  rw [hget, hahead] at h0
  exact absurd h0 (by decide)

end

end Console
