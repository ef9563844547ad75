import Xv6.Console.Recall

/-!
# What is saved, and what `history` prints

`savecommandtohistory` takes the bytes from `r` on, though a line begins at `w`; and it writes over an
older command without clearing the rest, though `history` prints the slot up to a NUL.

* `Stores`, `consoleintr_stores`    when a byte saves a command, and which;
* `saved_line_iff`                  every saved command is the line just typed exactly if nothing is
                                    unread whenever one is saved (`saved_unread`);
* `printed_exact`                   what `history` prints is what was saved, if no command is saved over
                                    a longer one (`printed_residue`).
-/

namespace Console
open Run Bytes Function List Bool

/-- the `default` case of the switch -/
def inDefault (b : Byte) : Bool :=
  b ≠ ctrl 'P' ∧ b ≠ ctrl 'U' ∧ b ≠ ctrl 'H' ∧ b ≠ 0x7f ∧ b ≠ UP_ARROW ∧ b ≠ DOWN_ARROW

/-- the byte ends a line, and the handler saves it -/
structure Stores (s : State) (b : Byte) : Prop where
  default : inDefault b = true
  ne_zero : b ≠ 0
  room : s.cons.len < INPUT_BUF_SIZE
  ends : endsLine s.cons b
  fresh : s.oldcmd = false
  kept : isHistory (s.cons.add (stored b)) = false
  nonempty : s.cons.len ≠ 0

instance (s : State) (b : Byte) : Decidable (Stores s b) :=
  decidable_of_iff (inDefault b = true ∧ b ≠ 0 ∧ s.cons.len < INPUT_BUF_SIZE ∧ endsLine s.cons b ∧
      s.oldcmd = false ∧ isHistory (s.cons.add (stored b)) = false ∧ s.cons.len ≠ 0)
    ⟨fun h => ⟨h.1, h.2.1, h.2.2.1, h.2.2.2.1, h.2.2.2.2.1, h.2.2.2.2.2.1, h.2.2.2.2.2.2⟩,
      fun h => ⟨h.default, h.ne_zero, h.room, h.ends, h.fresh, h.kept, h.nonempty⟩⟩

/-- the slot of the next command -/
def State.slot (s : State) : Nat :=
  if s.firstSave then s.history.lastCommandIndex else (s.history.lastCommandIndex + 1) % MAX_HISTORY

/-! ## what a byte does to the history -/

section
variable {s s' : State} {b : Byte} {c : Cons}

theorem consoleintr_default (h : inDefault b = true) : consoleintr s b = .next (insert s b) := by
  obtain ⟨h1, h2, h3, h4, h5, h6⟩ := of_decide_eq_true h
  rw [consoleintr, if_neg h1, if_neg h2, if_neg (fun h => h.elim h3 h4), if_neg h5, if_neg h6]

theorem add_sub_one : ((c.add b).e - (c.add b).r - 1).toNat = c.len := by
  show (c.e + 1 - c.r - 1).toNat = (c.e - c.r).toNat
  bv_omega

theorem consoleintr_stores (h : Stores s b) :
    ∃ s' command len, consoleintr s b = .next s' ∧
      s'.history = s.history.save s.slot command len ∧ len.toNat = s.cons.len ∧
      (List.range s.cons.len).map command = s.cons.text := by
  refine ⟨_, (s.cons.add (stored b)).ahead, (s.cons.add (stored b)).e - (s.cons.add (stored b)).r - 1,
    consoleintr_default h.default, ?_, add_sub_one, ?_⟩
  · have hsave : ¬ (isHistory (s.cons.add (stored b)) = true ∨
        (s.cons.add (stored b)).e - (s.cons.add (stored b)).r - 1 = 0) := by
      rintro (e | e)
      · exact absurd (h.kept.symm.trans e) false_ne_true
      · apply h.nonempty
        rw [← add_sub_one, e]
        rfl
    rw [insert_eq h.ne_zero h.room, if_pos h.ends]
    rw [State.commit, savecommandtohistory, h.fresh, if_neg Bool.false_ne_true, if_neg hsave]
    rfl
  · have ht := text_add (b := stored b) h.room
    rw [Cons.text, len_add h.room, range_succ, map_append] at ht
    exact (append_inj' ht rfl).1

theorem stores_entry (h : Stores s b) (hs : consoleintr s b = .next s') :
    s'.history.entry s'.history.lastCommandIndex = s.cons.text := by
  obtain ⟨t, command, len, ht, hh, hl, hc⟩ := consoleintr_stores h
  cases hs.symm.trans ht
  rw [hh]
  show (s.history.save s.slot command len).entry s.slot = _
  rw [entry_save_self, hl, hc]

end

/-! ## the line that was typed -/

/-- the bytes from `w` to `e` -/
def Cons.line (c : Cons) : List Byte :=
  (List.range (c.e - c.w).toNat).map fun i => c.get (c.w + BitVec.ofNat 32 i)

/-- the command that the event saves is the line that it ends -/
def SavesLine (x : Config) (ev : Event) : Prop :=
  ∀ b x', ev = .intr b → Stores x.state b → step x ev = .next x' →
    x'.state.history.entry x'.state.history.lastCommandIndex = x.state.cons.line

/-- nothing is unread when the event saves a command -/
def ReadUp (x : Config) : Event → Prop
  | .intr b => Stores x.state b → x.state.cons.r = x.state.cons.w
  | _ => True

instance (x : Config) (ev : Event) : Decidable (ReadUp x ev) :=
  match ev with
  | .intr _ => inferInstanceAs (Decidable (_ → _))
  | .read _ _ _ _ => inferInstanceAs (Decidable True)
  | .wake _ _ _ => inferInstanceAs (Decidable True)

def Event.isArrow : Event → Bool
  | .intr b => b = UP_ARROW ∨ b = DOWN_ARROW
  | _ => false

section
variable {c : Cons} {x x' : Config} {ev : Event}

theorem line_eq_text (h : InRing c) : c.line = c.text ↔ c.r = c.w := by
  constructor
  · intro e
    have hl := congrArg length e
    rw [text_length, Cons.line, length_map, length_range] at hl
    have hu := (inRing_iff.mp h).1
    unfold Cons.len at hl
    apply (eq_of_sub_toNat _).symm
    bv_omega
  · intro e
    rw [Cons.line, Cons.text, Cons.len, ← e]
    rfl

theorem savesLine_iff (h : InRing x.state.cons) : SavesLine x ev ↔ ReadUp x ev := by
  constructor
  · intro hs
    cases ev with
    | intr b =>
      intro hst
      obtain ⟨s', _, _, hc, _⟩ := consoleintr_stores hst
      have := hs b _ rfl hst (step_intr hc)
      rw [← line_eq_text h, ← this]
      exact stores_entry hst hc
    | read p n killed copied | wake p killed copied => exact trivial
  · intro hr b x' hev hst hstep
    subst hev
    obtain ⟨s', hc, rfl⟩ := map_next hstep
    have := stores_entry hst hc
    rwa [(line_eq_text h).mpr (hr hst)]

theorem harmless_of_not_arrow (hev : ev.isArrow = false) : Harmless x ev := by
  cases ev with
  | intr b =>
    intro hr
    have hb := of_decide_eq_false hev
    exact absurd (hr.elim (fun h => .inl h.1) (fun h => .inr h.1)) hb
  | read p n killed copied | wake p killed copied => exact trivial

theorem inRing_step (h : InRing x.state.cons) (hf : HistoryFits x.state.history)
    (hev : ev.isArrow = false) (hs : step x ev = .next x') : InRing x'.state.cons :=
  ((step_keeps_iff h hf).mpr (harmless_of_not_arrow hev) x' hs).1

theorem along_savesLine_iff (h : InRing x.state.cons) (hf : HistoryFits x.state.history)
    {es : List Event} (hk : ∀ ev ∈ es, Event.isArrow ev = false) :
    Along step SavesLine x es ↔ Along step ReadUp x es := by
  induction es generalizing x with
  | nil => exact Iff.rfl
  | cons ev es ih =>
    have hev := hk ev mem_cons_self
    have hes : ∀ ev ∈ es, Event.isArrow ev = false := fun ev' h' => hk ev' (mem_cons_of_mem _ h')
    refine and_congr (savesLine_iff h) (forall_congr' fun x' => forall_congr' fun hs => ?_)
    exact ih (inRing_step h hf hev hs) (step_fits hf hs) hes

end

theorem start_inRing : InRing Config.start.state.cons := by decide

theorem start_fits : HistoryFits Config.start.state.history := by
  intro t
  show (0 : BitVec 32).toNat < INPUT_BUF_SIZE
  decide

/-- **What is saved is the line just typed**, in a run without arrows, exactly if every line that is
saved ends when nothing is unread. -/
theorem saved_line_iff (es : List Event) (hk : ∀ ev ∈ es, Event.isArrow ev = false) :
    Along step SavesLine Config.start es ↔ Along step ReadUp Config.start es :=
  along_savesLine_iff start_inRing start_fits hk

/-- `x` is read before `y` is typed -/
def readBetween : List Event :=
  [.intr 120, .intr 13, .read 0 100 false fun _ => true, .intr 121, .intr 13]

theorem saved_line_iff_readBetween : Along step SavesLine Config.start readBetween :=
  (saved_line_iff readBetween (by decide)).mpr (along_of_check (by decide +kernel))

/-- `x` is still unread when `y` is typed: `x`, a newline and `y` are saved -/
theorem saved_unread :
    ∃ x x', exec step Config.start [.intr 120, .intr 13, .intr 121] = .next x ∧ Stores x.state 13 ∧
      step x (.intr 13) = .next x' ∧ x.state.cons.line = [121] ∧
      x'.state.history.entry x'.state.history.lastCommandIndex = [120, 10, 121] := by
  obtain ⟨x, hx, hst, hline, hnext⟩ := exists_of_check
    (p := fun x : Config => Stores x.state 13 ∧ x.state.cons.line = [121] ∧
      (step x (.intr 13)).check (fun x' =>
        x'.state.history.entry x'.state.history.lastCommandIndex = [120, 10, 121]) = true)
    (show (exec step Config.start [.intr 120, .intr 13, .intr 121]).check _ = true by decide +kernel)
  obtain ⟨x', hx', he⟩ := exists_of_check hnext
  exact ⟨x, x', hx, hst, hx', hline, he⟩

/-! ## what `history` prints -/

/-- the string in a slot, up to the NUL -/
def printed (row : Buf) : List Byte := ((List.range INPUT_BUF_SIZE).map row).takeWhile (· ≠ 0)

/-- a slot holds its command, and NULs behind it -/
def Clean (h : History) : Prop :=
  ∀ t, (∀ b ∈ h.entry t, b ≠ 0) ∧ ∀ i, (h.lengthsArr t).toNat ≤ i → h.bufferArr t i = 0

/-- the event does not save a command over a longer one -/
def NotShorter (x : Config) : Event → Prop
  | .intr b => Stores x.state b → (x.state.history.lengthsArr x.state.slot).toNat ≤ x.state.cons.len
  | _ => True

instance (x : Config) (ev : Event) : Decidable (NotShorter x ev) :=
  match ev with
  | .intr _ => inferInstanceAs (Decidable (_ → _))
  | .read _ _ _ _ => inferInstanceAs (Decidable True)
  | .wake _ _ _ => inferInstanceAs (Decidable True)

section
variable {h : History} {s s' : State} {b : Byte} {c c' : Cons}

theorem printed_clean (hc : Clean h) (hf : HistoryFits h) (t : Nat) :
    printed (h.bufferArr t) = h.entry t := by
  obtain ⟨hne, hz⟩ := hc t
  have hlt := hf t
  obtain ⟨k, hk⟩ := Nat.exists_eq_add_of_le (Nat.succ_le_of_lt hlt)
  have hsplit : (range INPUT_BUF_SIZE).map (h.bufferArr t)
      = h.entry t ++ (range (k + 1)).map fun i => h.bufferArr t ((h.lengthsArr t).toNat + i) := by
    rw [hk, Nat.succ_add_eq_add_succ, range_add, map_append, map_map]
    rfl
  unfold printed
  rw [hsplit, takeWhile_append_of_pos fun b hb => decide_eq_true (hne b hb), range_succ_eq_map,
    map_cons, takeWhile_cons_of_neg, append_nil]
  rw [hz _ (Nat.le_add_right _ _)]
  decide

theorem printed_length (hc : Clean h) (hf : HistoryFits h) (t : Nat) :
    (printed (h.bufferArr t)).length = (h.lengthsArr t).toNat := by
  rw [printed_clean hc hf, entry_length]

/-! ## no NUL in the line -/

/-- the text has no NUL -/
def Cons.NoNul (c : Cons) : Prop := ∀ b ∈ c.text, b ≠ 0

theorem stored_ne_zero (h : b ≠ 0) : stored b ≠ 0 := by
  unfold stored
  split
  · decide
  · exact h

theorem noNul_add (hc : c.NoNul) (hb : b ≠ 0) (h : c.len < INPUT_BUF_SIZE) : (c.add b).NoNul := by
  intro a ha
  rw [text_add h] at ha
  rcases mem_append.mp ha with ha | ha
  · exact hc a ha
  · rwa [mem_singleton.mp ha]

theorem noNul_shorter (hc : c.NoNul) (hr : c'.r = c.r) (hb : c'.buf = c.buf) (hl : c'.len ≤ c.len) :
    c'.NoNul := by
  have hpre : c'.text <+: c.text := by
    have hahead : c'.ahead = c.ahead := by
      funext i
      rw [Cons.ahead, Cons.ahead, Cons.get, Cons.get, hr, hb]
    rw [Cons.text, Cons.text, hahead]
    exact (range_initial hl).map _
  exact fun b hb => hc b (hpre.subset hb)

theorem killLine_len (n : Nat) (c : Cons) (h : InRing c) : (c.killLine n).len ≤ c.len ∧
    (c.killLine n).r = c.r ∧ (c.killLine n).buf = c.buf := by
  induction n generalizing c with
  | zero => exact ⟨Nat.le_refl _, rfl, rfl⟩
  | succ n ih =>
    unfold Cons.killLine
    split
    · rename_i hc
      have hle := inRing_iff.mp h
      have hstep : InRing { c with e := c.e - 1 } ∧ Cons.len { c with e := c.e - 1 } ≤ c.len := by
        rw [inRing_iff]
        unfold Cons.unread Cons.len INPUT_BUF_SIZE at *
        refine ⟨⟨?_, ?_⟩, ?_⟩ <;> bv_omega
      obtain ⟨h1, h2, h3⟩ := ih { c with e := c.e - 1 } hstep.1
      exact ⟨Nat.le_trans h1 hstep.2, h2, h3⟩
    · exact ⟨Nat.le_refl _, rfl, rfl⟩

theorem insert_noNul (hc : s.cons.NoNul) : (insert s b).cons.NoNul := by
  by_cases h : b ≠ 0 ∧ s.cons.len < INPUT_BUF_SIZE
  · have hadd := noNul_add hc (stored_ne_zero h.1) h.2
    rw [insert_eq h.1 h.2]
    split
    · rwa [commit_cons]
    · exact hadd
  · have : insert s b = s := if_neg h
    rwa [this]

theorem recall_noNul (hf : HistoryFits s.history) (hc : Clean s.history) (hs : s.recall = some c) :
    c.NoNul := by
  obtain ⟨c0, -, rfl⟩ := Option.map_eq_some_iff.mp hs
  intro b hb
  rw [text_copy _ _ (Nat.le_of_lt (hf _))] at hb
  exact (hc _).1 b hb

theorem insert_history (hd : inDefault b = true) (h : ¬ Stores s b) : (insert s b).history = s.history := by
  by_cases hb : b ≠ 0 ∧ s.cons.len < INPUT_BUF_SIZE
  · rw [insert_eq hb.1 hb.2]
    split
    · rename_i he
      unfold State.commit savecommandtohistory
      dsimp only
      split
      · rfl
      rename_i ho
      split
      · rfl
      rename_i hs
      refine absurd ⟨hd, hb.1, hb.2, he, eq_false_iff.mpr ho, ?_, fun e => ?_⟩ h
      · exact eq_false_iff.mpr fun e => hs (.inl e)
      apply hs
      right
      apply BitVec.eq_of_toNat_eq
      rw [add_sub_one, e]
      rfl
    · rfl
  · have : insert s b = s := if_neg hb
    rw [this]

theorem clean_save {last : Nat} {command : Buf} {len : BitVec 32} (hc : Clean h)
    (hl : (h.lengthsArr last).toNat ≤ len.toNat)
    (hne : ∀ b ∈ (List.range len.toNat).map command, b ≠ 0) : Clean (h.save last command len) := by
  intro t
  by_cases e : t = last
  · subst e
    refine ⟨?_, fun i hi => ?_⟩
    · rwa [entry_save_self]
    have hlen : (h.save t command len).lengthsArr t = len := update_self ..
    rw [hlen] at hi
    show update h.bufferArr t _ t i = 0
    rw [update_self, if_neg (Nat.not_lt.mpr hi)]
    exact (hc t).2 i (Nat.le_trans hl hi)
  · have hlen : (h.save last command len).lengthsArr t = h.lengthsArr t := update_of_ne e _ _
    have hbuf : (h.save last command len).bufferArr t = h.bufferArr t := update_of_ne e _ _
    rw [entry_save_ne e, hlen, hbuf]
    exact hc t

/-- the arrows change nothing of the history but `currentHistory` -/
theorem clean_arrow (hf : HistoryFits s.history) (hc : Clean s.history) (hn : s.cons.NoNul)
    (hb : b = UP_ARROW ∨ b = DOWN_ARROW) (hs : consoleintr s b = .next s') :
    Clean s'.history ∧ s'.cons.NoNul := by
  rcases hb with rfl | rfl
  · have hs : upArrow s = .next s' := hs
    unfold upArrow at hs
    dsimp only at hs
    split at hs
    · split at hs
      · cases hs
      · rename_i c hrec
        cases hs
        exact ⟨hc, recall_noNul hf hc hrec⟩
    · cases hs
      exact ⟨hc, hn⟩
  · have hs : downArrow s = .next s' := hs
    unfold downArrow at hs
    dsimp only at hs
    split at hs
    · split at hs
      · cases hs
      rename_i c hrec
      split at hs
      · cases hs
        exact ⟨hc, recall_noNul hf hc hrec⟩
      · cases hs
        exact ⟨hc, recall_noNul hf hc hrec⟩
    · cases hs
      exact ⟨hc, hn⟩

theorem clean_default (hc : Clean s.history) (hn : s.cons.NoNul) (hd : inDefault b = true)
    (hl : Stores s b → (s.history.lengthsArr s.slot).toNat ≤ s.cons.len)
    (hs : consoleintr s b = .next s') : Clean s'.history ∧ s'.cons.NoNul := by
  have hcons : s'.cons.NoNul := by
    cases (consoleintr_default hd).symm.trans hs
    exact insert_noNul hn
  refine ⟨?_, hcons⟩
  by_cases hst : Stores s b
  · obtain ⟨t, command, len, ht, hh, hlen, htext⟩ := consoleintr_stores hst
    cases hs.symm.trans ht
    rw [hh]
    apply clean_save hc
    · rw [hlen]
      exact hl hst
    · rwa [hlen, htext]
  · cases (consoleintr_default hd).symm.trans hs
    rwa [insert_history hd hst]

theorem clean_intr (hr : InRing s.cons) (hf : HistoryFits s.history) (hc : Clean s.history)
    (hn : s.cons.NoNul) (hl : Stores s b → (s.history.lengthsArr s.slot).toNat ≤ s.cons.len)
    (hs : consoleintr s b = .next s') : Clean s'.history ∧ s'.cons.NoNul := by
  by_cases hd : inDefault b = true
  · exact clean_default hc hn hd hl hs
  by_cases ha : b = UP_ARROW ∨ b = DOWN_ARROW
  · exact clean_arrow hf hc hn ha hs
  have hle := inRing_iff.mp hr
  unfold consoleintr at hs
  split at hs
  · cases hs
    exact ⟨hc, hn⟩
  split at hs
  · cases hs
    obtain ⟨h1, h2, h3⟩ := killLine_len (s.cons.e - s.cons.w).toNat s.cons hr
    exact ⟨hc, noNul_shorter hn h2 h3 h1⟩
  split at hs
  · split at hs
    · rename_i he
      cases hs
      refine ⟨hc, noNul_shorter hn rfl rfl ?_⟩
      show (s.cons.e - 1 - s.cons.r).toNat ≤ (s.cons.e - s.cons.r).toNat
      unfold Cons.unread INPUT_BUF_SIZE at hle
      bv_omega
    · cases hs
      exact ⟨hc, hn⟩
  · rename_i h1 h2 h3
    refine absurd (decide_eq_true ⟨h1, h2, fun e => h3 (.inl e), fun e => h3 (.inr e), ?_, ?_⟩) hd
    · exact fun e => ha (.inl e)
    · exact fun e => ha (.inr e)

theorem noNul_read (killed : Bool) (copied : Nat → Bool) (target n : Nat) (c : Cons) (h : InRing c)
    (hc : c.NoNul) : (consoleread killed copied target n c).1.NoNul := by
  induction n generalizing c with
  | zero => exact hc
  | succ n ih =>
    unfold consoleread
    dsimp only
    split
    · exact hc
    rename_i hne
    have hle := inRing_iff.mp h
    have hunread : (c.w - c.r).toNat ≠ 0 := fun e => hne (eq_of_sub_toNat e).symm
    have hlen : c.text ≠ [] := by
      intro e
      have := congrArg length e
      rw [text_length, length_nil, Cons.len] at this
      unfold Cons.unread at hle
      omega
    obtain ⟨a, rest, ht⟩ := exists_cons_of_ne_nil hlen
    obtain ⟨-, -, hrest⟩ := text_cons ht
    have hnext : Cons.NoNul { c with r := c.r + 1 } := by
      intro b hb
      rw [hrest] at hb
      exact hc b (by rw [ht]; exact mem_cons_of_mem _ hb)
    have hring : InRing { c with r := c.r + 1 } := by
      rw [inRing_iff]
      unfold Cons.unread INPUT_BUF_SIZE at *
      constructor <;> bv_omega
    have hback : ({ c with r := c.r + 1 - 1 } : Cons) = c := by
      rw [BitVec.add_sub_cancel]
    split
    · split
      · rwa [hback]
      · exact hnext
    · split
      · exact hnext
      · split
        · exact hnext
        · exact ih _ hring hnext

end

/-! ## runs -/

/-- what the runs keep -/
structure Tidy (x : Config) : Prop where
  ring : InRing x.state.cons
  fits : HistoryFits x.state.history
  clean : Clean x.state.history
  noNul : x.state.cons.NoNul

theorem tidy_start : Tidy Config.start := by
  refine ⟨start_inRing, start_fits, fun t => ⟨fun b hb => ?_, fun i _ => rfl⟩, fun b hb => ?_⟩
  · exact absurd hb not_mem_nil
  · exact absurd hb not_mem_nil

theorem tidy_step {x x' : Config} {ev : Event} (h : Tidy x) (hk : Harmless x ev) (hl : NotShorter x ev)
    (hs : step x ev = .next x') : Tidy x' := by
  have hring := ((step_keeps_iff h.ring h.fits).mpr hk x' hs).1
  have hfits := step_fits h.fits hs
  have hread : ∀ p n target killed copied, x' = x.readFrom p n target killed copied → Tidy x' := by
    intro p n target killed copied e
    subst e
    exact ⟨hring, hfits, h.clean, noNul_read killed copied target n _ h.ring h.noNul⟩
  cases ev with
  | intr b =>
    obtain ⟨s, hc, rfl⟩ := map_next hs
    obtain ⟨h1, h2⟩ := clean_intr h.ring h.fits h.clean h.noNul hl hc
    exact ⟨hring, hfits, h1, h2⟩
  | read p n killed copied | wake p killed copied =>
    dsimp only [step] at hs
    split at hs
    · cases hs
      exact hread _ _ _ _ _ rfl
    · cases hs

/-- **What `history` prints** for a slot is the command saved there, in every run that saves no command
over a longer one, and whose arrows keep the ring in order. -/
theorem printed_exact {es : List Event} {x : Config}
    (hC : Along step (fun x ev => Harmless x ev ∧ NotShorter x ev) Config.start es)
    (h : exec step Config.start es = .next x) (i : Nat) :
    printed (x.state.history.bufferArr i) = x.state.history.entry i ∧
      (printed (x.state.history.bufferArr i)).length = (x.state.history.lengthsArr i).toNat := by
  have ht : Tidy x := exec_inv Tidy (fun _ _ _ hT hc hs => tidy_step hT hc.1 hc.2 hs) tidy_start hC h
  exact ⟨printed_clean ht.clean ht.fits i, printed_length ht.clean ht.fits i⟩

theorem printed_exact_readBetween :
    ∃ x, exec step Config.start readBetween = .next x ∧ x.state.history.entry 1 = [121] ∧
      printed (x.state.history.bufferArr 1) = x.state.history.entry 1 := by
  obtain ⟨x, hx, he⟩ := exists_of_check (p := fun x : Config => x.state.history.entry 1 = [121])
    (show (exec step Config.start readBetween).check _ = true by decide +kernel)
  have hC : Along step (fun x ev => ev.isArrow = false ∧ NotShorter x ev) Config.start readBetween :=
    along_of_check (by decide +kernel)
  exact ⟨x, hx, he, (printed_exact
    (along_mono (fun _ _ h => ⟨harmless_of_not_arrow h.1, h.2⟩) hC) hx 1).1⟩

/-- `xyz`, fifteen times `x`, and `u`, which comes into the slot of `xyz` -/
def overXyz : List (List Byte) := [120, 121, 122] :: List.replicate 15 [120] ++ [[117]]

theorem printed_residue :
    ∃ x, exec step Config.start (overXyz.flatMap typed) = .next x ∧
      x.state.history.numOfCommmandsInMem = 16 ∧ x.state.history.lengthsArr 0 = 1 ∧
      x.state.history.entry 0 = [117] ∧ printed (x.state.history.bufferArr 0) = [117, 121, 122] :=
  exists_of_check (p := fun x : Config => x.state.history.numOfCommmandsInMem = 16 ∧
    x.state.history.lengthsArr 0 = 1 ∧ x.state.history.entry 0 = [117] ∧
    printed (x.state.history.bufferArr 0) = [117, 121, 122]) (by decide +kernel)

end Console
