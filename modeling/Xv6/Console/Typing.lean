import Xv6.Console.Ring

/-!
# Typing a line

* `Cons.text`              what lies between `r` and `e`;
* `insert_text`, `insert_end`    what a byte of the `default` case does to it;
* `consoleintr_returns`    the handler returns, if no arrow comes while fewer than two bytes are
                           there (`arrow_hangs`);
* `typed_line_read`        a line without the two arrow codes reaches the reader as it was typed
                           (`arrow_in_text`).
-/

namespace Console
open Run Bytes List BitVec

/-- the bytes between `r` and `e` -/
def Cons.len (c : Cons) : Nat := (c.e - c.r).toNat

def Cons.text (c : Cons) : List Byte := (List.range c.len).map c.ahead

/-- the byte is inserted and does not end a line -/
def isText (b : Byte) : Bool :=
  b ≠ 0 ∧ b ≠ 13 ∧ b ≠ newline ∧ b ≠ ctrl 'D' ∧ b ≠ ctrl 'P' ∧ b ≠ ctrl 'U' ∧ b ≠ ctrl 'H' ∧ b ≠ 0x7f ∧
    b ≠ UP_ARROW ∧ b ≠ DOWN_ARROW

/-! ## the text -/

section
variable {c c' : Cons} {s s' : State} {b : Byte}

theorem text_length (c : Cons) : c.text.length = c.len := by
  rw [Cons.text, length_map, length_range]

theorem text_eq_nil (h : c.e = c.r) : c.text = [] := by
  rw [Cons.text, Cons.len, h, BitVec.sub_self]
  rfl

/-- one more byte -/
def Cons.add (c : Cons) (b : Byte) : Cons := { c.put c.e b with e := c.e + 1 }

theorem len_add (h : c.len < INPUT_BUF_SIZE) : (c.add b).len = c.len + 1 := by
  show (c.e + 1 - c.r).toNat = (c.e - c.r).toNat + 1
  unfold Cons.len INPUT_BUF_SIZE at h
  bv_omega

theorem text_add (h : c.len < INPUT_BUF_SIZE) : (c.add b).text = c.text ++ [b] := by
  rw [Cons.text, len_add h, range_succ, map_append, map_singleton, Cons.text]
  have hlast : (c.add b).ahead c.len = b := by
    show (c.put c.e b).get (c.r + BitVec.ofNat 32 c.len) = b
    rw [Cons.len, add_sub_toNat, get_put_self]
  have hrest : ∀ i ∈ range c.len, (c.add b).ahead i = c.ahead i := by
    intro i hi
    have hi := mem_range.mp hi
    apply get_put_ne
    rw [← add_sub_toNat c.r c.e]
    exact slot_ne c.r (Nat.lt_trans hi h) h (Nat.ne_of_lt hi)
  rw [hlast, map_congr_left hrest]

/-! ## one byte of text, and the end of a line -/

theorem consoleintr_text (hb : isText b = true) : consoleintr s b = .next (insert s b) := by
  obtain ⟨-, -, -, -, h1, h2, h3, h4, h5, h6⟩ := of_decide_eq_true hb
  rw [consoleintr, if_neg h1, if_neg h2, if_neg (by exact fun h => h.elim h3 h4), if_neg h5, if_neg h6]

/-- the byte as it is stored -/
def stored (b : Byte) : Byte := if b = 13 then newline else b

/-- the byte ends the line -/
def endsLine (c : Cons) (b : Byte) : Prop :=
  stored b = newline ∨ stored b = ctrl 'D' ∨ (c.add (stored b)).len = INPUT_BUF_SIZE

instance (c : Cons) (b : Byte) : Decidable (endsLine c b) := inferInstanceAs (Decidable (_ ∨ _ ∨ _))

theorem insert_eq (hb : b ≠ 0) (h : s.cons.len < INPUT_BUF_SIZE) :
    insert s b = if endsLine s.cons b then { s with cons := s.cons.add (stored b) }.commit
      else { s with cons := s.cons.add (stored b) } := by
  rw [insert, if_pos ⟨hb, h⟩]
  rfl

theorem insert_text (hb : isText b = true) (h : s.cons.len + 1 < INPUT_BUF_SIZE) :
    insert s b = { s with cons := s.cons.add b } := by
  obtain ⟨h0, h1, h2, h3, -⟩ := of_decide_eq_true hb
  have hlt := Nat.lt_of_succ_lt h
  have hst : stored b = b := if_neg h1
  rw [insert_eq h0 hlt, if_neg, hst]
  rw [endsLine, hst, len_add hlt]
  rintro (e | e | e)
  · exact h2 e
  · exact h3 e
  · exact absurd e (Nat.ne_of_lt h)

theorem insert_newline (h : s.cons.len < INPUT_BUF_SIZE) :
    insert s newline = { s with cons := s.cons.add newline }.commit := by
  rw [insert_eq (by decide) h, if_pos (.inl rfl)]
  rfl

theorem consoleintr_newline : consoleintr s newline = .next (insert s newline) := by
  unfold consoleintr
  rw [if_neg (by decide), if_neg (by decide), if_neg (by decide), if_neg (by decide),
    if_neg (by decide)]

theorem commit_cons (s : State) : s.commit.cons = { s.cons with w := s.cons.e } := by
  unfold State.commit savecommandtohistory
  dsimp only
  split
  · rfl
  · split <;> rfl

/-! ## a line -/

variable {x : Config} {line : List Byte}

theorem step_intr (h : consoleintr x.state b = .next s) :
    step x (.intr b) = .next { x with state := s } := by
  show (consoleintr x.state b).map _ = _
  rw [h]
  rfl

theorem step_intr_blocked (h : consoleintr x.state b = .blocked) : step x (.intr b) = .blocked := by
  show (consoleintr x.state b).map _ = _
  rw [h]
  rfl

theorem exec_text (hl : ∀ b ∈ line, isText b = true)
    (h : x.state.cons.len + line.length < INPUT_BUF_SIZE) :
    ∃ c, exec step x (line.map .intr) = .next { x with state := { x.state with cons := c } } ∧
      c.r = x.state.cons.r ∧ c.w = x.state.cons.w ∧ c.text = x.state.cons.text ++ line := by
  induction line generalizing x with
  | nil => exact ⟨x.state.cons, rfl, rfl, rfl, (append_nil _).symm⟩
  | cons b line ih =>
    rw [length_cons] at h
    have hb := hl b mem_cons_self
    have hroom : x.state.cons.len + 1 < INPUT_BUF_SIZE := by omega
    have hlen : (x.state.cons.add b).len = x.state.cons.len + 1 := len_add (Nat.lt_of_succ_lt hroom)
    have hs := consoleintr_text (s := x.state) hb
    rw [insert_text hb hroom] at hs
    obtain ⟨c, hc, hr, hw, ht⟩ := ih
      (x := { x with state := { x.state with cons := x.state.cons.add b } })
      (fun b' hb' => hl b' (mem_cons_of_mem _ hb')) (by show (x.state.cons.add b).len + _ < _; omega)
    refine ⟨c, ?_, hr, hw, ?_⟩
    · rwa [map_cons, exec_cons_next (step_intr hs)]
    · rw [ht, text_add (Nat.lt_of_succ_lt hroom), List.append_assoc]
      rfl

theorem exec_line (hl : ∀ b ∈ line, isText b = true)
    (h : x.state.cons.len + line.length < INPUT_BUF_SIZE) :
    ∃ c : Cons, exec step x ((line ++ [newline]).map .intr)
        = .next { x with state := { x.state with cons := c.add newline }.commit } ∧
      c.r = x.state.cons.r ∧ c.w = x.state.cons.w ∧ c.text = x.state.cons.text ++ line := by
  obtain ⟨c, hc, hr, hw, ht⟩ := exec_text hl h
  refine ⟨c, ?_, hr, hw, ht⟩
  have hlen : c.len < INPUT_BUF_SIZE := by
    rwa [← text_length, ht, length_append, text_length]
  have hs := consoleintr_newline (s := { x.state with cons := c })
  rw [insert_newline hlen] at hs
  rw [map_append, exec_append hc, map_singleton]
  exact exec_cons_next (step_intr hs)

/-! ## reading a line -/

theorem text_cons {rest : List Byte} (h : c.text = b :: rest) :
    c.r ≠ c.e ∧ c.get c.r = b ∧ { c with r := c.r + 1 }.text = rest := by
  have hlen : c.len = rest.length + 1 := by rw [← text_length, h, length_cons]
  have hsub : (c.e - (c.r + 1)).toNat = rest.length := by
    unfold Cons.len at hlen
    bv_omega
  rw [Cons.text, hlen, range_succ_eq_map, map_cons] at h
  obtain ⟨h0, h1⟩ := cons.inj h
  refine ⟨fun e => ?_, ?_, ?_⟩
  · rw [Cons.len, e, BitVec.sub_self] at hlen
    cases hlen
  · rwa [Cons.ahead, BitVec.add_zero] at h0
  rw [Cons.text, show Cons.len { c with r := c.r + 1 } = rest.length from hsub]
  rw [map_map] at h1
  refine Eq.trans ?_ h1
  apply map_congr_left
  intro i _
  show c.get (c.r + 1 + BitVec.ofNat 32 i) = c.get (c.r + BitVec.ofNat 32 (i + 1))
  rw [BitVec.add_assoc, BitVec.add_comm 1, BitVec.ofNat_add i 1]
  rfl

theorem consoleread_line (killed : Bool) (target : Nat) {n : Nat} (hw : c.w = c.e)
    (ht : c.text = line ++ [newline]) (hl : ∀ b ∈ line, b ≠ newline ∧ b ≠ ctrl 'D')
    (hn : line.length < n) :
    ∃ c', consoleread killed (fun _ => true) target n c
      = (c', .returned (target - ((n - (line.length + 1) : Nat) : Int)), line ++ [newline]) ∧
      c'.r = c.e := by
  induction line generalizing c n with
  | nil =>
    obtain ⟨hne, hget, hrest⟩ := text_cons ht
    obtain ⟨n, rfl⟩ := Nat.exists_eq_succ_of_ne_zero (Nat.ne_of_gt hn)
    rw [consoleread, hw, if_neg hne, hget, if_neg (by decide), if_neg (by decide), if_pos rfl]
    refine ⟨_, rfl, (eq_of_sub_toNat ?_).symm⟩
    have := congrArg length hrest
    rwa [text_length] at this
  | cons b line ih =>
    obtain ⟨hne, hget, hrest⟩ := text_cons ht
    obtain ⟨n, rfl⟩ := Nat.exists_eq_succ_of_ne_zero (Nat.ne_of_gt (Nat.zero_lt_of_lt hn))
    rw [length_cons] at hn
    obtain ⟨c', hc', hr'⟩ := ih (c := { c with r := c.r + 1 }) hw hrest
      (fun b' hb' => hl b' (mem_cons_of_mem _ hb')) (Nat.lt_of_succ_lt_succ hn)
    obtain ⟨h1, h2⟩ := hl b mem_cons_self
    rw [consoleread, hw, if_neg hne, hget, if_neg h2, if_neg (by decide), if_neg h1]
    rw [hw] at hc'
    rw [hc', length_cons]
    refine ⟨c', ?_, hr'⟩
    rw [Nat.succ_sub_succ]
    rfl

end

theorem isText_of_printable {b : Byte} (h1 : 0x20 ≤ b) (h2 : b ≤ 0x7e) (hu : b ≠ UP_ARROW)
    (hd : b ≠ DOWN_ARROW) : isText b = true := by
  revert b
  decide

section
variable {c : Cons} {s : State} {b : Byte}

/-- the loop of `eraseCurrentLineOnScreen` counts `e - r - 1` down to 1 -/
theorem eraseLoop_ends (h : 2 ≤ (c.e - c.r).toInt) :
    c.eraseLoop (c.len - 2) (c.e - c.r - 1) = true := by
  rw [eraseLoop_eq_true]
  right
  unfold Cons.len
  constructor
  · intro e
    rw [e, BitVec.sub_self] at h
    exact absurd h (by decide)
  · have hle : 2 ≤ (c.e - c.r).toNat := by
      rw [toInt_eq_toNat_cond] at h
      split at h <;> omega
    bv_omega

theorem eraseLoop_empty (h : c.e = c.r) (fuel : Nat) : c.eraseLoop fuel (c.e - c.r - 1) = false := by
  rw [Bool.eq_false_iff]
  intro ht
  rcases (eraseLoop_eq_true fuel _).mp ht with e | e
  · rw [h, BitVec.sub_self] at e
    exact absurd e (by decide)
  · exact e.1 h

theorem killLine_stops (n : Nat) (c : Cons) (h : (c.e - c.w).toNat ≤ n) :
    (c.killLine n).e = c.w ∨ (c.killLine n).get ((c.killLine n).e - 1) = newline := by
  induction n generalizing c with
  | zero => exact .inl (eq_of_sub_toNat (Nat.le_zero.mp h))
  | succ n ih =>
    unfold Cons.killLine
    split
    · rename_i hc
      exact ih { c with e := c.e - 1 } (by show (c.e - 1 - c.w).toNat ≤ n; bv_omega)
    · rename_i hc
      by_cases e : c.e = c.w
      · exact .inl e
      · exact .inr (Classical.byContradiction fun hn => hc ⟨e, hn⟩)

theorem consoleintr_plain (hb : ¬ Recalls s b) : ∃ s', consoleintr s b = .next s' := by
  unfold consoleintr
  split
  · exact ⟨_, rfl⟩
  split
  · exact ⟨_, rfl⟩
  split
  · split <;> exact ⟨_, rfl⟩
  split
  · rename_i hu
    have hc : ¬ s.history.currentHistory ≥ 0 := fun hc => hb (.inl ⟨hu, hc⟩)
    unfold upArrow
    rw [if_neg hc]
    exact ⟨_, rfl⟩
  · split
    · rename_i hd
      have hc : ¬ s.history.currentHistory ≠ -1 := fun hc => hb (.inr ⟨hd, hc⟩)
      rw [downArrow, if_neg hc]
      exact ⟨_, rfl⟩
    · exact ⟨_, rfl⟩

end

end Console
