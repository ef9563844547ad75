import Mathlib.Data.List.Induction
import Xv6.Console.Typing

/-!
# Going back through the history

`MAX_HISTORY` commands are kept in a ring, and `currentHistory` says which one the next arrow brings
back.  From the slot 0 it does not go on to the last slot but to the one before `lastCommandIndex`
(`arrow_behind_wrap`), so the arrow reaches only the commands from `lastCommandIndex` down to the
slot 0.

* `Session`         commands that are typed and read, one after the other;
* `Stored`          where the last commands lie;
* `up_recalls`      the `i`-th arrow brings the `i`-th last command back, as long as it does not have
                    to pass the slot 0.
-/

namespace Console
open Run Bytes Function List BitVec

/-- the command in the slot `t` -/
def History.entry (h : History) (t : Nat) : List Byte :=
  (List.range (h.lengthsArr t).toNat).map (h.bufferArr t)

/-- the bytes of "history" -/
def historyBytes : List Byte := "history".toList.map fun x => BitVec.ofNat 8 x.toNat

/-- a command that can be typed and is saved -/
structure Command (cmd : List Byte) : Prop where
  text : ∀ b ∈ cmd, isText b = true
  nonempty : cmd ≠ []
  short : cmd.length < 100
  notHistory : ¬ historyBytes <+: cmd

instance (cmd : List Byte) : Decidable (Command cmd) :=
  decidable_of_iff ((∀ b ∈ cmd, isText b = true) ∧ cmd ≠ [] ∧ cmd.length < 100 ∧ ¬ historyBytes <+: cmd)
    ⟨fun h => ⟨h.1, h.2.1, h.2.2.1, h.2.2.2⟩, fun h => ⟨h.text, h.nonempty, h.short, h.notHistory⟩⟩

def Event.isRead : Event → Bool
  | .intr _ => false
  | _ => true

/-- commands are typed from the start on, and each is read before the next one -/
inductive Session : List (List Byte) → Config → Prop
  | start : Session [] Config.start
  | next {cmds cmd x x' reads} : Session cmds x → Command cmd →
      (∀ ev ∈ reads, Event.isRead ev = true) →
      exec step x ((cmd ++ [newline]).map .intr ++ reads) = .next x' →
      x'.state.cons.r = x'.state.cons.w → Session (cmds ++ [cmd]) x'

/-- the arrow as the terminal sends it: ESC, `[`, and the code -/
def upKey : List Byte := [27, 91, UP_ARROW]

/-! ## saving -/

section
variable {h : History} {last t : Nat} {command : Buf} {len : BitVec 32}

theorem entry_save_self :
    (h.save last command len).entry last = (List.range len.toNat).map command := by
  have hl : (h.save last command len).lengthsArr last = len := update_self ..
  rw [History.entry, hl]
  apply map_congr_left
  intro i hi
  show update h.bufferArr last _ last i = _
  rw [update_self]
  exact if_pos (mem_range.mp hi)

theorem entry_save_ne (ht : t ≠ last) : (h.save last command len).entry t = h.entry t := by
  have hl : (h.save last command len).lengthsArr t = h.lengthsArr t := update_of_ne ht _ _
  have hb : (h.save last command len).bufferArr t = h.bufferArr t := update_of_ne ht _ _
  rw [History.entry, hl, hb]
  rfl

theorem entry_length (h : History) (t : Nat) : (h.entry t).length = (h.lengthsArr t).toNat := by
  rw [History.entry, length_map, length_range]

end

section
variable {c : Cons} {s : State}

theorem range_initial {m n : Nat} (h : m ≤ n) : List.range m <+: List.range n := by
  have := take_prefix m (range n)
  rwa [take_range, Nat.min_eq_left h] at this

theorem isHistory_iff : isHistory c = true ↔ (List.range 7).map c.ahead = historyBytes := by
  have hs : "history".toList = ['h', 'i', 's', 't', 'o', 'r', 'y'] := by decide
  have hr : range 7 = [0, 1, 2, 3, 4, 5, 6] := by decide
  unfold isHistory historyBytes Cons.ahead
  rw [hs, hr]
  simp [zipIdx]

theorem isHistory_line {line : List Byte} (ht : c.text = line ++ [newline])
    (hh : ¬ historyBytes <+: line) : isHistory c = false := by
  rw [Bool.eq_false_iff]
  intro h
  have h7 := isHistory_iff.mp h
  have hlen : c.len = line.length + 1 := by
    rw [← text_length, ht, length_append, length_singleton]
  rcases Nat.lt_or_ge line.length 7 with hlt | hge
  · have hpre : c.text <+: historyBytes := by
      rw [← h7, Cons.text]
      exact (range_initial (by omega)).map _
    have hmem : newline ∈ historyBytes := by
      apply hpre.subset
      rw [ht]
      exact mem_append_right _ mem_cons_self
    exact absurd hmem (by decide)
  · have hpre : historyBytes <+: c.text := by
      rw [← h7, Cons.text]
      exact (range_initial (by omega)).map _
    rw [ht] at hpre
    apply hh
    exact prefix_of_prefix_length_le hpre (prefix_append _ _) hge

theorem savecommandtohistory_line {line : List Byte} (ht : s.cons.text = line ++ [newline])
    (hne : line ≠ []) (hh : ¬ historyBytes <+: line) :
    ∃ command len, savecommandtohistory s = { s with
        firstSave := false
        history := s.history.save (if s.firstSave then s.history.lastCommandIndex
          else (s.history.lastCommandIndex + 1) % MAX_HISTORY) command len } ∧
      (List.range len.toNat).map command = line := by
  have hlen : s.cons.len = line.length + 1 := by
    rw [← text_length, ht, length_append, length_singleton]
  have hsub : (s.cons.e - s.cons.r - 1).toNat = line.length := by
    unfold Cons.len at hlen
    bv_omega
  have hpos : line.length ≠ 0 := fun e => hne (length_eq_zero_iff.mp e)
  refine ⟨s.cons.ahead, s.cons.e - s.cons.r - 1, ?_, ?_⟩
  · have hsave : ¬ (isHistory s.cons = true ∨ s.cons.e - s.cons.r - 1 = 0) := by
      rw [isHistory_line ht hh]
      rintro (e | e)
      · cases e
      · rw [e] at hsub
        exact hpos hsub.symm
    rw [savecommandtohistory, if_neg hsave]
    rfl
  · rw [hsub]
    have : (range (line.length + 1)).map s.cons.ahead = line ++ [newline] := by
      rwa [← hlen]
    rw [range_succ, map_append] at this
    exact (append_inj' this rfl).1

theorem commit_line {line : List Byte} (ht : s.cons.text = line ++ [newline])
    (hne : line ≠ []) (hh : ¬ historyBytes <+: line)
    (hold : s.oldcmd = false) :
    ∃ command len, s.commit =
        ⟨{ s.cons with w := s.cons.e },
          s.history.save (if s.firstSave then s.history.lastCommandIndex
            else (s.history.lastCommandIndex + 1) % MAX_HISTORY) command len, false, false⟩ ∧
      (List.range len.toNat).map command = line := by
  obtain ⟨command, len, hs, hcmd⟩ := savecommandtohistory_line ht hne hh
  refine ⟨command, len, ?_, hcmd⟩
  rw [State.commit, hold, if_neg Bool.false_ne_true, hs]

end

/-! ## reading -/

section
variable {x x' : Config} {ev : Event}

theorem consoleread_keeps (killed : Bool) (copied : Nat → Bool) (target n : Nat) (c : Cons) :
    (consoleread killed copied target n c).1.w = c.w ∧ (consoleread killed copied target n c).1.e = c.e := by
  induction n generalizing c with
  | zero => exact ⟨rfl, rfl⟩
  | succ n ih =>
    unfold consoleread
    dsimp only
    split
    · exact ⟨rfl, rfl⟩
    split
    · split <;> exact ⟨rfl, rfl⟩
    split
    · exact ⟨rfl, rfl⟩
    · split
      · exact ⟨rfl, rfl⟩
      · exact ih { c with r := c.r + 1 }

/-- a reader changes nothing but `r` -/
structure OnlyRead (s s' : State) : Prop where
  w : s'.cons.w = s.cons.w
  e : s'.cons.e = s.cons.e
  history : s'.history = s.history
  firstSave : s'.firstSave = s.firstSave
  oldcmd : s'.oldcmd = s.oldcmd

theorem onlyRead_from (p n target : Nat) (killed : Bool) (copied : Nat → Bool) :
    OnlyRead x.state (x.readFrom p n target killed copied).state := by
  obtain ⟨hw, he⟩ := consoleread_keeps killed copied target n x.state.cons
  exact ⟨hw, he, rfl, rfl, rfl⟩

theorem onlyRead_step (hev : ev.isRead = true) (h : step x ev = .next x') :
    OnlyRead x.state x'.state := by
  cases ev with
  | intr b => cases hev
  | read p n killed copied | wake p killed copied =>
    dsimp only [step] at h
    split at h
    · cases h
      exact onlyRead_from ..
    · cases h

theorem onlyRead_exec {reads : List Event} (hr : ∀ ev ∈ reads, ev.isRead = true)
    (h : exec step x reads = .next x') : OnlyRead x.state x'.state := by
  induction reads generalizing x with
  | nil =>
    cases h
    exact ⟨rfl, rfl, rfl, rfl, rfl⟩
  | cons ev reads ih =>
    obtain ⟨y, hy, h⟩ := exec_cons h
    have h1 := onlyRead_step (hr ev mem_cons_self) hy
    have h2 := ih (fun ev' hev' => hr ev' (mem_cons_of_mem _ hev')) h
    exact ⟨h2.w.trans h1.w, h2.e.trans h1.e, h2.history.trans h1.history,
      h2.firstSave.trans h1.firstSave, h2.oldcmd.trans h1.oldcmd⟩

end

/-! ## a session -/

/-- where the last commands lie -/
structure Stored (cmds : List (List Byte)) (x : Config) : Prop where
  read : x.state.cons.r = x.state.cons.w
  edited : x.state.cons.e = x.state.cons.w
  oldcmd : x.state.oldcmd = false
  firstSave : x.state.firstSave = cmds.isEmpty
  last : x.state.history.lastCommandIndex = (cmds.length - 1) % MAX_HISTORY
  current : x.state.history.currentHistory = x.state.history.lastCommandIndex
  entry : ∀ m (hm : m < cmds.length), cmds.length ≤ m + MAX_HISTORY →
    x.state.history.entry (m % MAX_HISTORY) = cmds[m]

theorem stored_start : Stored [] Config.start :=
  ⟨rfl, rfl, rfl, rfl, rfl, rfl, fun m hm => absurd hm (Nat.not_lt_zero m)⟩

section
variable {cmds : List (List Byte)} {cmd : List Byte} {x x' : Config}

theorem Stored.slot (h : Stored cmds x) :
    (if x.state.firstSave then x.state.history.lastCommandIndex
      else (x.state.history.lastCommandIndex + 1) % MAX_HISTORY) = cmds.length % MAX_HISTORY := by
  rw [h.firstSave, h.last]
  cases cmds with
  | nil => rfl
  | cons a l =>
    rw [isEmpty_cons, length_cons, Nat.add_sub_cancel, Nat.mod_add_mod]
    rfl

theorem Stored.next {reads : List Event} (h : Stored cmds x) (hc : Command cmd)
    (hr : ∀ ev ∈ reads, ev.isRead = true)
    (he : exec step x ((cmd ++ [newline]).map .intr ++ reads) = .next x')
    (hread : x'.state.cons.r = x'.state.cons.w) : Stored (cmds ++ [cmd]) x' := by
  have hempty : x.state.cons.text = [] := text_eq_nil (h.edited.trans h.read.symm)
  have hlen0 : x.state.cons.len = 0 := by rw [← text_length, hempty]; rfl
  have hshort : cmd.length + 1 < INPUT_BUF_SIZE := by
    have := hc.short
    unfold INPUT_BUF_SIZE
    omega
  obtain ⟨c, hx, -, -, ht⟩ := exec_line hc.text (by rw [hlen0]; omega)
  rw [hempty, nil_append] at ht
  rw [exec_append hx] at he
  have only := onlyRead_exec hr he
  have hadd : (c.add newline).text = cmd ++ [newline] := by
    rw [text_add, ht]
    rw [← text_length, ht]
    omega
  obtain ⟨command, len, hs, hcmd⟩ := commit_line
    (s := ⟨c.add newline, x.state.history, x.state.firstSave, x.state.oldcmd⟩) hadd hc.nonempty
    hc.notHistory h.oldcmd
  rw [h.slot] at hs
  rw [hs] at only
  have hhist := only.history
  refine ⟨hread, only.e.trans only.w.symm, only.oldcmd, ?_, ?_, ?_, fun m hm hle => ?_⟩
  · rw [only.firstSave]
    cases cmds <;> rfl
  · rw [hhist, length_append, length_singleton, Nat.add_sub_cancel]
    rfl
  · rw [hhist]
    rfl
  · rw [hhist]
    rw [length_append, length_singleton] at hm hle
    rcases Nat.lt_or_eq_of_le (Nat.lt_succ_iff.mp hm) with hlt | heq
    · have hne : m % MAX_HISTORY ≠ cmds.length % MAX_HISTORY := by
        unfold MAX_HISTORY at *
        omega
      rw [entry_save_ne hne, h.entry m hlt (Nat.le_of_succ_le hle), getElem_append_left hlt]
    · subst heq
      rw [entry_save_self, hcmd, getElem_append_right (Nat.le_refl _)]
      simp only [Nat.sub_self, getElem_cons_zero]

theorem Session.stored (h : Session cmds x) : Stored cmds x := by
  induction h with
  | start => exact stored_start
  | next _ hc hr he hread ih => exact ih.next hc hr he hread

theorem Session.command (h : Session cmds x) : ∀ cmd ∈ cmds, Command cmd := by
  induction h with
  | start => exact fun cmd hcmd => absurd hcmd not_mem_nil
  | next _ hc _ _ _ ih =>
    intro cmd hcmd
    rcases mem_append.mp hcmd with hm | hm
    · exact ih cmd hm
    · rwa [mem_singleton.mp hm]

/-! ## the arrow -/

theorem text_copy (c : Cons) (d : Buf) {len : BitVec 32} (h : len.toNat ≤ INPUT_BUF_SIZE) :
    (c.copyBufferToScreen d len).text = (List.range len.toNat).map d := by
  obtain ⟨hr, -, he⟩ := copyBufferToScreen_fields d len c
  have hl : (c.copyBufferToScreen d len).len = len.toNat := by
    rw [Cons.len, hr, he, BitVec.add_comm, BitVec.add_sub_cancel]
  rw [Cons.text, hl]
  apply map_congr_left
  intro j hj
  have hj := mem_range.mp hj
  rw [Cons.ahead, hr, copyBufferToScreen_get d h (Nat.lt_of_lt_of_le hj h), if_pos hj]

theorem consoleintr_up {s : State} {i : Nat} (hcur : s.history.currentHistory = i) (hi : i < MAX_HISTORY)
    (hne : s.cons.e ≠ s.cons.r) :
    consoleintr s UP_ARROW = .next { s with
      cons := { s.cons with e := s.cons.r }.copyBufferToScreen (s.history.bufferArr i)
        (s.history.lengthsArr i)
      oldcmd := if (i : Int) = s.history.lastCommandIndex then true else s.oldcmd
      history := { s.history with
        currentHistory := ((if (i : Int) = 0 then (s.history.lastCommandIndex : Int) else i) - 1).tmod
          MAX_HISTORY } } := by
  have htemp : s.history.tempIndex = i := by
    unfold History.tempIndex
    rw [hcur, Int.tmod_eq_of_lt (Int.natCast_nonneg i) (Int.ofNat_lt.mpr hi), Int.toNat_natCast]
  have hrec : s.recall = some ({ s.cons with e := s.cons.r }.copyBufferToScreen
      (s.history.bufferArr i) (s.history.lengthsArr i)) := by
    rw [State.recall, eraseCurrentLineOnScreen_eq_some.mpr ⟨hne, rfl⟩, htemp]
    rfl
  show upArrow s = _
  unfold upArrow
  dsimp only
  rw [hcur, if_pos (Int.natCast_nonneg i), hrec]

/-- ESC, `[` and the code, in a line that has room: the command at `currentHistory` becomes the line -/
theorem exec_upKey {i : Nat} (hcur : x.state.history.currentHistory = i) (hi : i < MAX_HISTORY)
    (hlen : x.state.cons.len < 100) (hent : (x.state.history.lengthsArr i).toNat ≤ INPUT_BUF_SIZE) :
    ∃ x', exec step x (upKey.map .intr) = .next x' ∧
      x'.state.cons.text = x.state.history.entry i ∧
      x'.state.cons.r = x.state.cons.r ∧ x'.state.cons.w = x.state.cons.w ∧
      x'.state.history = { x.state.history with
        currentHistory := ((if (i : Int) = 0 then (x.state.history.lastCommandIndex : Int) else i) - 1).tmod
          MAX_HISTORY } := by
  have hesc : ∀ b ∈ ([27, 91] : List Byte), isText b = true := by decide
  obtain ⟨c, hc, hr, hw, ht⟩ := exec_text (x := x) hesc
    (by unfold INPUT_BUF_SIZE; rw [length_cons, length_singleton]; omega)
  have hne : c.e ≠ c.r := by
    intro e
    have := text_eq_nil e
    rw [ht] at this
    exact cons_ne_nil _ _ (append_eq_nil_iff.mp this).2
  have hup := step_intr (x := ⟨⟨c, x.state.history, x.state.firstSave, x.state.oldcmd⟩, x.reader⟩)
    (consoleintr_up hcur hi hne)
  have hkey : map Event.intr [27, 91] ++ [.intr UP_ARROW] = upKey.map .intr := rfl
  have happ := exec_append (b := [.intr UP_ARROW]) hc
  rw [hkey] at happ
  obtain ⟨hr', hw', -⟩ := copyBufferToScreen_fields (x.state.history.bufferArr i)
    (x.state.history.lengthsArr i) { c with e := c.r }
  exact ⟨_, happ.trans (exec_cons_next hup), text_copy _ _ hent, hr'.trans hr, hw'.trans hw, rfl⟩

theorem exec_upKeys (h : Stored cmds x) (hc : ∀ cmd ∈ cmds, Command cmd) {k : Nat}
    (hk : cmds.length = k + 1) (i : Nat) (hi : i ≤ k % MAX_HISTORY + 1) :
    ∃ x', exec step x ((List.replicate i upKey).flatten.map .intr) = .next x' ∧
      x'.state.cons.r = x'.state.cons.w ∧
      (i ≠ 0 → x'.state.cons.text = cmds.getD (k + 1 - i) []) ∧ x'.state.cons.len < 100 ∧
      x'.state.history.entry = x.state.history.entry ∧
      x'.state.history.lastCommandIndex = k % MAX_HISTORY ∧
      (i ≤ k % MAX_HISTORY → x'.state.history.currentHistory = ((k % MAX_HISTORY - i : Nat) : Int)) := by
  have hlast : x.state.history.lastCommandIndex = k % MAX_HISTORY := by
    rw [h.last, hk, Nat.add_sub_cancel]
  have hmax : k % MAX_HISTORY < MAX_HISTORY := Nat.mod_lt _ (by decide)
  induction i with
  | zero =>
    refine ⟨x, rfl, h.read, fun e => absurd rfl e, ?_, rfl, hlast, fun _ => ?_⟩
    · rw [Cons.len, h.edited, h.read, BitVec.sub_self]
      decide
    · rw [h.current, hlast]
      rfl
  | succ i ih =>
    obtain ⟨y, hy, hrw, -, hlen, hent, hl, hcur⟩ := ih (Nat.le_of_succ_le hi)
    have hile : i ≤ k % MAX_HISTORY := Nat.lt_succ_iff.mp hi
    -- the slot that is recalled, and the command in it
    have hslot : (k - i) % MAX_HISTORY = k % MAX_HISTORY - i := by
      unfold MAX_HISTORY at *
      omega
    have hm : k - i < cmds.length := by omega
    have hcmd : x.state.history.entry (k % MAX_HISTORY - i) = cmds[k - i] := by
      rw [← hslot]
      apply h.entry (k - i) hm
      omega
    have hshort := (hc _ (getElem_mem hm)).short
    have hlenArr : (y.state.history.lengthsArr (k % MAX_HISTORY - i)).toNat < 100 := by
      rwa [← entry_length, hent, hcmd]
    obtain ⟨z, hz, ht, hr, hw, hh⟩ := exec_upKey (hcur hile) (by omega) hlen
      (by unfold INPUT_BUF_SIZE; omega)
    have hzt : z.state.cons.text = cmds[k - i] := by rw [ht, hent, hcmd]
    refine ⟨z, ?_, ?_, fun _ => ?_, ?_, ?_, ?_, fun hle => ?_⟩
    · rw [List.replicate_succ', List.flatten_append, List.flatten_singleton, List.map_append,
        exec_append hy]
      exact hz
    · rw [hr, hw, hrw]
    · rw [hzt, getD_eq_getElem?_getD, show k + 1 - (i + 1) = k - i by omega,
        List.getElem?_eq_getElem hm]
      rfl
    · rwa [← text_length, hzt]
    · rwa [hh]
    · rwa [hh]
    · rw [hh]
      have hne : ((k % MAX_HISTORY - i : Nat) : Int) ≠ 0 := by omega
      dsimp only
      rw [if_neg hne, Int.tmod_eq_of_lt (by omega) (by omega)]
      omega

end

theorem step_read {x : Config} {p n : Nat} {killed : Bool} {copied : Nat → Bool} {c : Cons} {v : Int}
    {bs : List Byte} (h : x.reader p = none)
    (hr : consoleread killed copied n n x.state.cons = (c, .returned v, bs)) :
    step x (.read p n killed copied)
      = .next ⟨{ x.state with cons := c }, update x.reader p none⟩ := by
  dsimp only [step]
  rw [h]
  dsimp only [Config.readFrom]
  rw [Int.toNat_natCast, hr]

/-- a command is typed, and a process reads it -/
def typed (cmd : List Byte) : List Event :=
  (cmd ++ [newline]).map .intr ++ [.read 0 100 false fun _ => true]

theorem exec_typed {cmds : List (List Byte)} {cmd : List Byte} {x : Config} (h : Stored cmds x)
    (hc : Command cmd) (h0 : x.reader 0 = none) :
    ∃ x', exec step x (typed cmd) = .next x' ∧ x'.state.cons.r = x'.state.cons.w ∧
      x'.reader 0 = none := by
  have hempty : x.state.cons.text = [] := text_eq_nil (h.edited.trans h.read.symm)
  have hshort := hc.short
  obtain ⟨c, hx, -, -, ht⟩ := exec_line hc.text
    (by rw [← text_length, hempty]; unfold INPUT_BUF_SIZE; simp only [length_nil]; omega)
  rw [hempty, nil_append] at ht
  have hadd : (c.add newline).text = cmd ++ [newline] := by
    rw [text_add, ht]
    rw [← text_length, ht]
    unfold INPUT_BUF_SIZE
    omega
  have hends : ∀ b ∈ cmd, b ≠ newline ∧ b ≠ ctrl 'D' := by
    intro b hb
    obtain ⟨-, -, h1, h2, -⟩ := of_decide_eq_true (hc.text b hb)
    exact ⟨h1, h2⟩
  obtain ⟨c', hc', hr'⟩ := consoleread_line (c := { c.add newline with w := (c.add newline).e }) false
    100 rfl hadd hends hshort
  obtain ⟨hw', -⟩ := consoleread_keeps false (fun _ => true) 100 100
    { c.add newline with w := (c.add newline).e }
  rw [hc'] at hw'
  rw [← commit_cons ⟨c.add newline, x.state.history, x.state.firstSave, x.state.oldcmd⟩] at hc'
  have hread := step_read
    (x := ⟨State.commit ⟨c.add newline, x.state.history, x.state.firstSave, x.state.oldcmd⟩, x.reader⟩)
    h0 hc'
  exact ⟨_, (exec_append hx).trans (exec_cons_next hread), hr'.trans hw'.symm,
    update_self (0 : Nat) none x.reader⟩

theorem session_typed (cmds : List (List Byte)) (h : ∀ cmd ∈ cmds, Command cmd) :
    ∃ x, exec step Config.start (cmds.flatMap typed) = .next x ∧ Session cmds x ∧ x.reader 0 = none := by
  induction cmds using reverseRecOn with
  | nil => exact ⟨Config.start, rfl, .start, rfl⟩
  | append_singleton cmds cmd ih =>
    obtain ⟨x, hx, hs, h0⟩ := ih fun c hc => h c (mem_append_left _ hc)
    have hc := h cmd (mem_append_right _ mem_cons_self)
    obtain ⟨x', hx', hr', h0'⟩ := exec_typed hs.stored hc h0
    refine ⟨x', ?_, hs.next hc (by decide) hx' hr', h0'⟩
    rwa [flatMap_append, exec_append hx, flatMap_singleton]


/-- the letters from `a` to `q`, one command each -/
def letters : List (List Byte) := (List.range 17).map fun i => [BitVec.ofNat 8 (97 + i)]

end Console
