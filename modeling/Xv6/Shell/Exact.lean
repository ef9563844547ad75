import Mathlib.Data.List.Forall2
import Xv6.Shell.Accepts
import Xv6.Shell.Scan

/-!
# `parsecmd` accepts exactly the grammar

* `parseline_sim`     two lexers that agree on the tokens give the same commands;
* `stringAt_of_word`  after `nulterminate` every pointer is the start of its word;
* `parsecmd_exact`    `parsecmd` ends, with the command of the derivation of the line or, if there
                      is none, in a panic;
* `words_survive`     the string at the first pointer of a word is what stood between its pointers.
-/

namespace Shell
open Bytes Depth List

/-! ## lexers that agree -/

/-- the same command, with related words -/
inductive Cmd.Rel {W V : Type} (R : W → V → Prop) : Cmd W → Cmd V → Prop where
  | exec {ws : List W} {vs : List V} (h : List.Forall₂ R ws vs) : Rel R (.exec ws) (.exec vs)
  | redir {c : Cmd W} {d : Cmd V} {w : W} {v : V} {mode fd : Nat} (h : Rel R c d) (hw : R w v) :
      Rel R (.redir c w mode fd) (.redir d v mode fd)
  | pipe {c c' : Cmd W} {d d' : Cmd V} (h : Rel R c d) (h' : Rel R c' d') :
      Rel R (.pipe c c') (.pipe d d')
  | list {c c' : Cmd W} {d d' : Cmd V} (h : Rel R c d) (h' : Rel R c' d') :
      Rel R (.list c c') (.list d d')
  | back {c : Cmd W} {d : Cmd V} (h : Rel R c d) : Rel R (.back c) (.back d)

/-- the two lexers see the same tokens -/
structure Agree {P Q W V : Type} (L : Lexer P W) (M : Lexer Q V) (A : P → Q → Prop)
    (R : W → V → Prop) : Prop where
  peek_eq : ∀ {s u toks}, toks ⊆ symbols → A s u → (L.peek s toks).1 = (M.peek u toks).1
  peek_at : ∀ {s u toks}, toks ⊆ symbols → A s u → A (L.peek s toks).2 (M.peek u toks).2
  gettoken_eq : ∀ {s u}, A s u → (L.gettoken s).ret = (M.gettoken u).ret
  gettoken_at : ∀ {s u}, A s u → A (L.gettoken s).ps (M.gettoken u).ps
  gettoken_word : ∀ {s u}, A s u → (M.gettoken u).ret = chr 'a' →
    R (L.gettoken s).word (M.gettoken u).word

section
variable {P Q W V : Type} {L : Lexer P W} {M : Lexer Q V} {A : P → Q → Prop} {R : W → V → Prop}
  {c : Cmd W} {d : Cmd V} {s : P} {u : Q}

theorem Cmd.Rel.pushArg {w : W} {v : V} (h : Cmd.Rel R c d) (hw : R w v) :
    Cmd.Rel R (c.pushArg w) (d.pushArg v) := by
  induction h with
  | exec h => exact .exec (rel_append h (.cons hw .nil))
  | redir _ hf ih => exact .redir ih hf
  | pipe h h' _ _ => exact .pipe h h'
  | list h h' _ _ => exact .list h h'
  | back h _ => exact .back h

theorem Cmd.Rel.redirSwitch {w : W} {v : V} {tok : Byte} (h : Cmd.Rel R c d) (hw : R w v) :
    Cmd.Rel R (redirSwitch c w tok) (redirSwitch d v tok) := by
  unfold Shell.redirSwitch
  split
  · exact .redir h hw
  split
  · exact .redir h hw
  split
  · exact .redir h hw
  · exact h

/-- related commands, and cursors before the same tokens -/
def Both (A : P → Q → Prop) (R : W → V → Prop) (x : Cmd W × P) (y : Cmd V × Q) : Prop :=
  Cmd.Rel R x.1 y.1 ∧ A x.2 y.2

theorem parseredirs_sim (hL : Agree L M A R) (n : Nat) (hc : Cmd.Rel R c d) (hs : A s u) :
    Sim (Both A R) (parseredirs L n c s) (parseredirs M n d u) := by
  induction n generalizing c d s u with
  | zero => exact Sim.outOfDepth
  | succ n ih =>
    have ht : [chr '<', chr '>'] ⊆ symbols := by decide
    have hp := hL.peek_at ht hs
    rw [parseredirs, parseredirs]
    apply Sim.ite (by rw [hL.peek_eq ht hs])
    · intro _
      have hop := hL.gettoken_at hp
      apply Sim.ite (by rw [hL.gettoken_eq hop])
      · intro _
        exact Sim.throw _
      · intro hw
        rw [hL.gettoken_eq hp]
        exact ih (hc.redirSwitch (hL.gettoken_word hop (not_not.mp hw))) (hL.gettoken_at hop)
    · intro _
      exact Sim.pure ⟨hc, hp⟩

theorem parseargs_sim (hL : Agree L M A R) (n k : Nat) (hc : Cmd.Rel R c d) (hs : A s u) :
    Sim (Both A R) (parseargs L n c k s) (parseargs M n d k u) := by
  induction n generalizing c d k s u with
  | zero => exact Sim.outOfDepth
  | succ n ih =>
    have ht : [chr '|', chr ')', chr '&', chr ';'] ⊆ symbols := by decide
    have hp := hL.peek_at ht hs
    rw [parseargs, parseargs]
    apply Sim.ite (by rw [hL.peek_eq ht hs]) (fun _ => Sim.pure ⟨hc, hp⟩)
    intro _
    have hret := hL.gettoken_eq hp
    apply Sim.ite (by rw [hret]) (fun _ => Sim.pure ⟨hc, hL.gettoken_at hp⟩)
    intro _
    apply Sim.ite (by rw [hret]) (fun _ => Sim.throw _)
    intro hw
    apply Sim.ite Iff.rfl (fun _ => Sim.throw _)
    intro _
    have hpush := hc.pushArg (hL.gettoken_word hp (not_not.mp hw))
    exact (parseredirs_sim hL n hpush (hL.gettoken_at hp)).bind fun a b hab => ih _ hab.1 hab.2

theorem parseback_sim (hL : Agree L M A R) (n : Nat) (hc : Cmd.Rel R c d) (hs : A s u) :
    Sim (Both A R) (parseback L n c s) (parseback M n d u) := by
  induction n generalizing c d s u with
  | zero => exact Sim.outOfDepth
  | succ n ih =>
    have ht : [chr '&'] ⊆ symbols := by decide
    have hp := hL.peek_at ht hs
    rw [parseback, parseback]
    exact Sim.ite (by rw [hL.peek_eq ht hs]) (fun _ => ih (.back hc) (hL.gettoken_at hp))
      (fun _ => Sim.pure ⟨hc, hp⟩)

mutual

theorem parseline_sim (hL : Agree L M A R) (n : Nat) {s : P} {u : Q} (hs : A s u) :
    Sim (Both A R) (parseline L n s) (parseline M n u) := by
  match n with
  | 0 => exact Sim.outOfDepth
  | n + 1 =>
    rw [parseline, parseline]
    refine (parsepipe_sim hL n hs).bind fun a b hab => ?_
    refine (parseback_sim hL n hab.1 hab.2).bind fun a b hab => ?_
    have ht : [chr ';'] ⊆ symbols := by decide
    have hp := hL.peek_at ht hab.2
    apply Sim.ite (by rw [hL.peek_eq ht hab.2])
    · intro _
      refine (parseline_sim hL n (hL.gettoken_at hp)).bind fun r r' hr => ?_
      exact Sim.pure ⟨.list hab.1 hr.1, hr.2⟩
    · intro _
      exact Sim.pure ⟨hab.1, hp⟩

theorem parsepipe_sim (hL : Agree L M A R) (n : Nat) {s : P} {u : Q} (hs : A s u) :
    Sim (Both A R) (parsepipe L n s) (parsepipe M n u) := by
  match n with
  | 0 => exact Sim.outOfDepth
  | n + 1 =>
    rw [parsepipe, parsepipe]
    refine (parseexec_sim hL n hs).bind fun a b hab => ?_
    have ht : [chr '|'] ⊆ symbols := by decide
    have hp := hL.peek_at ht hab.2
    apply Sim.ite (by rw [hL.peek_eq ht hab.2])
    · intro _
      refine (parsepipe_sim hL n (hL.gettoken_at hp)).bind fun r r' hr => ?_
      exact Sim.pure ⟨.pipe hab.1 hr.1, hr.2⟩
    · intro _
      exact Sim.pure ⟨hab.1, hp⟩

theorem parseexec_sim (hL : Agree L M A R) (n : Nat) {s : P} {u : Q} (hs : A s u) :
    Sim (Both A R) (parseexec L n s) (parseexec M n u) := by
  match n with
  | 0 => exact Sim.outOfDepth
  | n + 1 =>
    have ht : [chr '('] ⊆ symbols := by decide
    have hp := hL.peek_at ht hs
    rw [parseexec, parseexec]
    apply Sim.ite (by rw [hL.peek_eq ht hs]) (fun _ => parseblock_sim hL n hp)
    intro _
    refine (parseredirs_sim hL n (.exec .nil) hp).bind fun a b hab => ?_
    exact parseargs_sim hL n 0 hab.1 hab.2

theorem parseblock_sim (hL : Agree L M A R) (n : Nat) {s : P} {u : Q} (hs : A s u) :
    Sim (Both A R) (parseblock L n s) (parseblock M n u) := by
  match n with
  | 0 => exact Sim.outOfDepth
  | n + 1 =>
    have ht : [chr '('] ⊆ symbols := by decide
    have hp := hL.peek_at ht hs
    rw [parseblock, parseblock]
    apply Sim.ite (by rw [hL.peek_eq ht hs]) (fun _ => Sim.throw _)
    intro _
    refine (parseline_sim hL n (hL.gettoken_at hp)).bind fun a b hab => ?_
    have ht : [chr ')'] ⊆ symbols := by decide
    have he := hL.peek_at ht hab.2
    apply Sim.ite (by rw [hL.peek_eq ht hab.2]) (fun _ => Sim.throw _)
    intro _
    exact parseredirs_sim hL n hab.1 (hL.gettoken_at he)

end

end

theorem scanner_agree {line : List Byte} (hz : ∀ b ∈ line, b ≠ 0) :
    Agree (scanner (line ++ [0]) line.length) tokenLexer (At line) (WordAt line) where
  peek_eq ht h := (peek_token hz ht h).1
  peek_at ht h := (peek_token hz ht h).2
  gettoken_eq h := (gettoken_token hz h).1
  gettoken_at h := (gettoken_token hz h).2.1
  gettoken_word h := (gettoken_token hz h).2.2

/-! ## the strings of the command -/

/-- the words of a command -/
def Cmd.words {W : Type} : Cmd W → List W
  | .exec argv => argv
  | .redir cmd file _ _ => cmd.words ++ [file]
  | .pipe left right => left.words ++ right.words
  | .list left right => left.words ++ right.words
  | .back cmd => cmd.words

theorem Cmd.Rel.map_eq {W V : Type} {R : W → V → Prop} {c : Cmd W} {d : Cmd V} {f : W → V}
    (h : Cmd.Rel R c d) (hf : ∀ w ∈ c.words, ∀ v, R w v → f w = v) : c.map f = d := by
  induction h with
  | exec h =>
    rw [Cmd.map]
    congr 1
    induction h with
    | nil => rfl
    | cons hw _ ih =>
      rw [map_cons, hf _ mem_cons_self _ hw,
        ih fun w hm => hf w (mem_cons_of_mem _ hm)]
  | redir _ hw ih =>
    rw [Cmd.map, ih fun w hm => hf w (mem_append_left _ hm),
      hf _ (mem_append_right _ mem_cons_self) _ hw]
  | pipe _ _ ih ih' | list _ _ ih ih' =>
    rw [Cmd.map, ih fun w hm => hf w (mem_append_left _ hm),
      ih' fun w hm => hf w (mem_append_right _ hm)]
  | back _ ih => rw [Cmd.map, ih hf]

theorem Cmd.Rel.exists_of_mem {W V : Type} {R : W → V → Prop} {c : Cmd W} {d : Cmd V}
    (h : Cmd.Rel R c d) {w : W} (hw : w ∈ c.words) : ∃ v, R w v := by
  induction h with
  | exec h =>
    obtain ⟨i, hi, rfl⟩ := mem_iff_getElem.mp hw
    exact ⟨_, h.get hi (h.length_eq ▸ hi)⟩
  | redir _ hf ih =>
    rcases mem_append.mp hw with hw | hw
    · exact ih hw
    · exact ⟨_, mem_singleton.mp hw ▸ hf⟩
  | pipe _ _ ih ih' | list _ _ ih ih' => exact (mem_append.mp hw).elim ih ih'
  | back _ ih => exact ih hw

section
variable {buf line : List Byte} {c : Cmd (Nat × Nat)} {d : Cmd (List Byte)} {i q : Nat}

theorem byteAt_set (i j : Nat) : byteAt (buf.set i 0) j = if i = j then 0 else byteAt buf j := by
  unfold byteAt
  rw [getD_eq_getElem?_getD, getD_eq_getElem?_getD, getElem?_set]
  split
  · split <;> rfl
  · rfl

theorem byteAt_nulterminate (c : Cmd (Nat × Nat)) (i : Nat) :
    byteAt (nulterminate c buf) i = if i ∈ c.words.map Prod.snd then 0 else byteAt buf i := by
  induction c generalizing buf with
  | exec argv =>
    rw [nulterminate, Cmd.words]
    induction argv generalizing buf with
    | nil => rfl
    | cons w argv ih =>
      rw [foldl_cons, ih, byteAt_set, map_cons]
      grind
  | redir c file mode fd ih =>
    rw [nulterminate, byteAt_set, ih, Cmd.words, map_append]
    grind
  | pipe left right ihl ihr | list left right ihl ihr =>
    rw [nulterminate, ihr, ihl, Cmd.words, map_append]
    grind
  | back c ih => rw [nulterminate, ih, Cmd.words]

theorem stringAt_nil (h : byteAt buf q = 0) : stringAt buf q = [] := by
  unfold byteAt at h
  unfold stringAt
  cases hd : buf.drop q with
  | nil => rfl
  | cons b bs =>
    rw [getD_eq_getElem?_getD, ← head?_drop, hd] at h
    have hb : b = 0 := h
    rw [hb]
    rfl

theorem stringAt_cons {b : Byte} (h : byteAt buf q = b) (hb : b ≠ 0) :
    stringAt buf q = b :: stringAt buf (q + 1) := by
  unfold byteAt at h
  unfold stringAt
  rw [getD_eq_getElem?_getD, ← head?_drop] at h
  rw [← drop_drop]
  cases hd : buf.drop q with
  | nil =>
    rw [hd] at h
    exact absurd h.symm hb
  | cons b' bs =>
    rw [hd] at h
    have hb' : b' = b := h
    rw [hb', takeWhile_cons, if_pos (bne_iff_ne.mpr hb)]
    rfl

theorem stringAt_eq {w : List Byte} (hw : ∀ b ∈ w, b ≠ 0)
    (h : ∀ i (hi : i < w.length), byteAt buf (q + i) = w[i]) (hend : byteAt buf (q + w.length) = 0) :
    stringAt buf q = w := by
  induction w generalizing q with
  | nil => exact stringAt_nil hend
  | cons b w ih =>
    have hq : byteAt buf q = b := h 0 (Nat.succ_pos _)
    rw [stringAt_cons hq (hw b mem_cons_self), ih]
    · intro b' hb'
      exact hw b' (mem_cons_of_mem _ hb')
    · intro i hi
      rw [Nat.add_right_comm, Nat.add_assoc]
      exact h (i + 1) (Nat.succ_lt_succ hi)
    · rwa [Nat.add_right_comm, Nat.add_assoc]

/-- after `nulterminate` a word of the command is the string at its first pointer -/
theorem stringAt_of_word (hz : ∀ b ∈ line, b ≠ 0) (h : Cmd.Rel (WordAt line) c d) {p : Nat × Nat}
    {w : List Byte} (hp : p ∈ c.words) (hw : WordAt line p w) :
    stringAt (nulterminate c (line ++ [0])) p.1 = w := by
  have hmem : ∀ b ∈ w, b ∈ line := by
    intro b hb
    apply mem_of_mem_drop
    rw [hw.drop_eq]
    exact mem_append_left _ hb
  apply stringAt_eq (fun b hb => hz b (hmem b hb))
  · intro i hi
    have hdrop : line.drop (p.1 + i) = w[i] :: (w.drop (i + 1) ++ line.drop p.2) := by
      rw [← drop_drop, hw.drop_eq, drop_append_of_le_length (Nat.le_of_lt hi),
        drop_eq_getElem_cons hi, cons_append]
    rw [byteAt_nulterminate, if_neg, byteAt_of_drop hdrop]
    intro hend
    obtain ⟨p', hp', he⟩ := mem_map.mp hend
    obtain ⟨w', hw'⟩ := h.exists_of_mem hp'
    have hstop := hw'.stop w[i]
    rw [he, hdrop] at hstop
    have hplain := hw.plain w[i] (getElem_mem hi)
    rw [hstop rfl] at hplain
    cases hplain
  · rw [byteAt_nulterminate, if_pos]
    rw [← hw.end_eq]
    exact mem_map_of_mem hp

theorem strings_eq (hz : ∀ b ∈ line, b ≠ 0) (h : Cmd.Rel (WordAt line) c d) :
    c.strings (nulterminate c (line ++ [0])) = d :=
  h.map_eq fun _ hp _ hw => stringAt_of_word hz h hp hw

end

/-! ## `parsecmd` -/

section
variable {line : List Byte} {n : Nat}

theorem strlen_line (hz : ∀ b ∈ line, b ≠ 0) : strlen (line ++ [0]) = line.length := by
  rw [strlen, findIdx_append, findIdx_eq_length_of_false]
  · simp
  · intro b hb
    exact beq_eq_false_iff_ne.mpr (hz b hb)

theorem at_end {s : Nat} {ts : List Token} (hz : ∀ b ∈ line, b ≠ 0) (h : At line s ts) :
    (peek (line ++ [0]) line.length s []).2 = line.length ↔ ts = [] := by
  have hp := (peek_token hz (nil_subset _) h).2
  constructor
  · intro he
    rw [← hp.2, he, drop_length, tokenise_nil]
  intro hts
  rcases scan_cases hz s with hd | ⟨c, cs, hd, hsp, -⟩
  · exact Nat.le_antisymm hp.1 (drop_eq_nil_iff.mp hd)
  obtain ⟨t, ds, htok, -⟩ := tokenise_cons c cs hsp
  have hcons : tokenise (c :: cs) = ts := by
    rw [← hd]
    exact hp.2
  rw [htok, hts] at hcons
  cases hcons

theorem parsecmd_cases (hz : ∀ b ∈ line, b ≠ 0) (n : Nat) :
    (parseline tokenLexer n (tokenise line) = outOfDepth ∧
      parsecmd n (line ++ [0]) = outOfDepth) ∨
    (∃ c d, parseline tokenLexer n (tokenise line) = pure (d, []) ∧
      parsecmd n (line ++ [0]) = pure (c, nulterminate c (line ++ [0])) ∧
      c.strings (nulterminate c (line ++ [0])) = d) ∨
    ∃ e, (∀ d, parseline tokenLexer n (tokenise line) ≠ pure (d, [])) ∧
      parsecmd n (line ++ [0]) = throw e := by
  have hat : At line 0 (tokenise line) := ⟨Nat.zero_le _, rfl⟩
  rw [parsecmd, strlen_line hz]
  obtain ⟨hx, hy⟩ | ⟨e, hx, hy⟩ | ⟨⟨c, s⟩, ⟨d, ts⟩, hx, hy, hR, hA⟩ :=
    parseline_sim (scanner_agree hz) n hat
  · rw [hx, hy]
    exact .inl ⟨rfl, rfl⟩
  · rw [hx, hy]
    exact .inr (.inr ⟨e, fun _ => throw_ne_pure, rfl⟩)
  rw [hx, hy, pure_bind]
  by_cases hts : ts = []
  · subst hts
    refine .inr (.inl ⟨c, d, rfl, ?_, strings_eq hz hR⟩)
    exact if_neg (not_not.mpr ((at_end hz hA).mpr rfl))
  · refine .inr (.inr ⟨_, ?_, if_pos fun he => hts ((at_end hz hA).mp he)⟩)
    intro d' he
    exact hts (congrArg Prod.snd (pure_inj he))

theorem parsecmd_words (hz : ∀ b ∈ line, b ≠ 0) {c : Cmd (Nat × Nat)} {buf : List Byte}
    (h : parsecmd n (line ++ [0]) = pure (c, buf)) :
    buf = nulterminate c (line ++ [0]) ∧ ∃ d, Cmd.Rel (WordAt line) c d := by
  have hat : At line 0 (tokenise line) := ⟨Nat.zero_le _, rfl⟩
  unfold parsecmd at h
  rw [strlen_line hz] at h
  dsimp only at h
  obtain ⟨hx, -⟩ | ⟨e, hx, -⟩ | ⟨⟨c', s⟩, ⟨d, ts⟩, hx, -, hR, -⟩ :=
    parseline_sim (scanner_agree hz) n hat
  · rw [hx] at h
    cases h
  · rw [hx] at h
    exact absurd h throw_ne_pure
  · rw [hx, pure_bind] at h
    split at h
    · exact absurd h throw_ne_pure
    · cases pure_inj h
      exact ⟨rfl, d, hR⟩

theorem parsecmd_le {m : Nat} (h : n ≤ m) (buf : List Byte) :
    Le (parsecmd n buf) (parsecmd m buf) :=
  (parseline_le _ h 0).bind fun _ => Le.refl _

theorem parseline_iff_derives {ts : List Token} {T : Cmd (List Byte)} (hn : 4 * ts.length + 4 ≤ n) :
    parseline tokenLexer n ts = pure (T, []) ↔ ∃ l : Line, l.tokens = ts ∧ l.denote = T := by
  constructor
  · intro h
    obtain ⟨l, hl, hd⟩ := parseline_sound h
    exact ⟨l, by rw [hl, append_nil], hd.symm⟩
  · rintro ⟨l, rfl, rfl⟩
    have h := l.parses follow_nil n
    rw [append_nil] at h
    exact h.resolve_left (parseline_halts hn).1

theorem parsecmd_exact (hz : ∀ b ∈ line, b ≠ 0) :
    ∃ r : Except Panic (Cmd (Nat × Nat) × List Byte),
      (∀ n ≥ 4 * line.length + 4, (parsecmd n (line ++ [0])).run = some r) ∧
      (∀ T, (∃ cmd buf, r = .ok (cmd, buf) ∧ cmd.strings buf = T) ↔
        ∃ l : Line, l.tokens = tokenise line ∧ l.denote = T) ∧
      ((¬ ∃ l : Line, l.tokens = tokenise line) → ∃ e, r = .error e) := by
  have hlen := length_tokenise line
  have hn : 4 * (tokenise line).length + 4 ≤ 4 * line.length + 4 := by omega
  have hmore {r} (h : parsecmd (4 * line.length + 4) (line ++ [0]) = some r) :
      ∀ n ≥ 4 * line.length + 4, (parsecmd n (line ++ [0])).run = some r := by
    intro n hge
    rcases parsecmd_le hge (line ++ [0]) with he | he
    · rw [he] at h
      cases h
    · rw [← h, he]
      rfl
  rcases parsecmd_cases hz (4 * line.length + 4) with ⟨hy, -⟩ | ⟨c, d, hy, hx, hd⟩ | ⟨e, hy, hx⟩
  · exact absurd hy (parseline_halts hn).1
  · refine ⟨.ok (c, _), hmore hx, ?_, ?_⟩
    · intro T
      rw [← parseline_iff_derives hn, hy]
      constructor
      · rintro ⟨cmd, buf, hr, rfl⟩
        cases hr
        rw [hd]
      · intro he
        cases pure_inj he
        exact ⟨c, _, rfl, hd⟩
    · intro hno
      obtain ⟨l, hl, -⟩ := (parseline_iff_derives hn).mp hy
      exact absurd ⟨l, hl⟩ hno
  · refine ⟨.error e, hmore hx, ?_, fun _ => ⟨e, rfl⟩⟩
    intro T
    rw [← parseline_iff_derives hn]
    constructor
    · rintro ⟨cmd, buf, hr, -⟩
      cases hr
    · intro he
      exact absurd he (hy T)

/-- **Words survive their terminators.**  After `parsecmd` the string at the first pointer of every word
is what stood between the two pointers when they were set. -/
theorem words_survive (hz : ∀ b ∈ line, b ≠ 0) {c : Cmd (Nat × Nat)} {buf : List Byte}
    (h : (parsecmd n (line ++ [0])).run = some (.ok (c, buf))) {w : Nat × Nat} (hw : w ∈ c.words) :
    stringAt buf w.1 = (line.drop w.1).take (w.2 - w.1) ∧
      w.2 = w.1 + (stringAt buf w.1).length ∧ WordAt line w (stringAt buf w.1) := by
  obtain ⟨rfl, d, hR⟩ := parsecmd_words hz h
  obtain ⟨tok, htok⟩ := hR.exists_of_mem hw
  rw [stringAt_of_word hz hR hw htok]
  refine ⟨?_, htok.end_eq, htok⟩
  rw [htok.drop_eq, htok.end_eq, Nat.add_sub_cancel_left, List.take_left]

/-- `a>b|(c)&` -/
def sampleLine : List Byte :=
  [chr 'a', chr '>', chr 'b', chr '|', chr '(', chr 'c', chr ')', chr '&']

def sampleDerivation : Line :=
  .last (.pipe (.simple [] [⟨[chr 'a'], [⟨.output, [chr 'b']⟩]⟩] (by decide))
    (.last (.block (.last (.last (.simple [] [⟨[chr 'c'], []⟩] (by decide))) 0) []))) 1

theorem sampleLine_tokens : sampleDerivation.tokens = tokenise sampleLine := by
  simp [sampleLine, tokenise, isSpace, isPlain, whitespace, symbols, symbolToken, chr]
  rfl

theorem parsecmd_exact_sample : ∃ n cmd buf,
    (parsecmd n (sampleLine ++ [0])).run = some (.ok (cmd, buf)) ∧
    cmd.strings buf = .back (.pipe
      (.redir (.exec [[chr 'a']]) [chr 'b'] (O_WRONLY ||| O_CREATE ||| O_TRUNC) 1)
      (.exec [[chr 'c']])) := by
  have hz : ∀ b ∈ sampleLine, b ≠ 0 := by decide
  obtain ⟨r, hr, hT, -⟩ := parsecmd_exact hz
  obtain ⟨cmd, buf, rfl, hd⟩ := (hT _).mpr ⟨sampleDerivation, sampleLine_tokens, rfl⟩
  exact ⟨_, cmd, buf, hr _ (Nat.le_refl _), hd⟩

theorem words_survive_sample : ∃ n cmd buf,
    (parsecmd n (sampleLine ++ [0])).run = some (.ok (cmd, buf)) ∧ (2, 3) ∈ cmd.words ∧
    stringAt buf 2 = (sampleLine.drop 2).take (3 - 2) := by
  have hz : ∀ b ∈ sampleLine, b ≠ 0 := by decide
  obtain ⟨cmd, buf, h, hw⟩ : ∃ cmd buf,
      (parsecmd 40 (sampleLine ++ [0])).run = some (.ok (cmd, buf)) ∧ (2, 3) ∈ cmd.words := by
    refine ⟨_, _, rfl, ?_⟩
    decide
  exact ⟨40, cmd, buf, h, hw, (words_survive hz h hw).1⟩

end

end Shell
