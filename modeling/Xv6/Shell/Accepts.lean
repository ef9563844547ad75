import Xv6.Shell.Grammar

/-!
# The parser accepts the grammar

The parser at `tokenLexer`, over the tokens of a line.

* `Line.parses`        what a derivation derives is parsed as the command it stands for;
* `parseline_sound`    what is parsed has a derivation;
* `parseline_halts`    a depth of four calls for each token is enough;
* `parseline_mono`     more depth changes no result.
-/

namespace Shell
open Bytes Depth List

/-! ## what follows a derivation -/

/-- the next token, if there is one, is one of `ts` -/
def Follow (ts rest : List Token) : Prop := ∀ t ∈ rest.head?, t ∈ ts

section
variable {F G rest : List Token} {toks : List Byte} {n : Nat} {t : Token}

theorem follow_nil : Follow F [] := by
  intro t h
  cases h

theorem follow_cons (h : t ∈ F) : Follow F (t :: rest) := by
  intro t' h'
  cases h'
  exact h

theorem Follow.mono (h : Follow F rest) (hs : F ⊆ G) : Follow G rest :=
  fun t ht => hs (h t ht)

theorem Follow.opens (h : Follow F rest) (hF : ∀ t ∈ F, opens toks [t] = false) :
    opens toks rest = false := by
  cases rest with
  | nil => rfl
  | cons t rest => exact hF t (h t rfl)

theorem follow_amps (h : Follow F rest) (k : Nat) :
    Follow (.amp :: F) (List.replicate k .amp ++ rest) := by
  cases k with
  | zero => exact h.mono (subset_cons_self _ _)
  | succ k => exact follow_cons mem_cons_self

end

/-! ## redirections -/

section
variable {rest ts : List Token} {c : Cmd (List Byte)} {r : Redir}

/-- the symbols that begin a redirection -/
def redirSet : List Byte := [chr '<', chr '>']

theorem parseredirs_done (n : Nat) (h : opens redirSet ts = false) :
    parseredirs tokenLexer (n + 1) c ts = pure (c, ts) := by
  show (if opens redirSet ts then _ else _) = _
  rw [h]
  rfl

theorem parseredirs_redir (n : Nat) :
    parseredirs tokenLexer (n + 1) c (r.tokens ++ ts) = parseredirs tokenLexer n (r.wrap c) ts := by
  obtain ⟨op, file⟩ := r
  cases op <;> rfl

theorem parseredirs_missing (n : Nat) {op : RedirOp} (h : (nextToken ts).ret ≠ chr 'a') :
    parseredirs tokenLexer (n + 1) c (op.token :: ts) = throw .missingFile := by
  have hop : opens redirSet (op.token :: ts) = true := by cases op <;> rfl
  show (if opens redirSet (op.token :: ts) then if (nextToken ts).ret ≠ chr 'a' then _ else _
    else _) = _
  rw [hop, if_pos rfl, if_pos h]

theorem parseredirs_gives (rs : List Redir) (h : opens redirSet rest = false) (n : Nat) :
    Gives (parseredirs tokenLexer n c (rs.flatMap Redir.tokens ++ rest))
      (rs.foldl Redir.wrap c, rest) := by
  induction rs generalizing n c with
  | nil =>
    cases n with
    | zero => exact .inl rfl
    | succ n =>
      rw [flatMap_nil, nil_append, parseredirs_done n h]
      exact .inr rfl
  | cons r rs ih =>
    cases n with
    | zero => exact .inl rfl
    | succ n =>
      rw [flatMap_cons, append_assoc, parseredirs_redir]
      exact ih n

/-- the three ways a list of tokens can go on where redirections may stand -/
theorem redirs_cases (ts : List Token) : opens redirSet ts = false ∨
    (∃ (r : Redir) (us : _), ts = r.tokens ++ us) ∨
    ∃ (op : RedirOp) (us : _), ts = op.token :: us ∧ (nextToken us).ret ≠ chr 'a' := by
  cases ho : opens redirSet ts with
  | false => exact .inl rfl
  | true =>
    have hop : ∃ (op : RedirOp) (us : _), ts = op.token :: us := by
      match ts, ho with
      | .lt :: us, _ => exact ⟨.input, us, rfl⟩
      | .gt :: us, _ => exact ⟨.output, us, rfl⟩
      | .append :: us, _ => exact ⟨.append, us, rfl⟩
    obtain ⟨op, us, rfl⟩ := hop
    by_cases hw : (nextToken us).ret = chr 'a'
    · match us, hw with
      | .word w :: us, _ => exact .inr (.inl ⟨⟨op, w⟩, us, rfl⟩)
    · exact .inr (.inr ⟨op, us, rfl, hw⟩)

theorem parseredirs_sound {n : Nat} {r : Cmd (List Byte) × List Token}
    (h : parseredirs tokenLexer n c ts = pure r) :
    ∃ rs : List Redir, ts = rs.flatMap Redir.tokens ++ r.2 ∧ r.1 = rs.foldl Redir.wrap c := by
  induction n generalizing c ts with
  | zero => cases h
  | succ n ih =>
    obtain ho | ⟨r, us, rfl⟩ | ⟨op, us, rfl, hw⟩ := redirs_cases ts
    · rw [parseredirs_done n ho] at h
      cases pure_inj h
      exact ⟨[], rfl, rfl⟩
    · rw [parseredirs_redir] at h
      obtain ⟨rs, rfl, hr⟩ := ih h
      exact ⟨r :: rs, by rw [flatMap_cons, append_assoc], hr⟩
    · rw [parseredirs_missing n hw] at h
      exact absurd h throw_ne_pure

theorem parseredirs_halts {n : Nat} (hn : ts.length < n) :
    Halts (fun r => r.2.length ≤ ts.length) (parseredirs tokenLexer n c ts) := by
  induction n generalizing c ts with
  | zero => exact absurd hn (Nat.not_lt_zero _)
  | succ n ih =>
    obtain ho | ⟨r, us, rfl⟩ | ⟨op, us, rfl, hw⟩ := redirs_cases ts
    · rw [parseredirs_done n ho]
      exact Halts.pure (Nat.le_refl _)
    · have hlen : (r.tokens ++ us).length = us.length + 2 := rfl
      rw [parseredirs_redir, hlen]
      exact (ih (by omega)).mono fun r hr => by omega
    · rw [parseredirs_missing n hw]
      exact Halts.throw

end

/-! ## words -/

section
variable {rest ts : List Token} {c : Cmd (List Byte)} {w : List Byte} {k : Nat}

/-- the symbols that end the words of a command -/
def stopSet : List Byte := [chr '|', chr ')', chr '&', chr ';']

theorem pushArg_wrap (rs : List Redir) :
    (rs.foldl Redir.wrap c).pushArg w = rs.foldl Redir.wrap (c.pushArg w) := by
  induction rs generalizing c with
  | nil => rfl
  | cons r rs ih =>
    have hr : (r.wrap c).pushArg w = r.wrap (c.pushArg w) := by
      obtain ⟨op, file⟩ := r
      cases op <;> rfl
    rw [foldl_cons, ih, hr, foldl_cons]

theorem parseargs_stop (n : Nat) (h : ts = [] ∨ opens stopSet ts = true) :
    parseargs tokenLexer (n + 1) c k ts = pure (c, ts) := by
  rcases h with rfl | h
  · rfl
  · show (if opens stopSet ts then _ else _) = _
    rw [h]
    rfl

theorem parseargs_word (n : Nat) (h : k + 1 < MAXARGS) :
    parseargs tokenLexer (n + 1) c k (.word w :: ts) =
      (parseredirs tokenLexer n (c.pushArg w) ts >>= fun r =>
        parseargs tokenLexer n r.1 (k + 1) r.2) :=
  if_neg (Nat.not_le_of_lt h)

theorem parseargs_many (n : Nat) (h : ¬ k + 1 < MAXARGS) :
    parseargs tokenLexer (n + 1) c k (.word w :: ts) = throw .tooManyArgs :=
  if_pos (Nat.le_of_not_lt h)

/-- the three ways a list of tokens can go on where words may stand; the other tokens are refused -/
theorem args_cases (ts : List Token) : (ts = [] ∨ opens stopSet ts = true) ∨
    (∃ w us, ts = .word w :: us) ∨
    ∀ (n : Nat) (c : Cmd (List Byte)) (k : Nat),
      parseargs tokenLexer (n + 1) c k ts = throw .badToken := by
  match ts with
  | [] => exact .inl (.inl rfl)
  | .word w :: us => exact .inr (.inl ⟨w, us, rfl⟩)
  | .bar :: us | .rpar :: us | .amp :: us | .semi :: us => exact .inl (.inr rfl)
  | .lpar :: us | .lt :: us | .gt :: us | .append :: us => exact .inr (.inr fun _ _ _ => rfl)

theorem stops_of_follow (h : Follow [.bar, .rpar, .amp, .semi] rest) :
    rest = [] ∨ opens stopSet rest = true := by
  cases rest with
  | nil => exact .inl rfl
  | cons t rest =>
    have hall : ∀ t ∈ [Token.bar, .rpar, .amp, .semi], opens stopSet [t] = true := by decide
    exact .inr (hall t (h t rfl))

theorem parseargs_gives (args : List Arg) (rs : List Redir) (ws : List (List Byte))
    (hrest : Follow [.bar, .rpar, .amp, .semi] rest) (hk : ws.length + args.length < MAXARGS)
    (n : Nat) :
    Gives (parseargs tokenLexer n (rs.foldl Redir.wrap (.exec ws)) ws.length
        (args.flatMap Arg.tokens ++ rest))
      ((rs ++ args.flatMap Arg.redirs).foldl Redir.wrap (.exec (ws ++ args.map Arg.word)), rest) := by
  induction args generalizing n rs ws with
  | nil =>
    cases n with
    | zero => exact .inl rfl
    | succ n =>
      rw [flatMap_nil, flatMap_nil, map_nil, append_nil, append_nil,
        nil_append, parseargs_stop n (stops_of_follow hrest)]
      exact .inr rfl
  | cons a args ih =>
    obtain ⟨w, redirs⟩ := a
    rw [length_cons] at hk
    cases n with
    | zero => exact .inl rfl
    | succ n =>
      rw [flatMap_cons, append_assoc]
      show Gives (parseargs tokenLexer (n + 1) _ _
        (.word w :: (redirs.flatMap Redir.tokens ++ (args.flatMap Arg.tokens ++ rest)))) _
      have hnext : opens redirSet (args.flatMap Arg.tokens ++ rest) = false := by
        cases args with
        | nil => exact hrest.opens (by decide)
        | cons a args => rfl
      rw [parseargs_word n (by omega), pushArg_wrap]
      refine (parseredirs_gives redirs hnext n).bind ?_
      have hstep := ih (rs ++ redirs) (ws ++ [w])
        (by rw [length_append, length_singleton]; omega) n
      rw [length_append, length_singleton, foldl_append, append_assoc,
        append_assoc, singleton_append] at hstep
      rwa [flatMap_cons, map_cons]

theorem parseargs_sound {n : Nat} {r : Cmd (List Byte) × List Token} (rs : List Redir)
    (ws : List (List Byte)) (hk : ws.length < MAXARGS)
    (h : parseargs tokenLexer n (rs.foldl Redir.wrap (.exec ws)) ws.length ts = pure r) :
    ∃ args : List Arg, ws.length + args.length < MAXARGS ∧
      ts = args.flatMap Arg.tokens ++ r.2 ∧
      r.1 = (rs ++ args.flatMap Arg.redirs).foldl Redir.wrap (.exec (ws ++ args.map Arg.word)) := by
  induction n generalizing rs ws ts with
  | zero => cases h
  | succ n ih =>
    obtain hs | ⟨w, us, rfl⟩ | hbad := args_cases ts
    · rw [parseargs_stop n hs] at h
      cases pure_inj h
      refine ⟨[], hk, rfl, ?_⟩
      rw [flatMap_nil, append_nil, map_nil, append_nil]
    · by_cases hm : ws.length + 1 < MAXARGS
      · rw [parseargs_word n hm, pushArg_wrap] at h
        obtain ⟨r', hr', h⟩ := bind_eq_pure h
        obtain ⟨redirs, hus, hc⟩ := parseredirs_sound hr'
        have hlen : (ws ++ [w]).length = ws.length + 1 := length_append
        rw [hc, ← foldl_append, ← hlen] at h
        obtain ⟨args, hargs, hts, hr⟩ := ih (rs ++ redirs) (ws ++ [w]) (by omega) h
        refine ⟨⟨w, redirs⟩ :: args, ?_, ?_, ?_⟩
        · rw [length_cons]
          omega
        · rw [hus, hts, flatMap_cons, append_assoc]
          rfl
        · rw [hr, append_assoc, append_assoc]
          rfl
      · rw [parseargs_many n hm] at h
        exact absurd h throw_ne_pure
    · rw [hbad] at h
      exact absurd h throw_ne_pure

theorem parseargs_halts {n : Nat} (hn : ts.length < n) :
    Halts (fun r => r.2.length ≤ ts.length) (parseargs tokenLexer n c k ts) := by
  induction n generalizing c k ts with
  | zero => exact absurd hn (Nat.not_lt_zero _)
  | succ n ih =>
    obtain hs | ⟨w, us, rfl⟩ | hbad := args_cases ts
    · rw [parseargs_stop n hs]
      exact Halts.pure (Nat.le_refl _)
    · rw [length_cons] at hn ⊢
      by_cases hm : k + 1 < MAXARGS
      · rw [parseargs_word n hm]
        refine (parseredirs_halts (by omega)).bind fun r hr => ?_
        exact (ih (by omega)).mono fun r' hr' => by omega
      · rw [parseargs_many n hm]
        exact Halts.throw
    · rw [hbad]
      exact Halts.throw

end

/-! ## background commands -/

section
variable {rest ts : List Token} {c : Cmd (List Byte)} {n : Nat}

theorem parseback_done (n : Nat) (h : opens [chr '&'] ts = false) :
    parseback tokenLexer (n + 1) c ts = pure (c, ts) := by
  show (if opens [chr '&'] ts then _ else _) = _
  rw [h]
  rfl

theorem parseback_amp (n : Nat) :
    parseback tokenLexer (n + 1) c (.amp :: ts) = parseback tokenLexer n (.back c) ts := rfl

theorem amp_of_opens (h : opens [chr '&'] ts = true) : ∃ us, ts = .amp :: us := by
  match ts, h with
  | .amp :: us, _ => exact ⟨us, rfl⟩

theorem parseback_gives (k : Nat) (h : opens [chr '&'] rest = false) (n : Nat) :
    Gives (parseback tokenLexer n c (List.replicate k .amp ++ rest))
      (Nat.iterate .back k c, rest) := by
  induction k generalizing n c with
  | zero =>
    cases n with
    | zero => exact .inl rfl
    | succ n => exact .inr (parseback_done n h)
  | succ k ih =>
    cases n with
    | zero => exact .inl rfl
    | succ n => exact ih n

theorem parseback_sound {r : Cmd (List Byte) × List Token}
    (h : parseback tokenLexer n c ts = pure r) :
    ∃ k, ts = List.replicate k .amp ++ r.2 ∧ r.1 = Nat.iterate .back k c := by
  induction n generalizing c ts with
  | zero => cases h
  | succ n ih =>
    cases ho : opens [chr '&'] ts with
    | false =>
      rw [parseback_done n ho] at h
      cases pure_inj h
      exact ⟨0, rfl, rfl⟩
    | true =>
      obtain ⟨us, rfl⟩ := amp_of_opens ho
      rw [parseback_amp] at h
      obtain ⟨k, rfl, hr⟩ := ih h
      exact ⟨k + 1, rfl, hr⟩

theorem parseback_halts (hn : ts.length < n) :
    Halts (fun r => r.2.length ≤ ts.length) (parseback tokenLexer n c ts) := by
  induction n generalizing c ts with
  | zero => exact absurd hn (Nat.not_lt_zero _)
  | succ n ih =>
    cases ho : opens [chr '&'] ts with
    | false =>
      rw [parseback_done n ho]
      exact Halts.pure (Nat.le_refl _)
    | true =>
      obtain ⟨us, rfl⟩ := amp_of_opens ho
      rw [length_cons] at hn ⊢
      rw [parseback_amp]
      exact (ih (by omega)).mono fun r hr => by omega

end

/-! ## lines, pipes and commands -/

section
variable {ts : List Token} {n : Nat}

theorem parseline_succ (n : Nat) (ts : List Token) : parseline tokenLexer (n + 1) ts =
    (parsepipe tokenLexer n ts >>= fun c => parseback tokenLexer n c.1 c.2 >>= fun c =>
      if opens [chr ';'] c.2 then
        parseline tokenLexer n (nextToken c.2).ps >>= fun r => pure (.list c.1 r.1, r.2)
      else pure (c.1, c.2)) := rfl

theorem parsepipe_succ (n : Nat) (ts : List Token) : parsepipe tokenLexer (n + 1) ts =
    (parseexec tokenLexer n ts >>= fun c =>
      if opens [chr '|'] c.2 then
        parsepipe tokenLexer n (nextToken c.2).ps >>= fun r => pure (.pipe c.1 r.1, r.2)
      else pure (c.1, c.2)) := rfl

theorem parseexec_simple (n : Nat) (h : opens [chr '('] ts = false) :
    parseexec tokenLexer (n + 1) ts =
      (parseredirs tokenLexer n (.exec []) ts >>= fun r => parseargs tokenLexer n r.1 0 r.2) := by
  show (if opens [chr '('] ts then _ else _) = _
  rw [h]
  rfl

theorem parseexec_block (n : Nat) (ts : List Token) :
    parseexec tokenLexer (n + 1) (.lpar :: ts) = parseblock tokenLexer n (.lpar :: ts) := rfl

theorem parseblock_succ (n : Nat) (ts : List Token) :
    parseblock tokenLexer (n + 1) (.lpar :: ts) =
      (parseline tokenLexer n ts >>= fun c =>
        if !opens [chr ')'] c.2 then throw .missingParen
        else parseredirs tokenLexer n c.1 (nextToken c.2).ps) := rfl

theorem lpar_of_opens (h : opens [chr '('] ts = true) : ∃ us, ts = .lpar :: us := by
  match ts, h with
  | .lpar :: us, _ => exact ⟨us, rfl⟩

theorem semi_of_opens (h : opens [chr ';'] ts = true) : ∃ us, ts = .semi :: us := by
  match ts, h with
  | .semi :: us, _ => exact ⟨us, rfl⟩

theorem bar_of_opens (h : opens [chr '|'] ts = true) : ∃ us, ts = .bar :: us := by
  match ts, h with
  | .bar :: us, _ => exact ⟨us, rfl⟩

theorem rpar_of_opens (h : opens [chr ')'] ts = true) : ∃ us, ts = .rpar :: us := by
  match ts, h with
  | .rpar :: us, _ => exact ⟨us, rfl⟩

mutual

theorem Line.parses (l : Line) {rest : List Token} (h : Follow [.rpar] rest) (n : Nat) :
    Gives (parseline tokenLexer n (l.tokens ++ rest)) (l.denote, rest) := by
  cases n with
  | zero => exact .inl rfl
  | succ n =>
    match l with
    | .last p amps =>
      rw [Line.tokens, append_assoc, parseline_succ]
      have hpipe : Follow [.amp, .semi, .rpar] (replicate amps .amp ++ rest) :=
        (follow_amps h amps).mono (by decide)
      refine (p.parses hpipe n).bind ?_
      refine (parseback_gives amps (h.opens (by decide)) n).bind (.inr ?_)
      have hsemi : opens [chr ';'] rest = false := h.opens (by decide)
      rw [if_neg (by rw [hsemi]; decide), Line.denote]
    | .seq p amps l =>
      rw [Line.tokens, append_assoc, append_assoc, parseline_succ]
      have hf : Follow [.semi] (.semi :: l.tokens ++ rest) := follow_cons mem_cons_self
      have hpipe : Follow [.amp, .semi, .rpar]
          (replicate amps .amp ++ (.semi :: l.tokens ++ rest)) :=
        (follow_amps hf amps).mono (by decide)
      refine (p.parses hpipe n).bind ?_
      refine (parseback_gives amps (hf.opens (by decide)) n).bind ?_
      rw [Line.denote]
      exact (l.parses h n).bind (.inr rfl)

theorem Pipe.parses (p : Pipe) {rest : List Token} (h : Follow [.amp, .semi, .rpar] rest) (n : Nat) :
    Gives (parsepipe tokenLexer n (p.tokens ++ rest)) (p.denote, rest) := by
  cases n with
  | zero => exact .inl rfl
  | succ n =>
    match p with
    | .last e =>
      rw [Pipe.tokens, parsepipe_succ]
      refine (e.parses (h.mono (by decide)) n).bind (.inr ?_)
      have hbar : opens [chr '|'] rest = false := h.opens (by decide)
      rw [if_neg (by rw [hbar]; decide), Pipe.denote]
    | .pipe e p =>
      rw [Pipe.tokens, append_assoc, parsepipe_succ]
      have hexec : Follow [.bar, .rpar, .amp, .semi] (.bar :: p.tokens ++ rest) :=
        follow_cons mem_cons_self
      refine (e.parses hexec n).bind ?_
      rw [Pipe.denote]
      exact (p.parses h n).bind (.inr rfl)

theorem Exec.parses (e : Exec) {rest : List Token} (h : Follow [.bar, .rpar, .amp, .semi] rest)
    (n : Nat) :
    Gives (parseexec tokenLexer n (e.tokens ++ rest)) (e.denote, rest) := by
  cases n with
  | zero => exact .inl rfl
  | succ n =>
    match e with
    | .block l redirs =>
      cases n with
      | zero => exact .inl rfl
      | succ n =>
        rw [Exec.tokens, cons_append, cons_append, append_assoc, parseexec_block,
          parseblock_succ]
        refine (l.parses (follow_cons mem_cons_self) n).bind ?_
        rw [Exec.denote]
        exact parseredirs_gives redirs (h.opens (by decide)) n
    | .simple redirs args few =>
      have hargs : opens redirSet (args.flatMap Arg.tokens ++ rest) = false := by
        cases args with
        | nil => exact h.opens (by decide)
        | cons a args => rfl
      have hpar : opens [chr '('] (redirs.flatMap Redir.tokens ++
          (args.flatMap Arg.tokens ++ rest)) = false := by
        match redirs, args with
        | [], [] => exact h.opens (by decide)
        | [], a :: args => rfl
        | ⟨op, file⟩ :: redirs, _ => cases op <;> rfl
      rw [Exec.tokens, append_assoc, parseexec_simple n hpar]
      refine (parseredirs_gives redirs hargs n).bind ?_
      rw [Exec.denote]
      exact parseargs_gives args redirs [] h (Nat.lt_of_le_pred (by decide) (by simpa using few)) n

end

mutual

theorem parseline_sound {n : Nat} {ts : List Token} {r : Cmd (List Byte) × List Token}
    (h : parseline tokenLexer n ts = pure r) :
    ∃ l : Line, ts = l.tokens ++ r.2 ∧ r.1 = l.denote := by
  match n with
  | 0 => cases h
  | n + 1 =>
    rw [parseline_succ] at h
    obtain ⟨c, hpipe, h⟩ := bind_eq_pure h
    obtain ⟨c', hback, h⟩ := bind_eq_pure h
    obtain ⟨p, hts, hp⟩ := parsepipe_sound hpipe
    obtain ⟨k, hamps, hk⟩ := parseback_sound hback
    rw [hamps] at hts
    rw [hp] at hk
    cases ho : opens [chr ';'] c'.2 with
    | false =>
      rw [ho] at h
      cases pure_inj h
      refine ⟨.last p k, ?_, ?_⟩
      · rwa [Line.tokens, append_assoc]
      · rwa [Line.denote]
    | true =>
      rw [ho] at h
      obtain ⟨r', hline, h⟩ := bind_eq_pure h
      cases pure_inj h
      obtain ⟨l, hl, hd⟩ := parseline_sound hline
      obtain ⟨us, hus⟩ := semi_of_opens ho
      refine ⟨.seq p k l, ?_, ?_⟩
      · rw [hus] at hts hl
        rwa [Line.tokens, append_assoc, append_assoc, cons_append, ← hl]
      · rw [Line.denote, ← hd, ← hk]

theorem parsepipe_sound {n : Nat} {ts : List Token} {r : Cmd (List Byte) × List Token}
    (h : parsepipe tokenLexer n ts = pure r) :
    ∃ p : Pipe, ts = p.tokens ++ r.2 ∧ r.1 = p.denote := by
  match n with
  | 0 => cases h
  | n + 1 =>
    rw [parsepipe_succ] at h
    obtain ⟨c, hexec, h⟩ := bind_eq_pure h
    obtain ⟨e, hts, he⟩ := parseexec_sound hexec
    cases ho : opens [chr '|'] c.2 with
    | false =>
      rw [ho] at h
      cases pure_inj h
      refine ⟨.last e, ?_, ?_⟩
      · rwa [Pipe.tokens]
      · rwa [Pipe.denote]
    | true =>
      rw [ho] at h
      obtain ⟨r', hpipe, h⟩ := bind_eq_pure h
      cases pure_inj h
      obtain ⟨p, hp, hd⟩ := parsepipe_sound hpipe
      obtain ⟨us, hus⟩ := bar_of_opens ho
      refine ⟨.pipe e p, ?_, ?_⟩
      · rw [hus] at hts hp
        rwa [Pipe.tokens, append_assoc, cons_append, ← hp]
      · rw [Pipe.denote, ← hd, ← he]

theorem parseexec_sound {n : Nat} {ts : List Token} {r : Cmd (List Byte) × List Token}
    (h : parseexec tokenLexer n ts = pure r) :
    ∃ e : Exec, ts = e.tokens ++ r.2 ∧ r.1 = e.denote := by
  match n with
  | 0 => cases h
  | n + 1 =>
    cases ho : opens [chr '('] ts with
    | false =>
      rw [parseexec_simple n ho] at h
      obtain ⟨c, hredirs, h⟩ := bind_eq_pure h
      obtain ⟨redirs, hts, hc⟩ := parseredirs_sound hredirs
      rw [hc] at h
      obtain ⟨args, hlen, hargs, hr⟩ := parseargs_sound redirs [] (by decide) h
      have few : args.length ≤ MAXARGS - 1 := by
        rw [length_nil, Nat.zero_add] at hlen
        exact Nat.le_sub_one_of_lt hlen
      refine ⟨.simple redirs args few, ?_, ?_⟩
      · rwa [Exec.tokens, append_assoc, ← hargs]
      · rwa [Exec.denote]
    | true =>
      obtain ⟨us, rfl⟩ := lpar_of_opens ho
      rw [parseexec_block] at h
      exact parseblock_sound h

theorem parseblock_sound {n : Nat} {us : List Token} {r : Cmd (List Byte) × List Token}
    (h : parseblock tokenLexer n (.lpar :: us) = pure r) :
    ∃ e : Exec, .lpar :: us = e.tokens ++ r.2 ∧ r.1 = e.denote := by
  match n with
  | 0 => cases h
  | n + 1 =>
    rw [parseblock_succ] at h
    obtain ⟨c, hline, h⟩ := bind_eq_pure h
    obtain ⟨l, hts, hl⟩ := parseline_sound hline
    cases ho : opens [chr ')'] c.2 with
    | false =>
      rw [ho] at h
      exact absurd h throw_ne_pure
    | true =>
      rw [ho] at h
      obtain ⟨vs, hvs⟩ := rpar_of_opens ho
      obtain ⟨redirs, hredirs, hr⟩ := parseredirs_sound h
      refine ⟨.block l redirs, ?_, ?_⟩
      · rw [hvs] at hts hredirs
        rw [Exec.tokens, cons_append, cons_append, append_assoc, cons_append,
          ← hredirs, hts]
        rfl
      · rwa [Exec.denote, ← hl]

end

/-! ## depth -/

theorem nextToken_length (ts : List Token) : (nextToken ts).ps.length ≤ ts.length - 1 := by
  cases ts <;> exact Nat.le_refl _

theorem length_pos_of_opens {toks : List Byte} (h : opens toks ts = true) : 0 < ts.length := by
  cases ts with
  | nil => cases h
  | cons t ts => exact Nat.succ_pos _

mutual

theorem parseline_halts {n : Nat} {ts : List Token} (hn : 4 * ts.length + 4 ≤ n) :
    Halts (fun r => r.2.length ≤ ts.length) (parseline tokenLexer n ts) := by
  match n with
  | 0 => omega
  | n + 1 =>
    rw [parseline_succ]
    refine (parsepipe_halts (by omega)).bind fun c hc => ?_
    refine (parseback_halts (by omega)).bind fun c' hc' => ?_
    cases ho : opens [chr ';'] c'.2 with
    | false => exact Halts.pure (Nat.le_trans hc' hc)
    | true =>
      have hpos := length_pos_of_opens ho
      have hnext := nextToken_length c'.2
      refine (parseline_halts (by omega)).bind fun r hr => Halts.pure ?_
      show r.2.length ≤ ts.length
      omega

theorem parsepipe_halts {n : Nat} {ts : List Token} (hn : 4 * ts.length + 3 ≤ n) :
    Halts (fun r => r.2.length ≤ ts.length) (parsepipe tokenLexer n ts) := by
  match n with
  | 0 => omega
  | n + 1 =>
    rw [parsepipe_succ]
    refine (parseexec_halts (by omega)).bind fun c hc => ?_
    cases ho : opens [chr '|'] c.2 with
    | false => exact Halts.pure hc
    | true =>
      have hpos := length_pos_of_opens ho
      have hnext := nextToken_length c.2
      refine (parsepipe_halts (by omega)).bind fun r hr => Halts.pure ?_
      show r.2.length ≤ ts.length
      omega

theorem parseexec_halts {n : Nat} {ts : List Token} (hn : 4 * ts.length + 2 ≤ n) :
    Halts (fun r => r.2.length ≤ ts.length) (parseexec tokenLexer n ts) := by
  match n with
  | 0 => omega
  | n + 1 =>
    cases ho : opens [chr '('] ts with
    | false =>
      rw [parseexec_simple n ho]
      refine (parseredirs_halts (by omega)).bind fun c hc => ?_
      exact (parseargs_halts (by omega)).mono fun r hr => Nat.le_trans hr hc
    | true =>
      obtain ⟨us, rfl⟩ := lpar_of_opens ho
      rw [length_cons] at hn
      rw [parseexec_block]
      exact parseblock_halts (by omega)

theorem parseblock_halts {n : Nat} {us : List Token} (hn : 4 * (us.length + 1) + 1 ≤ n) :
    Halts (fun r => r.2.length ≤ us.length + 1) (parseblock tokenLexer n (.lpar :: us)) := by
  match n with
  | 0 => omega
  | n + 1 =>
    rw [parseblock_succ]
    refine (parseline_halts (by omega)).bind fun c hc => ?_
    cases ho : opens [chr ')'] c.2 with
    | false => exact Halts.throw
    | true =>
      have hnext := nextToken_length c.2
      exact (parseredirs_halts (by omega)).mono fun r hr => by omega

end

end

/-! ## more depth -/

section
variable {P W : Type} (L : Lexer P W)

theorem parseredirs_mono (n : Nat) (c : Cmd W) (ps : P) :
    Le (parseredirs L n c ps) (parseredirs L (n + 1) c ps) := by
  induction n generalizing c ps with
  | zero => exact .inl rfl
  | succ n ih =>
    rw [parseredirs, parseredirs]
    exact Le.ite (Le.ite (Le.refl _) (ih _ _)) (Le.refl _)

theorem parseargs_mono (n : Nat) (c : Cmd W) (k : Nat) (ps : P) :
    Le (parseargs L n c k ps) (parseargs L (n + 1) c k ps) := by
  induction n generalizing c k ps with
  | zero => exact .inl rfl
  | succ n ih =>
    rw [parseargs, parseargs]
    apply Le.ite (Le.refl _)
    apply Le.ite (Le.refl _)
    apply Le.ite (Le.refl _)
    apply Le.ite (Le.refl _)
    exact (parseredirs_mono L n _ _).bind fun r => ih _ _ _

theorem parseback_mono (n : Nat) (c : Cmd W) (ps : P) :
    Le (parseback L n c ps) (parseback L (n + 1) c ps) := by
  induction n generalizing c ps with
  | zero => exact .inl rfl
  | succ n ih =>
    rw [parseback, parseback]
    exact Le.ite (ih _ _) (Le.refl _)

mutual

theorem parseline_mono (n : Nat) (ps : P) : Le (parseline L n ps) (parseline L (n + 1) ps) := by
  match n with
  | 0 => exact .inl rfl
  | n + 1 =>
    rw [parseline, parseline]
    refine (parsepipe_mono n ps).bind fun c => (parseback_mono L n _ _).bind fun c => ?_
    exact Le.ite ((parseline_mono n _).bind fun r => Le.refl _) (Le.refl _)

theorem parsepipe_mono (n : Nat) (ps : P) : Le (parsepipe L n ps) (parsepipe L (n + 1) ps) := by
  match n with
  | 0 => exact .inl rfl
  | n + 1 =>
    rw [parsepipe, parsepipe]
    refine (parseexec_mono n ps).bind fun c => ?_
    exact Le.ite ((parsepipe_mono n _).bind fun r => Le.refl _) (Le.refl _)

theorem parseexec_mono (n : Nat) (ps : P) : Le (parseexec L n ps) (parseexec L (n + 1) ps) := by
  match n with
  | 0 => exact .inl rfl
  | n + 1 =>
    rw [parseexec, parseexec]
    apply Le.ite (parseblock_mono n _)
    exact (parseredirs_mono L n _ _).bind fun r => parseargs_mono L n _ _ _

theorem parseblock_mono (n : Nat) (ps : P) : Le (parseblock L n ps) (parseblock L (n + 1) ps) := by
  match n with
  | 0 => exact .inl rfl
  | n + 1 =>
    rw [parseblock, parseblock]
    apply Le.ite (Le.refl _)
    refine (parseline_mono n _).bind fun c => ?_
    exact Le.ite (Le.refl _) (parseredirs_mono L n _ _)

end

theorem parseline_le {n m : Nat} (h : n ≤ m) (ps : P) :
    Le (parseline L n ps) (parseline L m ps) := by
  induction h with
  | refl => exact Le.refl _
  | step _ ih => exact ih.trans (parseline_mono L _ ps)

end

end Shell
