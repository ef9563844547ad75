import Mathlib.Data.List.TakeWhile
import Xv6.Shell.Grammar

/-!
# Tokens of a line

`peek` and `gettoken` on a line that ends in a NUL, against `tokenise`.

* `scan_eq`              how far the loops of `gettoken` go;
* `lexeme_token`         the `switch` of `gettoken` reads one token;
* `peek_token`, `gettoken_token`   the two functions on the tokens of the rest of the line.
-/

namespace Shell
open Bytes List

section
variable {line : List Byte} {s : Nat} {c : Byte} {cs : List Byte}

/-! ## the loops -/

theorem byteAt_line (line : List Byte) (s : Nat) :
    byteAt (line ++ [0]) s = (line.drop s).head?.getD 0 := by
  rw [byteAt, head?_drop, getD_eq_getElem?_getD, getElem?_append]
  split
  · rfl
  · rename_i h
    rw [getElem?_eq_none (Nat.le_of_not_lt h)]
    cases s - line.length <;> rfl

theorem byteAt_of_drop (h : line.drop s = c :: cs) : byteAt (line ++ [0]) s = c := by
  rw [byteAt_line, h]
  rfl

theorem drop_succ_of_drop (h : line.drop s = c :: cs) : line.drop (s + 1) = cs := by
  rw [← drop_drop, h]
  rfl

theorem lt_of_drop (h : line.drop s = c :: cs) : s < line.length := by
  apply Nat.lt_of_not_le
  intro hle
  rw [drop_eq_nil_of_le hle] at h
  cases h

theorem scan_eq (p : Byte → Bool) (s : Nat) :
    scan (line ++ [0]) line.length p s = s + ((line.drop s).takeWhile p).length := by
  unfold scan
  generalize hn : line.length - s = n
  induction n generalizing s with
  | zero =>
    rw [drop_eq_nil_of_le (by omega)]
    rfl
  | succ n ih =>
    cases hd : line.drop s with
    | nil =>
      have := drop_eq_nil_iff.mp hd
      omega
    | cons c cs =>
      rw [scanLoop, byteAt_of_drop hd, takeWhile_cons]
      split
      · rw [ih (s + 1) (by omega), drop_succ_of_drop hd, length_cons]
        omega
      · rfl

theorem drop_takeWhile (p : Byte → Bool) (l : List Byte) :
    l.drop (l.takeWhile p).length = l.dropWhile p := by
  induction l with
  | nil => rfl
  | cons c cs ih =>
    rw [takeWhile_cons, dropWhile_cons]
    split
    · exact ih
    · rfl

theorem drop_scan (p : Byte → Bool) (s : Nat) :
    line.drop (scan (line ++ [0]) line.length p s) = (line.drop s).dropWhile p := by
  rw [scan_eq, ← drop_drop, drop_takeWhile]

theorem scan_le (p : Byte → Bool) (hs : s ≤ line.length) :
    scan (line ++ [0]) line.length p s ≤ line.length := by
  have h := ( takeWhile_prefix p (l := line.drop s)).length_le
  rw [length_drop] at h
  rw [scan_eq]
  omega

/-! ## one token -/

theorem tokenise_nil : tokenise [] = [] := by
  rw [tokenise]

theorem tokenise_dropWhile (l : List Byte) : tokenise (l.dropWhile isSpace) = tokenise l := by
  induction l with
  | nil => rfl
  | cons c cs ih =>
    rw [dropWhile_cons]
    split
    · rename_i h
      rw [ih, tokenise, if_pos h]
    · rfl

/-- the word `w` stands between the two pointers -/
structure WordAt (line : List Byte) (p : Nat × Nat) (w : List Byte) : Prop where
  drop_eq : line.drop p.1 = w ++ line.drop p.2
  end_eq : p.2 = p.1 + w.length
  plain : ∀ c ∈ w, isPlain c = true
  stop : ∀ c ∈ (line.drop p.2).head?, isPlain c = false

/-- `tokenise` at a byte that is not white space: the token, and what is left -/
inductive Lexes (c : Byte) (cs : List Byte) : Token → List Byte → Prop where
  | append {ds : List Byte} (hc : c = chr '>') (hcs : cs = chr '>' :: ds) : Lexes c cs .append ds
  | gt (hc : c = chr '>') (hcs : cs.head? ≠ some (chr '>')) : Lexes c cs .gt cs
  | symbol {t : Token} (ht : t ∈ symbolTokens) (hc : t.code = c) : Lexes c cs t cs
  | word (hc : c ∉ symbols) :
      Lexes c cs (.word (c :: cs.takeWhile isPlain)) (cs.dropWhile isPlain)

theorem tokenise_cons (c : Byte) (cs : List Byte) (h : isSpace c = false) :
    ∃ t ds, tokenise (c :: cs) = t :: tokenise ds ∧ Lexes c cs t ds := by
  rw [tokenise, if_neg (by rw [h]; exact Bool.false_ne_true)]
  by_cases hgt : c = chr '>'
  · rw [if_pos hgt]
    by_cases hh : cs.head? = some (chr '>')
    · obtain ⟨ds, rfl⟩ := head?_eq_some_iff.mp hh
      exact ⟨_, _, if_pos hh, .append hgt rfl⟩
    · exact ⟨_, _, if_neg hh, .gt hgt hh⟩
  rw [if_neg hgt]
  cases hs : symbolToken c with
  | some t =>
    have hcode := find?_some hs
    exact ⟨t, cs, rfl, .symbol (mem_of_find?_eq_some hs) (eq_of_beq hcode)⟩
  | none =>
    refine ⟨_, _, rfl, .word ?_⟩
    have hsym : ∀ b ∈ symbols, b = chr '>' ∨ ∃ t ∈ symbolTokens, t.code = b := by decide
    intro hc
    obtain rfl | ⟨t, ht, rfl⟩ := hsym c hc
    · exact hgt rfl
    · exact find?_eq_none.mp hs t ht (beq_self_eq_true _)

theorem Lexes.length_le {t : Token} {ds : List Byte} (h : Lexes c cs t ds) :
    ds.length ≤ cs.length := by
  cases h with
  | append _ hcs =>
    rw [hcs]
    exact Nat.le_succ _
  | gt _ _ | symbol _ _ => exact Nat.le_refl _
  | word _ => exact length_dropWhile_le isPlain cs

theorem length_tokenise (l : List Byte) : (tokenise l).length ≤ l.length := by
  induction hn : l.length using Nat.strong_induction_on generalizing l with
  | _ n ih =>
    subst hn
    cases l with
    | nil =>
      rw [tokenise_nil]
      exact Nat.le_refl _
    | cons c cs =>
      cases hsp : isSpace c with
      | true =>
        rw [tokenise, if_pos hsp, length_cons]
        exact Nat.le_succ_of_le (ih cs.length (Nat.lt_succ_self _) cs rfl)
      | false =>
        obtain ⟨t, ds, htok, hl⟩ := tokenise_cons c cs hsp
        have hle := hl.length_le
        have hds := ih ds.length (Nat.lt_succ_of_le hle) ds rfl
        rw [htok, length_cons, length_cons]
        omega

theorem symbol_facts : ∀ t ∈ symbolTokens, t.code ∈ symbols ∧ t.code ≠ 0 ∧
    t.first = some t.code ∧ t.code ≠ chr 'a' ∧
    (t.code = chr '|' ∨ t.code = chr '(' ∨ t.code = chr ')' ∨ t.code = chr ';' ∨
      t.code = chr '&' ∨ t.code = chr '<') := by
  decide

theorem isPlain_of_not_mem (hs : isSpace c = false) (hc : c ∉ symbols) : isPlain c = true := by
  unfold isPlain
  unfold isSpace at hs
  rw [hs, contains_eq_mem, decide_eq_false hc]
  rfl

theorem wordAt_takeWhile (hd : line.drop s = c :: cs) (hp : isPlain c = true) :
    WordAt line (s, s + (cs.takeWhile isPlain).length + 1) (c :: cs.takeWhile isPlain) := by
  have hend : line.drop (s + (cs.takeWhile isPlain).length + 1) = cs.dropWhile isPlain := by
    rw [Nat.add_right_comm, ← drop_drop, drop_succ_of_drop hd, drop_takeWhile]
  refine ⟨?_, rfl, ?_, ?_⟩
  · rw [hend, hd, cons_append, takeWhile_append_dropWhile]
  · intro b hb
    rcases mem_cons.mp hb with rfl | hb
    · exact hp
    · exact mem_takeWhile_imp hb
  · rw [hend]
    intro b hb
    have hnot := head?_dropWhile_not isPlain cs
    rwa [Option.mem_def.mp hb] at hnot

theorem lexeme_token {t : Token} {ds : List Byte} (hz : c ≠ 0) (hsp : isSpace c = false)
    (hd : line.drop s = c :: cs) (hl : Lexes c cs t ds) :
    (lexeme (line ++ [0]) line.length s).1 = t.code ∧
      line.drop (lexeme (line ++ [0]) line.length s).2 = ds ∧
      (lexeme (line ++ [0]) line.length s).2 ≤ line.length ∧
      (t.code = chr 'a' → WordAt line (s, (lexeme (line ++ [0]) line.length s).2) t.text) := by
  rw [lexeme, byteAt_of_drop hd, if_neg hz]
  cases hl with
  | append hc hcs =>
    subst hc hcs
    rw [if_neg (by decide), if_pos rfl, byteAt_of_drop (drop_succ_of_drop hd), if_pos rfl]
    have hnext := drop_succ_of_drop hd
    exact ⟨rfl, drop_succ_of_drop hnext, lt_of_drop hnext, fun h => absurd h (by decide)⟩
  | gt hc hcs =>
    subst hc
    have hnext : byteAt (line ++ [0]) (s + 1) ≠ chr '>' := by
      rw [byteAt_line, drop_succ_of_drop hd]
      cases cs with
      | nil => decide
      | cons b bs => exact fun e => hcs (congrArg some e)
    rw [if_neg (by decide), if_pos rfl, if_neg hnext]
    exact ⟨rfl, drop_succ_of_drop hd, lt_of_drop hd, fun h => absurd h (by decide)⟩
  | symbol ht hc =>
    subst hc
    obtain ⟨-, -, -, ha, hsix⟩ := symbol_facts t ht
    rw [if_pos hsix]
    exact ⟨rfl, drop_succ_of_drop hd, lt_of_drop hd, fun h => absurd h ha⟩
  | word hc =>
    have hsix : ¬ (c = chr '|' ∨ c = chr '(' ∨ c = chr ')' ∨ c = chr ';' ∨ c = chr '&' ∨
        c = chr '<') := by
      rintro (rfl | rfl | rfl | rfl | rfl | rfl) <;> exact hc (by decide)
    have hgt : c ≠ chr '>' := by
      rintro rfl
      exact hc (by decide)
    have hp := isPlain_of_not_mem hsp hc
    have hle := scan_le isPlain (Nat.le_of_lt (lt_of_drop hd))
    rw [if_neg hsix, if_neg hgt]
    rw [scan_eq, hd, takeWhile_cons, if_pos hp] at hle
    rw [drop_scan, scan_eq, hd, dropWhile_cons, if_pos hp, takeWhile_cons, if_pos hp]
    exact ⟨rfl, rfl, hle, fun _ => wordAt_takeWhile hd hp⟩

theorem opens_cons {toks : List Byte} (ht : toks ⊆ symbols) (hsp : isSpace c = false) :
    opens toks (tokenise (c :: cs)) = toks.contains c := by
  obtain ⟨t, ds, htok, hl⟩ := tokenise_cons c cs hsp
  rw [htok]
  cases hl with
  | append hc _ | gt hc _ => rw [hc]; rfl
  | symbol hm hc =>
    subst hc
    show t.first.any toks.contains = _
    rw [(symbol_facts t hm).2.2.1]
    rfl
  | word hc =>
    rw [contains_eq_mem, decide_eq_false fun h => hc (ht h)]
    rfl

end

/-! ## `peek` and `gettoken` -/

/-- the cursor stands before the tokens `ts` -/
def At (line : List Byte) (s : Nat) (ts : List Token) : Prop :=
  s ≤ line.length ∧ tokenise (line.drop s) = ts

section
variable {line : List Byte} {s : Nat} {ts : List Token}

theorem tokenise_scan (s : Nat) :
    tokenise (line.drop (scan (line ++ [0]) line.length isSpace s)) = tokenise (line.drop s) := by
  rw [drop_scan, tokenise_dropWhile]

theorem At.scan (h : At line s ts) : At line (scan (line ++ [0]) line.length isSpace s) ts :=
  ⟨scan_le _ h.1, (tokenise_scan s).trans h.2⟩

/-- after the white space: the end of the line, or the first byte of a token -/
theorem scan_cases (hz : ∀ b ∈ line, b ≠ 0) (s : Nat) :
    line.drop (scan (line ++ [0]) line.length isSpace s) = [] ∨
      ∃ c cs, line.drop (scan (line ++ [0]) line.length isSpace s) = c :: cs ∧
        isSpace c = false ∧ c ≠ 0 := by
  cases h : line.drop (scan (line ++ [0]) line.length isSpace s) with
  | nil => exact .inl rfl
  | cons c cs =>
    refine .inr ⟨c, cs, rfl, ?_, ?_⟩
    · have hd := head?_dropWhile_not isSpace (line.drop s)
      rwa [← drop_scan, h] at hd
    · apply hz
      apply mem_of_mem_drop
      rw [h]
      exact mem_cons_self

theorem peek_token (hz : ∀ b ∈ line, b ≠ 0) {toks : List Byte} (ht : toks ⊆ symbols)
    (h : At line s ts) :
    (peek (line ++ [0]) line.length s toks).1 = opens toks ts ∧
      At line (peek (line ++ [0]) line.length s toks).2 ts := by
  refine ⟨?_, h.scan⟩
  show (byteAt _ (Shell.scan _ _ _ _) != 0 && toks.contains (byteAt _ (Shell.scan _ _ _ _))) = _
  rw [← h.2, ← tokenise_scan]
  rcases scan_cases hz s with hd | ⟨c, cs, hd, hsp, hc⟩
  · rw [byteAt_line, hd, tokenise_nil]
    rfl
  · rw [byteAt_of_drop hd, hd, opens_cons ht hsp, bne_iff_ne.mpr hc, Bool.true_and]

theorem gettoken_token (hz : ∀ b ∈ line, b ≠ 0) (h : At line s ts) :
    (gettoken (line ++ [0]) line.length s).ret = (nextToken ts).ret ∧
      At line (gettoken (line ++ [0]) line.length s).ps (nextToken ts).ps ∧
      ((nextToken ts).ret = chr 'a' →
        WordAt line (gettoken (line ++ [0]) line.length s).word (nextToken ts).word) := by
  obtain ⟨hs, rfl⟩ := h
  rw [← tokenise_scan]
  rcases scan_cases hz s with hd | ⟨c, cs, hd, hsp, hc⟩
  · have hlex : lexeme (line ++ [0]) line.length (Shell.scan (line ++ [0]) line.length isSpace s)
        = (0, Shell.scan (line ++ [0]) line.length isSpace s) := by
      rw [lexeme, byteAt_line, hd]
      rfl
    unfold gettoken
    dsimp only
    rw [hlex, hd, tokenise_nil]
    refine ⟨rfl, ?_, fun h => absurd h (by decide)⟩
    have hat : At line s [] := ⟨hs, by rw [← tokenise_scan, hd, tokenise_nil]⟩
    exact hat.scan.scan
  · obtain ⟨t, ds, htok, hl⟩ := tokenise_cons c cs hsp
    obtain ⟨hret, hds, hle, hw⟩ := lexeme_token hc hsp hd hl
    have hat : At line (lexeme (line ++ [0]) line.length
        (Shell.scan (line ++ [0]) line.length isSpace s)).2 (tokenise ds) := ⟨hle, by rw [hds]⟩
    rw [hd, htok]
    exact ⟨hret, hat.scan, hw⟩

end

end Shell
