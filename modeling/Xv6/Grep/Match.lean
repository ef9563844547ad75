import Xv6.Lib.CString
import Mathlib.Computability.Language

/-!
# The matcher of grep

`matchhere`, `matchstar` and `match` as the source has them, and what a pattern means: it is read
from left to right as a list of items, an item denotes a language, and a list of items the product
of their languages.

* `matchhere_iff`   at the head of the text: `matchhere` finds what `Here` says;
* `match_iff`       anywhere in the text: `match` finds what `Found` says.
-/

set_option linter.unusedVariables false

namespace Grep
open Bytes Computability List

def chr (c : Char) : Byte := BitVec.ofNat 8 c.toNat

/-! ## the functions of the source -/

mutual

/-- search for `re` at the beginning of `text` -/
def matchhere (re text : List Byte) : Bool :=
  if h : deref re = 0 then true
  else if deref (re.drop 1) = chr '*' then matchstar (deref re) (re.drop 2) text
  else if deref re = chr '$' ∧ deref (re.drop 1) = 0 then deref text = 0
  else if deref text ≠ 0 ∧ (deref re = chr '.' ∨ deref re = deref text) then
    matchhere (re.drop 1) (text.drop 1)
  else false
termination_by (re.length, 0, 0)
decreasing_by
  · have hl := length_pos_of_deref h
    exact .left _ _ (by rw [List.length_drop]; omega)
  · have hl := length_pos_of_deref h
    exact .left _ _ (by rw [List.length_drop]; omega)

/-- search for `c*re` at the beginning of `text` -/
def matchstar (c : Byte) (re text : List Byte) : Bool :=
  if matchhere re text then true
  else if h : deref text ≠ 0 ∧ (deref text = c ∨ c = chr '.') then matchstar c re (text.drop 1)
  else false
termination_by (re.length, 1, text.length)
decreasing_by
  · exact .right _ (.left _ _ Nat.zero_lt_one)
  · have hl := length_pos_of_deref h.1
    exact .right _ (.right _ (by rw [List.length_drop]; omega))

end

/-- the loop of `match`, which must look at the empty string too -/
def matchLoop (re text : List Byte) : Bool :=
  if matchhere re text then true
  else if h : deref text ≠ 0 then matchLoop re (text.drop 1)
  else false
termination_by text.length
decreasing_by
  have hl := length_pos_of_deref h
  rw [List.length_drop]
  omega

/-- `match` -/
def matchText (re text : CString) : Bool :=
  if deref re.bytes = chr '^' then matchhere (re.bytes.drop 1) text.bytes
  else matchLoop re.bytes text.bytes

/-! ## what a pattern means -/

/-- an item of a pattern: a character, or a character followed by `*` -/
inductive Item where
  | one (c : Byte)
  | star (c : Byte)
deriving DecidableEq

/-- the item character `c` matches the character `x` of a text -/
def Fits (c x : Byte) : Prop := c = chr '.' ∨ c = x

/-- the texts of one character that `c` matches -/
def single (c : Byte) : Language Byte := {w | ∃ x, Fits c x ∧ w = [x]}

def Item.language : Item → Language Byte
  | .one c => single c
  | .star c => (single c)∗

/-- a pattern read from left to right -/
def items : List Byte → List Item
  | [] => []
  | [c] => [.one c]
  | c :: d :: re => if d = chr '*' then .star c :: items re else .one c :: items (d :: re)

/-- the last item is a plain `$` -/
def EndsAt (its : List Item) : Prop := its.getLast? = some (.one (chr '$'))

instance (its : List Item) : Decidable (EndsAt its) := inferInstanceAs (Decidable (_ = _))

/-- the items that are left without the anchor at the end -/
def body (its : List Item) : List Item := if EndsAt its then its.dropLast else its

/-- the language of a pattern without its anchors -/
def language (its : List Item) : Language Byte := ((body its).map Item.language).prod

/-- the pattern without the anchor at its start -/
def unanchored (re : List Byte) : List Byte := if re.head? = some (chr '^') then re.drop 1 else re

/-- a text has a substring in the language of the pattern, at the start of the text if the pattern
begins with `^` and at its end if the last item is a plain `$` -/
def Found (re text : CString) : Prop :=
  ∃ pre mid post, text.bytes = pre ++ mid ++ post ∧ mid ∈ language (items (unanchored re.bytes)) ∧
    (re.bytes.head? = some (chr '^') → pre = []) ∧ (EndsAt (items (unanchored re.bytes)) → post = [])

/-- the items match at the head of the text -/
def Here (its : List Item) (text : List Byte) : Prop :=
  ∃ mid post, text = mid ++ post ∧ mid ∈ language its ∧ (EndsAt its → post = [])

/-! ## items -/

theorem items_star (c : Byte) (re : List Byte) : items (c :: chr '*' :: re) = .star c :: items re := by
  rw [items, if_pos rfl]

variable {re : List Byte} {c x : Byte} {its : List Item} {i : Item}

theorem items_one (h : deref re ≠ chr '*') : items (c :: re) = .one c :: items re := by
  cases re with
  | nil => rfl
  | cons d re =>
    have hd : d ≠ chr '*' := h
    rw [items, if_neg hd]

theorem items_ne_nil (h : re ≠ []) : items re ≠ [] := by
  match re, h with
  | [c], _ => exact cons_ne_nil _ _
  | c :: d :: re, _ =>
    rw [items]
    split <;> exact cons_ne_nil _ _

theorem endsAt_cons (h : its ≠ [] ∨ i ≠ .one (chr '$')) : EndsAt (i :: its) ↔ EndsAt its := by
  cases its with
  | nil =>
    have hi : i ≠ .one (chr '$') := h.resolve_left (fun h => h rfl)
    simp [EndsAt, hi]
  | cons j its => simp [EndsAt, getLast?_cons_cons]

theorem body_cons (h : its ≠ [] ∨ i ≠ .one (chr '$')) : body (i :: its) = i :: body its := by
  unfold body
  by_cases he : EndsAt its
  · rw [if_pos he, if_pos ((endsAt_cons h).mpr he)]
    cases its with
    | nil => cases he
    | cons j its => rfl
  · rw [if_neg he, if_neg (fun h' => he ((endsAt_cons h).mp h'))]

theorem language_cons (h : its ≠ [] ∨ i ≠ .one (chr '$')) :
    language (i :: its) = i.language * language its := by
  unfold language
  rw [body_cons h, map_cons, prod_cons]

/-! ## the head of the text -/

theorem here_nil (text : List Byte) : Here [] text :=
  ⟨[], text, rfl, rfl, fun h => by cases h⟩

theorem here_end {text : List Byte} : Here [.one (chr '$')] text ↔ text = [] := by
  have he : EndsAt [.one (chr '$')] := rfl
  have hl : language [.one (chr '$')] = 1 := by
    rw [language, body, if_pos he]
    rfl
  constructor
  · rintro ⟨mid, post, rfl, hm, hp⟩
    rw [hl] at hm
    rwa [hp he, append_nil]
  · rintro rfl
    exact ⟨[], [], rfl, by rw [hl]; rfl, fun _ => rfl⟩

theorem here_one {text : List Byte} (h : its ≠ [] ∨ c ≠ chr '$') :
    Here (.one c :: its) text ↔ ∃ x rest, text = x :: rest ∧ Fits c x ∧ Here its rest := by
  have h' : its ≠ [] ∨ Item.one c ≠ .one (chr '$') := h.imp_right (fun h e => h (Item.one.inj e))
  rw [Here, language_cons h', endsAt_cons h']
  constructor
  · rintro ⟨mid, post, rfl, hm, hp⟩
    obtain ⟨w, ⟨x, hx, rfl⟩, v, hv, rfl⟩ := Language.mem_mul.mp hm
    exact ⟨x, v ++ post, rfl, hx, v, post, rfl, hv, hp⟩
  · rintro ⟨x, rest, rfl, hx, v, post, rfl, hv, hp⟩
    exact ⟨x :: v, post, rfl, Language.mem_mul.mpr ⟨[x], ⟨x, hx, rfl⟩, v, hv, rfl⟩, hp⟩

theorem here_star {text : List Byte} : Here (.star c :: its) text ↔
      Here its text ∨ ∃ x rest, text = x :: rest ∧ Fits c x ∧ Here (.star c :: its) rest := by
  have h : its ≠ [] ∨ Item.star c ≠ .one (chr '$') := .inr (fun e => by cases e)
  have hk : (Item.star c).language = 1 + single c * (Item.star c).language :=
    (Language.one_add_self_mul_kstar_eq_kstar _).symm
  have hl : language (.star c :: its) =
      language its + single c * language (.star c :: its) := by
    rw [language_cons h, ← mul_assoc]
    conv_lhs => rw [hk, add_mul, one_mul]
  unfold Here
  rw [endsAt_cons h]
  constructor
  · rintro ⟨mid, post, rfl, hm, hp⟩
    rw [hl] at hm
    rcases hm with hm | hm
    · exact .inl ⟨mid, post, rfl, hm, hp⟩
    · obtain ⟨w, ⟨x, hx, rfl⟩, v, hv, rfl⟩ := Language.mem_mul.mp hm
      exact .inr ⟨x, v ++ post, rfl, hx, v, post, rfl, hv, hp⟩
  · rintro (⟨mid, post, rfl, hm, hp⟩ | ⟨x, rest, rfl, hx, v, post, rfl, hv, hp⟩)
    · exact ⟨mid, post, rfl, by rw [hl]; exact .inl hm, hp⟩
    · refine ⟨x :: v, post, rfl, ?_, hp⟩
      rw [hl]
      exact .inr (Language.mem_mul.mpr ⟨[x], ⟨x, hx, rfl⟩, v, hv, rfl⟩)

theorem here_one_cons {text : List Byte} (h : its ≠ [] ∨ c ≠ chr '$') :
    Here (.one c :: its) (x :: text) ↔ Fits c x ∧ Here its text := by
  rw [here_one h]
  constructor
  · rintro ⟨y, rest, he, hf, hr⟩
    cases he
    exact ⟨hf, hr⟩
  · intro h
    exact ⟨x, text, rfl, h⟩

theorem here_star_cons {text : List Byte} : Here (.star c :: its) (x :: text) ↔
      Here its (x :: text) ∨ Fits c x ∧ Here (.star c :: its) text := by
  rw [here_star]
  apply or_congr_right
  constructor
  · rintro ⟨y, rest, he, h⟩
    cases he
    exact h
  · intro h
    exact ⟨x, text, rfl, h⟩

/-! ## the functions on strings without a NUL -/

theorem matchhere_nil (text : List Byte) : matchhere [] text = true := by
  rw [matchhere, dif_pos deref_nil]

theorem matchhere_star {text : List Byte} (hc : c ≠ 0) :
    matchhere (c :: chr '*' :: re) text = matchstar c re text := by
  rw [matchhere, dif_neg (show ¬deref (c :: _) = 0 from hc)]
  exact if_pos rfl

theorem matchhere_end (text : List Byte) :
    matchhere [chr '$'] text = decide (deref text = 0) := by
  rw [matchhere, dif_neg (by decide), if_neg (by decide), if_pos (by decide)]

theorem matchhere_plain {text : List Byte} (hc : c ≠ 0) (hs : deref re ≠ chr '*')
    (he : ¬(c = chr '$' ∧ deref re = 0)) :
    matchhere (c :: re) text = true ↔
      deref text ≠ 0 ∧ Fits c (deref text) ∧ matchhere re (text.drop 1) = true := by
  rw [matchhere, dif_neg (show ¬deref (c :: re) = 0 from hc)]
  simp only [drop_succ_cons, drop_zero, deref_cons, if_neg hs, if_neg he]
  split
  · next h => exact ⟨fun hm => ⟨h.1, h.2, hm⟩, fun hm => hm.2.2⟩
  · next h => exact ⟨fun hm => (by cases hm), fun hm => absurd ⟨hm.1, hm.2.1⟩ h⟩

theorem matchstar_nil : matchstar c re [] = matchhere re [] := by
  rw [matchstar, dif_neg (fun h => h.1 rfl)]
  simp

theorem matchstar_cons {text : List Byte} (hx : x ≠ 0) : matchstar c re (x :: text) = true ↔
      matchhere re (x :: text) = true ∨ Fits c x ∧ matchstar c re text = true := by
  rw [matchstar]
  split
  · next h => exact iff_of_true rfl (.inl h)
  next h =>
  rw [or_iff_right h]
  split
  · next hf => exact ⟨fun hm => ⟨hf.2.symm.imp_right Eq.symm, hm⟩, fun hm => hm.2⟩
  · next hf =>
    exact ⟨fun hm => (by cases hm), fun hm => absurd ⟨hx, hm.1.symm.imp_left Eq.symm⟩ hf⟩

theorem matchLoop_nil : matchLoop re [] = matchhere re [] := by
  rw [matchLoop, dif_neg (fun h => h rfl)]
  simp

theorem matchLoop_cons {text : List Byte} (hx : x ≠ 0) :
    matchLoop re (x :: text) = true ↔ matchhere re (x :: text) = true ∨ matchLoop re text = true := by
  rw [matchLoop]
  split
  · next h => exact iff_of_true rfl (.inl h)
  · next h =>
    rw [or_iff_right h, dif_pos (show deref (x :: text) ≠ 0 from hx)]
    rfl

/-! ## soundness and completeness -/

theorem not_mem_of_cons {s : List Byte} (h : 0 ∉ x :: s) : x ≠ 0 ∧ 0 ∉ s :=
  ⟨fun e => h (e ▸ mem_cons_self), fun hs => h (mem_cons_of_mem x hs)⟩

/-- the loop of `matchstar` over the text, given what `matchhere` does for the rest of the pattern -/
theorem matchstar_iff {text : List Byte} (ht : 0 ∉ text)
    (hre : ∀ text, 0 ∉ text → (matchhere re text = true ↔ Here (items re) text)) :
    matchstar c re text = true ↔ Here (.star c :: items re) text := by
  induction text with
  | nil =>
    rw [matchstar_nil, hre [] ht, here_star]
    simp
  | cons x text ih =>
    obtain ⟨hx, hs⟩ := not_mem_of_cons ht
    rw [matchstar_cons hx, here_star_cons, hre _ ht, ih hs]

theorem matchhere_plain_iff {text : List Byte} (hc : c ≠ 0) (hr : 0 ∉ re) (ht : 0 ∉ text)
    (hs : deref re ≠ chr '*')
    (hre : ∀ text, 0 ∉ text → (matchhere re text = true ↔ Here (items re) text)) :
    matchhere (c :: re) text = true ↔ Here (.one c :: items re) text := by
  by_cases he : c = chr '$' ∧ deref re = 0
  · obtain ⟨rfl, hz⟩ := he
    rw [(deref_eq_zero hr).mp hz, matchhere_end, items, here_end, decide_eq_true_iff,
      deref_eq_zero ht]
  have hside : items re ≠ [] ∨ c ≠ chr '$' := by
    by_cases hd : c = chr '$'
    · exact .inl (items_ne_nil (fun e => he ⟨hd, (deref_eq_zero hr).mpr e⟩))
    · exact .inr hd
  rw [matchhere_plain hc hs he]
  cases text with
  | nil => simp [here_one hside]
  | cons x text =>
    obtain ⟨hx, ht'⟩ := not_mem_of_cons ht
    rw [here_one_cons hside, ← hre text ht']
    exact and_iff_right hx

theorem matchhere_iff {text : List Byte} (hr : 0 ∉ re) (ht : 0 ∉ text) :
    matchhere re text = true ↔ Here (items re) text := by
  -- the pattern gets shorter in every call, whatever is left of the text
  induction hn : re.length using Nat.strongRecOn generalizing re text with
  | ind n ih =>
    cases re with
    | nil => exact iff_of_true (matchhere_nil text) (here_nil text)
    | cons c re =>
      obtain ⟨hc, hr'⟩ := not_mem_of_cons hr
      rw [length_cons] at hn
      by_cases hs : deref re = chr '*'
      · cases re with
        | nil => cases hs
        | cons d re =>
          have hd : d = chr '*' := hs
          subst hd
          rw [matchhere_star hc, items_star]
          rw [length_cons] at hn
          exact matchstar_iff ht
            (fun text' ht' => ih re.length (by omega) (not_mem_of_cons hr').2 ht' rfl)
      · rw [items_one hs]
        exact matchhere_plain_iff hc hr' ht hs
          (fun text' ht' => ih re.length (by omega) hr' ht' rfl)

theorem matchLoop_iff {text : List Byte} (hr : 0 ∉ re) (ht : 0 ∉ text) :
    matchLoop re text = true ↔ ∃ pre rest, text = pre ++ rest ∧ Here (items re) rest := by
  induction text with
  | nil =>
    rw [matchLoop_nil, matchhere_iff hr ht]
    constructor
    · intro h
      exact ⟨[], [], rfl, h⟩
    · rintro ⟨pre, rest, he, h⟩
      rwa [(append_eq_nil_iff.mp he.symm).2] at h
  | cons x text ih =>
    obtain ⟨hx, hs⟩ := not_mem_of_cons ht
    rw [matchLoop_cons hx, matchhere_iff hr ht, ih hs]
    constructor
    · rintro (h | ⟨pre, rest, rfl, h⟩)
      · exact ⟨[], _, rfl, h⟩
      · exact ⟨x :: pre, rest, rfl, h⟩
    rintro ⟨pre, rest, he, h⟩
    cases pre with
    | nil =>
      rw [nil_append] at he
      exact .inl (he ▸ h)
    | cons y pre =>
      cases he
      exact .inr ⟨pre, rest, rfl, h⟩

/-- `match` returns 1 iff the text has a substring the pattern describes -/
theorem match_iff (re text : CString) : matchText re text = true ↔ Found re text := by
  have hhead : deref re.bytes = chr '^' ↔ re.bytes.head? = some (chr '^') := by
    cases re.bytes with
    | nil => exact iff_of_false (by decide) (by simp)
    | cons c s => simp
  unfold matchText Found unanchored
  by_cases h : re.bytes.head? = some (chr '^')
  · have hr : 0 ∉ re.bytes.drop 1 := fun hm => re.nul (List.mem_of_mem_drop hm)
    rw [if_pos (hhead.mpr h), if_pos h, matchhere_iff hr text.nul]
    constructor
    · rintro ⟨mid, post, he, hm, hp⟩
      exact ⟨[], mid, post, he, hm, fun _ => rfl, hp⟩
    · rintro ⟨pre, mid, post, he, hm, hpre, hp⟩
      rw [hpre h] at he
      exact ⟨mid, post, he, hm, hp⟩
  · rw [if_neg (fun he => h (hhead.mp he)), if_neg h, matchLoop_iff re.nul text.nul]
    constructor
    · rintro ⟨pre, rest, he, mid, post, rfl, hm, hp⟩
      exact ⟨pre, mid, post, by rw [he, List.append_assoc], hm, fun h' => absurd h' h, hp⟩
    · rintro ⟨pre, mid, post, he, hm, -, hp⟩
      exact ⟨pre, mid ++ post, by rw [he, List.append_assoc], mid, post, rfl, hm, hp⟩

end Grep
