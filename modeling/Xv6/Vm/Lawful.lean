import Xv6.Vm.FileRules

/-!
# Disciplines for the programs of the kernel

The programs of `vm.c`, and those of `fork` and `exec`, are verified once, against any discipline that
has the rules of `Lawful`.  A discipline is a machine on the kernel state whose threads own tokens.
With `adr` all panics are fatal.

* `Lawful`, `UserTokens`       the rules; `machine L m sh` has them;
* `not_fatal`, …               which panics a program may end in;
* `does_kalloc`, …             the rules by name.
-/

namespace Vm
open Run Bytes Prog Own

/-- a discipline of kernel threads -/
abbrev Discipline := Machine Sys Op Op.Res Ledger (Multiset Nat)

/-- the bytes from `a` to `a + n` are in a page that somebody owns -/
def Readable (R : Ledger) (a n : Nat) : Prop := ∃ t ∈ R, ∃ pa, t.IsPage pa ∧ pa ≤ a ∧ a + n ≤ pa + PGSIZE

/-- the rules that the programs need -/
class Lawful (L : outParam Layout) (m : outParam Mode) (sh adr : outParam Bool) (M : Discipline) : Prop where
  fatal : ∀ msg, M.fatal msg → Fatal sh msg ∨ adr = true
  shaped : adr = true → sh = true
  strict : adr = true → m.strict = true
  kalloc : ∀ {B r : Ledger} {Q : Option Nat → Ledger → Prop},
    (∀ pa, L.Page pa → pa ∉ pages r → Q (some pa) (r + {.priv pa})) → Q none r → Acts M B .kalloc r Q
  kfree : ∀ {B r : Ledger} {t : Token} {pa : Nat} {Q : Unit → Ledger → Prop}, t.IsPage pa → Q () r →
    Acts M B (.kfree pa) (r + {t}) Q
  inckref : ∀ {B r : Ledger} {pa : Nat} {Q : Unit → Ledger → Prop}, Token.user pa ∈ r + B →
    Q () (r + {.user pa}) → Acts M B (.inckref pa) r Q
  share : ∀ (r : Ledger) (pa : Nat), Shift M (r + {.priv pa}) (r + {.user pa})
  memset : ∀ {B r : Ledger} {a n : Nat} {c : Byte} {Q : Unit → Ledger → Prop},
    (m.strict = true → Private r a n) → Q () r → Acts M B (.memset a n c) r Q
  memmove : ∀ {B r : Ledger} {dst src n : Nat} {Q : Unit → Ledger → Prop},
    (m.strict = true → Private r dst n) → (adr = true → Readable (r + B) src n) → Q () r →
    Acts M B (.memmove dst src n) r Q
  write : ∀ {B r : Ledger} {a n : Nat} {b : Buf} {Q : Unit → Ledger → Prop},
    (m.strict = true → Private r a n) → Q () r → Acts M B (.write a n b) r Q
  read : ∀ {B r : Ledger} {a n : Nat} {Q : Buf → Ledger → Prop}, (adr = true → Readable (r + B) a n) →
    (∀ b, Q b r) → Acts M B (.read a n) r Q
  claim : ∀ {B r : Ledger} {q : Slot} {Q : Bool → Ledger → Prop}, Q true (r + {.slot q}) → Q false r →
    Acts M B (.claim q) r Q
  putback : ∀ {B r : Ledger} {q : Slot} {x : Proc} {Q : Unit → Ledger → Prop}, RecOk L x sh →
    (m.strict = true → x = Proc.free) → Q () r → Acts M B (.putback q x) (r + {.slot q} + recTok x) Q
  setParent : ∀ {B r : Ledger} {p q : Slot} {Q : Unit → Ledger → Prop}, Q () r → Acts M B (.setParent q p) r Q
  filedup : ∀ {B r : Ledger} {f : FileNo} {Q : Unit → Ledger → Prop}, (adr = true → Token.file f ∈ r + B) →
    Q () (r + {.file f}) → Acts M B (.filedup f) r Q

theorem Lawful.not_adr {L : Layout} {m : Mode} {sh adr : Bool} {M : Discipline} (h : Lawful L m sh adr M)
    (hm : m.strict = false) : adr ≠ true := by
  intro ha
  rw [h.strict ha] at hm
  cases hm

/-- `c pa` can stand for the user page `pa` -/
class UserTokens (M : Discipline) (c : Nat → Token) : Prop where
  isPage : ∀ pa, (c pa).IsPage pa
  share : ∀ (r : Ledger) (pa : Nat), Shift M (r + {.priv pa}) (r + {c pa})

section
variable {L : Layout} {m : Mode} {sh adr : Bool} {M : Discipline} [hM : Lawful L m sh adr M]
variable {B r : Ledger} {pa : Nat} {msg : String}

include hM

instance : UserTokens M .user := ⟨fun _ => .inr rfl, Lawful.share⟩

instance : UserTokens M .priv := ⟨fun _ => .inl rfl, fun _ _ => Shift.rfl⟩

/-! ## panics -/

theorem not_fatal (h : msg ≠ undef ∧ msg ∉ shapePanics) (ha : adr ≠ true) : ¬ M.fatal msg := by
  intro hf
  rcases Lawful.fatal msg hf with (hf | hf) | hf
  · exact h.1 hf
  · exact h.2 hf.2
  · exact ha hf

/-- a panic that cannot happen in an address space with its shape -/
theorem not_fatal_shape (h : msg ≠ undef) (hs : sh ≠ true) : ¬ M.fatal msg := by
  intro hf
  rcases Lawful.fatal msg hf with (hf | hf) | hf
  · exact h hf
  · exact hs hf.1
  · exact hs (hM.shaped hf)

/-! ## the rules by name -/

theorem does_kalloc {Q : Option Nat → Ledger → Prop}
    (h1 : ∀ pa, L.Page pa → pa ∉ pages r → Q (some pa) (r + {.priv pa})) (h0 : Q none r) :
    Acts M B .kalloc r Q := Lawful.kalloc h1 h0

variable {Q : Unit → Ledger → Prop} {a n : Nat} {q : Slot}

theorem does_kfree {t : Token} (ht : t.IsPage pa) (h : Q () r) :
    Acts M B (.kfree pa) (r + {t}) Q := Lawful.kfree ht h

theorem does_inckref (hu : Token.user pa ∈ r + B) (h : Q () (r + {.user pa})) :
    Acts M B (.inckref pa) r Q := Lawful.inckref hu h

theorem does_memset {c : Byte} (hp : m.strict = true → Private r a n)
    (h : Q () r) : Acts M B (.memset a n c) r Q := Lawful.memset hp h

theorem does_memmove {dst src : Nat} (hp : m.strict = true → Private r dst n)
    (hr : adr = true → Readable (r + B) src n) (h : Q () r) : Acts M B (.memmove dst src n) r Q :=
  Lawful.memmove hp hr h

theorem does_write {b : Buf} (hp : m.strict = true → Private r a n)
    (h : Q () r) : Acts M B (.write a n b) r Q := Lawful.write hp h

theorem does_read {Q : Buf → Ledger → Prop} (hr : adr = true → Readable (r + B) a n)
    (h : ∀ b, Q b r) : Acts M B (.read a n) r Q := Lawful.read hr h

theorem does_claim {Q : Bool → Ledger → Prop} (h1 : Q true (r + {.slot q})) (h0 : Q false r) :
    Acts M B (.claim q) r Q := Lawful.claim h1 h0

theorem does_putback {x : Proc} (hx : RecOk L x sh) (hm : m.strict = true → x = Proc.free) (h : Q () r) :
    Acts M B (.putback q x) (r + {.slot q} + recTok x) Q := Lawful.putback hx hm h

theorem does_setParent {p : Slot} (h : Q () r) : Acts M B (.setParent q p) r Q :=
  Lawful.setParent h

theorem does_filedup {f : FileNo} (hf : adr = true → Token.file f ∈ r + B)
    (h : Q () (r + {.file f})) : Acts M B (.filedup f) r Q := Lawful.filedup hf h

end

instance (L : Layout) (m : Mode) (sh : Bool) : Lawful L m sh false (machine L m sh) where
  fatal _ h := .inl h
  shaped h := absurd h Bool.false_ne_true
  strict h := absurd h Bool.false_ne_true
  kalloc := machine_kalloc
  kfree := machine_kfree
  inckref := machine_inckref
  share := machine_share
  memset := machine_memset
  memmove hp _ h := machine_memmove hp h
  write := machine_write
  read _ h := machine_read h
  claim := machine_claim
  putback := machine_putback
  setParent := machine_setParent
  filedup _ h := machine_filedup h

end Vm
