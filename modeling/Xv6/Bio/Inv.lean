import Xv6.Bio.Model
import Mathlib.Algebra.Order.Group.Multiset
import Mathlib.Algebra.Group.Prod

/-!
# What processes own of the buffer cache

A process owns claims on buffers, and it is in an operation or in the commit:

* `ref k b`           a reference to the buffer `k` of the block `b`;
* `raw p k b`         the same, with the sleep-lock, before the contents are loaded;
* `lock p k b d m`    a locked buffer with the contents `d`; `m` says whether these have to be logged or
                      written (`dirty`), or are known to be on the disk (`synced`);
* `op`                the process is between `begin_op` and `end_op`;
* `commit l n j`      it commits the blocks `l`, of which `n` are in the log on the disk, and `j` are
                      installed.

`Claims` relates the claims to the reference counts, locks and names of the buffers, `Data` the contents
of buffers and disk to the store, and `Journal` the log to the processes that use it.  A block whose
contents on the disk are old is pinned, or dirty in the hands of a process (`Data.saved`).
-/

namespace Bio
open Run Bytes Prog Own Multiset

inductive Care where
  | clean
  | dirty
  | synced
  deriving DecidableEq

inductive Claim where
  | ref (k : Slot) (b : Nat)
  | raw (p : Pid) (k : Slot) (b : Nat)
  | lock (p : Pid) (k : Slot) (b : Nat) (d : Buf) (m : Care)

inductive Part where
  | op
  | commit (l : List Nat) (n j : Nat)
  deriving DecidableEq

namespace Claim

def slot : Claim → Slot
  | ref k _ => k
  | raw _ k _ => k
  | lock _ k _ _ _ => k

def locks : Claim → Bool
  | ref _ _ => false
  | _ => true

def Ok (s : Sys) : Claim → Prop
  | ref k b => (s.buf k).ident = some b
  | raw p k b => (s.buf k).ident = some b ∧ (s.buf k).lock = some p
  | lock p k b d m => (s.buf k).ident = some b ∧ (s.buf k).lock = some p ∧ (s.buf k).valid = true ∧
      (s.buf k).data = d ∧ (m = .synced → s.disk b = d)

end Claim

def uses (C : Multiset Claim) (k : Slot) : Nat := C.countP fun c => c.slot = k

def holders (C : Multiset Claim) (k : Slot) : Nat := C.countP fun c => c.slot = k ∧ c.locks = true

def pinned (s : Sys) (k : Slot) : Nat :=
  match (s.buf k).ident with
  | some b => s.pins.count b
  | none => 0

/-- equal but for the reference count -/
structure Same (x y : BufHdr) : Prop where
  ident : x.ident = y.ident
  valid : x.valid = y.valid
  data : x.data = y.data
  lock : x.lock = y.lock

structure Claims (s : Sys) (C : Multiset Claim) : Prop where
  lru : ∀ k, k ∈ s.lru
  refcnt : ∀ k, (s.buf k).refcnt = uses C k + pinned s k
  holder : ∀ k, holders C k = (s.buf k).lock.isSome.toNat
  ok : ∀ c ∈ C, c.Ok s
  unique : ∀ k k' b, (s.buf k).ident = some b → (s.buf k').ident = some b → k = k'

structure Data (s : Sys) (C : Multiset Claim) : Prop where
  reads : Store.Accepts s.base s.trace
  data : ∀ k b, (s.buf k).ident = some b → (s.buf k).valid = true → (s.buf k).data = s.store b
  saved : ∀ b, s.disk b = s.store b ∨ b ∈ s.pins ∨ ∃ p k d, Claim.lock p k b d .dirty ∈ C
  present : ∀ b ∈ s.pins, ∃ k, (s.buf k).ident = some b ∧ (s.buf k).valid = true

structure Committed (K : Log.Conf) (s : Sys) (l : List Nat) (n j : Nat) : Prop where
  header : s.lh = l
  pins : s.pins = l.drop j
  logged : ∀ i b, i < n → l[i]? = some b → s.disk (K.start + i + 1) = s.store b

def commits (J : Multiset Part) : Nat := J.countP fun t => t ≠ .op

structure Journal (K : Log.Conf) (s : Sys) (J : Multiset Part) : Prop where
  nodup : s.lh.Nodup
  counted : ∀ b, s.pinlog.count (b, true) = s.pinlog.count (b, false) + s.pins.count b
  room : s.lh.length ≤ Log.LOGSIZE ∧ s.lh.length ≤ K.size - 1
  home : ∀ b ∈ s.lh, Log.Home K b
  ops : J.count .op = s.outstanding
  commits : commits J = if s.committing then 1 else 0
  quiet : s.committing = true → s.outstanding = 0
  even : s.committing = false → s.pins = s.lh
  commit : ∀ l n j, Part.commit l n j ∈ J → Committed K s l n j

structure Inv (K : Log.Conf) (s : Sys) (C : Multiset Claim) (J : Multiset Part) : Prop where
  claims : Claims s C
  data : Data s C
  journal : Journal K s J

section
variable {K : Log.Conf} {s s' : Sys} {C F : Multiset Claim} {J : Multiset Part} {c c' : Claim}
  {k k' : Slot} {p : Pid} {b : Nat} {d : Buf} {m : Care}

/-! ## counting -/

theorem uses_self (hc : c.slot = k) : uses ({c} + F) k = uses F k + 1 := by
  rw [uses, singleton_add, countP_cons_of_pos F hc]
  rfl

theorem uses_ref (k : Slot) (b : Nat) (F : Multiset Claim) : uses ({.ref k b} + F) k = uses F k + 1 :=
  uses_self rfl

theorem uses_ne (hc : c.slot ≠ k) : uses ({c} + F) k = uses F k := by
  rw [uses, singleton_add, countP_cons_of_neg F hc]
  rfl

theorem holders_self (hc : c.slot = k) (hl : c.locks = true) : holders ({c} + F) k = holders F k + 1 := by
  rw [holders, singleton_add, countP_cons_of_pos F ⟨hc, hl⟩]
  rfl

theorem holders_ne (hc : c.slot = k → c.locks = false) : holders ({c} + F) k = holders F k := by
  rw [holders, singleton_add, countP_cons_of_neg F]
  · rfl
  · intro hn
    rw [hc hn.1] at hn
    cases hn.2

theorem holders_eq_zero_iff : holders F k = 0 ↔ ∀ c ∈ F, c.slot = k → c.locks = false := by
  rw [holders, countP_eq_zero]
  refine forall₂_congr fun c _ => ?_
  rw [not_and, Bool.not_eq_true]

theorem uses_eq_zero_iff : uses F k = 0 ↔ ∀ c ∈ F, c.slot ≠ k := Multiset.countP_eq_zero

theorem mem_head {α : Type} (a : α) (F : Multiset α) : a ∈ {a} + F := by
  rw [singleton_add]
  exact mem_cons_self a F

theorem mem_tail {α : Type} {F : Multiset α} {x : α} (a : α) (h : x ∈ F) : x ∈ {a} + F := by
  rw [singleton_add]
  exact mem_cons_of_mem h

theorem mem_cases {α : Type} {F : Multiset α} {a x : α} (h : x ∈ {a} + F) : x = a ∨ x ∈ F := by
  rw [singleton_add] at h
  exact mem_cons.mp h

/-! ## buffers -/

theorem setBuf_self (s : Sys) (k : Slot) (x : BufHdr) : (s.setBuf k x).buf k = x :=
  Function.update_self _ _ _

theorem setBuf_ne (s : Sys) (x : BufHdr) (h : k' ≠ k) : (s.setBuf k x).buf k' = s.buf k' :=
  Function.update_of_ne h _ _

namespace Claims

theorem alone (h : Claims s ({c} + F)) (hc : c.locks = true) :
    ∀ x ∈ F, x.slot = c.slot → x.locks = false := by
  have h1 := h.holder c.slot
  rw [holders_self rfl hc] at h1
  have h2 := Bool.toNat_le (s.buf c.slot).lock.isSome
  apply holders_eq_zero_iff.mp
  omega

theorem unlocked (h : Claims s F) (hk : (s.buf k).lock = none) :
    ∀ x ∈ F, x.slot = k → x.locks = false := by
  have h1 := h.holder k
  rw [hk] at h1
  exact holders_eq_zero_iff.mp h1

theorem ok_congr (h : c.Ok s) (hb : s'.buf c.slot = s.buf c.slot)
    (hd : ∀ b, (s.buf c.slot).ident = some b → s'.disk b = s.disk b) : c.Ok s' := by
  cases c with
  | ref k b =>
    show (s'.buf k).ident = some b
    rwa [show s'.buf k = s.buf k from hb]
  | raw p k b =>
    show (s'.buf k).ident = some b ∧ (s'.buf k).lock = some p
    rwa [show s'.buf k = s.buf k from hb]
  | lock p k b d m =>
    obtain ⟨h1, h2, h3, h4, h5⟩ := h
    have hb' : s'.buf k = s.buf k := hb
    exact ⟨by rw [hb', h1], by rw [hb', h2], by rw [hb', h3], by rw [hb', h4],
      fun hm => (hd b h1).trans (h5 hm)⟩

theorem ok_same (h : c.Ok s) (hb : Same (s'.buf c.slot) (s.buf c.slot)) (hd : s'.disk = s.disk) : c.Ok s' := by
  obtain ⟨hi, hv, hdata, hl⟩ := hb
  cases c with
  | ref k b => exact hi.trans h
  | raw p k b => exact ⟨hi.trans h.1, hl.trans h.2⟩
  | lock p k b d m =>
    obtain ⟨h1, h2, h3, h4, h5⟩ := h
    exact ⟨hi.trans h1, hl.trans h2, hv.trans h3, hdata.trans h4, by rw [hd]; exact h5⟩

theorem ok_ref (h : c.Ok s) (hl : c.locks = false)
    (hb : (s'.buf c.slot).ident = (s.buf c.slot).ident) : c.Ok s' := by
  cases c with
  | ref k b => exact hb.trans h
  | raw p k b | lock p k b d m => cases hl

theorem pinned_congr (hi : (s'.buf k).ident = (s.buf k).ident) (hp : s'.pins = s.pins) :
    pinned s' k = pinned s k := by
  unfold pinned
  rw [hi, hp]

theorem pinned_some (h : (s.buf k).ident = some b) : pinned s k = s.pins.count b := by
  rw [pinned, h]

theorem pinned_none (h : (s.buf k).ident = none) : pinned s k = 0 := by
  rw [pinned, h]

theorem eq_of_locks (h : Claims s C) (hc : c ∈ C) (hc' : c' ∈ C) (hl : c.locks = true)
    (hl' : c'.locks = true) (hs : c'.slot = c.slot) : c' = c := by
  obtain ⟨F, rfl⟩ := exists_cons_of_mem hc
  rw [← singleton_add] at h hc'
  rcases mem_cases hc' with e | hm
  · exact e
  · rw [h.alone hl c' hm hs] at hl'
    cases hl'

theorem repin (h : Claims s C) (hid : (s.buf k).ident = some b)
    (hsame : ∀ i, Same (s'.buf i) (s.buf i)) (hbuf : ∀ i, i ≠ k → s'.buf i = s.buf i)
    (href : (s'.buf k).refcnt + s.pins.count b = (s.buf k).refcnt + s'.pins.count b)
    (hpins : ∀ a, a ≠ b → s'.pins.count a = s.pins.count a) (hlru : s'.lru = s.lru)
    (hdisk : s'.disk = s.disk) : Claims s' C := by
  refine ⟨fun i => ?_, fun i => ?_, fun i => ?_, fun x hx => ?_, fun i i' a => ?_⟩
  · rw [hlru]
    exact h.lru i
  · have hr := h.refcnt i
    by_cases e : i = k
    · subst e
      rw [pinned_some hid] at hr
      rw [pinned_some ((hsame i).ident.trans hid)]
      omega
    · rw [hbuf i e, hr]
      congr 1
      cases hi : (s.buf i).ident with
      | none => rw [pinned_none hi, pinned_none ((hsame i).ident.trans hi)]
      | some a =>
        rw [pinned_some hi, pinned_some ((hsame i).ident.trans hi), hpins a]
        exact fun ea => e (h.unique i k b (ea ▸ hi) hid)
  · rw [(hsame i).lock]
    exact h.holder i
  · exact ok_same (h.ok x hx) (hsame _) hdisk
  · rw [(hsame i).ident, (hsame i').ident]
    exact h.unique i i' a

/-- a step of a process with a buffer that nobody else has locked -/
theorem change (h : Claims s ({c} + F)) (hc : c.slot = k) (hc' : c'.slot = k)
    (hF : ∀ x ∈ F, x.slot = k → x.locks = false) (hbuf : ∀ j, j ≠ k → s'.buf j = s.buf j)
    (hid : (s'.buf k).ident = (s.buf k).ident) (href : (s'.buf k).refcnt = (s.buf k).refcnt)
    (hlru : s'.lru = s.lru) (hpins : s'.pins = s.pins)
    (hdisk : ∀ j b, j ≠ k → (s.buf j).ident = some b → s'.disk b = s.disk b)
    (hlock : (s'.buf k).lock.isSome = c'.locks) (hok : c'.Ok s') : Claims s' ({c'} + F) := by
  have hident : ∀ j, (s'.buf j).ident = (s.buf j).ident := by
    intro j
    by_cases e : j = k
    · rw [e, hid]
    · rw [hbuf j e]
  refine ⟨fun j => ?_, fun j => ?_, fun j => ?_, fun x hx => ?_, fun j j' b => ?_⟩
  · rw [hlru]
    exact h.lru j
  · have h1 := h.refcnt j
    rw [pinned_congr (hident j) hpins]
    by_cases e : j = k
    · subst e
      rw [uses_self hc] at h1
      rw [uses_self hc', href, h1]
    · rw [uses_ne fun hn => e (hn.symm.trans hc)] at h1
      rw [uses_ne fun hn => e (hn.symm.trans hc'), hbuf j e, h1]
  · by_cases e : j = k
    · subst e
      have hz := holders_eq_zero_iff.mpr hF
      rw [hlock]
      cases hl : c'.locks with
      | true => rw [holders_self hc' hl, hz]; rfl
      | false => rw [holders_ne fun _ => hl, hz]; rfl
    · have h1 := h.holder j
      rw [holders_ne fun hn => absurd (hn.symm.trans hc) e] at h1
      rw [holders_ne fun hn => absurd (hn.symm.trans hc') e, h1, hbuf j e]
  · rcases mem_cases hx with rfl | hx
    · exact hok
    · have hxo := h.ok x (mem_tail c hx)
      by_cases e : x.slot = k
      · exact ok_ref hxo (hF x hx e) (hident _)
      · exact ok_congr hxo (hbuf _ e) fun b hb => hdisk _ b e hb
  · rw [hident, hident]
    exact h.unique j j' b

theorem swap {x : BufHdr} (h : Claims s ({c} + F)) (hc : c.slot = k) (hc' : c'.slot = k)
    (hF : ∀ x ∈ F, x.slot = k → x.locks = false) (hid : x.ident = (s.buf k).ident)
    (href : x.refcnt = (s.buf k).refcnt) (hlock : x.lock.isSome = c'.locks)
    (hok : c'.Ok (s.setBuf k x)) : Claims (s.setBuf k x) ({c'} + F) := by
  rw [← setBuf_self s k x] at hid href hlock
  exact h.change hc hc' hF (fun j hj => setBuf_ne s x hj) hid href rfl rfl (fun _ _ _ _ => rfl) hlock hok

end Claims

end

end Bio
