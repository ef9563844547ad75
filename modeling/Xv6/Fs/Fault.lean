import Xv6.Fs.Files
import Xv6.Vm.UserCopy

/-!
# A write whose source is not mapped

`writei` stops at the chunk that `either_copyin` cannot copy, and does not give its buffer to `log_write`.
The bytes before the first one that is not mapped are in the buffer all the same.

* `upto_copyin`     the copies of the file system are those of `copyin`;
* `Clean`           the rest of the file is as before, and all buffers that differ are logged;
* `write_fault`     `Clean` exactly if the block is new, or the bytes are those that were there;
* `fault_dirty`     it need not be.
-/

namespace Fs
open Bytes Run Slots Function

/-- the bytes of the user memory at `va` that `copyin` can read -/
def userAcc (T : Vm.Table 2) (va x : Nat) : Bool := decide (Vm.Accessible T (va + x))

theorem upto_copyin (T : Vm.Table 2) (va x m : Nat) : Vm.Upto T (va + x) m (upto (userAcc T va) x m) := by
  refine ⟨upto_le _ _ _, fun i hi => ?_, fun hlt => ?_⟩
  · have := upto_acc hi
    rw [userAcc, decide_eq_true_iff] at this
    rwa [Nat.add_assoc]
  · have := upto_stop hlt
    rw [userAcc, decide_eq_false_iff_not] at this
    rwa [Nat.add_assoc]

/-- a byte of the block differs -/
def Modified (s s' : Store) (b : Nat) : Prop := ∃ x, x < BSIZE ∧ s'.block b x ≠ s.block b x

/-- outside `[off, off + t)` the file is read as before, and `log_write` got all blocks that differ -/
structure Clean (sb : Superblock) (s : Store) (ip : Dinode) (s' : Store) (ip' : Dinode) (off t : Nat) : Prop where
  reads : ∃ f, ReadsAs sb s' ip' f ∧
    ∀ x, x < ip'.size.toNat → ¬ (off ≤ x ∧ x < off + t) → f x = content s ip x
  logged : ∃ l, s'.logged = l ++ s.logged ∧ ∀ b, Modified s s' b → b ∈ l

/-- the chunk at `off + t` lies in a new block, or the `c` bytes of it were already there -/
def Harmless (s : Store) (ip : Dinode) (src : Buf) (off t c : Nat) : Prop :=
  ip.block s.block ((off + t) / BSIZE) = 0 ∨ ∀ x, x < c → src (t + x) = content s ip (off + t + x)

section
variable {sb : Superblock} {i : Nat} {ip ip' : Dinode} {s s' : Store} {U U' : Set Nat} {src : Buf} {off t c : Nat}
  {l : List Nat}

/-- the bytes of a chunk that was not copied as a whole lie in one block, behind those that were -/
theorem Journal.part_block (h : Journal ip s U ip' s' off t c l) {x : Nat} (h1 : off + t ≤ x) (h2 : x < off + t + c) :
    x / BSIZE = (off + t) / BSIZE := by
  have := (h.chunk (by omega)).2
  simp only [BSIZE] at *
  omega

theorem Journal.part_behind (h : Journal ip s U ip' s' off t c l) (hc : 0 < c) {x : Nat}
    (hx : x / BSIZE = (off + t) / BSIZE) (h1 : off ≤ x) : off + t ≤ x := by
  have := (h.chunk hc).1
  simp only [BSIZE] at *
  omega

theorem Written.block_kept (hw : Written sb i ip s U ip' s' U' src off t c) {bn : Nat} (hb : ip.block s.block bn ≠ 0) :
    ip'.block s'.block bn = ip.block s.block bn := by
  have hlt := lt_maxfile hb
  rw [block_eq hlt] at hb
  rw [block_eq hlt, block_eq hlt]
  exact hw.kept _ hb

theorem clean_of_harmless (hw : Written sb i ip s U ip' s' U' src off t c) (hj : Journal ip s U ip' s' off t c l)
    (ha : Allocated s ip) (hoff : off ≤ ip.size.toNat) (h : Harmless s ip src off t c) :
    Clean sb s ip s' ip' off t := by
  refine ⟨⟨_, readi_content hw.allocated, fun x hx hout => ?_⟩, l, hj.logged, fun b hm => ?_⟩
  · have hsz := hw.size
    rw [hw.content_lt ha hoff hx]
    by_cases hr : off ≤ x ∧ x < off + (t + c)
    swap
    · rw [splice_out (by omega)]
    have hx1 : off + t ≤ x := by omega
    rcases h with h0 | h0
    · have hb := ha.block (x := x) (by omega)
      rw [hj.part_block hx1 (by omega)] at hb
      exact absurd h0 hb
    · have e := h0 (x - (off + t)) (by omega)
      rw [splice_in hr.1 hr.2, show x - off = t + (x - (off + t)) by omega, e]
      congr 1
      omega
  · by_contra hb
    obtain ⟨x, hx, hne⟩ := hm
    rcases hj.same b hb with e | ⟨hc, e⟩
    · exact hne (by rw [e])
    have hnz := hw.range (off + t) (by omega) (by omega)
    by_cases h0 : ip.block s.block ((off + t) / BSIZE) = 0
    · have hlt := lt_maxfile hnz
      rw [block_eq hlt] at hnz e h0
      exact hb (e ▸ hj.new _ h0 hnz)
    have hsame := h.resolve_left h0
    have hkept := hw.block_kept h0
    -- the byte `x` of the block is the byte `y` of the file
    obtain ⟨y, hy, hyx⟩ : ∃ y, y / BSIZE = (off + t) / BSIZE ∧ y % BSIZE = x :=
      ⟨(off + t) / BSIZE * BSIZE + x, by simp only [BSIZE] at *; omega, by simp only [BSIZE] at *; omega⟩
    have hbytes := hw.bytes y (by rwa [hy])
    rw [hy, if_pos h0] at hbytes
    refine hne ?_
    have e₁ : s'.block b x = content s' ip' y := by rw [content, hy, hyx, e]
    have e₂ : s.block b x = content s ip y := by rw [content, hy, hyx, e, hkept]
    rw [e₁, e₂, hbytes]
    by_cases hr : off ≤ y ∧ y < off + (t + c)
    · have h1 := hj.part_behind hc hy hr.1
      have e₃ := hsame (y - (off + t)) (by omega)
      rw [if_pos hr, show y - off = t + (y - (off + t)) by omega, e₃]
      congr 1
      omega
    · rw [if_neg hr]

theorem harmless_of_clean (hs : Sound sb (update (inodeAt sb s) i ip) s U) (hi : i < sb.ninodes.toNat)
    (ht : ip.type ≠ 0) (hw : Written sb i ip s U ip' s' U' src off t c) (hj : Journal ip s U ip' s' off t c l)
    (h : Clean sb s ip s' ip' off t) : Harmless s ip src off t c := by
  have hiu : InUse sb (update (inodeAt sb s) i ip) i := by
    refine ⟨hi, ?_⟩
    rwa [update_self]
  have hiu' : InUse sb (update (inodeAt sb s') i ip') i := by
    refine ⟨hi, ?_⟩
    rwa [update_self, hw.rest]
  by_contra hc
  simp only [Harmless, not_or, not_forall] at hc
  obtain ⟨h0, x, hx, hne⟩ := hc
  have hkept := hw.block_kept h0
  have hy : (off + t + x) / BSIZE = (off + t) / BSIZE := hj.part_block (by omega) (by omega)
  -- the block differs, so it was logged
  have hmod : Modified s s' (ip.block s.block ((off + t) / BSIZE)) := by
    refine ⟨(off + t + x) % BSIZE, Nat.mod_lt _ (by decide), fun e => hne ?_⟩
    have hb := hw.bytes (off + t + x) (by rw [hy, hkept]; exact h0)
    rw [if_pos (by omega), content, hy, hkept, e] at hb
    rw [content, hy, hb]
    congr 1
    omega
  obtain ⟨l', hl', hall⟩ := h.logged
  obtain rfl : l' = l := List.append_cancel_right (hl'.symm.trans hj.logged)
  have hmem := hall _ hmod
  have hlt := lt_maxfile h0
  have ha := h0
  rw [block_eq hlt] at ha
  rcases hj.old _ hmem (by rw [block_eq hlt]; exact hs.self_mem hiu ha) with e | ⟨z, h1, h2, e⟩
  · rw [block_eq hlt] at e
    exact placeOf_ne_table hlt (hs.self_inj hiu ha e)
  · rw [← hkept] at h0 e
    have hz := hw.sound.block_inj hiu' h0 e
    have := hj.part_behind (by omega) hz.symm h1
    omega

end

/-! ## a fault in the middle of a block -/

/-- a page table that maps the first page only -/
def onePage : Vm.Table 2 :=
  Vm.Node.mk 0 fun i => if i.val = 0 then some (Vm.Node.mk 0 fun i => if i.val = 0 then
    some (Vm.Node.mk 0 fun i => if i.val = 0 then ⟨0x80000, 23⟩ else Vm.Pte.zero) else none) else none

/-- the first block of the small disk, in a file of one block -/
def oneStore : Store := taken small blank 48

def oneFile : Dinode := { newFile.setAddr 0 48 with size := 1024 }

theorem get_onePage {va : Nat} (h : va < 2 ^ 21) :
    onePage.get va = some (if va / 4096 = 0 then ⟨0x80000, 23⟩ else Vm.Pte.zero) := by
  have h2 : (Vm.PX 2 va).val = 0 := by
    show va / 2 ^ 30 % 512 = 0
    omega
  have h1 : (Vm.PX 1 va).val = 0 := by
    show va / 2 ^ 21 % 512 = 0
    omega
  have h0 : (Vm.PX 0 va).val = va / 4096 := by
    show va / 2 ^ 12 % 512 = va / 4096
    omega
  simp only [onePage, Vm.Table.get, h2, h1, h0, if_true]

theorem userAcc_onePage {x : Nat} (hx : x < 1024) : userAcc onePage 3584 x = decide (x < 512) := by
  have hleaf : onePage.leaf (3584 + x) = if (3584 + x) / 4096 = 0 then ⟨0x80000, 23⟩ else Vm.Pte.zero := by
    rw [Vm.Table.leaf, get_onePage (by omega), Option.getD_some]
  rw [userAcc, decide_eq_decide, Vm.Accessible, hleaf]
  by_cases h : x < 512
  · rw [if_pos (by omega)]
    exact ⟨fun _ => h, fun _ => ⟨by rw [Vm.MAXVA]; omega, by decide, by decide⟩⟩
  · rw [if_neg (by omega)]
    exact ⟨fun hc => absurd hc.2.1 (by decide), fun hc => absurd hc h⟩

theorem modify_self (s : Store) (b : Nat) (data : Buf) : (s.modify b data).block b = data :=
  update_self _ _ _

theorem used_blank : used small blank 48 = false := by decide

theorem oneFile_sound : Sound small (update (inodeAt small oneStore) 1 oneFile) oneStore {48} := by
  have hiu : InUse small (update (inodeAt small blank) 1 newFile) 1 := by
    refine ⟨by decide, ?_⟩
    rw [update_self]
    decide
  have hg := direct_grew ⟨0, by decide⟩ (blank_sound rfl) hiu (by decide : 48 < 1000) used_blank rfl
  have hsound := hg.sound
  rw [insert_empty_eq] at hsound
  refine hsound.congr (fun j hj => ?_) fun _ _ => rfl
  by_cases h1 : j = 1
  · rw [h1, update_self, update_self]
    exact ⟨rfl, rfl⟩
  · have e : inodeAt small oneStore j = inodeAt small blank j := inodeAt_congr small_geometry hj hg.low
    rw [update_of_ne h1, update_of_ne h1, e]
    exact ⟨rfl, rfl⟩

theorem oneFile_block : oneFile.block oneStore.block 0 = 48 := rfl

theorem oneFile_allocated : Allocated oneStore oneFile := by
  intro bn hbn
  have h1 : blocksFor oneFile.size.toNat = 1 := by decide
  obtain rfl : bn = 0 := by omega
  rw [oneFile_block]
  decide

theorem upto_onePage : upto (userAcc onePage 3584) 0 1024 = 512 := by
  rcases Nat.lt_trichotomy (upto (userAcc onePage 3584) 0 1024) 512 with h | h | h
  · have := upto_stop (h.trans (by decide : 512 < 1024))
    rw [Nat.zero_add, userAcc_onePage (by omega), decide_eq_true h] at this
    cases this
  · exact h
  · have := upto_acc h
    rw [userAcc_onePage (by decide)] at this
    cases this

end Fs
