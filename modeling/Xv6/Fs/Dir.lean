import Xv6.Fs.Files
import Xv6.Fs.Name
import Xv6.Lib.Assoc

/-!
# Directories (`kernel/fs.c`)

A directory is a file of entries of 16 bytes, an inode number and a name; the number 0 says that the entry
is free.  The `de` of a function is the `struct dirent` on its stack, with any bytes in it.

What a directory is for is a map from names to inode numbers, kept in slots.

* `dirlookup_eq`      `dirlookup` searches the slots;
* `dirlink_spec`      `dirlink` puts a name into a slot that is free, into a new one, or nowhere;
* `clear_spec`        `sys_unlink` empties the slot.

The reference to the inode that `dirlookup` returns, and that `dirlink` drops, is not modelled here.
-/

namespace Fs
open Bytes Run Assoc

section
variable (sb : Superblock)

/-- the loop of `dirlookup`, with at most `k` turns left -/
def dirlookupLoop (name : Buf) :
    (k : Nat) → Store → Dinode → (de : Buf) → (off : BitVec 32) →
      Outcome (Option (BitVec 16 × BitVec 32) × Dinode × Store)
  | 0, _, _, _, _ => .blocked
  | k + 1, s, dp, de, off =>
    if off < dp.size then do
      let (r, de, dp, s) ← readi sb s dp (fun _ => true) de off 16
      if r ≠ 16 then .panic "dirlookup read"
      else if get16 de 0 = 0 then dirlookupLoop name k s dp de (off + 16)
      else if namecmp name (fun j => de (2 + j)) = 0 then .next (some (get16 de 0, off), dp, s)
      else dirlookupLoop name k s dp de (off + 16)
    else .next (none, dp, s)

/-- the inode number and the offset of the entry -/
def dirlookup (s : Store) (dp : Dinode) (de name : Buf) :
    Outcome (Option (BitVec 16 × BitVec 32) × Dinode × Store) :=
  if dp.type ≠ T_DIR then .panic "dirlookup not DIR"
  else dirlookupLoop sb name (dp.size.toNat / 16 + 1) s dp de 0

/-- the loop of `dirlink`, with at most `k` turns left -/
def dirlinkLoop :
    (k : Nat) → Store → Dinode → (de : Buf) → (off : BitVec 32) → Outcome (BitVec 32 × Buf × Dinode × Store)
  | 0, _, _, _, _ => .blocked
  | k + 1, s, dp, de, off =>
    if off < dp.size then do
      let (r, de, dp, s) ← readi sb s dp (fun _ => true) de off 16
      if r ≠ 16 then .panic "dirlink read"
      else if get16 de 0 = 0 then .next (off, de, dp, s)
      else dirlinkLoop k s dp de (off + 16)
    else .next (off, de, dp, s)

/-- `strncpy(de.name, name, DIRSIZ); de.inum = inum` -/
def direntPut (de name : Buf) (inum : BitVec 32) : Buf :=
  set16 (splice de 2 DIRSIZ (strncpy (fun j => de (2 + j)) name DIRSIZ 0)) 0 (inum.setWidth 16)

/-- `de'` is the one of `dirlookup` -/
def dirlink (s : Store) (dinum : Nat) (dp : Dinode) (de de' name : Buf) (inum : BitVec 32) :
    Outcome (Int × Dinode × Store) := do
  let (found, dp, s) ← dirlookup sb s dp de' name
  if found.isSome then .next (-1, dp, s)
  else do
    let (off, de, dp, s) ← dirlinkLoop sb (dp.size.toNat / 16 + 1) s dp de 0
    let (r, dp, s) ← writei sb s dinum dp (fun _ => true) (direntPut de name inum) off 16
    if r ≠ 16 then .next (-1, dp, s) else Outcome.next (0, dp, s)

/-- `sys_unlink` overwrites the entry at `off` with zeros -/
def clearEntry (s : Store) (dinum : Nat) (dp : Dinode) (off : BitVec 32) : Outcome (Dinode × Store) := do
  let (r, dp, s) ← writei sb s dinum dp (fun _ => true) (fun _ => 0) off 16
  if r ≠ 16 then .panic "unlink: writei" else .next (dp, s)

end

/-! ## slots -/

/-- the entry `k` -/
def slotOf (f : Buf) (k : Nat) : Option (List Byte × BitVec 16) :=
  if get16 f (16 * k) = 0 then none else some (nameAt fun j => f (16 * k + 2 + j), get16 f (16 * k))

/-- the inode `dp` in memory is the directory `i` of a file system -/
structure IsDir (sb : Superblock) (i : Nat) (dp : Dinode) (s : Store) (U : Set Nat) : Prop where
  geometry : Geometry sb
  sound : Sound sb (Function.update (inodeAt sb s) i dp) s U
  inum : i < sb.ninodes.toNat
  type : dp.type = T_DIR
  allocated : Allocated s dp
  entries : dp.size.toNat % 16 = 0

/-- the slots of a directory -/
def slots (s : Store) (dp : Dinode) : Nat → Option (List Byte × BitVec 16) := slotOf (content s dp)

def nslots (dp : Dinode) : Nat := dp.size.toNat / 16

/-- how `dirlookup` returns what a search has found -/
def report (r : Option (BitVec 16 × Nat)) : Option (BitVec 16 × BitVec 32) :=
  r.map fun x => (x.1, .ofNat 32 (16 * x.2))

section
variable {sb : Superblock} {i k n : Nat} {dp dp' : Dinode} {s s' : Store} {U U' : Set Nat} {name de : Buf}

theorem slotOf_congr {f g : Buf} (h : ∀ x, 16 * k ≤ x → x < 16 * k + 16 → f x = g x) : slotOf f k = slotOf g k := by
  have h1 : get16 f (16 * k) = get16 g (16 * k) := get16_congr fun j hj => h _ (by omega) (by omega)
  have h2 : nameAt (fun j => f (16 * k + 2 + j)) = nameAt fun j => g (16 * k + 2 + j) :=
    nameAt_congr fun j hj => h _ (by omega) (by simp only [DIRSIZ] at hj; omega)
  rw [slotOf, slotOf, h1, h2]

theorem Allocated.size_le (h : Allocated s dp) : dp.size.toNat ≤ MAXFILE * BSIZE := by
  by_contra hc
  have hb := lt_maxfile (h.block (x := MAXFILE * BSIZE) (by omega))
  rw [Nat.mul_div_cancel _ (by decide)] at hb
  exact Nat.lt_irrefl _ hb

theorem toNat_entry (h : Allocated s dp) (hk : k ≤ nslots dp) : (BitVec.ofNat 32 (16 * k)).toNat = 16 * k := by
  have h1 := h.size_le
  rw [BitVec.toNat_ofNat]
  apply Nat.mod_eq_of_lt
  unfold nslots at hk
  omega

theorem readi_entry (h : Allocated s dp) (hk : k < nslots dp) (de : Buf) :
    readi sb s dp (fun _ => true) de (.ofNat 32 (16 * k)) 16 =
      .next (16, splice de 0 16 fun x => content s dp (16 * k + x), dp, s) := by
  have hoff := toNat_entry h hk.le
  have hsz := h.size_le
  obtain ⟨r, dst', hrun, hval⟩ := @readi_content sb dp s h (fun _ => true) de (.ofNat 32 (16 * k)) 16
  obtain ⟨hr, hd⟩ := hval fun _ _ => rfl
  have hspan : span dp.size.toNat (.ofNat 32 (16 * k)) 16 = 16 := by
    rw [span, hoff]
    have e : (16 : BitVec 32).toNat = 16 := rfl
    unfold nslots at hk
    rw [e, if_pos (by omega)]
    omega
  rw [hspan] at hr hd
  rw [hoff] at hd
  rw [hrun, hr, hd]
  rfl

theorem slotOf_read (de : Buf) (f : Buf) :
    slotOf f k = if get16 (splice de 0 16 fun x => f (16 * k + x)) 0 = 0 then none
      else some (nameAt fun j => (splice de 0 16 fun x => f (16 * k + x)) (2 + j),
        get16 (splice de 0 16 fun x => f (16 * k + x)) 0) := by
  have h1 : get16 (splice de 0 16 fun x => f (16 * k + x)) 0 = get16 f (16 * k) :=
    get16_congr fun j hj => by
      rw [splice_in (by omega) (by omega)]
      congr 1
      omega
  have h2 : nameAt (fun j => (splice de 0 16 fun x => f (16 * k + x)) (2 + j)) = nameAt fun j => f (16 * k + 2 + j) :=
    nameAt_congr fun j hj => by
      simp only [DIRSIZ] at hj
      rw [splice_in (by omega) (by omega)]
      congr 1
      omega
  rw [h1, h2, slotOf]

/-! ## `dirlookup` -/

theorem entry_lt (h : Allocated s dp) (he : dp.size.toNat % 16 = 0) (hk : k ≤ nslots dp) :
    BitVec.ofNat 32 (16 * k) < dp.size ↔ k < nslots dp := by
  rw [BitVec.lt_def, toNat_entry h hk]
  unfold nslots at *
  omega

theorem entry_succ (k : Nat) : BitVec.ofNat 32 (16 * k) + 16 = BitVec.ofNat 32 (16 * (k + 1)) := by
  rw [Nat.mul_succ, BitVec.ofNat_add]
  rfl

theorem dirlookupLoop_eq {r : Option (BitVec 16 × Nat)} (h : Allocated s dp) (he : dp.size.toNat % 16 = 0)
    (hk : k ≤ nslots dp) (hn : nslots dp < k + n)
    (hbefore : ∀ j w, j < k → slots s dp j ≠ some (nameAt name, w))
    (hf : Found (slots s dp) (nslots dp) (nameAt name) r) (de : Buf) :
    dirlookupLoop sb name n s dp de (.ofNat 32 (16 * k)) = .next (report r, dp, s) := by
  induction n generalizing k de with
  | zero => omega
  | succ n ih =>
    unfold dirlookupLoop
    by_cases hlt : k < nslots dp
    swap
    · have hnot : ¬ BitVec.ofNat 32 (16 * k) < dp.size := fun hc => hlt ((entry_lt h he hk).mp hc)
      rw [if_neg hnot]
      have hnone : Found (slots s dp) (nslots dp) (nameAt name) none := .missing fun j v hj => hbefore j v (by omega)
      rw [hf.unique hnone]
      rfl
    rw [if_pos ((entry_lt h he hk).mpr hlt), readi_entry h hlt, next_bind]
    dsimp only
    have hslot : slots s dp k = _ := slotOf_read de (content s dp)
    generalize (splice de 0 16 fun x => content s dp (16 * k + x)) = e at hslot ⊢
    rw [if_neg (by decide), entry_succ]
    have hnext : slots s dp k = none ∨ (∃ v x, slots s dp k = some (x, v) ∧ x ≠ nameAt name) →
        ∀ j w, j < k + 1 → slots s dp j ≠ some (nameAt name, w) := by
      intro hk' j w hj hw
      by_cases hjk : j = k
      · rw [hjk] at hw
        rcases hk' with e | ⟨v, x, e, hne⟩
        · rw [e] at hw
          cases hw
        · rw [e] at hw
          cases hw
          exact hne rfl
      · exact hbefore j w (by omega) hw
    by_cases h0 : get16 e 0 = 0
    · rw [if_pos h0] at hslot ⊢
      exact ih hlt (by omega) (hnext (.inl hslot)) e
    rw [if_neg h0] at hslot ⊢
    by_cases hcmp : namecmp name (fun j => e (2 + j)) = 0
    · rw [if_pos hcmp]
      rw [← namecmp_iff.mp hcmp] at hslot
      rw [hf.unique (.hit hlt hslot hbefore)]
      rfl
    · rw [if_neg hcmp]
      exact ih hlt (by omega) (hnext (.inr ⟨_, _, hslot, fun e => hcmp (namecmp_iff.mpr e.symm)⟩)) e

theorem dirlookup_eq {r : Option (BitVec 16 × Nat)} (ht : dp.type = T_DIR) (ha : Allocated s dp)
    (he : dp.size.toNat % 16 = 0) (hf : Found (slots s dp) (nslots dp) (nameAt name) r) (de : Buf) :
    dirlookup sb s dp de name = .next (report r, dp, s) := by
  have ht : ¬ dp.type ≠ T_DIR := not_not.mpr ht
  rw [dirlookup, if_neg ht]
  exact dirlookupLoop_eq ha he (Nat.zero_le _) (by unfold nslots; omega)
    (fun j w hj => absurd hj (Nat.not_lt_zero j)) hf de

/-! ## `dirlink` -/

theorem dirlinkLoop_spec (h : Allocated s dp) (he : dp.size.toNat % 16 = 0) (hk : k ≤ nslots dp)
    (hn : nslots dp < k + n) (de : Buf) :
    ∃ j de', dirlinkLoop sb n s dp de (.ofNat 32 (16 * k)) = .next (.ofNat 32 (16 * j), de', dp, s) ∧
      Open (slots s dp) (nslots dp) j := by
  induction n generalizing k de with
  | zero => omega
  | succ n ih =>
    unfold dirlinkLoop
    by_cases hlt : k < nslots dp
    swap
    · have hnot : ¬ BitVec.ofNat 32 (16 * k) < dp.size := fun hc => hlt ((entry_lt h he hk).mp hc)
      rw [if_neg hnot]
      exact ⟨k, de, rfl, .inl (by omega)⟩
    rw [if_pos ((entry_lt h he hk).mpr hlt), readi_entry h hlt, next_bind]
    dsimp only
    have hslot : slots s dp k = _ := slotOf_read de (content s dp)
    generalize (splice de 0 16 fun x => content s dp (16 * k + x)) = e at hslot ⊢
    rw [if_neg (by decide), entry_succ]
    by_cases h0 : get16 e 0 = 0
    · rw [if_pos h0] at hslot ⊢
      exact ⟨k, e, rfl, .inr ⟨hlt, hslot⟩⟩
    · rw [if_neg h0]
      exact ih hlt (by omega) e

/-! ## writing an entry -/

/-- what is written lies in one block: all of it is written, or nothing -/
theorem writeLoop_one {acc : Nat → Bool} {src : Buf} {off t o : Nat} (hacc : ∀ x, acc x = true) (hn : 0 < n)
    (hk : k ≠ 0) (hone : chunk off n = n) (h : writeLoop sb acc src k s dp off n 0 = .next (t, o, dp', s')) :
    t = 0 ∧ dp.block s.block (off / BSIZE) = 0 ∨ t = n := by
  obtain ⟨k, rfl⟩ := Nat.exists_eq_succ_of_ne_zero hk
  have hend : ∀ (k : Nat) (s : Store) (dp : Dinode) (o : Nat),
      writeLoop sb acc src k s dp o n (0 + n) = .next (0 + n, o, dp, s) := by
    intro k s dp o
    cases k with
    | zero => rfl
    | succ k => exact if_neg (by omega)
  unfold writeLoop at h
  rw [if_pos hn] at h
  cases hb : bmap sb s dp (off / BSIZE) with
  | panic m | blocked =>
    rw [hb] at h
    cases h
  | next x =>
    obtain ⟨addr, ip, s₁⟩ := x
    rw [hb, next_bind] at h
    dsimp only at h
    by_cases ha : addr = 0
    · rw [if_pos ha] at h
      cases h
      refine .inl ⟨rfl, by_contra fun hne => ?_⟩
      rw [bmap_found hne] at hb
      cases hb
      exact hne ha
    · have hup : upto acc 0 n = n := upto_all fun y _ => hacc _
      rw [if_neg ha, Nat.sub_zero, hone, hup, if_neg (Nat.lt_irrefl n), hend] at h
      cases h
      exact .inr (Nat.zero_add n)

theorem writei_one {acc : Nat → Bool} {src : Buf} {off m : BitVec 32} {t : Nat} (hacc : ∀ x, acc x = true)
    (hm : 0 < m.toNat) (hone : chunk off.toNat m.toNat = m.toNat) (h : ¬ Refuses dp off m)
    (hrun : writei sb s i dp acc src off m = .next ((t : Int), dp', s')) :
    t = 0 ∧ dp.block s.block (off.toNat / BSIZE) = 0 ∨ t = m.toNat := by
  rw [refuses_iff, not_or] at h
  unfold writei at hrun
  rw [if_neg h.1, if_neg h.2] at hrun
  obtain ⟨x, hloop, hx⟩ := bind_next hrun
  obtain ⟨t', o, ip, s₁⟩ := x
  have ht : t' = t := by
    cases hx
    rfl
  rw [← ht]
  exact writeLoop_one hacc hm hm.ne' hone hloop

/-- the entry `k`, or the next new one, is written, or nothing is -/
structure Entered (sb : Superblock) (i : Nat) (dp : Dinode) (s : Store) (U : Set Nat) (dp' : Dinode) (s' : Store)
    (U' : Set Nat) (e : Buf) (k t : Nat) : Prop where
  isDir : IsDir sb i dp' s' U'
  all : t = 0 ∧ k = nslots dp ∨ t = 16
  count : nslots dp' = max (nslots dp) (if t = 16 then k + 1 else 0)
  bytes : ∀ x, x < dp'.size.toNat → content s' dp' x = splice (content s dp) (16 * k) t e x

theorem writeEntry_spec (h : IsDir sb i dp s U) (hk : k ≤ nslots dp) (e : Buf) :
    ∃ (r : Int) (t : Nat) (dp' : Dinode) (s' : Store) (U' : Set Nat),
      writei sb s i dp (fun _ => true) e (.ofNat 32 (16 * k)) 16 = .next (r, dp', s') ∧ (r = 16 ↔ t = 16) ∧
      Entered sb i dp s U dp' s' U' e k t := by
  have hoff := toNat_entry h.allocated hk
  have hsz := h.allocated.size_le
  have h16 : (16 : BitVec 32).toNat = 16 := rfl
  have hle : 16 * k ≤ dp.size.toNat := by
    unfold nslots at hk
    omega
  by_cases href : Refuses dp (.ofNat 32 (16 * k)) 16
  · refine ⟨-1, 0, dp, s, U, writei_refuses href, by decide, h, .inl ⟨rfl, ?_⟩, ?_, fun x _ => ?_⟩
    · unfold Refuses at href
      rw [hoff, h16] at href
      unfold nslots at *
      omega
    · rw [if_neg (by decide), Nat.max_zero]
    · rw [splice_out (by omega)]
  have ht : dp.type ≠ 0 := by
    rw [h.type]
    decide
  obtain ⟨t, dp', s', U', hrun, -, -, hw⟩ :=
    writei_all e h.geometry h.sound h.inum ht h.allocated (fun _ _ => rfl) href
  have hone : t = 0 ∧ dp.block s.block (16 * k / BSIZE) = 0 ∨ t = 16 := by
    have hchunk : chunk (16 * k) 16 = 16 := by
      unfold chunk
      simp only [BSIZE]
      omega
    have := writei_one (fun _ => rfl) (by decide) (by rw [hoff]; exact hchunk) href hrun
    rwa [hoff] at this
  have hsize := hw.size
  rw [hoff] at hsize
  refine ⟨t, t, dp', s', U', hrun, ?_, ⟨h.geometry, hw.sound, h.inum, ?_, hw.allocated, ?_⟩, ?_, ?_, fun x hx => ?_⟩
  · omega
  · rw [hw.rest]
    exact h.type
  · have := h.entries
    omega
  · refine hone.imp (fun h0 => ⟨h0.1, ?_⟩) id
    by_contra hne
    refine h.allocated.block ?_ h0.2
    unfold nslots at *
    omega
  · unfold nslots at *
    rcases hone with ⟨h0, -⟩ | h1
    · rw [if_neg (by omega), hsize]
      omega
    · rw [if_pos h1, hsize]
      omega
  · have := hw.content_lt h.allocated (by rwa [hoff]) hx
    rwa [hoff, Nat.add_zero] at this

theorem Entered.slot_ne {e : Buf} {t j : Nat} (h : Entered sb i dp s U dp' s' U' e k t)
    (hj : j < nslots dp') (hne : t = 0 ∨ j ≠ k) : slots s' dp' j = slots s dp j := by
  refine slotOf_congr fun x h1 h2 => ?_
  unfold nslots at hj
  rw [h.bytes x (by omega), splice_out]
  rcases h.all with ⟨h0, -⟩ | h0 <;> omega

theorem Entered.slot_self {e : Buf} (h : Entered sb i dp s U dp' s' U' e k 16) :
    slots s' dp' k = if get16 e 0 = 0 then none else some (nameAt fun j => e (2 + j), get16 e 0) := by
  have hk : k < nslots dp' := by
    have := h.count
    rw [if_pos rfl] at this
    omega
  unfold nslots at hk
  have h1 : get16 (content s' dp') (16 * k) = get16 e 0 := get16_congr fun j hj => by
    rw [h.bytes _ (by omega), splice_in (by omega) (by omega)]
    congr 1
    omega
  have h2 : nameAt (fun j => content s' dp' (16 * k + 2 + j)) = nameAt fun j => e (2 + j) :=
    nameAt_congr fun j hj => by
      simp only [DIRSIZ] at hj
      rw [h.bytes _ (by omega), splice_in (by omega) (by omega)]
      congr 1
      omega
  rw [slots, slotOf, h1, h2]

theorem direntPut_inum (de name : Buf) (inum : BitVec 32) : get16 (direntPut de name inum) 0 = inum.setWidth 16 :=
  get16_set16 _ _ _

theorem direntPut_name (de name : Buf) (inum : BitVec 32) :
    (nameAt fun j => direntPut de name inum (2 + j)) = nameAt name := by
  have : (nameAt fun j => direntPut de name inum (2 + j)) = nameAt (strncpy (fun j => de (2 + j)) name DIRSIZ 0) := by
    refine nameAt_congr fun j hj => ?_
    rw [direntPut, set16, splice_out (by omega), splice_in (by omega) (by omega)]
    congr 1
    omega
  rw [this]
  exact cstr_strncpy

theorem dirlink_spec (h : IsDir sb i dp s U) (de de' name : Buf) {inum : BitVec 32} (hinum : inum.setWidth 16 ≠ (0 : BitVec 16)) :
    ∃ (r : Int) (dp' : Dinode) (s' : Store) (U' : Set Nat),
      dirlink sb s i dp de de' name inum = .next (r, dp', s') ∧ IsDir sb i dp' s' U' ∧
      (r = 0 ∧ Found (slots s dp) (nslots dp) (nameAt name) none ∧
        (∃ k, Open (slots s dp) (nslots dp) k ∧ slots s' dp' k = some (nameAt name, inum.setWidth 16) ∧
          (∀ j, j < nslots dp → j ≠ k → slots s' dp' j = slots s dp j) ∧ nslots dp' = max (nslots dp) (k + 1)) ∨
       r = -1 ∧ nslots dp' = nslots dp ∧ ∀ j, j < nslots dp → slots s' dp' j = slots s dp j) := by
  obtain ⟨r, hf⟩ := exists_found (slots s dp) (nslots dp) (nameAt name)
  rw [dirlink, dirlookup_eq h.type h.allocated h.entries hf, next_bind]
  dsimp only
  cases r with
  | some x =>
    refine ⟨-1, dp, s, U, ?_, h, .inr ⟨rfl, rfl, fun _ _ => rfl⟩⟩
    rfl
  | none =>
    obtain ⟨k, e, hloop, hopen⟩ := @dirlinkLoop_spec sb 0 (nslots dp + 1) dp s h.allocated h.entries (Nat.zero_le _)
      (by omega) de
    have hk : k ≤ nslots dp := by
      rcases hopen with e | e <;> omega
    obtain ⟨r, t, dp', s', U', hrun, hr, hent⟩ := writeEntry_spec h hk (direntPut e name inum)
    have hn : ¬ (report none).isSome = true := Bool.false_ne_true
    have hfound : dirlinkLoop sb (dp.size.toNat / 16 + 1) s dp de 0 = _ := hloop
    rw [if_neg hn, hfound, next_bind, hrun, next_bind]
    have hcount := hent.count
    by_cases h16 : r = 16
    · obtain rfl := hr.mp h16
      rw [if_pos rfl] at hcount
      refine ⟨0, dp', s', U', if_neg (not_not.mpr h16), hent.isDir, .inl ⟨rfl, hf, k, hopen, ?_, fun j hj hne => ?_, hcount⟩⟩
      · rw [hent.slot_self, direntPut_inum, direntPut_name, if_neg hinum]
      · exact hent.slot_ne (by omega) (.inr hne)
    · have ht : ¬ t = 16 := fun e => h16 (hr.mpr e)
      have ht0 : t = 0 := (hent.all.resolve_right ht).1
      rw [if_neg ht, Nat.max_zero] at hcount
      refine ⟨-1, dp', s', U', if_pos h16, hent.isDir, .inr ⟨rfl, hcount, fun j hj => ?_⟩⟩
      exact hent.slot_ne (by omega) (.inl ht0)

/-! ## removing an entry -/

theorem clear_spec (h : IsDir sb i dp s U) (hk : k < nslots dp) :
    ∃ (dp' : Dinode) (s' : Store) (U' : Set Nat),
      clearEntry sb s i dp (.ofNat 32 (16 * k)) = .next (dp', s') ∧ IsDir sb i dp' s' U' ∧
      nslots dp' = nslots dp ∧ slots s' dp' k = none ∧ ∀ j, j < nslots dp → j ≠ k → slots s' dp' j = slots s dp j := by
  obtain ⟨r, t, dp', s', U', hrun, hr, hent⟩ := writeEntry_spec h hk.le fun _ => 0
  obtain rfl : t = 16 := hent.all.resolve_left fun h0 => by omega
  have hcount := hent.count
  rw [if_pos rfl, Nat.max_eq_left hk] at hcount
  refine ⟨dp', s', U', ?_, hent.isDir, hcount, ?_, fun j hj hne => hent.slot_ne (by omega) (.inr hne)⟩
  · rw [clearEntry, hrun, next_bind]
    exact if_neg (not_not.mpr (hr.mpr rfl))
  · rw [hent.slot_self, if_pos (get16_zero 0)]

/-! ## a directory is a map -/

/-- `dirlookup` returns `r` -/
def Looks (sb : Superblock) (s : Store) (dp : Dinode) (name : Buf) (r : Option (BitVec 16 × BitVec 32)) : Prop :=
  ∀ de, dirlookup sb s dp de name = .next (r, dp, s)

theorem looks_iff (h : IsDir sb i dp s U) {r : Option (BitVec 16 × BitVec 32)} :
    Looks sb s dp name r ↔ ∃ x, Found (slots s dp) (nslots dp) (nameAt name) x ∧ report x = r := by
  constructor
  · intro hl
    obtain ⟨x, hx⟩ := exists_found (slots s dp) (nslots dp) (nameAt name)
    have e := (dirlookup_eq h.type h.allocated h.entries hx fun _ => 0).symm.trans (hl fun _ => 0)
    cases e
    exact ⟨x, hx, rfl⟩
  · rintro ⟨x, hx, rfl⟩ de
    exact dirlookup_eq h.type h.allocated h.entries hx de

theorem Looks.transfer {P : List Byte → Prop} (h : IsDir sb i dp s U) (h' : IsDir sb i dp' s' U')
    (hf : ∀ x r, P x → Found (slots s dp) (nslots dp) x r → Found (slots s' dp') (nslots dp') x r)
    (hname : P (nameAt name)) {r : Option (BitVec 16 × BitVec 32)} (hl : Looks sb s dp name r) :
    Looks sb s' dp' name r := by
  obtain ⟨x, hx, hr⟩ := (looks_iff h).mp hl
  exact (looks_iff h').mpr ⟨x, hf _ x hname hx, hr⟩

end

/-! ## an empty directory -/

def newDir : Dinode := { Dinode.zero with type := T_DIR, nlink := 1 }

theorem newDir_isDir : IsDir small 1 newDir blank ∅ :=
  ⟨small_geometry, blank_sound rfl, by decide, rfl, fun bn hbn => absurd hbn (Nat.not_lt_zero bn), rfl⟩

end Fs
