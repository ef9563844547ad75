import Xv6.Fs.Contents

/-!
# Reading a file

Whatever the user memory, `readi` of a file whose blocks are all there changes neither the inode nor the
disk.

* `bmap_found`       `bmap` of a block that is there;
* `ReadsAs`          every call of `readi` returns bytes of one array;
* `readi_content`    which is the contents of the file.
-/

namespace Fs
open Bytes Run BitVec

/-- how many bytes there are to read -/
def span (size : Nat) (off n : BitVec 32) : Nat :=
  if off.toNat ≤ size ∧ off.toNat + n.toNat < 2 ^ 32 then min (off.toNat + n.toNat) size - off.toNat else 0

/-- `readi` allocates nothing, and returns bytes of `f` if the destination is accessible -/
def ReadsAs (sb : Superblock) (s : Store) (ip : Dinode) (f : Buf) : Prop :=
  ∀ (acc : Nat → Bool) (dst : Buf) (off n : BitVec 32), ∃ r dst', readi sb s ip acc dst off n = .next (r, dst', ip, s) ∧
    ((∀ x, x < n.toNat → acc x = true) → r = span ip.size.toNat off n ∧
      dst' = splice dst 0 (span ip.size.toNat off n) fun x => f (off.toNat + x))

section
variable {sb : Superblock} {ip : Dinode} {s : Store} {acc : Nat → Bool} {bn : Nat}

theorem bmap_found (h : ip.block s.block bn ≠ 0) : bmap sb s ip bn = .next (ip.block s.block bn, ip, s) := by
  unfold bmap
  by_cases hd : bn < NDIRECT
  · have e : ip.block s.block bn = (ip.addrs (Fin.castSucc ⟨bn, hd⟩)).toNat := block_direct hd
    have h0 : ip.addrs (Fin.castSucc ⟨bn, hd⟩) ≠ 0 := fun hz => h (by rw [e, hz]; rfl)
    rw [dif_pos hd, e]
    exact if_neg h0
  have hi : bn - NDIRECT < NINDIRECT := by
    have := lt_maxfile h
    simp only [MAXFILE, NDIRECT, NINDIRECT] at *
    omega
  have e : ip.block s.block bn = ip.addr s.block (.entry ⟨bn - NDIRECT, hi⟩) := block_entry hd hi
  have ht : ip.table ≠ 0 := fun hz => h (e.trans (if_pos hz))
  have e' : ip.block s.block bn = (get32 (s.block ip.table.toNat) (4 * (bn - NDIRECT))).toNat := e.trans (if_neg ht)
  have h0 : get32 (s.block ip.table.toNat) (4 * (bn - NDIRECT)) ≠ 0 := fun hz => h (by rw [e', hz]; rfl)
  have htab : bmapTable sb s ip = (ip.table.toNat, ip, s) := if_neg ht
  rw [dif_neg hd, if_pos hi, htab, e']
  dsimp only
  have ht' : ip.table.toNat ≠ 0 := table_ne_zero (s := s).mp ht
  rw [if_neg ht', if_neg h0]

theorem Allocated.block (h : Allocated s ip) {x : Nat} (hx : x < ip.size.toNat) : ip.block s.block (x / BSIZE) ≠ 0 :=
  h _ (by
    simp only [blocksFor, BSIZE]
    omega)

theorem content_chunk {off n x : Nat} (h : x < chunk off n) :
    s.block (ip.block s.block (off / BSIZE)) (off % BSIZE + x) = content s ip (off + x) := by
  have hx : x < BSIZE - off % BSIZE := h.trans_le (Nat.min_le_right _ _)
  have h1 : (off + x) / BSIZE = off / BSIZE := by
    simp only [BSIZE] at *
    omega
  have h2 : (off + x) % BSIZE = off % BSIZE + x := by
    simp only [BSIZE] at *
    omega
  rw [content, h1, h2]

theorem readLoop_spec {k n tot off : Nat} {dst : Buf} (ha : Allocated s ip) (hsz : off + (n - tot) ≤ ip.size.toNat)
    (htot : tot ≤ n) (hk : n ≤ tot + k) :
    ∃ r dst', readLoop sb acc k s ip dst off n tot = .next (r, dst', ip, s) ∧
      ((∀ x, x < n → acc x = true) → r = n ∧
        dst' = splice dst tot (n - tot) fun x => content s ip (off + x)) := by
  induction k generalizing tot off dst with
  | zero =>
    obtain rfl : tot = n := by omega
    refine ⟨tot, dst, rfl, fun _ => ⟨rfl, ?_⟩⟩
    rw [Nat.sub_self]
    funext x
    rw [splice_out (by omega)]
  | succ k ih =>
    unfold readLoop
    by_cases hlt : tot < n
    swap
    · obtain rfl : tot = n := by omega
      rw [if_neg hlt]
      refine ⟨tot, dst, rfl, fun _ => ⟨rfl, ?_⟩⟩
      rw [Nat.sub_self]
      funext x
      rw [splice_out (by omega)]
    have hne := ha.block (x := off) (by omega)
    rw [if_pos hlt, bmap_found hne, next_bind]
    dsimp only
    rw [if_neg hne]
    obtain ⟨hm, hmn, -⟩ := @chunk_bounds off (n - tot) (by omega)
    by_cases hc : upto acc tot (chunk off (n - tot)) < chunk off (n - tot)
    · rw [if_pos hc]
      refine ⟨-1, _, rfl, fun hall => ?_⟩
      have := upto_stop hc
      rw [hall _ (by omega)] at this
      cases this
    have hup := Nat.le_antisymm (upto_le acc tot _) (Nat.le_of_not_lt hc)
    rw [if_neg hc, hup]
    generalize hch : chunk off (n - tot) = m at *
    obtain ⟨r, dst', hrun, hval⟩ := @ih (tot + m) (off + m)
      (splice dst tot m fun x => s.block (ip.block s.block (off / BSIZE)) (off % BSIZE + x))
      (by omega) (by omega) (by omega)
    refine ⟨r, dst', hrun, fun hall => ?_⟩
    obtain ⟨hr, hd⟩ := hval hall
    refine ⟨hr, ?_⟩
    have e : n - tot = m + (n - (tot + m)) := by omega
    rw [hd, e, ← splice_add, splice_congr fun x hx => content_chunk (hch.symm ▸ hx)]
    simp only [Nat.add_assoc]

theorem span_le (size : Nat) (off n : BitVec 32) {x : Nat} (h : x < span size off n) : off.toNat + x < size := by
  unfold span at h
  split at h
  · omega
  · cases h

theorem ReadsAs.congr {f g : Buf} (h : ReadsAs sb s ip f) (he : ∀ x, x < ip.size.toNat → f x = g x) :
    ReadsAs sb s ip g := by
  intro acc dst off n
  obtain ⟨r, dst', hrun, hval⟩ := h acc dst off n
  refine ⟨r, dst', hrun, fun hall => ?_⟩
  obtain ⟨h1, h2⟩ := hval hall
  refine ⟨h1, h2.trans (splice_congr fun x hx => he _ (span_le _ _ _ hx))⟩

theorem wraps_iff (off n : BitVec 32) : off + n < off ↔ 2 ^ 32 ≤ off.toNat + n.toNat := by
  rw [lt_def, toNat_add]
  omega

theorem readi_content (ha : Allocated s ip) : ReadsAs sb s ip (content s ip) := by
  intro acc dst off n
  unfold readi
  by_cases hspan : off.toNat ≤ ip.size.toNat ∧ off.toNat + n.toNat < 2 ^ 32
  swap
  · have hc : off > ip.size ∨ off + n < off := by
      rw [wraps_iff, GT.gt, lt_def]
      omega
    rw [if_pos hc]
    refine ⟨0, dst, rfl, fun _ => ?_⟩
    rw [span, if_neg hspan]
    refine ⟨rfl, funext fun x => ?_⟩
    rw [splice_out (by omega)]
  have hc : ¬ (off > ip.size ∨ off + n < off) := by
    rw [wraps_iff, GT.gt, lt_def]
    omega
  rw [if_neg hc, span, if_pos hspan]
  dsimp only
  have hn : (if off + n > ip.size then ip.size - off else n).toNat =
      min (off.toNat + n.toNat) ip.size.toNat - off.toNat := by
    have hadd : (off + n).toNat = off.toNat + n.toNat := by
      rw [toNat_add, Nat.mod_eq_of_lt hspan.2]
    split
    · rename_i hgt
      rw [GT.gt, lt_def, hadd] at hgt
      rw [toNat_sub_of_le (le_def.mpr hspan.1)]
      omega
    · rename_i hgt
      rw [GT.gt, lt_def, hadd] at hgt
      omega
  rw [hn]
  obtain ⟨r, dst', hrun, hval⟩ := @readLoop_spec sb ip s acc _ (min (off.toNat + n.toNat) ip.size.toNat - off.toNat)
    0 off.toNat dst ha (by omega) (Nat.zero_le _) (Nat.le_add_left _ 0)
  refine ⟨r, dst', hrun, fun hall => ?_⟩
  obtain ⟨h1, h2⟩ := hval fun x hx => hall x (by omega)
  exact ⟨h1, by rw [h2, Nat.sub_zero]⟩

end

end Fs
