import Mathlib.Data.Finset.Card
import Xv6.Fs.Files
import Xv6.Log.Model

/-!
# The log reservation of a write

`filewrite` cuts a write into calls of `writei` that have to fit into one transaction.

* `Logs`              which block numbers `log_write` got between two states;
* `writeLoop_logs`    one data block and one bit map block for each turn, the indirect block and its bit
                      map block once;
* `writei_reserve`    never more than `MAXOPBLOCKS`.
-/

namespace Fs
open Bytes Run Log BitVec Finset

/-- the length that `filewrite` does not exceed in one call of `writei` -/
def filewriteMax : Nat := ((MAXOPBLOCKS - 1 - 1 - 2) / 2) * BSIZE

/-- the block numbers that `log_write` got between two states are all in `L` -/
def Logs (s s' : Store) (L : Finset Nat) : Prop := ∃ l, s'.logged = l ++ s.logged ∧ ∀ b ∈ l, b ∈ L

section
variable {sb : Superblock} {ip ip' : Dinode} {s s' s₁ : Store} {L L' : Finset Nat} {a b bn : Nat}

theorem Logs.refl (s : Store) (L : Finset Nat) : Logs s s L := ⟨[], rfl, fun _ h => absurd h List.not_mem_nil⟩

theorem Logs.trans (h : Logs s s₁ L) (h' : Logs s₁ s' L') : Logs s s' (L ∪ L') := by
  obtain ⟨l, e, hl⟩ := h
  obtain ⟨l', e', hl'⟩ := h'
  refine ⟨l' ++ l, by rw [e', e, List.append_assoc], fun b hb => ?_⟩
  rcases List.mem_append.mp hb with hb | hb
  · exact mem_union_right _ (hl' b hb)
  · exact mem_union_left _ (hl b hb)

theorem Logs.mono (h : Logs s s' L) (hL : L ⊆ L') : Logs s s' L' := by
  obtain ⟨l, e, hl⟩ := h
  exact ⟨l, e, fun b hb => hL (hl b hb)⟩

theorem Logs.modify (h : Logs s s' L) (a : Nat) (data : Buf) : Logs s (s'.modify a data) L := h

theorem logWrite_logs (s : Store) (a : Nat) : Logs s (s.logWrite a) {a} :=
  ⟨[a], rfl, fun b hb => by simpa using hb⟩

theorem write_logs (s : Store) (a : Nat) (data : Buf) : Logs s (s.write a data) {a} :=
  ⟨[a], rfl, fun b hb => by simpa using hb⟩

theorem balloc_logs (sb : Superblock) (s : Store) :
    ∃ a s', balloc sb s = (a, s') ∧ a < 2 ^ 32 ∧ Logs s s' {BBLOCK sb a, a} := by
  obtain ⟨hbal, -⟩ | ⟨b, hb, -, hbal, -⟩ := balloc_cases sb s
  · exact ⟨0, s, hbal, by decide, .refl _ _⟩
  · have h1 := write_logs s (BBLOCK sb b) (setBit (s.block (BBLOCK sb b)) (b % BPB))
    exact ⟨b, taken sb s b, hbal, hb.trans sb.size.isLt, h1.trans (write_logs _ b fun _ => 0)⟩

/-! ## `bmap` -/

/-- what `bmap` may log besides the block and its bit map block: the indirect block, with its own bit map
block if it is new -/
def tableLogs (sb : Superblock) (ip ip' : Dinode) : Finset Nat :=
  if ip'.table = 0 then ∅
  else if ip.table = 0 then {BBLOCK sb ip'.table.toNat, ip'.table.toNat}
  else {ip'.table.toNat}

theorem card_tableLogs (sb : Superblock) (ip ip' : Dinode) : (tableLogs sb ip ip').card ≤ 2 := by
  unfold tableLogs
  split
  · exact Nat.zero_le _
  · split
    · exact card_le_two
    · exact Nat.le_succ _

theorem singleton_tableLogs (h : ip'.table ≠ 0) : {ip'.table.toNat} ⊆ tableLogs sb ip ip' := by
  rw [tableLogs, if_neg h]
  split
  · exact subset_insert _ _
  · exact subset_rfl

theorem tableLogs_trans {ip₁ : Dinode} (h : ip.table ≠ 0 → ip₁.table = ip.table)
    (h' : ip₁.table ≠ 0 → ip'.table = ip₁.table) :
    tableLogs sb ip ip₁ ∪ tableLogs sb ip₁ ip' ⊆ tableLogs sb ip ip' := by
  by_cases h1 : ip₁.table = 0
  · have h0 : ip.table = 0 := by
      by_contra h0
      exact h0 ((h h0).symm.trans h1)
    have e : tableLogs sb ip₁ ip' = tableLogs sb ip ip' := by rw [tableLogs, tableLogs, h0, h1]
    have e' : tableLogs sb ip ip₁ = ∅ := if_pos h1
    rw [e, e', empty_union]
  · have ht := h' h1
    have e : tableLogs sb ip ip₁ = tableLogs sb ip ip' := by rw [tableLogs, tableLogs, ht]
    have e' : tableLogs sb ip₁ ip' = {ip'.table.toNat} := by rw [tableLogs, if_neg (ht ▸ h1), if_neg h1]
    rw [e, e']
    exact union_subset subset_rfl (singleton_tableLogs (ht ▸ h1))

theorem bmapTable_logs (sb : Superblock) (s : Store) (ip : Dinode) :
    ∃ ip' s', bmapTable sb s ip = (ip'.table.toNat, ip', s') ∧ (ip.table ≠ 0 → ip'.table = ip.table) ∧
      (ip'.table = 0 → Logs s s' {BBLOCK sb 0, 0}) ∧ (ip'.table ≠ 0 → Logs s s' (tableLogs sb ip ip')) := by
  unfold bmapTable
  by_cases h0 : ip.table = 0
  · obtain ⟨a, s', hbal, hlt, hlog⟩ := balloc_logs sb s
    rw [if_pos h0, hbal]
    dsimp only
    by_cases ha : a = 0
    · rw [if_pos ha]
      refine ⟨ip, s', ?_, fun _ => rfl, fun _ => ha ▸ hlog, fun h => absurd h0 h⟩
      rw [h0, ha]
      rfl
    have hnat : (BitVec.ofNat 32 a).toNat = a := by rw [BitVec.toNat_ofNat, Nat.mod_eq_of_lt hlt]
    have hne : BitVec.ofNat 32 a ≠ 0 := fun e => ha (by rw [← hnat, e]; rfl)
    rw [if_neg ha]
    refine ⟨ip.setAddr (Fin.last NDIRECT) (.ofNat 32 a), s', ?_, fun h => absurd h0 h, fun h => ?_, fun h => ?_⟩
    · rw [Dinode.setAddr_last, hnat]
    · rw [Dinode.setAddr_last] at h
      exact absurd h hne
    · rwa [tableLogs, if_neg h, if_pos h0, Dinode.setAddr_last, hnat]
  · rw [if_neg h0]
    exact ⟨ip, s, rfl, fun _ => rfl, fun _ => .refl _ _, fun _ => .refl _ _⟩

theorem bmap_logs (sb : Superblock) (s : Store) (ip : Dinode) (hbn : bn < MAXFILE) :
    ∃ addr ip' s', bmap sb s ip bn = .next (addr, ip', s') ∧ (ip.table ≠ 0 → ip'.table = ip.table) ∧
      Logs s s' (tableLogs sb ip ip' ∪ {BBLOCK sb addr, addr}) := by
  unfold bmap
  by_cases h : bn < NDIRECT
  · rw [dif_pos h]
    by_cases h0 : ip.addrs (Fin.castSucc ⟨bn, h⟩) = 0
    · obtain ⟨a, s', hbal, -, hlog⟩ := balloc_logs sb s
      rw [if_pos h0, hbal]
      refine ⟨a, _, s', rfl, fun _ => ?_, hlog.mono subset_union_right⟩
      split
      · rfl
      · exact Dinode.setAddr_castSucc _ _ _
    · rw [if_neg h0]
      exact ⟨_, ip, s, rfl, fun _ => rfl, .refl _ _⟩
  have hi : bn - NDIRECT < NINDIRECT := by
    simp only [MAXFILE, NDIRECT, NINDIRECT] at *
    omega
  obtain ⟨ip₁, s₁, htab, hkept, hfail, hlog⟩ := bmapTable_logs sb s ip
  rw [dif_neg h, if_pos hi, htab]
  dsimp only
  by_cases h0 : ip₁.table = 0
  · have hz : ip₁.table.toNat = 0 := by rw [h0]; rfl
    rw [if_pos hz]
    exact ⟨0, ip₁, s₁, rfl, hkept, (hfail h0).mono subset_union_right⟩
  have hz : ip₁.table.toNat ≠ 0 := table_ne_zero (s := s).mp h0
  rw [if_neg hz]
  by_cases he : get32 (s₁.block ip₁.table.toNat) (4 * (bn - NDIRECT)) = 0
  · obtain ⟨a, s₂, hbal, -, ha⟩ := balloc_logs sb s₁
    rw [if_pos he, hbal]
    by_cases ha0 : a = 0
    · rw [if_pos ha0]
      exact ⟨0, ip₁, s₂, rfl, hkept, (hlog h0).trans (ha0 ▸ ha)⟩
    · rw [if_neg ha0]
      refine ⟨a, ip₁, _, rfl, hkept, (((hlog h0).trans ha).trans (write_logs s₂ _ _)).mono ?_⟩
      exact union_subset subset_rfl ((singleton_tableLogs h0).trans subset_union_left)
  · rw [if_neg he]
    exact ⟨_, ip₁, s₁, rfl, hkept, (hlog h0).mono subset_union_left⟩

theorem bmap_counts (sb : Superblock) (s : Store) (ip : Dinode) (hbn : bn < MAXFILE) :
    ∃ addr ip' s' B, bmap sb s ip bn = .next (addr, ip', s') ∧ (ip.table ≠ 0 → ip'.table = ip.table) ∧
      Logs s s' (tableLogs sb ip ip' ∪ B) ∧ addr ∈ B ∧ B.card ≤ 2 ∧ (ip.block s.block bn ≠ 0 → B.card ≤ 1) := by
  by_cases hb : ip.block s.block bn = 0
  · obtain ⟨addr, ip', s', hrun, hkept, hlog⟩ := bmap_logs sb s ip hbn
    exact ⟨addr, ip', s', _, hrun, hkept, hlog, mem_insert_of_mem (mem_singleton_self _),
      card_le_two, fun h => absurd hb h⟩
  · exact ⟨_, ip, s, {ip.block s.block bn}, bmap_found hb, fun _ => rfl, .refl _ _, mem_singleton_self _,
      Nat.le_succ 1, fun _ => Nat.le_refl 1⟩

/-! ## the loop of `writei` -/

/-- how many blocks the `m` bytes from `off` on lie in -/
def turns (off m : Nat) : Nat := if m = 0 then 0 else (off % BSIZE + m + (BSIZE - 1)) / BSIZE

theorem turns_chunk {off m : Nat} (hm : 0 < m) : turns (off + chunk off m) (m - chunk off m) + 1 ≤ turns off m := by
  unfold turns
  rw [if_neg hm.ne']
  by_cases h : m - chunk off m = 0
  · rw [if_pos h]
    simp only [BSIZE]
    omega
  · rw [if_neg h]
    unfold chunk at *
    simp only [BSIZE] at *
    omega

theorem writeLoop_logs {k off n tot : Nat} {acc : Nat → Bool} {src : Buf}
    (hmax : off + (n - tot) ≤ MAXFILE * BSIZE) (htot : tot ≤ n) :
    ∃ tot' off' ip' s' D, writeLoop sb acc src k s ip off n tot = .next (tot', off', ip', s') ∧
      (ip.table ≠ 0 → ip'.table = ip.table) ∧ Logs s s' (tableLogs sb ip ip' ∪ D) ∧
      D.card ≤ 2 * turns off (n - tot) ∧
      (tot < n → ip.block s.block (off / BSIZE) ≠ 0 → D.card + 1 ≤ 2 * turns off (n - tot)) := by
  induction k generalizing s ip off tot with
  | zero =>
    refine ⟨tot, off, ip, s, ∅, rfl, fun _ => rfl, .refl _ _, Nat.zero_le _, fun hlt _ => ?_⟩
    have := @turns_chunk off (n - tot) (by omega)
    rw [card_empty]
    omega
  | succ k ih =>
    unfold writeLoop
    by_cases hlt : tot < n
    swap
    · rw [if_neg hlt]
      exact ⟨tot, off, ip, s, ∅, rfl, fun _ => rfl, .refl _ _, Nat.zero_le _, fun h => absurd h hlt⟩
    have hbn : off / BSIZE < MAXFILE := by
      simp only [BSIZE, MAXFILE] at *
      omega
    obtain ⟨addr, ip₁, s₁, B, hbm, hkept, hlog, hmem, hB, hB'⟩ := bmap_counts sb s ip hbn
    have ht := @turns_chunk off (n - tot) (by omega)
    rw [if_pos hlt, hbm, next_bind]
    dsimp only
    by_cases ha : addr = 0
    · rw [if_pos ha]
      refine ⟨tot, off, ip₁, s₁, B, rfl, hkept, hlog, by omega, fun _ h => ?_⟩
      omega
    rw [if_neg ha]
    generalize upto acc tot (chunk off (n - tot)) = c
    by_cases hc : c < chunk off (n - tot)
    · rw [if_pos hc]
      refine ⟨tot, off, ip₁, _, B, rfl, hkept, hlog.modify _ _, by omega, fun _ h => ?_⟩
      omega
    rw [if_neg hc]
    have hm := @chunk_bounds off (n - tot) (by omega)
    obtain ⟨tot', off', ip', s', D, hrun, hkept', hlog', hD, -⟩ := @ih ip₁
      ((s₁.modify addr (splice (s₁.block addr) (off % BSIZE) c fun i => src (tot + i))).logWrite addr)
      (off + chunk off (n - tot)) (tot + chunk off (n - tot)) (by omega) (by omega)
    have e : n - (tot + chunk off (n - tot)) = n - tot - chunk off (n - tot) := by omega
    have hcard := card_union_le B D
    rw [e] at hD
    refine ⟨tot', off', ip', s', B ∪ D, hrun, fun h => ?_, ?_, by omega, fun _ h => ?_⟩
    · have h1 := hkept h
      exact (hkept' (h1 ▸ h)).trans h1
    · have hw := ((hlog.modify addr (splice (s₁.block addr) (off % BSIZE) c fun i => src (tot + i))).trans
        (logWrite_logs _ addr)).trans hlog'
      have hT : tableLogs sb ip ip₁ ∪ tableLogs sb ip₁ ip' ⊆ _ := tableLogs_trans hkept hkept'
      refine hw.mono fun b hb => ?_
      have hT' := @hT b
      simp only [mem_union, mem_singleton] at hb hT' ⊢
      rcases hb with ((hb | hb) | rfl) | hb | hb
      · exact .inl (hT' (.inl hb))
      · exact .inr (.inl hb)
      · exact .inr (.inl hmem)
      · exact .inl (hT' (.inr hb))
      · exact .inr (.inr hb)
    · omega

/-! ## the reservation -/

theorem writei_reserve (sb : Superblock) (s : Store) (inum : Nat) (ip : Dinode) (acc : Nat → Bool) (src : Buf)
    (off n : BitVec 32) (ha : Allocated s ip) (hoff : off.toNat ≤ ip.size.toNat) (hn : n.toNat ≤ filewriteMax) :
    ∃ r ip' s' l, writei sb s inum ip acc src off n = .next (r, ip', s') ∧ s'.logged = l ++ s.logged ∧
      l.toFinset.card ≤ MAXOPBLOCKS := by
  unfold writei
  by_cases h1 : off > ip.size ∨ off + n < off
  · rw [if_pos h1]
    exact ⟨-1, ip, s, [], rfl, rfl, Nat.zero_le _⟩
  rw [if_neg h1]
  by_cases h2 : off.toNat + n.toNat > MAXFILE * BSIZE
  · rw [if_pos h2]
    exact ⟨-1, ip, s, [], rfl, rfl, Nat.zero_le _⟩
  rw [if_neg h2]
  obtain ⟨tot', off', ip', s', D, hrun, -, hlog, hD, hfirst⟩ := @writeLoop_logs sb ip s n.toNat off.toNat n.toNat 0
    acc src (by omega) (Nat.zero_le _)
  have hD7 : D.card ≤ 7 := by
    by_cases h0 : n.toNat = 0
    · rw [turns, if_pos (by omega)] at hD
      omega
    rw [turns, if_neg (by omega)] at hD hfirst
    by_cases hal : off.toNat % BSIZE = 0
    · simp only [filewriteMax, MAXOPBLOCKS, BSIZE] at *
      omega
    · have hblock := ha (off.toNat / BSIZE) (by
        simp only [blocksFor, BSIZE] at *
        omega)
      simp only [filewriteMax, MAXOPBLOCKS, BSIZE] at *
      omega
  rw [hrun, next_bind]
  dsimp only
  generalize (if off' > ip'.size.toNat then { ip' with size := BitVec.ofNat 32 off' } else ip') = ip₂
  obtain ⟨l, e, hl⟩ := hlog.trans (write_logs s' (IBLOCK sb inum) (ip₂.put (s'.block (IBLOCK sb inum)) (64 * (inum % IPB))))
  refine ⟨_, ip₂, _, l, rfl, e, ?_⟩
  have hsub : l.toFinset ⊆ tableLogs sb ip ip' ∪ D ∪ {IBLOCK sb inum} := fun b hb => hl b (List.mem_toFinset.mp hb)
  have h3 := Finset.card_le_card hsub
  have h4 := Finset.card_union_le (tableLogs sb ip ip' ∪ D) {IBLOCK sb inum}
  have h5 := Finset.card_union_le (tableLogs sb ip ip') D
  have h6 := card_tableLogs sb ip ip'
  rw [Finset.card_singleton] at h4
  show l.toFinset.card ≤ 10
  omega

end

theorem newFile_reserve : ∃ r ip' s' l,
    writei small blank 1 newFile (fun _ => true) (fun x => .ofNat 8 x) 0 3072 = .next (r, ip', s') ∧
      s'.logged = l ++ blank.logged ∧ l.toFinset.card ≤ MAXOPBLOCKS :=
  writei_reserve small blank 1 newFile _ _ 0 3072 newFile_allocated (Nat.zero_le _) (by decide)

end Fs
