import Xv6.Fs.Read

/-!
# `readi` and `writei`

* `Written`          the inode, its bytes and the other inodes after a call of `writei`;
* `writei_spec`      for every offset, length and source;
* `readi_spec`       for every offset and length, if the blocks are there.
-/

namespace Fs
open Bytes Run Slots Function

section
variable {sb : Superblock} {I : Nat → Dinode} {i j : Nat} {ip ip' : Dinode} {s s' : Store}
  {U U' : Set Nat} {b bn : Nat}

/-! ## inodes on disk -/

theorem IBLOCK_lt (hg : Geometry sb) (hi : i < sb.ninodes.toNat) : IBLOCK sb i < sb.bmapstart.toNat := by
  have := hg.inodes
  have h : i / IPB ≤ sb.ninodes.toNat / IPB := Nat.div_le_div_right hi.le
  unfold IBLOCK
  omega

theorem inodeAt_iupdate_self : inodeAt sb (iupdate sb s i ip) i = ip := by
  have e : (iupdate sb s i ip).block (IBLOCK sb i) = ip.put (s.block (IBLOCK sb i)) (64 * (i % IPB)) :=
    update_self _ _ _
  rw [inodeAt, e, Dinode.get_put]

theorem inodeAt_iupdate_ne (h : j ≠ i) : inodeAt sb (iupdate sb s i ip) j = inodeAt sb s j := by
  unfold inodeAt
  by_cases e : IBLOCK sb j = IBLOCK sb i
  · have e' : (iupdate sb s i ip).block (IBLOCK sb j) = ip.put (s.block (IBLOCK sb i)) (64 * (i % IPB)) := by
      rw [e]
      exact update_self _ _ _
    have hdiv : j / IPB = i / IPB := by
      unfold IBLOCK at e
      omega
    rw [e', Dinode.get_put_ne, e]
    simp only [IPB] at *
    omega
  · have e' : (iupdate sb s i ip).block (IBLOCK sb j) = s.block (IBLOCK sb j) := update_of_ne e _ _
    rw [e']

theorem iupdate_high (hg : Geometry sb) (hi : i < sb.ninodes.toNat) (hb : sb.bmapstart.toNat ≤ b) :
    (iupdate sb s i ip).block b = s.block b := by
  have := IBLOCK_lt hg hi
  exact update_of_ne (by omega) _ _

theorem inodeAt_congr (hg : Geometry sb) (hj : j < sb.ninodes.toNat)
    (h : ∀ b, b < sb.bmapstart.toNat → s'.block b = s.block b) : inodeAt sb s' j = inodeAt sb s j := by
  unfold inodeAt
  rw [h _ (IBLOCK_lt hg hj)]

variable {d : Dinode} {t : Nat} {n off : BitVec 32}

theorem addr_addrs {d' : Dinode} {sec : Nat → Buf} (h : d'.addrs = d.addrs) (q : Place) :
    d'.addr sec q = d.addr sec q := by
  have ht : d'.table = d.table := congrFun h _
  cases q with
  | direct k => exact congrArg BitVec.toNat (congrFun h _)
  | table => exact congrArg BitVec.toNat ht
  | entry k => simp only [Dinode.addr, ht]

/-- what lies below the bit map does not matter, nor do the other fields of the inodes -/
theorem Sound.congr {I' : Nat → Dinode} (h : Sound sb I s U)
    (hI : ∀ j, j < sb.ninodes.toNat → (I' j).type = (I j).type ∧ (I' j).addrs = (I j).addrs)
    (hb : ∀ b, sb.bmapstart.toNat ≤ b → s'.block b = s.block b) : Sound sb I' s' U := by
  have huse : ∀ j, InUse sb I' j ↔ InUse sb I j := by
    intro j
    unfold InUse
    by_cases hj : j < sb.ninodes.toNat
    · rw [(hI j hj).1]
    · exact iff_of_false (fun h => hj h.1) fun h => hj h.1
  have hplaces : places sb I' s' = places sb I s := by
    funext x
    unfold places
    by_cases hx : InUse sb I x.1
    · rw [if_pos ((huse x.1).mpr hx), if_pos hx, addr_addrs (hI x.1 hx.1).2]
      refine Dinode.addr_congr (fun ht => hb _ ?_) x.2
      have := (h.data _ (h.mem hx (table_ne_zero.mp ht))).1
      rw [Dinode.addr_table] at this
      exact bmapstart_lt.le.trans this
    · rw [if_neg fun hc => hx ((huse x.1).mp hc), if_neg hx]
  have hused : ∀ b, used sb s' b = used sb s b := by
    intro b
    unfold used
    rw [hb (BBLOCK sb b) (Nat.le_add_left _ _)]
  refine ⟨by rw [hplaces]; exact h.tight, fun b hm => ?_, fun b h1 h2 => ?_⟩
  · rw [hused]
    exact h.data b hm
  · rw [hused]
    exact h.low b h1 h2

/-! ## writing -/

/-- the blocks of an inode are the same, with the same contents -/
def SameFile (s s' : Store) (d : Dinode) : Prop :=
  ∀ bn, d.block s'.block bn = d.block s.block bn ∧
    (d.block s.block bn ≠ 0 → s'.block (d.block s.block bn) = s.block (d.block s.block bn))

/-- `writei` has stored `t` bytes at `off`, and `c` more that it does not report -/
structure Written (sb : Superblock) (i : Nat) (ip : Dinode) (s : Store) (U : Set Nat) (ip' : Dinode)
    (s' : Store) (U' : Set Nat) (src : Buf) (off t c : Nat) : Prop where
  sound : Sound sb (Function.update (inodeAt sb s') i ip') s' U'
  sub : U ⊆ U'
  marked : ∀ b, b < sb.size.toNat → used sb s' b = true → used sb s b = true ∨ b ∈ U'
  disk : inodeAt sb s' i = ip'
  rest : ip' = { ip with size := ip'.size, addrs := ip'.addrs }
  size : ip'.size.toNat = max ip.size.toNat (off + t)
  allocated : Allocated s' ip'
  kept : ∀ q, ip.addr s.block q ≠ 0 → ip'.addr s'.block q = ip.addr s.block q
  range : ∀ x, off ≤ x → x < off + (t + c) → ip'.block s'.block (x / BSIZE) ≠ 0
  bytes : ∀ x, ip'.block s'.block (x / BSIZE) ≠ 0 → content s' ip' x =
    if off ≤ x ∧ x < off + (t + c) then src (x - off)
    else if ip.block s.block (x / BSIZE) ≠ 0 then content s ip x else 0
  others : ∀ j, j ≠ i → j < sb.ninodes.toNat → inodeAt sb s' j = inodeAt sb s j ∧
    ((inodeAt sb s j).type ≠ 0 → SameFile s s' (inodeAt sb s j))

theorem Written.content_lt {src : Buf} {off c x : Nat} (h : Written sb i ip s U ip' s' U' src off t c)
    (ha : Allocated s ip) (hoff : off ≤ ip.size.toNat) (hx : x < ip'.size.toNat) :
    content s' ip' x = splice (content s ip) off (t + c) src x := by
  have hsz := h.size
  rw [h.bytes x (h.allocated.block hx), splice]
  by_cases hr : off ≤ x ∧ x < off + (t + c)
  · rw [if_pos hr, if_pos hr]
  · rw [if_neg hr, if_neg hr, if_pos (ha.block (by omega))]

/-- the checks of `writei` -/
def Refuses (ip : Dinode) (off n : BitVec 32) : Prop :=
  off.toNat > ip.size.toNat ∨ 2 ^ 32 ≤ off.toNat + n.toNat ∨ off.toNat + n.toNat > MAXFILE * BSIZE

theorem refuses_iff :
    Refuses ip off n ↔ (off > ip.size ∨ off + n < off) ∨ off.toNat + n.toNat > MAXFILE * BSIZE := by
  rw [wraps_iff, GT.gt, BitVec.lt_def, or_assoc]
  rfl

theorem writei_refuses {acc : Nat → Bool} {src : Buf} (h : Refuses ip off n) :
    writei sb s i ip acc src off n = .next (-1, ip, s) := by
  unfold writei
  by_cases h1 : off > ip.size ∨ off + n < off
  · rw [if_pos h1]
  · rw [if_neg h1, if_pos ((refuses_iff.mp h).resolve_left h1)]

theorem Wrote.sameFile {off : Nat} {f : Buf} (h : Wrote sb I i ip s U ip' s' U' off t f)
    (hs : Sound sb (update I i ip) s U) (hi : InUse sb (update I i ip) i)
    (hj : InUse sb I j) (hne : j ≠ i) : SameFile s s' (I j) := by
  intro bn
  refine ⟨block_congr (fun q => h.other j q hne hj) bn, fun hb => ?_⟩
  have hlt := lt_maxfile hb
  rw [block_eq hlt] at hb ⊢
  refine h.foreign _ (hs.other_mem hj hne hb) fun q e => ?_
  exact hs.other_ne hi hj hne (e ▸ hb) e

/-- a write below the bit map does not touch the blocks of an inode -/
theorem Sound.high (h : Sound sb I s U) (hj : InUse sb I j)
    (hb : ∀ b, sb.bmapstart.toNat ≤ b → s'.block b = s.block b) {q : Place} (hq : (I j).addr s.block q ≠ 0) :
    s'.block ((I j).addr s.block q) = s.block ((I j).addr s.block q) :=
  hb _ (bmapstart_lt.le.trans (h.data _ (h.mem hj hq)).1)

theorem Sound.addr_high (h : Sound sb I s U) (hj : InUse sb I j)
    (hb : ∀ b, sb.bmapstart.toNat ≤ b → s'.block b = s.block b) (q : Place) :
    (I j).addr s'.block q = (I j).addr s.block q :=
  Dinode.addr_congr (fun ht => h.high hj hb (table_ne_zero.mp ht)) q

theorem Sound.sameFile (h : Sound sb I s U) (hj : InUse sb I j)
    (hb : ∀ b, sb.bmapstart.toNat ≤ b → s'.block b = s.block b) :
    SameFile s s' (I j) := by
  intro bn
  refine ⟨block_congr (h.addr_high hj hb) bn, fun hn => ?_⟩
  have hlt := lt_maxfile hn
  rw [block_eq hlt] at hn ⊢
  exact h.high hj hb hn

theorem SameFile.trans {s₁ : Store} (h : SameFile s s₁ d) (h' : SameFile s₁ s' d) : SameFile s s' d := by
  intro bn
  obtain ⟨h1, h2⟩ := h bn
  obtain ⟨h3, h4⟩ := h' bn
  rw [h1] at h3 h4
  exact ⟨h3, fun hb => (h4 hb).trans (h2 hb)⟩

theorem SameFile.allocated (h : SameFile s s' d) (ha : Allocated s d) : Allocated s' d := by
  intro bn hbn
  rw [(h bn).1]
  exact ha bn hbn

theorem SameFile.content (h : SameFile s s' d) (ha : Allocated s d) {x : Nat} (hx : x < d.size.toNat) :
    content s' d x = content s d x := by
  rw [Fs.content, Fs.content, (h _).1, (h _).2 (ha.block hx)]

theorem Journal.iupdate {l : List Nat} {off c : Nat} {ip₁ ip₂ : Dinode} {s₁ : Store}
    (h : Journal ip s U ip₁ s₁ off t c l) (hg : Geometry sb) (hi : i < sb.ninodes.toNat) (hs : Sound sb I s U)
    (haddr : ∀ q, ip₂.addr (iupdate sb s₁ i ip₂).block q = ip₁.addr s₁.block q) :
    Journal ip s U ip₂ (iupdate sb s₁ i ip₂) off t c (IBLOCK sb i :: l) := by
  have hblock := block_congr haddr
  refine ⟨?_, fun b hb => ?_, fun b hb hm => ?_, fun q h0 h1 => ?_, h.chunk⟩
  · show IBLOCK sb i :: s₁.logged = IBLOCK sb i :: l ++ s.logged
    rw [h.logged, List.cons_append]
  · rw [List.mem_cons, not_or] at hb
    rw [hblock]
    exact (h.same b hb.2).imp ((update_of_ne hb.1 _ _).trans ·) id
  · rcases List.mem_cons.mp hb with e | hb
    · have h1 := IBLOCK_lt hg hi
      have h2 : sb.bmapstart.toNat < dataStart sb := bmapstart_lt
      have h3 := (hs.data b hm).1
      omega
    · simp only [hblock]
      exact h.old b hb hm
  · rw [haddr] at h1 ⊢
    exact List.mem_cons_of_mem _ (h.new q h0 h1)

theorem writei_spec (acc : Nat → Bool) (src : Buf) (hg : Geometry sb)
    (hs : Sound sb (update (inodeAt sb s) i ip) s U) (hi : i < sb.ninodes.toNat) (ht : ip.type ≠ 0)
    (ha : Allocated s ip) (h : ¬ Refuses ip off n) :
    ∃ (t c : Nat) (ip' : Dinode) (s' : Store) (U' : Set Nat),
      writei sb s i ip acc src off n = .next ((t : Int), ip', s') ∧
      Written sb i ip s U ip' s' U' src off.toNat t c ∧ Stops sb acc s' 0 n.toNat t c ∧
      ∃ l, Journal ip s U ip' s' off.toNat t c l := by
  have hoff : off.toNat ≤ ip.size.toNat := Nat.le_of_not_lt fun hc => h (.inl hc)
  have hwrap : off.toNat + n.toNat < 2 ^ 32 := Nat.lt_of_not_le fun hc => h (.inr (.inl hc))
  have hmax : off.toNat + n.toNat ≤ MAXFILE * BSIZE := Nat.le_of_not_lt fun hc => h (.inr (.inr hc))
  have hiu : InUse sb (update (inodeAt sb s) i ip) i := by
    refine ⟨hi, ?_⟩
    rw [update_self]
    exact ht
  have h1 : ¬ (off > ip.size ∨ off + n < off) := fun hc => h (refuses_iff.mpr (.inl hc))
  obtain ⟨t, c, ip₁, s₁, U₁, hrun, hw, hst, l, hj⟩ := @writeLoop_spec sb (inodeAt sb s) i ip s U off.toNat n.toNat
    acc n.toNat 0 src hs hiu (by omega) (Nat.zero_le _) (by omega)
  have hsz : ip₁.size = ip.size := by rw [hw.rest]
  have hiu₁ := hw.inUse hiu
  have hstop := hst.le
  generalize hip₂ : (if off.toNat + t > ip₁.size.toNat then { ip₁ with size := .ofNat 32 (off.toNat + t) }
    else ip₁) = ip₂
  have haddrs : ip₂.addrs = ip₁.addrs := by
    rw [← hip₂]
    split <;> rfl
  have htype : ip₂.type = ip₁.type := by
    rw [← hip₂]
    split <;> rfl
  have hsize : ip₂.size.toNat = max ip.size.toNat (off.toNat + t) := by
    rw [← hip₂]
    split
    · rename_i hgt
      rw [hsz] at hgt
      rw [BitVec.toNat_ofNat, Nat.mod_eq_of_lt (by omega), Nat.max_eq_right (by omega)]
    · rename_i hle
      rw [hsz] at hle ⊢
      omega
  have hrest : ip₂ = { ip with size := ip₂.size, addrs := ip₂.addrs } := by
    rw [← hip₂]
    split <;> rw [hw.rest]
  have hhigh : ∀ b, sb.bmapstart.toNat ≤ b → (iupdate sb s₁ i ip₂).block b = s₁.block b :=
    fun b => iupdate_high hg hi
  have hsame := hw.sound.sameFile hiu₁ hhigh
  rw [update_self] at hsame
  have haddr₂ : ∀ q, ip₂.addr (iupdate sb s₁ i ip₂).block q = ip₁.addr s₁.block q := by
    intro q
    have e := hw.sound.addr_high hiu₁ hhigh q
    rw [update_self] at e
    rw [addr_addrs haddrs, e]
  have hblock₂ := block_congr haddr₂
  have hinode : ∀ j, j ≠ i → j < sb.ninodes.toNat → inodeAt sb (iupdate sb s₁ i ip₂) j = inodeAt sb s j := by
    intro j hne hj
    rw [inodeAt_iupdate_ne hne, inodeAt_congr hg hj hw.low]
  have hall : ∀ bn, bn < blocksFor ip₂.size.toNat → ip₁.block s₁.block bn ≠ 0 := by
    intro bn hbn
    rw [hsize] at hbn
    by_cases hb : bn < blocksFor ip.size.toNat
    · have hn := ha bn hb
      rwa [hw.block_kept hn]
    · have hr := hw.range (bn * BSIZE)
      rw [Nat.mul_div_cancel _ (by decide)] at hr
      simp only [blocksFor, BSIZE] at *
      exact hr (by omega) (by omega)
  have hused : ∀ b, used sb (iupdate sb s₁ i ip₂) b = used sb s₁ b := by
    intro b
    unfold used
    rw [hhigh (BBLOCK sb b) (Nat.le_add_left _ _)]
  refine ⟨t, c, ip₂, iupdate sb s₁ i ip₂, U₁, ?_, ⟨?_, hw.sub, fun b hb hu => ?_, inodeAt_iupdate_self, hrest,
    hsize, fun bn hbn => ?_, fun q hq => ?_, fun x h1 h2 => ?_, fun x hx => ?_,
    fun j hne hj => ⟨hinode j hne hj, fun htj => ?_⟩⟩,
    ⟨hst.le, hst.copied, ?_⟩, IBLOCK sb i :: l, ?_⟩
  · rw [writei, if_neg h1, if_neg (by omega), hrun, next_bind]
    dsimp only
    rw [Nat.zero_add, hip₂]
  · refine hw.sound.congr (fun j hj => ?_) hhigh
    by_cases e : j = i
    · rw [e, update_self, update_self]
      exact ⟨htype, haddrs⟩
    · rw [update_of_ne e, update_of_ne e, hinode j e hj]
      exact ⟨rfl, rfl⟩
  · rw [hused] at hu
    exact hw.marked b hb hu
  · rw [hblock₂]
    exact hall bn hbn
  · rw [haddr₂]
    exact hw.kept q hq
  · rw [hblock₂]
    exact hw.range x h1 h2
  · rw [hblock₂] at hx
    have e : content (iupdate sb s₁ i ip₂) ip₂ x = content s₁ ip₁ x := by
      rw [content, content, hblock₂, (hsame _).2 hx]
    have hb := hw.bytes x hx
    rw [Nat.zero_add] at hb
    rw [e, hb]
  · have hju : InUse sb (inodeAt sb s) j := ⟨hj, htj⟩
    refine (hw.sameFile hs hiu hju hne).trans ?_
    have hju₁ : InUse sb (update (inodeAt sb s) i ip₁) j := (inUse_update_ne hne).mpr hju
    have := hw.sound.sameFile hju₁ hhigh
    rwa [update_of_ne hne] at this
  · refine hst.stop.imp id (Or.imp (fun h => ⟨h.1, h.2.1, fun b hb => ?_⟩) id)
    rw [hused]
    exact h.2.2 b hb
  · exact hj.iupdate hg hi hs haddr₂

theorem writei_all {acc : Nat → Bool} (src : Buf) (hg : Geometry sb)
    (hs : Sound sb (update (inodeAt sb s) i ip) s U) (hi : i < sb.ninodes.toNat) (ht : ip.type ≠ 0)
    (ha : Allocated s ip) (hacc : ∀ x, x < n.toNat → acc x = true) (h : ¬ Refuses ip off n) :
    ∃ (t : Nat) (ip' : Dinode) (s' : Store) (U' : Set Nat),
      writei sb s i ip acc src off n = .next ((t : Int), ip', s') ∧ t ≤ n.toNat ∧ (t < n.toNat → Full sb s') ∧
      Written sb i ip s U ip' s' U' src off.toNat t 0 := by
  obtain ⟨t, c, ip', s', U', hrun, hw, hst, -⟩ := writei_spec acc src hg hs hi ht ha h
  have hle := hst.le
  obtain ⟨rfl, hfull⟩ : c = 0 ∧ (t < n.toNat → Full sb s') := by
    rcases hst.stop with ⟨h1, h2⟩ | ⟨-, h2, h3⟩ | ⟨h1, h2⟩
    · exact ⟨h2, fun hlt => by omega⟩
    · exact ⟨h2, fun _ => h3⟩
    · rw [hacc _ (by omega)] at h2
      cases h2
  exact ⟨t, ip', s', U', hrun, by omega, hfull, hw⟩

/-! ## a file is an array of bytes -/

/-- every call of `writei` replaces bytes of the array, or is refused, and every call of `readi` returns
bytes of it -/
theorem inode_bytes {acc : Nat → Bool} {src : Buf} {off n : BitVec 32} (hg : Geometry sb)
    (hs : Sound sb (Function.update (inodeAt sb s) i ip) s U) (hi : i < sb.ninodes.toNat) (ht : ip.type ≠ 0)
    (ha : Allocated s ip) (hacc : ∀ x, x < n.toNat → acc x = true) :
    ReadsAs sb s ip (content s ip) ∧
    (Refuses ip off n → writei sb s i ip acc src off n = .next (-1, ip, s)) ∧
    (¬ Refuses ip off n → ∃ (t : Nat) (ip' : Dinode) (s' : Store) (U' : Set Nat),
      writei sb s i ip acc src off n = .next ((t : Int), ip', s') ∧ t ≤ n.toNat ∧ (t < n.toNat → Full sb s') ∧
      Written sb i ip s U ip' s' U' src off.toNat t 0 ∧
      ReadsAs sb s' ip' (splice (content s ip) off.toNat t src) ∧
      ∀ j, j ≠ i → InUse sb (inodeAt sb s) j → Allocated s (inodeAt sb s j) →
        ReadsAs sb s' (inodeAt sb s' j) (content s (inodeAt sb s j))) := by
  refine ⟨readi_content ha, writei_refuses, fun h => ?_⟩
  have hoff : off.toNat ≤ ip.size.toNat := Nat.le_of_not_lt fun hc => h (.inl hc)
  obtain ⟨t, ip', s', U', hrun, hle, hfull, hw⟩ := writei_all src hg hs hi ht ha hacc h
  refine ⟨t, ip', s', U', hrun, hle, hfull, hw, ?_, fun j hne hj haj => ?_⟩
  · exact (readi_content hw.allocated).congr fun x hx => hw.content_lt ha hoff hx
  · obtain ⟨hsame, hfile⟩ := hw.others j hne hj.1
    have hf := hfile hj.2
    rw [hsame]
    exact (readi_content (hf.allocated haj)).congr fun x hx => hf.content haj hx

end

/-! ## a small disk -/

/-- 1000 blocks, 48 of them for the meta data -/
def small : Superblock := ⟨FSMAGIC, 1000, 952, 200, 30, 2, 32, 47⟩

/-- only the meta data blocks are marked -/
def blank : Store := ⟨fun b x => if b = 47 ∧ x < 6 then 255 else 0, []⟩

def newFile : Dinode := { Dinode.zero with type := T_FILE, nlink := 1 }

theorem small_geometry : Geometry small := ⟨by decide⟩

theorem blank_inode {j : Nat} (h : j < 200) : inodeAt small blank j = Dinode.zero := by
  have hb : blank.block (IBLOCK small j) = fun _ => 0 := by
    funext x
    have : IBLOCK small j < 47 := IBLOCK_lt small_geometry h
    exact if_neg (by omega)
  rw [inodeAt, hb, Dinode.get_zero]

theorem blank_unused {d : Dinode} {j : Nat} (h : j ≠ 1) :
    ¬ InUse small (update (inodeAt small blank) 1 d) j := by
  rintro ⟨hj, ht⟩
  rw [update_of_ne h, blank_inode hj] at ht
  exact ht rfl

theorem addr_of_empty {d : Dinode} (h : d.addrs = fun _ => 0) (sec : Nat → Buf) (q : Place) : d.addr sec q = 0 := by
  have ht : d.table = 0 := congrFun h _
  cases q with
  | direct k => exact congrArg BitVec.toNat (congrFun h _)
  | table => exact congrArg BitVec.toNat ht
  | entry k => exact if_pos ht

theorem blank_sound {d : Dinode} (hd : d.addrs = fun _ => 0) :
    Sound small (update (inodeAt small blank) 1 d) blank ∅ := by
  have h0 : ∀ x, places small (update (inodeAt small blank) 1 d) blank x = 0 := by
    intro x
    unfold places
    split
    · rename_i hx
      by_cases h1 : x.1 = 1
      · rw [h1, update_self, addr_of_empty hd]
      · exact absurd hx (blank_unused h1)
    · rfl
  refine ⟨⟨fun x _ hx => absurd (h0 x) hx, fun b => ?_⟩, fun b hb => absurd hb (Set.notMem_empty b), ?_⟩
  · refine ⟨fun hb => absurd hb (Set.notMem_empty b), ?_⟩
    rintro ⟨hb, x, hx⟩
    exact absurd (hx.symm.trans (h0 x)) hb
  · intro b hb _
    have : ∀ b, b < 48 → used small blank b = true := by decide
    exact this b hb

theorem newFile_allocated : Allocated blank newFile := fun bn hbn => absurd hbn (Nat.not_lt_zero bn)

theorem newFile_bytes : ReadsAs small blank newFile (content blank newFile) ∧
    ∃ (t : Nat) (ip' : Dinode) (s' : Store),
      writei small blank 1 newFile (fun _ => true) (fun x => .ofNat 8 x) 0 5000 = .next ((t : Int), ip', s') ∧
        ReadsAs small s' ip' (splice (content blank newFile) 0 t fun x => .ofNat 8 x) := by
  have hr : ¬ Refuses newFile 0 5000 := by
    unfold Refuses
    decide
  obtain ⟨h1, -, h2⟩ := @inode_bytes small 1 newFile blank ∅ (fun _ => true) (fun x => .ofNat 8 x) 0 5000
    small_geometry (blank_sound rfl) (by decide) (by decide) newFile_allocated fun _ _ => rfl
  obtain ⟨t, ip', s', U', hrun, -, -, -, hread, -⟩ := h2 hr
  exact ⟨h1, t, ip', s', hrun, hread⟩

end Fs
