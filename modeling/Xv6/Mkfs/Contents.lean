import Xv6.Mkfs.Append

/-!
# Calls of `iappend` and `ialloc`

* `Inv.of_winode`     an inode is written back;
* `iappend_inv`       appending keeps the image in order, and the file grows by the bytes;
* `iappend_room`      it succeeds if there is room;
* `iappend_bytes`     a file gets the bytes at its end, and the others stay;
* `ialloc_inv`        a new inode is an empty file.
-/

namespace Mkfs
open Bytes Fs Run Function

section
variable {D : Nat → Dinode} {s s' t : State} {i : Nat} {din din' : Dinode} {p : List Byte}

/-! ## writing an inode back -/

theorem iblock_lt {k : Nat} (h : k < 200) : iblock k < nmeta := by
  rw [iblock_eq, nmeta_eq]
  omega

/-- the inodes `D` are in order with the sectors of `t`, and `D i` is written -/
theorem Inv.of_winode (h : Base D t) (hi : t.InUse i) (hino : t.freeinode ≤ NINODES)
    (hsuper : t.sector 1 = sb.put fun _ => 0) (hfb : t.freeblock ≤ FSSIZE)
    (hD : ∀ k, k < 200 → k ≠ i → D k = t.dinode k)
    (hok : ∀ k, t.InUse k → (D k).type ≠ 0 ∧ HasBlocks t.sector (D k) (blocksFor (D k).size.toNat) ∧
      (D k).size.toNat ≤ MAXFILE * BSIZE)
    (hs' : s' = { t with
      sector := update t.sector (iblock i) ((D i).put (t.sector (iblock i)) (64 * (i % IPB))) }) :
    Inv s' ∧ ∀ k, k < 200 → s'.dinode k = D k := by
  have hib := iblock_lt (hi.lt hino)
  have hdin : ∀ k, k < 200 → s'.dinode k = D k := by
    intro k hk
    rw [dinode_winode (by rw [hs'])]
    by_cases e : k = i
    · rw [e, update_self]
    · rw [update_of_ne e, hD k hk e]
  have haddr : ∀ k q, t.InUse k → (s'.dinode k).addr s'.sector q = (D k).addr t.sector q := by
    intro k q hk
    rw [hdin k (hk.lt hino), hs']
    exact addr_low h _ hk hib q
  subst hs'
  refine ⟨⟨?_, ?_, hino, hfb, fun k hk => ?_, fun k hk q => ?_, fun k hk => ?_⟩, hdin⟩
  · refine h.write rfl rfl rfl (fun b hb => ?_) haddr
    have := h.first
    exact update_of_ne (by omega) _ _
  · have hne : 1 ≠ iblock i := by
      rw [iblock_eq]
      omega
    rw [← hsuper]
    exact update_of_ne hne ((D i).put (t.sector (iblock i)) (64 * (i % IPB))) t.sector
  · rw [hdin k (hk.lt hino)]
    exact (hok k hk).1
  · rw [haddr k q hk, hdin k (hk.lt hino)]
    exact (hok k hk).2.1 q
  · rw [hdin k (hk.lt hino)]
    exact (hok k hk).2.2

/-! ## appending -/

/-- what `iappend` does -/
structure Ran (s : State) (i : Nat) (p : List Byte) (din : Dinode) (t s' : State) : Prop where
  grown : Grown s.dinode i (s.dinode i) s din t
  has : HasBlocks t.sector din (blocksFor ((s.dinode i).size.toNat + p.length))
  small : (s.dinode i).size.toNat + p.length ≤ MAXFILE * BSIZE
  bound : t.freeblock ≤ FSSIZE
  bytes : Appended s.dinode i (s.dinode i) s din t (s.dinode i).size.toNat p.length (ofList p)
  written : s' = { t with
    sector := Function.update t.sector (iblock i)
      (Dinode.put (t.sector (iblock i)) (64 * (i % IPB))
        { din with size := .ofNat 32 ((s.dinode i).size.toNat + p.length) }) }

theorem Base.self (h : Base s.dinode s) : Base (update s.dinode i (s.dinode i)) s := by
  rwa [update_eq_self]

theorem iappend_ran (hs : Inv s) (hi : s.InUse i) (hr : iappend s i p = .ok s') : ∃ din t, Ran s i p din t s' := by
  have h200 : i < 200 := hi.lt hs.inodes
  rw [iappend, rinode_eq hs.base.length h200] at hr
  obtain ⟨⟨din, off, t⟩, hl, hr⟩ := bind_ok (x := iappendLoop _ _ _ _ _) hr
  obtain ⟨hg, has, rfl, hsmall, hfb, hbytes⟩ :=
    loop_spec (Nat.le_refl _) hs.base.self hi (hs.has i hi) (hs.small i hi) hs.bound hl
  change winode t i { din with size := .ofNat 32 _ } = .ok s' at hr
  rw [winode_eq hg.base.length h200] at hr
  cases hr
  exact ⟨din, t, hg, has, hsmall, hfb, hbytes, rfl⟩

theorem Ran.inv (h : Ran s i p din t s') (hs : Inv s) (hi : s.InUse i) :
    Inv s' ∧ ∀ k, k < 200 → s'.dinode k =
      update s.dinode i { din with size := .ofNat 32 ((s.dinode i).size.toNat + p.length) } k := by
  have hg := h.grown
  have hi1 : t.InUse i := by rwa [State.InUse, hg.inode]
  have hsize : (BitVec.ofNat 32 ((s.dinode i).size.toNat + p.length)).toNat = (s.dinode i).size.toNat + p.length :=
    toNat_ofNat (by have := h.small; rw [bsize_eq, show MAXFILE = 268 from rfl] at this; omega)
  refine Inv.of_winode ?_ hi1 (by rw [hg.inode]; exact hs.inodes) ?_ h.bound (fun k hk hne => ?_)
    (fun k hk => ?_) ?_
  · refine hg.base.write rfl rfl rfl (fun _ _ => rfl) fun k q _ => ?_
    by_cases e : k = i
    · rw [e, update_self, update_self]
      cases q <;> rfl
    · rw [update_of_ne e, update_of_ne e]
  · rw [hg.low 1 (by decide), hs.super]
  · rw [update_of_ne hne, State.dinode, State.dinode, hg.low _ (iblock_lt hk)]
  · have hk' : s.InUse k := by rwa [State.InUse, hg.inode] at hk
    by_cases e : k = i
    · rw [e, update_self]
      refine ⟨?_, fun q => ?_, ?_⟩
      · rw [hg.rest.1]
        exact hs.type i hi
      · rw [hsize, ← h.has q]
        cases q <;> rfl
      · rw [hsize]
        exact h.small
    · rw [update_of_ne e]
      refine ⟨hs.type k hk', fun q => ?_, hs.small k hk'⟩
      rw [hg.other k q e hk']
      exact hs.has k hk' q
  · rw [update_self]
    exact h.written

/-- **Appending** keeps the image in order, and the file grows. -/
theorem iappend_inv (hs : Inv s) (hi : s.InUse i) (hr : iappend s i p = .ok s') :
    Inv s' ∧ s'.freeinode = s.freeinode ∧
      (s'.dinode i).size.toNat = (s.dinode i).size.toNat + p.length ∧
      ∀ k, k < 200 → k ≠ i → s'.dinode k = s.dinode k := by
  obtain ⟨din, t, h⟩ := iappend_ran hs hi hr
  obtain ⟨hinv, hdin⟩ := h.inv hs hi
  refine ⟨hinv, ?_, ?_, fun k hk hne => by rw [hdin k hk, update_of_ne hne]⟩
  · rw [h.written]
    exact h.grown.inode
  · rw [hdin i (hi.lt hs.inodes), update_self]
    exact toNat_ofNat (by have := h.small; rw [bsize_eq, show MAXFILE = 268 from rfl] at this; omega)

theorem iappend_room (hs : Inv s) (hi : s.InUse i)
    (hmax : (s.dinode i).size.toNat + p.length ≤ MAXFILE * BSIZE)
    (hroom : s.freeblock + need ((s.dinode i).size.toNat + p.length) ≤ FSSIZE + need (s.dinode i).size.toNat) :
    ∃ s', iappend s i p = .ok s' ∧
      s'.freeblock + need (s.dinode i).size.toNat = s.freeblock + need ((s.dinode i).size.toNat + p.length) := by
  have h200 : i < 200 := hi.lt hs.inodes
  obtain ⟨⟨din', off', s1⟩, hl, hle⟩ := loop_room (Nat.le_refl _) hs.base.self hi (hs.has i hi) hmax hs.bound hroom
  obtain ⟨hg, -⟩ := loop_spec (Nat.le_refl _) hs.base.self hi (hs.has i hi) (hs.small i hi) hs.bound hl
  rw [iappend, rinode_eq hs.base.length h200]
  show ∃ s', (iappendLoop _ _ _ _ _ >>= _) = _ ∧ _
  rw [hl]
  show ∃ s', winode s1 i { din' with size := .ofNat 32 off' } = .ok s' ∧ _
  rw [winode_eq hg.base.length h200]
  exact ⟨_, rfl, hle⟩

/-- a piece that fits into the block at the end of the file takes at most two blocks -/
theorem iappend_ok (hs : Inv s) (hi : s.InUse i) (hfb : s.freeblock + 2 ≤ FSSIZE)
    (hmax : (s.dinode i).size.toNat / BSIZE < MAXFILE)
    (hfit : p.length ≤ ((s.dinode i).size.toNat / BSIZE + 1) * BSIZE - (s.dinode i).size.toNat) :
    ∃ s', iappend s i p = .ok s' ∧ s'.freeblock ≤ s.freeblock + 2 := by
  generalize hn : (s.dinode i).size.toNat = n at hmax hfit
  have hneed : need (n + p.length) ≤ need n + 2 := by
    have hb : blocksFor (n + p.length) ≤ blocksFor n + 1 := by
      rw [bsize_eq] at hfit
      rw [blocksFor, blocksFor, bsize_eq]
      omega
    unfold need blockCount
    split <;> split <;> omega
  have hsmall : n + p.length ≤ MAXFILE * BSIZE := by
    rw [bsize_eq] at *
    omega
  obtain ⟨s', hr, hc⟩ := iappend_room hs hi (by rw [hn]; exact hsmall) (by rw [hn]; omega)
  rw [hn] at hc
  exact ⟨s', hr, by omega⟩

/-! ## what the kernel reads -/

theorem Base.content_low (h : Base D s) {k b x : Nat} (buf : Buf) (hk : s.InUse k) (hb : b < nmeta)
    (hx : (D k).block s.sector (x / BSIZE) ≠ 0) :
    content ⟨update s.sector b buf, []⟩ (D k) x = content s.store (D k) x := by
  have hblock : (D k).block (update s.sector b buf) (x / BSIZE) = (D k).block s.sector (x / BSIZE) :=
    block_congr (fun q => addr_low h buf hk hb q) _
  have hlt := lt_maxfile hx
  have hmem : nmeta ≤ (D k).block s.sector (x / BSIZE) := by
    rw [block_eq hlt] at hx ⊢
    exact (h.addr_mem hk hx).1
  show update s.sector b buf ((D k).block (update s.sector b buf) (x / BSIZE)) (x % BSIZE) =
    s.sector ((D k).block s.sector (x / BSIZE)) (x % BSIZE)
  rw [hblock, update_of_ne (by omega)]

theorem content_size (st : Store) (d : Dinode) (n : BitVec 32) : content st { d with size := n } = content st d := by
  have : ∀ bn, Dinode.block st.block { d with size := n } bn = d.block st.block bn :=
    block_congr fun q => by cases q <;> rfl
  funext x
  rw [content, content, this]

/-- **Appending**: the bytes come behind those of the file, and the other files stay. -/
theorem iappend_bytes (hs : Inv s) (hi : s.InUse i) (hr : iappend s i p = .ok s') :
    (∀ x, x < (s.dinode i).size.toNat + p.length → content s'.store (s'.dinode i) x =
      if (s.dinode i).size.toNat ≤ x then ofList p (x - (s.dinode i).size.toNat)
      else content s.store (s.dinode i) x) ∧
    ∀ k x, k ≠ i → s.InUse k → x < (s.dinode k).size.toNat →
      content s'.store (s'.dinode k) x = content s.store (s.dinode k) x := by
  obtain ⟨din, t, h⟩ := iappend_ran hs hi hr
  have hg := h.grown
  have hdin := (h.inv hs hi).2
  have huse : ∀ k, s.InUse k → t.InUse k := fun k hk => by rwa [State.InUse, hg.inode]
  have hlow := fun k x (hk : s.InUse k) => hg.base.content_low (x := x)
    (Dinode.put (t.sector (iblock i)) (64 * (i % IPB))
      { din with size := .ofNat 32 ((s.dinode i).size.toNat + p.length) }) (huse k hk) (iblock_lt (hi.lt hs.inodes))
  have hstore : s'.store = ⟨update t.sector (iblock i) (Dinode.put (t.sector (iblock i)) (64 * (i % IPB))
      { din with size := .ofNat 32 ((s.dinode i).size.toNat + p.length) }), []⟩ := by rw [h.written]; rfl
  rw [hstore]
  refine ⟨fun x hx => ?_, fun k x hne hu hx => ?_⟩
  · have hb : din.block t.sector (x / BSIZE) ≠ 0 := block_ne_zero h.has (blocksFor_le h.small) (div_lt_blocksFor hx)
    have hl := hlow i x hi (by rwa [update_self])
    rw [update_self] at hl
    rwa [hdin i (hi.lt hs.inodes), update_self, content_size, ← h.bytes.bytes x hx]
  · have hb : (s.dinode k).block s.sector (x / BSIZE) ≠ 0 :=
      block_ne_zero (hs.has k hu) (blocksFor_le (hs.small k hu)) (div_lt_blocksFor hx)
    have e : (s.dinode k).block t.sector (x / BSIZE) = (s.dinode k).block s.sector (x / BSIZE) :=
      block_congr (fun q => hg.other k q hne hu) _
    have hl := hlow k x hu (by rw [update_of_ne hne, e]; exact hb)
    rw [update_of_ne hne] at hl
    rwa [hdin k (hu.lt hs.inodes), update_of_ne hne, ← h.bytes.others k x hne hu hb]

/-! ## a new inode -/

/-- a new inode -/
def fresh (type : BitVec 16) : Dinode := { Dinode.zero with type := type, nlink := 1 }

theorem fresh_addr (type : BitVec 16) (sec : Nat → Buf) (q : Place) : (fresh type).addr sec q = 0 := by
  cases q <;> rfl

theorem needed_zero (q : Place) : ¬ q.Needed 0 := by
  cases q with
  | direct j | table | entry j => exact Nat.not_lt_zero _

/-- **A new inode** is an empty file. -/
theorem ialloc_inv (type : BitVec 16) (hs : Inv s) (h1 : 1 ≤ s.freeinode)
    (hlt : s.freeinode < NINODES) (ht : type ≠ 0) :
    ∃ s', ialloc s type = .ok (s.freeinode, s') ∧ Inv s' ∧ s'.freeinode = s.freeinode + 1 ∧
      s'.freeblock = s.freeblock ∧
      ∀ k, k < 200 → s'.dinode k = if k = s.freeinode then fresh type else s.dinode k := by
  let t : State := { s with freeinode := s.freeinode + 1 }
  have huse : ∀ k, t.InUse k ↔ k = s.freeinode ∨ s.InUse k := fun k => by
    show 1 ≤ k ∧ k < s.freeinode + 1 ↔ k = s.freeinode ∨ 1 ≤ k ∧ k < s.freeinode
    omega
  have hD : ∀ k, update s.dinode s.freeinode (fresh type) k =
      if k = s.freeinode then fresh type else s.dinode k := fun k => update_apply ..
  have hplaces : places (update s.dinode s.freeinode (fresh type)) t = places s.dinode s := by
    funext ⟨k, q⟩
    rw [places, places, hD]
    by_cases e : k = s.freeinode
    · rw [if_pos e, fresh_addr, ite_self, if_neg fun hc => Nat.lt_irrefl _ (e ▸ hc.2)]
    · by_cases hk : s.InUse k
      · rw [if_pos ((huse k).mpr (.inr hk)), if_neg e, if_pos hk]
      · rw [if_neg fun hc => ((huse k).mp hc).elim e hk, if_neg hk]
  have hbase : Base (update s.dinode s.freeinode (fresh type)) t :=
    ⟨hs.base.length, hs.base.first, by rw [hplaces]; exact hs.base.tight, hs.base.fresh⟩
  obtain ⟨hinv, hdin⟩ := Inv.of_winode hbase ((huse _).mpr (.inl rfl)) hlt hs.super hs.bound
    (fun k _ hne => update_of_ne hne _ _) (fun k hk => by
      rw [hD]
      by_cases e : k = s.freeinode
      · rw [if_pos e]
        refine ⟨ht, fun q => ?_, Nat.zero_le _⟩
        have hz : blocksFor (fresh type).size.toNat = 0 := by
          show blocksFor 0 = 0
          decide
        rw [fresh_addr, hz]
        exact ⟨fun hc => absurd rfl hc, fun hc => absurd hc (needed_zero q)⟩
      · have hk := ((huse k).mp hk).resolve_left e
        rw [if_neg e]
        exact ⟨hs.type k hk, hs.has k hk, hs.small k hk⟩) rfl
  refine ⟨_, ?_, hinv, rfl, rfl, fun k hk => (hdin k hk).trans (hD k)⟩
  rw [ialloc, winode_eq (s := t) hs.base.length hlt, update_self]
  rfl

end

/-! ## the counter of inodes -/

section
variable {s s' : State} {i : Nat} {din : Dinode} {p : List Byte}

theorem winode_freeinode (h : winode s i din = .ok s') : s'.freeinode = s.freeinode := by
  obtain ⟨_, -, h⟩ := bind_ok h
  cases h
  rfl

theorem blockOf_freeinode {fbn : Nat} {r : Nat × Dinode × State} (h : blockOf s din fbn = .ok r) :
    r.2.2.freeinode = s.freeinode := by
  have htake : ∀ k c [Decidable c],
      (if c then takeAddr s din k else (din, s)).2.freeinode = s.freeinode := by
    intro k c _
    split <;> rfl
  by_cases hf : fbn < NDIRECT
  · rw [blockOf, dif_pos hf] at h
    cases h
    exact htake _ _
  rw [blockOf, dif_neg hf] at h
  obtain ⟨buf, -, h⟩ := bind_ok h
  by_cases h0 : get32 buf (4 * (fbn - NDIRECT)) = 0
  · rw [if_pos h0] at h
    cases h
    exact htake _ _
  · rw [if_neg h0] at h
    cases h
    exact htake _ _

theorem loop_freeinode {n off : Nat} {r : Dinode × Nat × State} (h : iappendLoop n s din off p = .ok r) :
    r.2.2.freeinode = s.freeinode := by
  induction n generalizing s din off p with
  | zero =>
    cases h
    rfl
  | succ n ih =>
    rw [iappendLoop] at h
    split at h
    · cases h
      rfl
    obtain ⟨_, -, h⟩ := bind_ok h
    obtain ⟨q, hb, h⟩ := bind_ok h
    obtain ⟨_, -, h⟩ := bind_ok h
    rw [ih h]
    exact blockOf_freeinode hb

theorem iappend_freeinode (h : iappend s i p = .ok s') : s'.freeinode = s.freeinode := by
  obtain ⟨_, -, h⟩ := bind_ok h
  obtain ⟨r, hl, h⟩ := bind_ok h
  rw [winode_freeinode h, loop_freeinode hl]

theorem ialloc_freeinode {type : BitVec 16} (h : ialloc s type = .ok (i, s')) :
    i = s.freeinode ∧ s'.freeinode = s.freeinode + 1 := by
  obtain ⟨_, hw, h⟩ := bind_ok h
  cases h
  exact ⟨rfl, winode_freeinode hw⟩

end

end Mkfs
