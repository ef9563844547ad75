import Xv6.Mkfs.Model

/-!
# Blocks that `mkfs` has given out

* `Base`            every block from `nmeta` up to `freeblock` stands in one place, and what is behind
                    is zero;
* `Base.fill`       the next block is stored in an empty place;
* `Takes`           the next blocks are stored in places of an inode;
* `blockOf_found`   so `iappend` finds or makes the block that it writes to.
-/

namespace Mkfs
open Bytes Fs Slots Function List

theorem nmeta_eq : nmeta = 46 := rfl
theorem fssize_eq : FSSIZE = 2000 := rfl
theorem bsize_eq : BSIZE = 1024 := rfl
theorem inodestart_eq : sb.inodestart.toNat = 32 := rfl
theorem bmapstart_eq : sb.bmapstart.toNat = 45 := rfl

theorem place_eq {sec : Nat} (h : sec < 4194304) : place sec = sec := by
  rw [place, bsize_eq, Nat.mod_eq_of_lt (by omega), Nat.mul_div_cancel _ (by decide)]

instance (s : State) (i : Nat) : Decidable (s.InUse i) := inferInstanceAs (Decidable (_ ∧ _))

/-- the block number in each place of each inode -/
def places (D : Nat → Dinode) (s : State) (x : Nat × Place) : Nat :=
  if s.InUse x.1 then (D x.1).addr s.sector x.2 else 0

/-- the blocks that are given out -/
def given (s : State) : Set Nat := {b | nmeta ≤ b ∧ b < s.freeblock}

/-- the inodes `D` with the sectors of `s` -/
structure Base (D : Nat → Dinode) (s : State) : Prop where
  length : s.length = FSSIZE
  first : nmeta ≤ s.freeblock
  tight : Tight (places D s) (given s)
  fresh : ∀ b, s.freeblock ≤ b → s.sector b = fun _ => 0

section
variable {D D' : Nat → Dinode} {s s' : State} {i : Nat} {p : Place}

theorem Base.addr_mem (h : Base D s) (hi : s.InUse i) (hp : (D i).addr s.sector p ≠ 0) :
    nmeta ≤ (D i).addr s.sector p ∧ (D i).addr s.sector p < s.freeblock := by
  have e : places D s (i, p) = (D i).addr s.sector p := if_pos hi
  have := h.tight.of_ne (by rwa [e])
  rwa [e] at this

theorem Base.addr_inj {i' : Nat} {p' : Place} (h : Base D s) (hi : s.InUse i) (hi' : s.InUse i')
    (hp : (D i).addr s.sector p ≠ 0) (he : (D i).addr s.sector p = (D i').addr s.sector p') :
    i = i' ∧ p = p' := by
  have e : places D s (i, p) = (D i).addr s.sector p := if_pos hi
  have e' : places D s (i', p') = (D i').addr s.sector p' := if_pos hi'
  have := h.tight.inj (i, p) (i', p') (by rwa [e]) (by rw [e, e', he])
  exact ⟨congrArg Prod.fst this, congrArg Prod.snd this⟩

theorem Base.fill (h : Base D s) (hi : s.InUse i) (h0 : (D i).addr s.sector p = 0)
    (hlen : s'.length = s.length) (hino : s'.freeinode = s.freeinode)
    (hfb : s'.freeblock = s.freeblock + 1)
    (hsec : ∀ b, s.freeblock < b → s'.sector b = s.sector b)
    (hp : (D' i).addr s'.sector p = s.freeblock)
    (hother : ∀ i' p', s.InUse i' → (i', p') ≠ (i, p) →
      (D' i').addr s'.sector p' = (D i').addr s.sector p') : Base D' s' := by
  have hfirst := h.first
  have huse : ∀ i', s'.InUse i' ↔ s.InUse i' := fun i' => by rw [State.InUse, State.InUse, hino]
  have hgiven : given s' = insert s.freeblock (given s) := by
    ext b
    show nmeta ≤ b ∧ b < s'.freeblock ↔ b = s.freeblock ∨ nmeta ≤ b ∧ b < s.freeblock
    omega
  refine ⟨by rw [hlen, h.length], by omega, ?_, fun b hb => ?_⟩
  · rw [hgiven]
    refine h.tight.fill (a := (i, p)) ?_ ?_ ?_ ?_ ?_
    · rw [places, if_pos hi, h0]
    · exact fun hm => Nat.lt_irrefl _ hm.2
    · rw [nmeta_eq] at hfirst
      omega
    · rw [places, if_pos ((huse i).mpr hi), hp]
    · rintro ⟨i', p'⟩ hne
      by_cases hi' : s.InUse i'
      · rw [places, places, if_pos hi', if_pos ((huse i').mpr hi')]
        exact hother i' p' hi' hne
      · rw [places, places, if_neg hi', if_neg fun hc => hi' ((huse i').mp hc)]
  · rw [hsec b (by omega), h.fresh b (by omega)]

theorem Base.write (h : Base D s) (hlen : s'.length = s.length) (hino : s'.freeinode = s.freeinode)
    (hfb : s'.freeblock = s.freeblock) (hfresh : ∀ b, s.freeblock ≤ b → s'.sector b = s.sector b)
    (hsec : ∀ i p, s.InUse i → (D' i).addr s'.sector p = (D i).addr s.sector p) : Base D' s' := by
  have huse : ∀ i', s'.InUse i' ↔ s.InUse i' := fun i' => by rw [State.InUse, State.InUse, hino]
  have hgiven : given s' = given s := by rw [given, given, hfb]
  have hplaces : places D' s' = places D s := by
    funext ⟨i, p⟩
    by_cases hi : s.InUse i
    · rw [places, places, if_pos hi, if_pos ((huse i).mpr hi), hsec i p hi]
    · rw [places, places, if_neg hi, if_neg fun hc => hi ((huse i).mp hc)]
  refine ⟨by rw [hlen, h.length], by rw [hfb]; exact h.first, by rw [hplaces, hgiven]; exact h.tight,
    fun b hb => ?_⟩
  rw [hfb] at hb
  rw [hfresh b hb, h.fresh b hb]

end

/-! ## storing a new block number -/

/-- `din'` and `s'` come from `din` and `s` by storing block numbers of the inode `i` -/
structure Grown (D : Nat → Dinode) (i : Nat) (din : Dinode) (s : State) (din' : Dinode) (s' : State) :
    Prop where
  base : Base (Function.update D i din') s'
  inode : s'.freeinode = s.freeinode
  low : ∀ b, b < nmeta → s'.sector b = s.sector b
  other : ∀ i' p, i' ≠ i → s.InUse i' → (D i').addr s'.sector p = (D i').addr s.sector p
  rest : din'.type = din.type ∧ din'.size = din.size

section
variable {D : Nat → Dinode} {s s' s1 : State} {i : Nat} {din din' din1 : Dinode}

theorem Grown.refl (h : Base (update D i din) s) : Grown D i din s din s :=
  ⟨h, rfl, fun _ _ => rfl, fun _ _ _ _ => rfl, rfl, rfl⟩

theorem Grown.trans (h : Grown D i din s din1 s1) (h' : Grown D i din1 s1 din' s') :
    Grown D i din s din' s' := by
  refine ⟨h'.base, h'.inode.trans h.inode, fun b hb => (h'.low b hb).trans (h.low b hb),
    fun i' p hi hu => ?_, h'.rest.1.trans h.rest.1, h'.rest.2.trans h.rest.2⟩
  have hu1 : s1.InUse i' := by rwa [State.InUse, h.inode]
  rw [h'.other i' p hi hu1, h.other i' p hi hu]

/-- the next blocks are stored in the places `l` of the inode `i`, in this order -/
structure Takes (D : Nat → Dinode) (i : Nat) (din : Dinode) (s : State) (l : List Place) (din' : Dinode) (s' : State) :
    Prop where
  grown : Grown D i din s din' s'
  free : s'.freeblock = s.freeblock + l.length
  new : ∀ k q, l[k]? = some q → din'.addr s'.sector q = s.freeblock + k
  old : ∀ q, q ∉ l → din'.addr s'.sector q = din.addr s.sector q
  data : ∀ b, b < s.freeblock → b ≠ din.table.toNat → s'.sector b = s.sector b

theorem Takes.nil (h : Base (update D i din) s) : Takes D i din s [] din s :=
  ⟨.refl h, rfl, fun _ _ hk => by simp at hk, fun _ _ => rfl, fun _ _ _ => rfl⟩

theorem Takes.one {p : Place} (hg : Grown D i din s din' s') (hf : s'.freeblock = s.freeblock + 1)
    (hq : ∀ q, din'.addr s'.sector q = if q = p then s.freeblock else din.addr s.sector q)
    (hd : ∀ b, b < s.freeblock → b ≠ din.table.toNat → s'.sector b = s.sector b) : Takes D i din s [p] din' s' := by
  refine ⟨hg, hf, fun k q hk => ?_, fun q hn => ?_, hd⟩
  · cases k with
    | zero =>
      cases hk
      exact (hq p).trans (if_pos rfl)
    | succ k => simp at hk
  · rw [hq, if_neg fun e => hn (mem_singleton.mpr e)]

theorem Takes.append {l l' : List Place} (h : Takes D i din s l din1 s1) (h' : Takes D i din1 s1 l' din' s')
    (hl : ∀ q ∈ l, q ∉ l') : Takes D i din s (l ++ l') din' s' := by
  have hf := h.free
  refine ⟨h.grown.trans h'.grown, by rw [h'.free, hf, length_append, Nat.add_assoc], fun k q hk => ?_,
    fun q hn => ?_, fun b hb hne => ?_⟩
  · by_cases hlt : k < l.length
    · rw [getElem?_append_left hlt] at hk
      rw [h'.old q (hl q (mem_of_getElem? hk)), h.new k q hk]
    · rw [getElem?_append_right (Nat.le_of_not_lt hlt)] at hk
      rw [h'.new _ q hk, hf]
      omega
  · rw [mem_append, not_or] at hn
    rw [h'.old q hn.2, h.old q hn.1]
  · rw [h'.data b (by omega), h.data b hb hne]
    by_cases ht : Place.table ∈ l
    · obtain ⟨k, hk⟩ := mem_iff_getElem?.mp ht
      have := h.new k _ hk
      rw [Dinode.addr_table] at this
      omega
    · have := h.old _ ht
      rw [Dinode.addr_table, Dinode.addr_table] at this
      omega

theorem takeAddr_takes {k : Fin (NDIRECT + 1)} {p : Place} (h : Base (update D i din) s)
    (hi : s.InUse i) (h0 : din.addr s.sector p = 0)
    (hp : ∀ q, (din.setAddr k (.ofNat 32 s.freeblock)).addr s.sector q =
      if q = p then s.freeblock else din.addr s.sector q) :
    Takes D i din s [p] (takeAddr s din k).1 (takeAddr s din k).2 := by
  refine .one ⟨?_, rfl, fun _ _ => rfl, fun _ _ _ _ => rfl, rfl, rfl⟩ rfl hp fun _ _ _ => rfl
  refine h.fill (p := p) hi ?_ rfl rfl rfl (fun _ _ => rfl) ?_ ?_
  · rwa [update_self]
  · rw [update_self]
    exact (hp p).trans (if_pos rfl)
  · intro i' p' hi' hne
    by_cases e : i' = i
    · subst e
      rw [update_self, update_self]
      exact (hp p').trans (if_neg fun ep => hne (by rw [ep]))
    · rw [update_of_ne e, update_of_ne e]
      rfl

variable {fbn n sec : Nat}

theorem toNat_ofNat (h : n < 2 ^ 32) : (BitVec.ofNat 32 n).toNat = n := by
  rw [BitVec.toNat_ofNat, Nat.mod_eq_of_lt h]

theorem takeEntry_takes {j : Fin NINDIRECT} (h : Base (update D i din) s) (hi : s.InUse i)
    (ht : din.table ≠ 0) (h0 : din.addr s.sector (.entry j) = 0) (hfb : s.freeblock < 2 ^ 32)
    (hs : s' = { s with
      freeblock := s.freeblock + 1
      sector := update s.sector din.table.toNat
        (set32 (s.sector din.table.toNat) (4 * j) (.ofNat 32 s.freeblock)) }) :
    Takes D i din s [.entry j] din s' := by
  have hd : update D i din i = din := update_self _ _ _
  have hq : ∀ q, din.addr s'.sector q =
      if q = .entry j then s.freeblock else din.addr s.sector q := fun q => by
    rw [hs, Dinode.addr_setEntry ht, toNat_ofNat hfb]
  have htable : (update D i din i).addr s.sector .table ≠ 0 := by
    rw [hd, Dinode.addr_table]
    exact fun e => ht (BitVec.eq_of_toNat_eq e)
  have hmem := h.addr_mem hi htable
  rw [hd, Dinode.addr_table] at hmem
  -- no other inode has this indirect block
  have hother : ∀ i' p, i' ≠ i → s.InUse i' →
      (D i').addr s'.sector p = (D i').addr s.sector p := by
    intro i' p hne hu
    apply Dinode.addr_congr
    intro ht'
    rw [hs]
    apply update_of_ne
    intro e
    have hi' : update D i din i' = D i' := update_of_ne hne _ _
    have ht' : (update D i din i').addr s.sector .table ≠ 0 := by
      rw [hi', Dinode.addr_table]
      exact fun e => ht' (BitVec.eq_of_toNat_eq e)
    have e' : (update D i din i').addr s.sector .table = (update D i din i).addr s.sector .table := by
      rwa [hi', hd]
    exact hne (h.addr_inj hu hi ht' e').1
  refine .one ⟨?_, by rw [hs], fun b hb => ?_, hother, rfl, rfl⟩ (by rw [hs]) hq fun b _ hb => ?_
  · refine h.fill hi (by rw [hd, h0]) (by rw [hs]) (by rw [hs]) (by rw [hs]) ?_ ?_ ?_
    · intro b hb
      rw [hs]
      exact update_of_ne (by omega) _ _
    · rw [hd, hq, if_pos rfl]
    · intro i' p' hu hne
      by_cases e : i' = i
      · subst e
        rw [hd, hq, if_neg fun ep => hne (by rw [ep])]
      · rw [update_of_ne e]
        exact hother i' p' e hu
  · rw [hs]
    exact update_of_ne (by omega) _ _
  · rw [hs]
    exact update_of_ne hb _ _

/-! ## the block that `iappend` writes to -/

theorem rsect_eq (hl : s.length = FSSIZE) (h : sec < FSSIZE) : rsect s sec = .ok (s.sector sec) := by
  rw [fssize_eq] at h hl
  rw [rsect, place_eq (by omega), if_pos (by omega)]

theorem rsect_ok {buf : Buf} (hl : s.length = FSSIZE) (hb : sec < 4194304)
    (h : rsect s sec = .ok buf) : sec < FSSIZE ∧ buf = s.sector sec := by
  rw [rsect, place_eq hb, hl] at h
  split at h
  · cases h
    exact ⟨‹_›, rfl⟩
  · cases h

theorem wsect_eq {buf : Buf} (hl : s.length = FSSIZE) (h : sec < FSSIZE) :
    wsect s sec buf = { s with sector := update s.sector sec buf } := by
  rw [fssize_eq] at h hl
  rw [wsect, place_eq (by omega), hl, Nat.max_eq_left (by omega), ← hl]

/-- the inode has exactly the block numbers of a file of `n` blocks -/
def HasBlocks (sec : Nat → Buf) (d : Dinode) (n : Nat) : Prop :=
  ∀ p, d.addr sec p ≠ 0 ↔ p.Needed n

theorem toNat_ne_zero {x : BitVec 32} : x ≠ 0 ↔ x.toNat ≠ 0 :=
  not_congr ⟨fun h => by rw [h]; rfl, fun h => BitVec.eq_of_toNat_eq h⟩

/-- how many blocks a file of `n` blocks takes, with the indirect block -/
def blockCount (n : Nat) : Nat := n + if NDIRECT < n then 1 else 0

/-- what `blockOf` answers; the file had `n` blocks -/
structure Found (D : Nat → Dinode) (i : Nat) (din : Dinode) (s : State) (n fbn : Nat)
    (r : Nat × Dinode × State) : Prop where
  grown : Grown D i din s r.2.1 r.2.2
  has : HasBlocks r.2.2.sector r.2.1 (fbn + 1)
  block : r.2.1.block r.2.2.sector fbn = r.1
  ne_zero : r.1 ≠ 0
  bound : r.1 < FSSIZE → r.2.2.freeblock ≤ FSSIZE
  count : r.2.2.freeblock + blockCount n = s.freeblock + blockCount (fbn + 1)
  kept : ∀ p, din.addr s.sector p ≠ 0 → r.2.1.addr r.2.2.sector p = din.addr s.sector p
  data : ∀ b, b < s.freeblock → b ≠ din.table.toNat → r.2.2.sector b = s.sector b

/-- the places that get a block for the block `fbn` -/
def newPlaces (din : Dinode) (fbn : Nat) (h : fbn < MAXFILE) : List Place :=
  (if NDIRECT ≤ fbn ∧ din.table = 0 then [.table] else []) ++ [placeOf fbn h]

theorem table_takes (h : Base (update D i din) s) (hi : s.InUse i) (hfb : s.freeblock ≤ FSSIZE)
    {r : Dinode × State} (hr : r = if din.table = 0 then takeAddr s din (Fin.last NDIRECT) else (din, s)) :
    Takes D i din s (if din.table = 0 then [.table] else []) r.1 r.2 ∧ r.1.table ≠ 0 ∧ r.1.table.toNat ≤ s.freeblock := by
  have hfirst := h.first
  rw [nmeta_eq] at hfirst
  rw [fssize_eq] at hfb
  by_cases h0 : din.table = 0
  · rw [if_pos h0] at hr ⊢
    subst hr
    have ht : Takes D i din s [.table] (takeAddr s din (Fin.last NDIRECT)).1 (takeAddr s din (Fin.last NDIRECT)).2 := by
      refine takeAddr_takes h hi (by rw [Dinode.addr_table, h0]; rfl) fun q => ?_
      rw [Dinode.addr_setTable h0 (by rw [toNat_ofNat (by omega)]; exact h.fresh _ (Nat.le_refl _)),
        toNat_ofNat (by omega)]
    have hx := ht.new 0 .table rfl
    rw [Dinode.addr_table] at hx
    exact ⟨ht, toNat_ne_zero.mpr (by omega), by omega⟩
  · rw [if_neg h0] at hr ⊢
    subst hr
    have hm := h.addr_mem hi (p := .table) (by rw [update_self]; exact toNat_ne_zero.mp h0)
    rw [update_self, Dinode.addr_table] at hm
    exact ⟨.nil h, h0, Nat.le_of_lt hm.2⟩

theorem blockOf_takes (hmax : fbn < MAXFILE) (h : Base (update D i din) s) (hi : s.InUse i)
    (hfb : s.freeblock ≤ FSSIZE) {r : Nat × Dinode × State} (hr : blockOf s din fbn = .ok r) :
    r.2.1.block r.2.2.sector fbn = r.1 ∧
      (din.addr s.sector (placeOf fbn hmax) ≠ 0 ∧ r.2 = (din, s) ∨
        din.addr s.sector (placeOf fbn hmax) = 0 ∧ Takes D i din s (newPlaces din fbn hmax) r.2.1 r.2.2) := by
  have h2000 : s.freeblock ≤ 2000 := hfb
  by_cases hf : fbn < NDIRECT
  · have hp : placeOf fbn hmax = .direct ⟨fbn, hf⟩ := dif_pos hf
    rw [blockOf, dif_pos hf] at hr
    simp only at hr
    rw [newPlaces, if_neg fun hc => Nat.not_lt_of_le hc.1 hf, hp]
    by_cases h0 : din.addrs (Fin.castSucc ⟨fbn, hf⟩) = 0
    · rw [if_pos (c := din.addrs ⟨fbn, Nat.lt_succ_of_lt hf⟩ = 0) h0] at hr
      cases hr
      have hq : ∀ q, (din.setAddr (Fin.castSucc ⟨fbn, hf⟩) (.ofNat 32 s.freeblock)).addr s.sector q =
          if q = .direct ⟨fbn, hf⟩ then s.freeblock else din.addr s.sector q := fun q => by
        rw [Dinode.addr_setDirect, toNat_ofNat (by omega)]
      exact ⟨dif_pos hf, .inr ⟨congrArg BitVec.toNat h0, takeAddr_takes h hi (congrArg BitVec.toNat h0) hq⟩⟩
    · rw [if_neg (c := din.addrs ⟨fbn, Nat.lt_succ_of_lt hf⟩ = 0) h0] at hr
      cases hr
      exact ⟨dif_pos hf, .inl ⟨toNat_ne_zero.mp h0, rfl⟩⟩
  have hp : placeOf fbn hmax = .entry ⟨fbn - NDIRECT, _⟩ := dif_neg hf
  generalize hj : (⟨fbn - NDIRECT, _⟩ : Fin NINDIRECT) = j at hp
  have hv : j.val = fbn - NDIRECT := congrArg Fin.val hj.symm
  rw [blockOf, dif_neg hf, ← hv] at hr
  simp only at hr
  obtain ⟨t, ht⟩ : ∃ t, t = if din.table = 0 then takeAddr s din (Fin.last NDIRECT) else (din, s) := ⟨_, rfl⟩
  rw [← ht] at hr
  obtain ⟨htake, hne, hle⟩ := table_takes h hi hfb ht
  have hi1 : t.2.InUse i := by rwa [State.InUse, htake.grown.inode]
  have hlen := htake.grown.base.length
  have hfree : t.2.freeblock ≤ s.freeblock + 1 := by
    rw [htake.free]
    split <;> simp
  cases hrs : rsect t.2 t.1.table.toNat with
  | error e =>
    rw [hrs] at hr
    cases hr
  | ok buf =>
    rw [hrs] at hr
    obtain ⟨htb, rfl⟩ := rsect_ok hlen (by omega) hrs
    have hentry : t.1.addr t.2.sector (.entry j) = (get32 (t.2.sector t.1.table.toNat) (4 * j)).toNat :=
      Dinode.addr_entry hne j
    have hsame : t.1.addr t.2.sector (.entry j) = din.addr s.sector (.entry j) :=
      htake.old _ (by split <;> simp)
    change (if get32 (t.2.sector t.1.table.toNat) (4 * j) = 0 then _ else _) = _ at hr
    rw [hp]
    by_cases h0 : get32 (t.2.sector t.1.table.toNat) (4 * j) = 0
    · have h0' : t.1.addr t.2.sector (.entry j) = 0 := by rw [hentry, h0]; rfl
      have hlen' : ({ t.2 with freeblock := t.2.freeblock + 1 } : State).length = FSSIZE := hlen
      rw [if_pos h0, get32_set32, wsect_eq hlen' htb, toNat_ofNat (by omega)] at hr
      cases hr
      have hlast := takeEntry_takes htake.grown.base hi1 hne h0' (by omega) rfl
      refine ⟨?_, .inr ⟨hsame ▸ h0', ?_⟩⟩
      · rw [block_eq hmax, hp]
        exact hlast.new 0 _ rfl
      · have := htake.append hlast (by split <;> simp)
        rw [newPlaces, hp]
        simpa only [Nat.le_of_not_lt hf, true_and] using this
    · rw [if_neg h0] at hr
      cases hr
      have h0' : din.addr s.sector (.entry j) ≠ 0 := by
        rw [← hsame, hentry]
        exact toNat_ne_zero.mp h0
      have hd : din.table ≠ 0 := fun e => h0' (Dinode.addr_entry_zero e j)
      refine ⟨?_, .inl ⟨h0', by rw [ht, if_neg hd]⟩⟩
      rwa [block_eq hmax, hp]

theorem needed_succ (hmax : fbn < MAXFILE) (hn : n = fbn) (p : Place) :
    p.Needed (fbn + 1) ↔ p = placeOf fbn hmax ∨ p = .table ∧ NDIRECT ≤ fbn ∨ p.Needed n := by
  subst hn
  unfold placeOf
  cases p with
  | direct k =>
    simp only [Place.Needed]
    split
    · simp only [Place.direct.injEq, Fin.ext_iff]
      simp
      omega
    · simp
      omega
  | table =>
    simp only [Place.Needed]
    split
    · simp
      omega
    · simp
      omega
  | entry j =>
    simp only [Place.Needed]
    split
    · simp
      omega
    · simp only [Place.entry.injEq, Fin.ext_iff]
      simp
      omega

theorem placeOf_needed (h : fbn < MAXFILE) : (placeOf fbn h).Needed n ↔ fbn < n := by
  unfold placeOf
  split
  · exact Iff.rfl
  · show NDIRECT + (fbn - NDIRECT) < n ↔ _
    omega

theorem newPlaces_count (hmax : fbn < MAXFILE) (hn : HasBlocks s.sector din n) (h : n = fbn) :
    (newPlaces din fbn hmax).length + blockCount n = blockCount (fbn + 1) := by
  have ht : din.table ≠ 0 ↔ NDIRECT < n := toNat_ne_zero.trans (hn .table)
  subst h
  unfold newPlaces blockCount
  by_cases h12 : NDIRECT < n
  · rw [if_neg fun hc => ht.mpr h12 hc.2, if_pos h12, if_pos (by omega)]
    simp
    omega
  have h0 : din.table = 0 := not_not.mp fun hc => h12 (ht.mp hc)
  rw [if_neg h12]
  by_cases he : NDIRECT ≤ n
  · rw [if_pos ⟨he, h0⟩, if_pos (by omega)]
    simp
    omega
  · rw [if_neg fun hc => he hc.1, if_neg (by omega)]
    simp
    omega

theorem blockOf_found (h : Base (update D i din) s)
    (hi : s.InUse i) (hn : HasBlocks s.sector din n) (h1 : fbn ≤ n) (h2 : n ≤ fbn + 1)
    (hmax : fbn < MAXFILE) (hfb : s.freeblock ≤ FSSIZE) {r : Nat × Dinode × State}
    (hr : blockOf s din fbn = .ok r) : Found D i din s n fbn r := by
  have hfirst := h.first
  rw [nmeta_eq] at hfirst
  have hneeded := (hn (placeOf fbn hmax)).trans (placeOf_needed hmax)
  obtain ⟨hblock, hcase⟩ := blockOf_takes hmax h hi hfb hr
  obtain ⟨x, din', s'⟩ := r
  dsimp only at hblock hcase
  rcases hcase with ⟨h0, e⟩ | ⟨h0, ht⟩
  · cases e
    have hnf : n = fbn + 1 := by
      omega
    rw [block_eq hmax] at hblock
    exact ⟨.refl h, hnf ▸ hn, by rw [block_eq hmax, hblock], hblock ▸ h0, fun _ => hfb, by rw [hnf], fun _ _ => rfl,
      fun _ _ _ => rfl⟩
  have hnf : n = fbn := by
    omega
  have hmem : ∀ p, p ∈ newPlaces din fbn hmax ↔ p = placeOf fbn hmax ∨ p = .table ∧ NDIRECT ≤ fbn ∧ din.table = 0 := by
    intro p
    unfold newPlaces
    split
    · next hc => simp [hc, or_comm]
    · next hc => simp only [hc, and_false, or_false, nil_append, mem_singleton]
  have hnew : ∀ p, p ∈ newPlaces din fbn hmax → din'.addr s'.sector p ≠ 0 ∧ din.addr s.sector p = 0 := by
    intro p hp
    obtain ⟨k, hk⟩ := mem_iff_getElem?.mp hp
    have := ht.new k p hk
    refine ⟨by omega, ?_⟩
    rcases (hmem p).mp hp with rfl | ⟨rfl, -, h0⟩
    · exact h0
    · rw [Dinode.addr_table, h0]
      rfl
  have hx : x = s.freeblock + ((newPlaces din fbn hmax).length - 1) := by
    rw [← hblock, block_eq hmax]
    refine ht.new _ _ ?_
    unfold newPlaces
    simp
  have hfree := ht.free
  refine ⟨ht.grown, fun p => ?_, hblock, by omega, fun hlt => by show s'.freeblock ≤ _; omega, ?_, fun p hp => ?_, ht.data⟩
  · rw [needed_succ hmax hnf, ← hn p]
    by_cases hp : p ∈ newPlaces din fbn hmax
    · refine ⟨fun _ => ?_, fun _ => (hnew p hp).1⟩
      rcases (hmem p).mp hp with e | ⟨e, h12, -⟩
      · exact .inl e
      · exact .inr (.inl ⟨e, h12⟩)
    rw [ht.old p hp]
    refine ⟨fun hne => .inr (.inr hne), ?_⟩
    rw [hmem, not_or] at hp
    rintro (e | ⟨e, h12⟩ | hne)
    · exact absurd e hp.1
    · rw [e, Dinode.addr_table]
      exact toNat_ne_zero.mp fun h0 => hp.2 ⟨e, h12, h0⟩
    · exact hne
  · have := newPlaces_count hmax hn hnf
    show s'.freeblock + blockCount n = _
    omega
  · refine ht.old p fun hm => hp (hnew p hm).2

theorem blockOf_ok (fbn : Nat) (h : Base (update D i din) s) (hi : s.InUse i)
    (hn : HasBlocks s.sector din n) (hfb : s.freeblock ≤ FSSIZE)
    (hroom : NDIRECT ≤ fbn → s.freeblock < FSSIZE ∨ NDIRECT < n) : ∃ r, blockOf s din fbn = .ok r := by
  by_cases hf : fbn < NDIRECT
  · exact ⟨_, by rw [blockOf, dif_pos hf]⟩
  rw [blockOf, dif_neg hf]
  simp only
  obtain ⟨t, ht⟩ : ∃ t, t = if din.table = 0 then takeAddr s din (Fin.last NDIRECT) else (din, s) :=
    ⟨_, rfl⟩
  rw [← ht]
  obtain ⟨htake, -, hle⟩ := table_takes h hi hfb ht
  have htab : t.1.table.toNat < FSSIZE := by
    rcases hroom (Nat.le_of_not_lt hf) with hroom | hroom
    · omega
    have h0 : din.addr s.sector .table ≠ 0 := (hn .table).mpr hroom
    have hm := h.addr_mem hi (by rwa [update_self])
    rw [update_self, Dinode.addr_table] at hm
    rw [ht, if_neg (toNat_ne_zero.mpr h0)]
    exact Nat.lt_of_lt_of_le hm.2 hfb
  rw [rsect_eq htake.grown.base.length htab]
  show ∃ r, (if get32 (t.2.sector t.1.table.toNat) (4 * (fbn - NDIRECT)) = 0 then _ else _) = _
  split <;> exact ⟨_, rfl⟩

end

end Mkfs
