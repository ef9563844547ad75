import Xv6.Fs.Contents
import Xv6.Mkfs.Alloc

/-!
# The loop of `iappend`

The image of `mkfs` is a disk for the kernel: `content` is what it finds in a file.

* `Inv`           the image between two calls: every inode in use has the blocks for its size;
* `Appended`      a file gets bytes at its end, and the others stay;
* `turn_spec`     one turn of the loop;
* `loop_spec`     the loop writes all bytes, and leaves every file with the blocks it needs;
* `loop_room`     it takes the blocks that the file needs more, and succeeds if they are there.
-/

namespace Mkfs
open Bytes Fs Slots Function List

/-- the disk that the kernel finds -/
def State.store (s : State) : Store := ⟨s.sector, []⟩

structure Inv (s : State) : Prop where
  base : Base s.dinode s
  super : s.sector 1 = sb.put fun _ => 0
  inodes : s.freeinode ≤ NINODES
  bound : s.freeblock ≤ FSSIZE
  type : ∀ i, s.InUse i → (s.dinode i).type ≠ 0
  has : ∀ i, s.InUse i → HasBlocks s.sector (s.dinode i) (blocksFor (s.dinode i).size.toNat)
  small : ∀ i, s.InUse i → (s.dinode i).size.toNat ≤ MAXFILE * BSIZE

theorem iblock_eq (i : Nat) : iblock i = i / 16 + 32 := rfl

theorem bind_ok {α β : Type} {x : Except Stop α} {f : α → Except Stop β} {b : β}
    (h : (x >>= f) = .ok b) : ∃ a, x = .ok a ∧ f a = .ok b := by
  cases x with
  | error e => cases h
  | ok a => exact ⟨a, rfl, h⟩

theorem ok_bind {α β : Type} {x : Except Stop α} {f : α → Except Stop β} {a : α} (h : x = .ok a) :
    (x >>= f) = f a := by
  rw [h]
  rfl

theorem assert_ok {e : String} {c : Prop} [Decidable c] {u : Unit} (h : assert e c = .ok u) : c := by
  unfold assert at h
  split at h
  · assumption
  · cases h

theorem assert_true {e : String} {c : Prop} [Decidable c] (h : c) : assert e c = .ok () := if_pos h

section
variable {D : Nat → Dinode} {s s' : State} {i : Nat} {din din' : Dinode} {p : List Byte}

theorem State.InUse.lt (hi : s.InUse i) (h : s.freeinode ≤ NINODES) : i < 200 :=
  Nat.lt_of_lt_of_le hi.2 h

/-! ## the inode area -/

theorem winode_eq (hl : s.length = FSSIZE) (hi : i < 200) (d : Dinode) :
    winode s i d = .ok { s with
      sector := update s.sector (iblock i) (d.put (s.sector (iblock i)) (64 * (i % IPB))) } := by
  have hlt : iblock i < FSSIZE := by
    rw [iblock_eq, fssize_eq]
    omega
  rw [winode, rsect_eq hl hlt]
  show Except.ok (wsect s (iblock i) _) = _
  rw [wsect_eq hl hlt]

theorem rinode_eq (hl : s.length = FSSIZE) (hi : i < 200) : rinode s i = .ok (s.dinode i) := by
  have hlt : iblock i < FSSIZE := by
    rw [iblock_eq, fssize_eq]
    omega
  rw [rinode, rsect_eq hl hlt]
  rfl

variable {k n off : Nat}

theorem dinode_winode {d : Dinode}
    (hs : s'.sector = update s.sector (iblock i) (d.put (s.sector (iblock i)) (64 * (i % IPB)))) :
    s'.dinode k = update s.dinode i d k := by
  rw [State.dinode, hs]
  by_cases e : k = i
  · subst e
    rw [update_self, update_self, Dinode.get_put]
  rw [update_of_ne e]
  by_cases eb : iblock k = iblock i
  · rw [eb, update_self, Dinode.get_put_ne, State.dinode, eb]
    rw [iblock_eq, iblock_eq] at eb
    rw [show IPB = 16 from rfl]
    omega
  · rw [update_of_ne eb, State.dinode]

theorem addr_low {f : Nat → Dinode} (h : Base f s) {b : Nat} (buf : Buf) (hk : s.InUse k)
    (hb : b < nmeta) (q : Place) :
    (f k).addr (update s.sector b buf) q = (f k).addr s.sector q := by
  apply Dinode.addr_congr
  intro ht
  have hm := h.addr_mem hk (p := .table) (toNat_ne_zero.mp ht)
  rw [Dinode.addr_table] at hm
  exact update_of_ne (by omega) _ _

/-! ## blocks -/

theorem block_ne_zero {sec : Nat → Buf} {d : Dinode} (h : HasBlocks sec d n)
    (hn : n ≤ MAXFILE) {bn : Nat} (hb : bn < n) : d.block sec bn ≠ 0 := by
  have e1 : MAXFILE = 268 := rfl
  have e2 : NDIRECT = 12 := rfl
  have e3 : NINDIRECT = 256 := rfl
  unfold Dinode.block
  split
  · exact (h _).mpr hb
  have hj : bn - NDIRECT < NINDIRECT := by omega
  rw [dif_pos hj]
  refine (h _).mpr ?_
  show NDIRECT + (bn - NDIRECT) < n
  omega

theorem blocksFor_le (h : n ≤ MAXFILE * BSIZE) : blocksFor n ≤ MAXFILE := by
  rw [show MAXFILE = 268 from rfl, bsize_eq] at h
  rw [blocksFor, bsize_eq, show MAXFILE = 268 from rfl]
  omega

theorem div_lt_blocksFor {x : Nat} (h : x < n) : x / BSIZE < blocksFor n := by
  rw [blocksFor, bsize_eq]
  omega

theorem Base.block_inj (h : Base D s) (bn bn' : Nat) (hi : s.InUse i) (hk : s.InUse k)
    (hb : (D i).block s.sector bn ≠ 0) (he : (D i).block s.sector bn = (D k).block s.sector bn') : i = k ∧ bn = bn' := by
  have h1 := lt_maxfile hb
  have h2 := lt_maxfile (he ▸ hb)
  rw [block_eq h1] at hb
  rw [block_eq h1, block_eq h2] at he
  obtain ⟨e, ep⟩ := h.addr_inj hi hk hb he
  exact ⟨e, placeOf_inj ep⟩

theorem Base.block_mem (h : Base D s) (bn : Nat) (hi : s.InUse i) (hb : (D i).block s.sector bn ≠ 0) :
    (D i).block s.sector bn < s.freeblock := by
  have h1 := lt_maxfile hb
  rw [block_eq h1] at hb ⊢
  exact (h.addr_mem hi hb).2

theorem Base.block_ne_table (h : Base D s) (bn : Nat) (hi : s.InUse i) (hk : s.InUse k)
    (hb : (D i).block s.sector bn ≠ 0) : (D i).block s.sector bn ≠ (D k).table.toNat := by
  have h1 := lt_maxfile hb
  rw [block_eq h1] at hb ⊢
  rw [← Dinode.addr_table s.sector]
  exact fun e => placeOf_ne_table h1 (h.addr_inj hi hk hb e).2

/-! ## the bytes of the files -/

/-- the file `i` is written from `off` on, `n` bytes of `f`, and the other files stay -/
structure Appended (D : Nat → Dinode) (i : Nat) (din : Dinode) (s : State) (din' : Dinode) (s' : State)
    (off n : Nat) (f : Buf) : Prop where
  bytes : ∀ x, x < off + n →
    content s'.store din' x = if off ≤ x then f (x - off) else content s.store din x
  others : ∀ k x, k ≠ i → s.InUse k → (D k).block s.sector (x / BSIZE) ≠ 0 →
    content s'.store (D k) x = content s.store (D k) x

theorem Appended.refl (D : Nat → Dinode) (i : Nat) (din : Dinode) (s : State) (off : Nat) (f : Buf) :
    Appended D i din s din s off 0 f :=
  ⟨fun x hx => by rw [if_neg (by omega)], fun _ _ _ _ _ => rfl⟩

theorem Appended.trans {din1 : Dinode} {s1 : State} {m : Nat} {f : Buf}
    (h : Appended D i din s din1 s1 off n f) (hg : Grown D i din s din1 s1)
    (h' : Appended D i din1 s1 din' s' (off + n) m fun x => f (n + x)) :
    Appended D i din s din' s' off (n + m) f := by
  refine ⟨fun x hx => ?_, fun k x hk hu hb => ?_⟩
  · rw [h'.bytes x (by omega)]
    by_cases h1 : off + n ≤ x
    · rw [if_pos h1, if_pos (by omega)]
      congr 1
      omega
    · rw [if_neg h1, h.bytes x (by omega)]
  · have hu1 : s1.InUse k := by rwa [State.InUse, hg.inode]
    have e : (D k).block s1.sector (x / BSIZE) = (D k).block s.sector (x / BSIZE) :=
      block_congr (fun q => hg.other k q hk hu) _
    rw [h'.others k x hk hu1 (by rwa [e]), h.others k x hk hu hb]

/-! ## the loop -/

theorem blocksFor_bounds (off : Nat) :
    off / BSIZE ≤ blocksFor off ∧ blocksFor off ≤ off / BSIZE + 1 := by
  rw [blocksFor, bsize_eq]
  omega

theorem blocksFor_step (h0 : 0 < n) (hn : n ≤ (off / BSIZE + 1) * BSIZE - off) :
    blocksFor (off + n) = off / BSIZE + 1 := by
  rw [bsize_eq] at hn
  rw [blocksFor, bsize_eq]
  omega

theorem write_grown {x : Nat} {q : Place} (buf : Buf) (h : Base (update D i din) s)
    (hi : s.InUse i) (hq : q ≠ .table) (hx : din.addr s.sector q = x) (hx0 : x ≠ 0) (hlt : x < FSSIZE) :
    Grown D i din s din (wsect s x buf) ∧ ∀ p, din.addr (wsect s x buf).sector p = din.addr s.sector p := by
  have hd : update D i din i = din := update_self _ _ _
  have hx' : (update D i din i).addr s.sector q = x := by rw [hd, hx]
  have hm := h.addr_mem hi (by rwa [hx'])
  rw [hx'] at hm
  rw [wsect_eq h.length hlt]
  have hall : ∀ k p, s.InUse k → (update D i din k).addr (update s.sector x buf) p =
      (update D i din k).addr s.sector p := by
    intro k p hk
    apply Dinode.addr_congr
    intro ht
    apply update_of_ne
    intro e
    have := h.addr_inj hk hi (p := .table) (toNat_ne_zero.mp ht) (by rw [hx']; exact e)
    exact hq this.2.symm
  refine ⟨⟨?_, rfl, fun b hb => update_of_ne (by omega) _ _, fun k p hne hk => ?_, rfl, rfl⟩,
    fun p => ?_⟩
  · exact h.write rfl rfl rfl (fun b hb => update_of_ne (by omega) _ _) hall
  · have := hall k p hk
    rwa [update_of_ne hne] at this
  · have := hall i p hi
    rwa [hd] at this

theorem turn_spec {n1 : Nat} {r : Nat × Dinode × State} (f : Buf) (h : Base (update D i din) s)
    (hi : s.InUse i) (hn : HasBlocks s.sector din (blocksFor off)) (hoff : off ≤ MAXFILE * BSIZE)
    (hfb : s.freeblock ≤ FSSIZE) (hmax : off / BSIZE < MAXFILE) (hn0 : 0 < n1)
    (hn1 : n1 ≤ (off / BSIZE + 1) * BSIZE - off) (hr : blockOf s din (off / BSIZE) = .ok r) (hlt : r.1 < FSSIZE)
    (hs' : s' = wsect r.2.2 r.1 (splice (r.2.2.sector r.1) (off - off / BSIZE * BSIZE) n1 f)) :
    Grown D i din s r.2.1 s' ∧ HasBlocks s'.sector r.2.1 (blocksFor (off + n1)) ∧ s'.freeblock = r.2.2.freeblock ∧
      s'.freeblock ≤ FSSIZE ∧ Appended D i din s r.2.1 s' off n1 f := by
  have hb := blocksFor_bounds off
  have hk := blockOf_found h hi hn hb.1 hb.2 hmax hfb hr
  obtain ⟨x, din1, s1⟩ := r
  have hg : Grown D i din s din1 s1 := hk.grown
  have hi1 : s1.InUse i := by rwa [State.InUse, hg.inode]
  have hx : din1.addr s1.sector (placeOf _ hmax) = x := by
    rw [← block_eq hmax]
    exact hk.block
  generalize hbuf : splice (s1.sector x) (off - off / BSIZE * BSIZE) n1 f = buf at hs'
  obtain ⟨hg', hsame⟩ := write_grown buf hg.base hi1 (placeOf_ne_table hmax) hx hk.ne_zero hlt
  have hsec : s'.sector = update s1.sector x buf := by rw [hs', wsect_eq hg.base.length hlt]
  rw [← hs'] at hg' hsame
  have hfree : s'.freeblock = s1.freeblock := by rw [hs']; rfl
  refine ⟨hg.trans hg', fun p => ?_, hfree, by rw [hfree]; exact hk.bound hlt, ?_⟩
  · rw [hsame, blocksFor_step hn0 hn1]
    exact hk.has p
  have hblock : ∀ bn, din1.block s'.sector bn = din1.block s1.sector bn := block_congr hsame
  have hD : update D i din i = din := update_self _ _ _
  have hD1 : update D i din1 i = din1 := update_self _ _ _
  refine ⟨fun y hy => ?_, fun k y hne hu hby => ?_⟩
  · show s'.sector (din1.block s'.sector (y / BSIZE)) (y % BSIZE) = _
    rw [hblock, hsec]
    by_cases h1 : off ≤ y
    · have hy' : y / BSIZE = off / BSIZE := by
        rw [bsize_eq] at *
        omega
      rw [hy', hk.block, update_self, if_pos h1, ← hbuf]
      rw [bsize_eq] at *
      rw [splice_in (by omega) (by omega)]
      congr 1
      omega
    have hbn : din.block s.sector (y / BSIZE) ≠ 0 := block_ne_zero hn (blocksFor_le hoff)
      (by simp only [blocksFor, BSIZE] at *; omega)
    have hkb : din1.block s1.sector (y / BSIZE) = din.block s.sector (y / BSIZE) := by
      have hlt' := lt_maxfile hbn
      rw [block_eq hlt'] at hbn
      rw [block_eq hlt', block_eq hlt']
      exact hk.kept _ hbn
    have hold := h.block_mem (y / BSIZE) hi (by rwa [hD])
    have htab := h.block_ne_table (y / BSIZE) hi hi (by rwa [hD])
    rw [hD] at hold htab
    rw [if_neg h1, hkb]
    show _ = s.sector (din.block s.sector (y / BSIZE)) (y % BSIZE)
    by_cases hbx : din.block s.sector (y / BSIZE) = x
    · have hfbn : y / BSIZE = off / BSIZE := by
        refine (hg.base.block_inj (y / BSIZE) (off / BSIZE) hi1 hi1 ?_ ?_).2
        · rwa [hD1, hkb]
        · rw [hD1, hkb, hk.block, hbx]
      rw [← hk.data _ hold htab, hbx, update_self, ← hbuf, splice_out]
      rw [bsize_eq] at *
      omega
    · rw [update_of_ne hbx, hk.data _ hold htab]
  · have hne' : update D i din k = D k := update_of_ne hne _ _
    have hne1 : update D i din1 k = D k := update_of_ne hne _ _
    have hu1 : s1.InUse k := by rwa [State.InUse, hg.inode]
    have e1 : (D k).block s1.sector (y / BSIZE) = (D k).block s.sector (y / BSIZE) :=
      block_congr (fun q => hg.other k q hne hu) _
    have e2 : (D k).block s'.sector (y / BSIZE) = (D k).block s1.sector (y / BSIZE) :=
      block_congr (fun q => hg'.other k q hne hu1) _
    have hold := h.block_mem (y / BSIZE) hu (by rwa [hne'])
    have htab := h.block_ne_table (y / BSIZE) hu hi (by rwa [hne'])
    rw [hne'] at hold
    rw [hne', hD] at htab
    have hbx : (D k).block s.sector (y / BSIZE) ≠ x := by
      intro e
      refine hne (hg.base.block_inj (y / BSIZE) (off / BSIZE) hu1 hi1 ?_ ?_).1
      · rwa [hne1, e1]
      · rw [hne1, hD1, e1, hk.block, e]
    show s'.sector ((D k).block s'.sector (y / BSIZE)) (y % BSIZE) =
      s.sector ((D k).block s.sector (y / BSIZE)) (y % BSIZE)
    rw [e2, e1, hsec, update_of_ne hbx, hk.data _ hold htab]

theorem found_lt {r : Nat × Dinode × State} (h : Base (update D i din) s)
    (hi : s.InUse i) (hn : HasBlocks s.sector din (blocksFor off)) (hfb : s.freeblock ≤ FSSIZE)
    (hmax : off / BSIZE < MAXFILE) (hr : blockOf s din (off / BSIZE) = .ok r) :
    r.1 < r.2.2.freeblock ∧ r.2.2.freeblock ≤ s.freeblock + 2 ∧ r.2.2.length = FSSIZE := by
  have hb := blocksFor_bounds off
  have hk := blockOf_found h hi hn hb.1 hb.2 hmax hfb hr
  have hi1 : r.2.2.InUse i := by rwa [State.InUse, hk.grown.inode]
  have hx := hk.grown.base.block_mem (off / BSIZE) hi1 (by rw [update_self, hk.block]; exact hk.ne_zero)
  rw [update_self, hk.block] at hx
  have hc : blockCount (off / BSIZE + 1) ≤ blockCount (blocksFor off) + 2 := by
    unfold blockCount
    split <;> split <;> omega
  have := hk.count
  exact ⟨hx, by omega, hk.grown.base.length⟩

theorem piece_bounds (off : Nat) (hp : p.length ≠ 0) :
    0 < min p.length ((off / BSIZE + 1) * BSIZE - off) := by
  rw [bsize_eq]
  omega

theorem loop_turn {o : Dinode × Nat × State} (h : Base (update D i din) s) (hi : s.InUse i)
    (hn : HasBlocks s.sector din (blocksFor off)) (hfb : s.freeblock ≤ FSSIZE) (hp : p.length ≠ 0)
    (hr : iappendLoop (n + 1) s din off p = .ok o) :
    ∃ r n1, n1 = min p.length ((off / BSIZE + 1) * BSIZE - off) ∧ off / BSIZE < MAXFILE ∧
      blockOf s din (off / BSIZE) = .ok r ∧ r.1 < FSSIZE ∧
      iappendLoop n (wsect r.2.2 r.1 (splice (r.2.2.sector r.1) (off - off / BSIZE * BSIZE) n1 (ofList p))) r.2.1
        (off + n1) (p.drop n1) = .ok o := by
  rw [iappendLoop, if_neg hp] at hr
  obtain ⟨_, hmax, hr⟩ := bind_ok hr
  replace hmax := assert_ok hmax
  obtain ⟨r, hb, hr⟩ := bind_ok hr
  obtain ⟨buf, hbuf, hr⟩ := bind_ok hr
  obtain ⟨hx, hle, hlen⟩ := found_lt h hi hn hfb hmax hb
  have hsz : s.freeblock ≤ 2000 := hfb
  obtain ⟨hlt, rfl⟩ := rsect_ok hlen (by omega) hbuf
  exact ⟨r, _, rfl, hmax, hb, hlt, hr⟩

theorem ofList_drop (p : List Byte) (n : Nat) : ofList (p.drop n) = fun x => ofList p (n + x) := by
  funext x
  rw [ofList, ofList, getD_eq_getElem?_getD, getD_eq_getElem?_getD, getElem?_drop]

theorem loop_spec {off' : Nat} (hfuel : p.length ≤ n) (h : Base (update D i din) s)
    (hi : s.InUse i) (hn : HasBlocks s.sector din (blocksFor off)) (hoff : off ≤ MAXFILE * BSIZE)
    (hfb : s.freeblock ≤ FSSIZE) (hr : iappendLoop n s din off p = .ok (din', off', s')) :
    Grown D i din s din' s' ∧ HasBlocks s'.sector din' (blocksFor off') ∧ off' = off + p.length ∧
      off' ≤ MAXFILE * BSIZE ∧ s'.freeblock ≤ FSSIZE ∧ Appended D i din s din' s' off p.length (ofList p) := by
  induction n generalizing s din off p with
  | zero =>
    cases hr
    rw [show p.length = 0 by omega]
    exact ⟨.refl h, hn, rfl, hoff, hfb, .refl _ _ _ _ _ _⟩
  | succ n ih =>
    by_cases hp : p.length = 0
    · rw [iappendLoop, if_pos hp] at hr
      cases hr
      rw [hp]
      exact ⟨.refl h, hn, rfl, hoff, hfb, .refl _ _ _ _ _ _⟩
    obtain ⟨r, n1, hn1, hmax, hb, hlt, hr⟩ := loop_turn h hi hn hfb hp hr
    have hn0 := piece_bounds off hp
    rw [← hn1] at hn0
    have hle : n1 ≤ (off / BSIZE + 1) * BSIZE - off := hn1 ▸ Nat.min_le_right _ _
    have hlep : n1 ≤ p.length := hn1 ▸ Nat.min_le_left _ _
    obtain ⟨hg, has, -, hfb', ht⟩ := turn_spec (ofList p) h hi hn hoff hfb hmax hn0 hle hb hlt rfl
    have hle' : off + n1 ≤ MAXFILE * BSIZE := by
      rw [bsize_eq] at hle hmax ⊢
      rw [show MAXFILE = 268 from rfl] at hmax ⊢
      omega
    obtain ⟨hg', has', hsize, hsmall, hbd, h'⟩ := ih (by rw [length_drop]; omega) hg.base
      (by rw [State.InUse, hg.inode]; exact hi) has hle' hfb' hr
    rw [length_drop] at hsize
    rw [ofList_drop, length_drop] at h'
    refine ⟨hg.trans hg', has', by omega, hsmall, hbd, ?_⟩
    have := ht.trans hg h'
    rwa [Nat.add_sub_of_le hlep] at this

/-- the number of blocks that a file of `n` bytes takes -/
def need (n : Nat) : Nat := blockCount (blocksFor n)

theorem need_mono {m : Nat} (h : n ≤ m) : need n ≤ need m := by
  have hb : blocksFor n ≤ blocksFor m := by
    rw [blocksFor, blocksFor, bsize_eq]
    omega
  unfold need blockCount
  split <;> split <;> omega

/-- it takes the blocks that the file needs more, and succeeds if they are there -/
theorem loop_room (hfuel : p.length ≤ n) (h : Base (update D i din) s)
    (hi : s.InUse i) (hn : HasBlocks s.sector din (blocksFor off)) (hoff : off + p.length ≤ MAXFILE * BSIZE)
    (hfb : s.freeblock ≤ FSSIZE) (hroom : s.freeblock + need (off + p.length) ≤ FSSIZE + need off) :
    ∃ r, iappendLoop n s din off p = .ok r ∧
      r.2.2.freeblock + need off = s.freeblock + need (off + p.length) := by
  induction n generalizing s din off p with
  | zero =>
    rw [show p.length = 0 by omega]
    exact ⟨_, rfl, rfl⟩
  | succ n ih =>
    rw [iappendLoop]
    by_cases hp : p.length = 0
    · rw [if_pos hp, hp]
      exact ⟨_, rfl, rfl⟩
    rw [if_neg hp]
    have hmax : off / BSIZE < MAXFILE := by
      rw [bsize_eq] at hoff ⊢
      omega
    have hn0 := piece_bounds off hp
    obtain ⟨n1, hn1⟩ : ∃ n1, n1 = min p.length ((off / BSIZE + 1) * BSIZE - off) := ⟨_, rfl⟩
    rw [← hn1] at hn0
    have hle : n1 ≤ (off / BSIZE + 1) * BSIZE - off := hn1 ▸ Nat.min_le_right _ _
    have hstep := blocksFor_step hn0 hle
    have hb := blocksFor_bounds off
    have hmono : need (off + n1) ≤ need (off + p.length) := need_mono (by omega)
    have hfree : NDIRECT ≤ off / BSIZE → s.freeblock < FSSIZE ∨ NDIRECT < blocksFor off := by
      intro hind
      by_contra hc
      have hlast : need (off + n1) = off / BSIZE + 2 := by
        rw [need, hstep, blockCount, if_pos (by omega)]
      have hfirst : need off = off / BSIZE := by
        rw [need, show blocksFor off = off / BSIZE by omega, blockCount, if_neg (by omega)]
        rfl
      omega
    obtain ⟨r, hr⟩ := blockOf_ok (off / BSIZE) h hi hn hfb hfree
    have hcount : r.2.2.freeblock + need off = s.freeblock + need (off + n1) := by
      rw [need, need, hstep]
      exact (blockOf_found h hi hn hb.1 hb.2 hmax hfb hr).count
    obtain ⟨hx, -, hlen⟩ := found_lt h hi hn hfb hmax hr
    have hlt : r.1 < FSSIZE := by omega
    simp only [assert, if_pos hmax, hr, bind, Except.bind]
    rw [rsect_eq hlen hlt, ← hn1]
    obtain ⟨hg, has, -, hfb', -⟩ := turn_spec (ofList p) h hi hn (by omega) hfb hmax hn0 hle hr hlt rfl
    have hd : off + n1 + (p.drop n1).length = off + p.length := by
      rw [length_drop]
      omega
    obtain ⟨r', hr', hc'⟩ := ih (p := p.drop n1) (by rw [length_drop]; omega) hg.base
      (by rw [State.InUse, hg.inode]; exact hi) has (by rw [hd]; exact hoff) hfb'
      (by rw [hd]; show r.2.2.freeblock + _ ≤ _; omega)
    rw [hd] at hc'
    refine ⟨r', hr', ?_⟩
    change _ = r.2.2.freeblock + _ at hc'
    omega

end

end Mkfs
