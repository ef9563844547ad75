import Xv6.Fs.Balloc

/-!
# What `bmap` does to the blocks

`bmap` only adds block numbers: those that the inodes hold stay where they are, the blocks keep their
contents (but for the entry in the indirect block), and a new data block is filled with zeros.

* `Grew`          this relation between the inode and the disk before and after;
* `bmap_spec`     `bmap` returns the number of the block, or 0 if the disk is full.
-/

namespace Fs
open Bytes Run Slots Function List

/-- every block that differs was given to `log_write`, as one of `l` -/
structure Tracks (s s' : Store) (l : List Nat) : Prop where
  logged : s'.logged = l ++ s.logged
  same : ∀ b, b ∉ l → s'.block b = s.block b

/-- block numbers are added to the inode `i`, which was `ip` and is `ip'` -/
structure Grew (sb : Superblock) (I : Nat → Dinode) (i : Nat) (ip : Dinode) (s : Store) (U : Set Nat)
    (ip' : Dinode) (s' : Store) (U' : Set Nat) : Prop where
  sound : Sound sb (Function.update I i ip') s' U'
  sub : U ⊆ U'
  rest : ip' = { ip with addrs := ip'.addrs }
  low : ∀ b, b < sb.bmapstart.toNat → s'.block b = s.block b
  other : ∀ j q, j ≠ i → InUse sb I j → (I j).addr s'.block q = (I j).addr s.block q
  kept : ∀ q, ip.addr s.block q ≠ 0 → ip'.addr s'.block q = ip.addr s.block q
  data : ∀ b ∈ U, b ≠ ip.table.toNat → s'.block b = s.block b
  new : ∀ q, q ≠ .table → ip.addr s.block q = 0 → ip'.addr s'.block q ≠ 0 →
    s'.block (ip'.addr s'.block q) = fun _ => 0
  marked : ∀ b, b < sb.size.toNat → used sb s' b = true → used sb s b = true ∨ b ∈ U'
  journal : ∃ l, Tracks s s' l ∧ (∀ b ∈ l, b ∈ U → b = ip.table.toNat) ∧
    ∀ q, ip.addr s.block q = 0 → ip'.addr s'.block q ≠ 0 → ip'.addr s'.block q ∈ l

section
variable {sb : Superblock} {I : Nat → Dinode} {i j : Nat} {ip ip' ip₁ : Dinode} {s s' s₁ : Store}
  {U U' U₁ : Set Nat} {p q : Place} {b bn : Nat}

theorem inUse_update_ne (h : j ≠ i) : InUse sb (update I i ip) j ↔ InUse sb I j := by
  unfold InUse
  rw [update_of_ne h]

theorem inUse_update_congr (h : ip'.type = ip.type) (j : Nat) :
    InUse sb (update I i ip') j ↔ InUse sb (update I i ip) j := by
  by_cases e : j = i
  · subst e
    unfold InUse
    rw [update_self, update_self, h]
  · rw [inUse_update_ne e, inUse_update_ne e]

theorem Sound.self_mem (h : Sound sb (update I i ip) s U)
    (hi : InUse sb (update I i ip) i) (hq : ip.addr s.block q ≠ 0) : ip.addr s.block q ∈ U := by
  have := h.mem (q := q) hi
  rw [update_self] at this
  exact this hq

theorem Sound.self_inj (h : Sound sb (update I i ip) s U)
    (hi : InUse sb (update I i ip) i) (hp : ip.addr s.block p ≠ 0)
    (he : ip.addr s.block p = ip.addr s.block q) : p = q := by
  have := h.inj (p := p) (q := q) hi hi
  rw [update_self] at this
  exact (this hp he).2

theorem Sound.other_ne (h : Sound sb (update I i ip) s U)
    (hi : InUse sb (update I i ip) i) (hj : InUse sb I j) (hne : j ≠ i)
    (hp : ip.addr s.block p ≠ 0) : ip.addr s.block p ≠ (I j).addr s.block q := by
  intro e
  have := h.inj (p := p) (q := q) hi ((inUse_update_ne hne).mpr hj)
  rw [update_self, update_of_ne hne] at this
  exact hne (this hp e).1.symm

theorem Sound.other_mem (h : Sound sb (update I i ip) s U) (hj : InUse sb I j) (hne : j ≠ i)
    (hq : (I j).addr s.block q ≠ 0) : (I j).addr s.block q ∈ U := by
  have := h.mem (q := q) ((inUse_update_ne hne).mpr hj)
  rw [update_of_ne hne] at this
  exact this hq

theorem Sound.owner (h : Sound sb (update I i ip) s U) (hb : b ∈ U) :
    (∃ q, ip.addr s.block q = b) ∨ ∃ j q, j ≠ i ∧ InUse sb I j ∧ (I j).addr s.block q = b := by
  obtain ⟨hne, ⟨j, q⟩, hx⟩ := (h.tight.mem _).mp hb
  have huse : InUse sb (update I i ip) j := by
    by_contra hc
    rw [places, if_neg hc] at hx
    exact hne hx.symm
  rw [places, if_pos huse] at hx
  by_cases e : j = i
  · subst e
    rw [update_self] at hx
    exact .inl ⟨q, hx⟩
  · rw [update_of_ne e] at hx
    exact .inr ⟨j, q, e, (inUse_update_ne e).mp huse, hx⟩

theorem table_ne_zero {d : Dinode} : d.table ≠ 0 ↔ d.addr s.block .table ≠ 0 :=
  not_congr ⟨fun h => by rw [Dinode.addr_table, h]; rfl, fun h => BitVec.eq_of_toNat_eq h⟩

/-! ## steps -/

theorem Tracks.refl (s : Store) : Tracks s s [] := ⟨rfl, fun _ _ => rfl⟩

theorem Tracks.trans {l l' : List Nat} (h : Tracks s s₁ l) (h' : Tracks s₁ s' l') : Tracks s s' (l' ++ l) := by
  refine ⟨?_, fun b hb => ?_⟩
  · rw [h'.logged, h.logged, append_assoc]
  · rw [mem_append, not_or] at hb
    rw [h'.same b hb.1, h.same b hb.2]

theorem write_tracks (s : Store) (b : Nat) (data : Buf) : Tracks s (s.write b data) [b] :=
  ⟨rfl, fun _ hc => update_of_ne (fun e => hc (mem_singleton.mpr e)) _ _⟩

theorem taken_tracks (sb : Superblock) (s : Store) (b : Nat) : Tracks s (taken sb s b) [b, BBLOCK sb b] :=
  (write_tracks s (BBLOCK sb b) _).trans (write_tracks _ b _)

theorem Grew.refl (h : Sound sb (update I i ip) s U) : Grew sb I i ip s U ip s U :=
  ⟨h, subset_rfl, rfl, fun _ _ => rfl, fun _ _ _ _ => rfl, fun _ _ => rfl, fun _ _ _ => rfl,
    fun _ _ h0 h1 => absurd h0 h1, fun _ _ h => .inl h,
    [], .refl s, fun _ hb => absurd hb not_mem_nil, fun _ h0 h1 => absurd h0 h1⟩

theorem Grew.type (h : Grew sb I i ip s U ip' s' U') : ip'.type = ip.type := by
  rw [h.rest]

theorem Grew.inUse (h : Grew sb I i ip s U ip' s' U') (hi : InUse sb (update I i ip) i) :
    InUse sb (update I i ip') i := (inUse_update_congr h.type i).mpr hi

theorem Grew.fresh (h : Grew sb I i ip s U ip' s' U') (hs : Sound sb (update I i ip) s U)
    (hi : InUse sb (update I i ip) i) (h0 : ip.addr s.block q = 0)
    (h1 : ip'.addr s'.block q ≠ 0) : ip'.addr s'.block q ∉ U := by
  intro hm
  obtain ⟨p, hp⟩ | ⟨j, p, hj, hu, hp⟩ := hs.owner hm
  · have hne : ip.addr s.block p ≠ 0 := by rwa [hp]
    have hpq := h.sound.self_inj (h.inUse hi) h1 (hp.symm.trans (h.kept p hne).symm)
    rw [← hpq, h0] at hne
    exact hne rfl
  · exact h.sound.other_ne (h.inUse hi) hu hj h1 ((h.other j p hj hu).trans hp).symm

theorem Grew.table_old (h : Grew sb I i ip s U ip' s' U') (hs : Sound sb (update I i ip) s U)
    (hi : InUse sb (update I i ip) i) (hb : b ∈ U) (e : b = ip'.table.toNat) : b = ip.table.toNat := by
  by_cases h0 : ip.addr s.block .table = 0
  · refine absurd ?_ (h.fresh hs hi h0 ?_)
    · rwa [Dinode.addr_table, ← e]
    · rw [Dinode.addr_table, ← e]
      exact hs.tight.ne_zero hb
  · exact e.trans (h.kept .table h0)

theorem Grew.trans (h : Grew sb I i ip s U ip₁ s₁ U₁) (h' : Grew sb I i ip₁ s₁ U₁ ip' s' U')
    (hs : Sound sb (update I i ip) s U) (hi : InUse sb (update I i ip) i) :
    Grew sb I i ip s U ip' s' U' := by
  have htable : ∀ c ∈ U, c ≠ ip.table.toNat → c ≠ ip₁.table.toNat := fun c hc hne e =>
    hne (h.table_old hs hi hc e)
  obtain ⟨l, hl, hold, hnew⟩ := h.journal
  obtain ⟨l', hl', hold', hnew'⟩ := h'.journal
  refine ⟨h'.sound, h.sub.trans h'.sub, ?_, fun c hc => (h'.low c hc).trans (h.low c hc), ?_, ?_, ?_, ?_,
    fun c hc hu => ?_, l' ++ l, hl.trans hl', fun c hc hm => ?_, fun q h0 h2 => ?_⟩
  · rw [h'.rest, h.rest]
  · intro j q hj hu
    rw [h'.other j q hj hu, h.other j q hj hu]
  · intro q hq
    have e := h.kept q hq
    rw [h'.kept q (by rwa [e]), e]
  · intro c hc hne
    rw [h'.data c (h.sub hc) (htable c hc hne), h.data c hc hne]
  · intro q hqt h0 h2
    by_cases h1 : ip₁.addr s₁.block q = 0
    · exact h'.new q hqt h1 h2
    · have e := h'.kept q h1
      rw [e, h'.data _ (h.sound.self_mem (h.inUse hi) h1), h.new q hqt h0 h1]
      intro et
      exact hqt (h.sound.self_inj (h.inUse hi) h1 et)
  · rcases h'.marked c hc hu with hu | hm
    · exact (h.marked c hc hu).imp id fun hm => h'.sub hm
    · exact .inr hm
  · rcases mem_append.mp hc with hc | hc
    · exact h.table_old hs hi hm (hold' c hc (h.sub hm))
    · exact hold c hc hm
  · rw [mem_append]
    by_cases h1 : ip₁.addr s₁.block q = 0
    · exact .inl (hnew' q h1 h2)
    · rw [h'.kept q h1]
      exact .inr (hnew q h0 h1)

theorem grew_fill (hs : Sound sb (update I i ip) s U) (hi : InUse sb (update I i ip) i)
    (hb : b < sb.size.toNat) (hu : used sb s b = false) (h0 : ip.addr s.block p = 0)
    (hrest : ip' = { ip with addrs := ip'.addrs })
    (haddr : ∀ q, ip'.addr s'.block q = if q = p then b else ip.addr s.block q)
    (hlow : ∀ c, c < sb.bmapstart.toNat → s'.block c = s.block c)
    (hdata : ∀ c, dataStart sb ≤ c → c ≠ b → c ≠ ip.table.toNat → s'.block c = s.block c)
    (hnew : p ≠ .table → s'.block b = fun _ => 0)
    (hused : ∀ c, c < sb.size.toNat → used sb s' c = (used sb s c || decide (c = b)))
    (hlog : ∃ l, Tracks s s' l ∧ b ∈ l ∧ ∀ c ∈ l, c < dataStart sb ∨ c = b ∨ c = ip.table.toNat) :
    Grew sb I i ip s U ip' s' (insert b U) := by
  obtain ⟨hd, hU⟩ := hs.free hb hu
  obtain ⟨l, hl, hbl, hcl⟩ := hlog
  have hother : ∀ j q, j ≠ i → InUse sb I j → (I j).addr s'.block q = (I j).addr s.block q := by
    intro j q hne hj
    refine Dinode.addr_congr (fun ht => ?_) q
    have ht' := table_ne_zero (s := s).mp ht
    have hm := hs.other_mem hj hne ht'
    refine hdata _ (hs.data _ hm).1 (fun e => hU (e ▸ hm)) fun e => ?_
    have hne0 : ip.addr s.block .table ≠ 0 := by
      rwa [Dinode.addr_table, ← e]
    exact hs.other_ne (q := .table) hi hj hne hne0 e.symm
  refine ⟨?_, Set.subset_insert _ _, hrest, hlow, hother, fun q hq => ?_, fun c hc hne => ?_,
    fun q hq hz hz' => ?_, fun c hc hm => ?_, l, hl, fun c hc hm => ?_, fun q hz hz' => ?_⟩
  · refine hs.fill (p := p) hi ?_ hb hu (inUse_update_congr (by rw [hrest])) ?_ ?_ hused
    · rwa [update_self]
    · rw [update_self, haddr, if_pos rfl]
    intro j q hj hne
    by_cases e : j = i
    · subst e
      rw [update_self, update_self, haddr, if_neg fun e => hne (by rw [e])]
    · rw [update_of_ne e, update_of_ne e]
      exact hother j q e ((inUse_update_ne e).mp hj)
  · rw [haddr, if_neg]
    rintro rfl
    exact hq h0
  · exact hdata c (hs.data c hc).1 (fun e => hU (e ▸ hc)) hne
  · rw [haddr] at hz' ⊢
    split at hz'
    · rename_i e
      rw [if_pos e]
      exact hnew (e ▸ hq)
    · exact absurd hz hz'
  · rw [hused c hc, Bool.or_eq_true, decide_eq_true_iff] at hm
    exact hm.imp id fun e => .inl e
  · rcases hcl c hc with h1 | h1 | h1
    · exact absurd (hs.data c hm).1 (Nat.not_le.mpr h1)
    · exact absurd (h1 ▸ hm) hU
    · exact h1
  · rw [haddr] at hz' ⊢
    split at hz'
    · rename_i e
      rwa [if_pos e]
    · exact absurd hz hz'

/-! ## new blocks -/

theorem toNat_block (hb : b < sb.size.toNat) : (BitVec.ofNat 32 b).toNat = b :=
  Nat.mod_eq_of_lt (hb.trans sb.size.isLt)

theorem ne_zero_of_data (h : dataStart sb ≤ b) : b ≠ 0 := by
  intro e
  rw [e] at h
  exact absurd h (Nat.not_le.mpr (Nat.succ_pos _))

/-- the numbers of the inode do not depend on the block that is taken -/
theorem addr_taken (hs : Sound sb (update I i ip) s U) (hi : InUse sb (update I i ip) i)
    (hb : b < sb.size.toNat) (hu : used sb s b = false) (q : Place) :
    ip.addr (taken sb s b).block q = ip.addr s.block q := by
  refine Dinode.addr_congr (fun ht => ?_) q
  have hm := hs.self_mem hi (table_ne_zero.mp ht)
  exact taken_data (hs.data _ hm).1 (fun e => (hs.free hb hu).2 (e ▸ hm)) hb

theorem mem_taken {c : Nat} (hb : b < sb.size.toNat) (hc : c ∈ [b, BBLOCK sb b]) :
    c < dataStart sb ∨ c = b ∨ c = ip.table.toNat := by
  rcases mem_cons.mp hc with hc | hc
  · exact .inr (.inl hc)
  · rw [mem_singleton.mp hc]
    exact .inl (BBLOCK_lt hb).2

theorem taken_journal (hb : b < sb.size.toNat) :
    ∃ l, Tracks s (taken sb s b) l ∧ b ∈ l ∧ ∀ c ∈ l, c < dataStart sb ∨ c = b ∨ c = ip.table.toNat :=
  ⟨_, taken_tracks sb s b, mem_cons_self, fun _ => mem_taken hb⟩

theorem direct_grew (k : Fin NDIRECT) (hs : Sound sb (update I i ip) s U)
    (hi : InUse sb (update I i ip) i) (hb : b < sb.size.toNat) (hu : used sb s b = false)
    (h0 : ip.addrs k.castSucc = 0) :
    Grew sb I i ip s U (ip.setAddr k.castSucc (.ofNat 32 b)) (taken sb s b) (insert b U) := by
  obtain ⟨hd, -⟩ := hs.free hb hu
  refine grew_fill (p := .direct k) hs hi hb hu (congrArg BitVec.toNat h0) rfl (fun q => ?_)
    (fun c hc => taken_low hc hd hb) (fun c hc hne _ => taken_data hc hne hb) (fun _ => taken_self)
    (fun c hc => used_taken hd hb hc) (taken_journal hb)
  rw [Dinode.addr_setDirect, toNat_block hb, addr_taken hs hi hb hu]

theorem table_grew (hs : Sound sb (update I i ip) s U)
    (hi : InUse sb (update I i ip) i) (hb : b < sb.size.toNat) (hu : used sb s b = false)
    (h0 : ip.table = 0) :
    Grew sb I i ip s U (ip.setAddr (Fin.last NDIRECT) (.ofNat 32 b)) (taken sb s b) (insert b U) := by
  obtain ⟨hd, -⟩ := hs.free hb hu
  refine grew_fill (p := .table) hs hi hb hu (congrArg BitVec.toNat h0) rfl (fun q => ?_)
    (fun c hc => taken_low hc hd hb) (fun c hc hne _ => taken_data hc hne hb) (fun h => absurd rfl h)
    (fun c hc => used_taken hd hb hc) (taken_journal hb)
  rw [Dinode.addr_setTable h0, toNat_block hb, addr_taken hs hi hb hu]
  rw [toNat_block hb]
  exact taken_self

/-- the disk after a new block was entered in the indirect block -/
def entered (sb : Superblock) (s : Store) (table j b : Nat) : Store :=
  (taken sb s b).write table (set32 ((taken sb s b).block table) (4 * j) (.ofNat 32 b))

theorem addr_entered (k : Fin NINDIRECT) (hs : Sound sb (update I i ip) s U)
    (hi : InUse sb (update I i ip) i) (hb : b < sb.size.toNat) (hu : used sb s b = false)
    (ht : ip.table ≠ 0) (q : Place) :
    ip.addr (entered sb s ip.table.toNat k b).block q = if q = .entry k then b else ip.addr s.block q := by
  have e : ip.addr (entered sb s ip.table.toNat k b).block q =
      if q = .entry k then (BitVec.ofNat 32 b).toNat else ip.addr (taken sb s b).block q :=
    Dinode.addr_setEntry ht k (.ofNat 32 b) q
  rw [e, toNat_block hb, addr_taken hs hi hb hu]

theorem entry_grew (k : Fin NINDIRECT) (hs : Sound sb (update I i ip) s U)
    (hi : InUse sb (update I i ip) i) (hb : b < sb.size.toNat) (hu : used sb s b = false)
    (ht : ip.table ≠ 0) (h0 : get32 (s.block ip.table.toNat) (4 * k) = 0) :
    Grew sb I i ip s U ip (entered sb s ip.table.toNat k b) (insert b U) := by
  obtain ⟨hd, hU⟩ := hs.free hb hu
  have hm := hs.self_mem hi (table_ne_zero.mp ht)
  have htd := hs.data _ hm
  rw [Dinode.addr_table] at hm htd
  have htb : ip.table.toNat ≠ b := fun e => hU (e ▸ hm)
  have hne : ∀ c, c ≠ ip.table.toNat →
      (entered sb s ip.table.toNat k b).block c = (taken sb s b).block c :=
    fun c hc => update_of_ne hc _ _
  refine grew_fill hs hi hb hu ?_ rfl (addr_entered k hs hi hb hu ht) (fun c hc => ?_)
    (fun c hc h1 h2 => ?_) (fun _ => ?_) (fun c hc => ?_) ?_
  · rw [Dinode.addr_entry ht, h0]
    rfl
  · have hlt : sb.bmapstart.toNat < dataStart sb := bmapstart_lt
    rw [hne c (by omega)]
    exact taken_low hc hd hb
  · rw [hne c h2]
    exact taken_data hc h1 hb
  · rw [hne b htb.symm]
    exact taken_self
  · have hB := BBLOCK_lt hc
    have e : used sb (entered sb s ip.table.toNat k b) c = used sb (taken sb s b) c := by
      unfold used
      rw [hne _ (by omega)]
    rw [e]
    exact used_taken hd hb hc
  · refine ⟨_, (taken_tracks sb s b).trans (write_tracks _ ip.table.toNat _), ?_, fun c hc => ?_⟩
    · exact mem_append_right _ mem_cons_self
    · rcases mem_append.mp hc with hc | hc
      · exact .inr (.inr (mem_singleton.mp hc))
      · exact mem_taken hb hc

/-! ## `bmap` -/

theorem block_direct {d : Dinode} (h : bn < NDIRECT) : d.block s.block bn = d.addr s.block (.direct ⟨bn, h⟩) :=
  dif_pos h

theorem block_entry {d : Dinode} (h : ¬ bn < NDIRECT) (h' : bn - NDIRECT < NINDIRECT) :
    d.block s.block bn = d.addr s.block (.entry ⟨bn - NDIRECT, h'⟩) :=
  (dif_neg h).trans (dif_pos h')

theorem bmapTable_spec (hs : Sound sb (update I i ip) s U)
    (hi : InUse sb (update I i ip) i) :
    ∃ ip' s' U', bmapTable sb s ip = (ip'.table.toNat, ip', s') ∧ Grew sb I i ip s U ip' s' U' ∧
      (ip'.table = 0 → Full sb s') ∧ (ip.table ≠ 0 → ip' = ip ∧ s' = s) := by
  unfold bmapTable
  by_cases h0 : ip.table = 0
  · rw [if_pos h0]
    obtain ⟨hbal, hfull⟩ | ⟨b, hb, hu, hbal, -⟩ := balloc_cases sb s
    · rw [hbal]
      refine ⟨ip, s, U, ?_, .refl hs, fun _ => hfull, fun h => absurd h0 h⟩
      rw [h0]
      rfl
    have hne := ne_zero_of_data (hs.free hb hu).1
    rw [hbal]
    refine ⟨ip.setAddr (Fin.last NDIRECT) (.ofNat 32 b), taken sb s b, _, ?_,
      table_grew hs hi hb hu h0, fun hz => ?_, fun h => absurd h0 h⟩
    · dsimp only
      rw [if_neg hne, Dinode.setAddr_last, toNat_block hb]
    · rw [Dinode.setAddr_last] at hz
      rw [← toNat_block hb, hz] at hne
      exact absurd rfl hne
  · rw [if_neg h0]
    exact ⟨ip, s, U, rfl, .refl hs, fun h => absurd h h0, fun _ => ⟨rfl, rfl⟩⟩

/-- `bmap` returns the number of the block; it is 0 only if the disk is full -/
theorem bmap_spec (hs : Sound sb (update I i ip) s U) (hi : InUse sb (update I i ip) i)
    (hbn : bn < MAXFILE) :
    ∃ ip' s' U', bmap sb s ip bn = .next (ip'.block s'.block bn, ip', s') ∧ Grew sb I i ip s U ip' s' U' ∧
      (ip'.block s'.block bn = 0 → Full sb s') ∧ (ip.block s.block bn ≠ 0 → ip' = ip ∧ s' = s) := by
  unfold bmap
  by_cases h : bn < NDIRECT
  · rw [dif_pos h]
    have hblock : ∀ {d : Dinode} {t : Store}, d.block t.block bn = (d.addrs (Fin.castSucc ⟨bn, h⟩)).toNat :=
      fun {d t} => block_direct h
    by_cases h0 : ip.addrs (Fin.castSucc ⟨bn, h⟩) = 0
    · rw [if_pos h0]
      have hz : ip.block s.block bn = 0 := by rw [hblock, h0]; rfl
      obtain ⟨hbal, hfull⟩ | ⟨b, hb, hu, hbal, -⟩ := balloc_cases sb s
      · rw [hbal]
        refine ⟨ip, s, U, ?_, .refl hs, fun _ => hfull, fun hne => absurd hz hne⟩
        rw [hz]
        rfl
      have hne := ne_zero_of_data (hs.free hb hu).1
      have he : (ip.setAddr (Fin.castSucc ⟨bn, h⟩) (.ofNat 32 b)).block (taken sb s b).block bn = b := by
        rw [hblock]
        show (update ip.addrs _ _ _).toNat = b
        rw [update_self, toNat_block hb]
      rw [hbal]
      refine ⟨_, taken sb s b, _, ?_, direct_grew ⟨bn, h⟩ hs hi hb hu h0, fun hc => ?_, fun hne => absurd hz hne⟩
      · dsimp only
        rw [if_neg hne, he]
      · rw [he] at hc
        exact absurd hc hne
    · rw [if_neg h0]
      refine ⟨ip, s, U, ?_, .refl hs, fun hc => ?_, fun _ => ⟨rfl, rfl⟩⟩
      · rw [hblock]
      · rw [hblock] at hc
        exact absurd (BitVec.eq_of_toNat_eq hc) h0
  have h' : bn - NDIRECT < NINDIRECT := by
    simp only [MAXFILE, NDIRECT, NINDIRECT] at *
    omega
  rw [dif_neg h, if_pos h']
  obtain ⟨ip₁, s₁, U₁, htab, hg, hfull, hsame⟩ := bmapTable_spec hs hi
  rw [htab]
  dsimp only
  have hs₁ := hg.sound
  have hi₁ := hg.inUse hi
  by_cases ht : ip₁.table = 0
  · rw [if_pos (by rw [ht]; rfl)]
    have hz : ip₁.block s₁.block bn = 0 := by rw [block_entry h h', Dinode.addr_entry_zero ht]
    refine ⟨ip₁, s₁, U₁, ?_, hg, fun _ => hfull ht, fun hne => ?_⟩
    · rw [hz]
    · by_cases h0 : ip.table = 0
      · rw [block_entry h h', Dinode.addr_entry_zero h0] at hne
        exact absurd rfl hne
      · exact hsame h0
  have htn : ip₁.table.toNat ≠ 0 := table_ne_zero (s := s₁).mp ht
  rw [if_neg htn]
  have hblock : ip₁.block s₁.block bn =
      (get32 (s₁.block ip₁.table.toNat) (4 * (bn - NDIRECT))).toNat := by
    rw [block_entry h h', Dinode.addr_entry ht]
  have hback : ip.block s.block bn ≠ 0 → ip₁ = ip ∧ s₁ = s := by
    intro hne
    refine hsame fun h0 => hne ?_
    rw [block_entry h h', Dinode.addr_entry_zero h0]
  by_cases ha : get32 (s₁.block ip₁.table.toNat) (4 * (bn - NDIRECT)) = 0
  · rw [if_pos ha]
    have hz : ip₁.block s₁.block bn = 0 := by rw [hblock, ha]; rfl
    have hnot : ip.block s.block bn = 0 := by
      by_contra hne
      obtain ⟨rfl, rfl⟩ := hback hne
      exact hne hz
    obtain ⟨hbal, hf⟩ | ⟨b, hb, hu, hbal, -⟩ := balloc_cases sb s₁
    · rw [hbal, if_pos rfl]
      exact ⟨ip₁, s₁, U₁, by rw [hz], hg, fun _ => hf, fun hne => absurd hnot hne⟩
    have hne := ne_zero_of_data (hs₁.free hb hu).1
    have hent := entry_grew ⟨bn - NDIRECT, h'⟩ hs₁ hi₁ hb hu ht ha
    have he : ip₁.block (entered sb s₁ ip₁.table.toNat (bn - NDIRECT) b).block bn = b := by
      rw [block_entry h h', addr_entered ⟨bn - NDIRECT, h'⟩ hs₁ hi₁ hb hu ht, if_pos rfl]
    rw [hbal, if_neg hne]
    refine ⟨ip₁, entered sb s₁ ip₁.table.toNat (bn - NDIRECT) b, _, ?_, hg.trans hent hs hi,
      fun hc => ?_, fun hne => absurd hnot hne⟩
    · rw [he]
      rfl
    · rw [he] at hc
      exact absurd hc hne
  · rw [if_neg ha]
    refine ⟨ip₁, s₁, U₁, by rw [hblock], hg, fun hc => ?_, hback⟩
    rw [hblock] at hc
    exact absurd (BitVec.eq_of_toNat_eq hc) ha

end

end Fs
