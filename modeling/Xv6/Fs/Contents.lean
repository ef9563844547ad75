import Xv6.Fs.Bmap

/-!
# The contents of a file

What an inode is for: an array of bytes.  `content s d` are the bytes of the file with the inode `d`.

* `Wrote`            the bytes from `off` on are replaced, blocks are added, and nothing else changes;
* `writeLoop_spec`   the loop of `writei`, for any accesses to the source.
-/

namespace Fs
open Bytes Run Slots Function List

/-- the bytes of a file -/
def content (s : Store) (d : Dinode) : Buf := fun x => s.block (d.block s.block (x / BSIZE)) (x % BSIZE)

/-- every block below the size is there -/
def Allocated (s : Store) (d : Dinode) : Prop :=
  ∀ bn, bn < blocksFor d.size.toNat → d.block s.block bn ≠ 0

/-- the `t` bytes from `off` on of the inode `i` become those of `f` -/
structure Wrote (sb : Superblock) (I : Nat → Dinode) (i : Nat) (ip : Dinode) (s : Store) (U : Set Nat)
    (ip' : Dinode) (s' : Store) (U' : Set Nat) (off t : Nat) (f : Buf) : Prop where
  sound : Sound sb (Function.update I i ip') s' U'
  sub : U ⊆ U'
  rest : ip' = { ip with addrs := ip'.addrs }
  low : ∀ b, b < sb.bmapstart.toNat → s'.block b = s.block b
  other : ∀ j q, j ≠ i → InUse sb I j → (I j).addr s'.block q = (I j).addr s.block q
  kept : ∀ q, ip.addr s.block q ≠ 0 → ip'.addr s'.block q = ip.addr s.block q
  foreign : ∀ b ∈ U, (∀ q, ip.addr s.block q ≠ b) → s'.block b = s.block b
  range : ∀ x, off ≤ x → x < off + t → ip'.block s'.block (x / BSIZE) ≠ 0
  bytes : ∀ x, ip'.block s'.block (x / BSIZE) ≠ 0 → content s' ip' x =
    if off ≤ x ∧ x < off + t then f (x - off)
    else if ip.block s.block (x / BSIZE) ≠ 0 then content s ip x else 0
  marked : ∀ b, b < sb.size.toNat → used sb s' b = true → used sb s b = true ∨ b ∈ U'

/-- what `log_write` got while `t` bytes from `off` on were written, and `c` more of a chunk that was not
copied as a whole: every block that differs but the one of that chunk, and of the blocks in use before only
the indirect block and those of the `t` bytes -/
structure Journal (ip : Dinode) (s : Store) (U : Set Nat) (ip' : Dinode) (s' : Store) (off t c : Nat) (l : List Nat) :
    Prop where
  logged : s'.logged = l ++ s.logged
  same : ∀ b, b ∉ l → s'.block b = s.block b ∨ 0 < c ∧ b = ip'.block s'.block ((off + t) / BSIZE)
  old : ∀ b ∈ l, b ∈ U → b = ip.table.toNat ∨ ∃ x, off ≤ x ∧ x < off + t ∧ b = ip'.block s'.block (x / BSIZE)
  new : ∀ q, ip.addr s.block q = 0 → ip'.addr s'.block q ≠ 0 → ip'.addr s'.block q ∈ l
  chunk : 0 < c → (t = 0 ∨ (off + t) % BSIZE = 0) ∧ (off + t) % BSIZE + c ≤ BSIZE

section
variable {sb : Superblock} {I : Nat → Dinode} {i j : Nat} {ip ip' ip₁ : Dinode} {s s' s₁ : Store}
  {U U' U₁ : Set Nat} {p q : Place} {b bn off t m : Nat} {f : Buf}

/-! ## blocks -/

theorem Sound.block_inj {bn' : Nat} (hs : Sound sb (update I i ip) s U)
    (hi : InUse sb (update I i ip) i) (h : ip.block s.block bn ≠ 0)
    (he : ip.block s.block bn = ip.block s.block bn') : bn = bn' := by
  have h1 := lt_maxfile h
  have h2 := lt_maxfile (he ▸ h)
  rw [block_eq h1] at h
  rw [block_eq h1, block_eq h2] at he
  exact placeOf_inj (hs.self_inj hi h he)

/-! ## composition -/

theorem Wrote.type (h : Wrote sb I i ip s U ip' s' U' off t f) : ip'.type = ip.type := by
  rw [h.rest]

theorem Wrote.inUse (h : Wrote sb I i ip s U ip' s' U' off t f) (hi : InUse sb (update I i ip) i) :
    InUse sb (update I i ip') i := (inUse_update_congr h.type i).mpr hi

theorem Wrote.block_kept (h : Wrote sb I i ip s U ip' s' U' off t f) (hb : ip.block s.block bn ≠ 0) :
    ip'.block s'.block bn = ip.block s.block bn := by
  have hlt := lt_maxfile hb
  rw [block_eq hlt] at hb
  rw [block_eq hlt, block_eq hlt]
  exact h.kept _ hb

theorem Grew.wrote (h : Grew sb I i ip s U ip' s' U') (hs : Sound sb (update I i ip) s U)
    (hi : InUse sb (update I i ip) i) (off : Nat) (f : Buf) :
    Wrote sb I i ip s U ip' s' U' off 0 f := by
  refine ⟨h.sound, h.sub, h.rest, h.low, h.other, h.kept, fun b hb hne => h.data b hb (hne .table).symm,
    fun x h1 h2 => by omega, fun x hx => ?_, h.marked⟩
  rw [if_neg (by omega)]
  have hlt := lt_maxfile hx
  have hq := placeOf_ne_table hlt
  rw [block_eq hlt] at hx
  rw [content, content, block_eq hlt, block_eq hlt]
  by_cases h0 : ip.addr s.block (placeOf _ hlt) = 0
  · rw [if_neg (not_not.mpr h0), h.new _ hq h0 hx]
  · rw [if_pos h0, h.kept _ h0, h.data _ (hs.self_mem hi h0)]
    intro e
    exact hq (hs.self_inj hi h0 e)

theorem Wrote.trans {t' : Nat} (h : Wrote sb I i ip s U ip₁ s₁ U₁ off t f)
    (h' : Wrote sb I i ip₁ s₁ U₁ ip' s' U' (off + t) t' fun x => f (t + x))
    (hs : Sound sb (update I i ip) s U) (hi : InUse sb (update I i ip) i) :
    Wrote sb I i ip s U ip' s' U' off (t + t') f := by
  refine ⟨h'.sound, h.sub.trans h'.sub, ?_, fun c hc => (h'.low c hc).trans (h.low c hc), ?_, ?_, ?_, ?_, ?_,
    fun c hc hu => ?_⟩
  · rw [h'.rest, h.rest]
  · intro j q hj hu
    rw [h'.other j q hj hu, h.other j q hj hu]
  · intro q hq
    have e := h.kept q hq
    rw [h'.kept q (by rwa [e]), e]
  · intro b hb hne
    rw [h'.foreign b (h.sub hb) fun q e => ?_, h.foreign b hb hne]
    obtain ⟨p, hp⟩ | ⟨j, p, hj, hu, hp⟩ := hs.owner hb
    · exact hne p hp
    · have hb0 : ip₁.addr s₁.block q ≠ 0 := e ▸ hs.tight.ne_zero hb
      exact h.sound.other_ne (h.inUse hi) hu hj hb0 (e.trans ((h.other j p hj hu).trans hp).symm)
  · intro x h1 h2
    by_cases hx : x < off + t
    · have := h.range x h1 hx
      rwa [h'.block_kept this]
    · exact h'.range x (by omega) (by omega)
  · intro x hx
    rw [h'.bytes x hx]
    by_cases h1 : off + t ≤ x ∧ x < off + t + t'
    · rw [if_pos h1, if_pos (by omega)]
      congr 1
      omega
    rw [if_neg h1]
    by_cases h2 : off ≤ x ∧ x < off + t
    · have hr := h.range x h2.1 h2.2
      rw [if_pos hr, h.bytes x hr, if_pos h2, if_pos (by omega)]
    rw [if_neg (show ¬ (off ≤ x ∧ x < off + (t + t')) by omega)]
    by_cases h3 : ip₁.block s₁.block (x / BSIZE) ≠ 0
    · rw [if_pos h3, h.bytes x h3, if_neg h2]
    · rw [if_neg h3, if_neg fun h4 => h3 (by rwa [h.block_kept h4])]
  · rcases h'.marked c hc hu with hu | hm
    · exact (h.marked c hc hu).imp id fun hm => h'.sub hm
    · exact .inr hm

/-! ## one chunk -/

theorem addr_modify (hs : Sound sb (update I i ip) s U) (hi : InUse sb (update I i ip) i)
    (h : ip.block s.block bn ≠ 0) (data : Buf) (q : Place) :
    ip.addr (s.modify (ip.block s.block bn) data).block q = ip.addr s.block q := by
  refine Dinode.addr_congr (fun ht => update_of_ne (fun e => ?_) _ _) q
  have hlt := lt_maxfile h
  rw [block_eq hlt] at e h
  exact placeOf_ne_table hlt (hs.self_inj hi h e.symm)

theorem chunk_wrote (hs : Sound sb (update I i ip) s U) (hi : InUse sb (update I i ip) i)
    (h : ip.block s.block (off / BSIZE) ≠ 0) (hm : off % BSIZE + m ≤ BSIZE) (f : Buf) :
    Wrote sb I i ip s U ip (s.modify (ip.block s.block (off / BSIZE))
      (splice (s.block (ip.block s.block (off / BSIZE))) (off % BSIZE) m f)) U off m f := by
  have hlt := lt_maxfile h
  have hself := addr_modify hs hi h (splice (s.block (ip.block s.block (off / BSIZE))) (off % BSIZE) m f)
  have ha := h
  rw [block_eq hlt] at ha
  have hmem := hs.self_mem hi ha
  have hdata := hs.data _ hmem
  have hstart : sb.bmapstart.toNat < dataStart sb := bmapstart_lt
  rw [← block_eq hlt] at ha hmem hdata
  generalize ha' : ip.block s.block (off / BSIZE) = a at *
  generalize hd : splice (s.block a) (off % BSIZE) m f = data at *
  have hne : ∀ c, c ≠ a → (s.modify a data).block c = s.block c := fun c hc => update_of_ne hc _ _
  have hblock := block_congr hself
  have hother : ∀ j q, j ≠ i → InUse sb I j → (I j).addr (s.modify a data).block q = (I j).addr s.block q := by
    intro j q hj hu
    refine Dinode.addr_congr (fun ht => hne _ fun e => ?_) q
    have hp : ip.addr s.block (placeOf _ hlt) ≠ 0 := by rwa [← block_eq hlt, ha']
    refine hs.other_ne (q := .table) hi hu hj hp ?_
    rw [← block_eq hlt, ha', Dinode.addr_table, e]
  have hused : ∀ c, c < sb.size.toNat → used sb (s.modify a data) c = used sb s c := by
    intro c hc
    have := (BBLOCK_lt hc).2
    unfold used
    rw [hne _ (by omega)]
  refine ⟨⟨?_, fun c hc => ?_, fun c hc hcs => ?_⟩, subset_rfl, rfl, fun c hc => hne c (by omega), hother,
    fun q _ => hself q, fun c _ hc => hne c fun e => ?_, fun x h1 h2 => ?_, fun x hx => ?_,
    fun c hc hu => .inl ((hused c hc).symm.trans hu)⟩
  · have e : places sb (update I i ip) (s.modify a data) = places sb (update I i ip) s := by
      funext x
      unfold places
      by_cases hx : InUse sb (update I i ip) x.1
      · rw [if_pos hx, if_pos hx]
        by_cases hxi : x.1 = i
        · rw [hxi, update_self]
          exact hself x.2
        · rw [update_of_ne hxi]
          exact hother x.1 x.2 hxi ((inUse_update_ne hxi).mp hx)
      · rw [if_neg hx, if_neg hx]
    rw [e]
    exact hs.tight
  · obtain ⟨h1, h2, h3⟩ := hs.data c hc
    exact ⟨h1, h2, (hused c h2).trans h3⟩
  · exact (hused c hcs).trans (hs.low c hc hcs)
  · refine hc (placeOf _ hlt) ?_
    rw [← block_eq hlt, ha', e]
  · have hx : x / BSIZE = off / BSIZE := by
      simp only [BSIZE] at *
      omega
    rwa [hblock, hx, ha']
  · rw [hblock] at hx
    rw [if_pos hx, content, content, hblock]
    by_cases hbn : x / BSIZE = off / BSIZE
    · rw [hbn, ha']
      have e : (s.modify a data).block a = data := update_self _ _ _
      rw [e, ← hd]
      by_cases hr : off ≤ x ∧ x < off + m
      · rw [if_pos hr, splice_in (by simp only [BSIZE] at *; omega) (by simp only [BSIZE] at *; omega)]
        congr 1
        simp only [BSIZE] at *
        omega
      · rw [if_neg hr, splice_out (by simp only [BSIZE] at *; omega)]
    · have hout : ¬ (off ≤ x ∧ x < off + m) := by
        simp only [BSIZE] at *
        omega
      rw [if_neg hout, hne]
      intro e
      rw [← ha'] at e
      exact hbn (hs.block_inj hi hx e)

/-! ## what is logged -/

theorem Grew.journal_zero (h : Grew sb I i ip s U ip' s' U') (off : Nat) :
    ∃ l, Journal ip s U ip' s' off 0 0 l := by
  obtain ⟨l, hl, hold, hnew⟩ := h.journal
  exact ⟨l, hl.logged, fun b hb => .inl (hl.same b hb), fun b hb hm => .inl (hold b hb hm), hnew,
    fun hc => absurd hc (Nat.lt_irrefl 0)⟩

variable {l : List Nat} {n x : Nat} {acc : Nat → Bool}

theorem Journal.whole {data : Buf} (h : Journal ip s U ip₁ s₁ off 0 0 l) (hm : 0 < m)
    (hself : ∀ q, ip₁.addr (s₁.modify (ip₁.block s₁.block (off / BSIZE)) data).block q = ip₁.addr s₁.block q) :
    Journal ip s U ip₁ ((s₁.modify (ip₁.block s₁.block (off / BSIZE)) data).logWrite (ip₁.block s₁.block (off / BSIZE)))
      off m 0 (ip₁.block s₁.block (off / BSIZE) :: l) := by
  have hblock := block_congr hself (off / BSIZE)
  generalize ha : ip₁.block s₁.block (off / BSIZE) = a at *
  refine ⟨?_, fun b hb => ?_, fun b hb hU => ?_, fun q h0 h1 => ?_, fun hc => absurd hc (Nat.lt_irrefl 0)⟩
  · show a :: s₁.logged = a :: l ++ s.logged
    rw [h.logged, cons_append]
  · rw [mem_cons, not_or] at hb
    rcases h.same b hb.2 with e | e
    · exact .inl ((update_of_ne hb.1 _ _).trans e)
    · exact absurd e.1 (Nat.lt_irrefl 0)
  · rcases mem_cons.mp hb with e | hb
    · exact .inr ⟨off, Nat.le_refl _, by omega, e.trans hblock.symm⟩
    · rcases h.old b hb hU with e | ⟨x, h1, h2, e⟩
      · exact .inl e
      · omega
  · have h1' : ip₁.addr s₁.block q ≠ 0 := fun e => h1 ((hself q).trans e)
    rw [show ip₁.addr ((s₁.modify a data).logWrite a).block q = _ from hself q]
    exact mem_cons_of_mem _ (h.new q h0 h1')

theorem Journal.part {c : Nat} (h : Journal ip s U ip₁ s₁ off 0 0 l) (hc : off % BSIZE + c ≤ BSIZE)
    (hself : ∀ q, ip₁.addr (s₁.modify (ip₁.block s₁.block (off / BSIZE))
      (splice (s₁.block (ip₁.block s₁.block (off / BSIZE))) (off % BSIZE) c f)).block q = ip₁.addr s₁.block q) :
    Journal ip s U ip₁ (s₁.modify (ip₁.block s₁.block (off / BSIZE))
      (splice (s₁.block (ip₁.block s₁.block (off / BSIZE))) (off % BSIZE) c f)) off 0 c l := by
  have hblock := block_congr hself (off / BSIZE)
  generalize ha : ip₁.block s₁.block (off / BSIZE) = a at *
  refine ⟨h.logged, fun b hb => ?_, fun b hb hU => ?_, fun q h0 h1 => ?_, fun _ => ⟨.inl rfl, hc⟩⟩
  · have e : s₁.block b = s.block b := (h.same b hb).resolve_right fun e => Nat.lt_irrefl 0 e.1
    by_cases hba : b = a
    · by_cases hc0 : c = 0
      · refine .inl ?_
        subst hba
        rw [hc0, ← e]
        refine (update_self _ _ _).trans (funext fun x => ?_)
        rw [splice_out (by omega)]
      · exact .inr ⟨Nat.pos_of_ne_zero hc0, hba.trans hblock.symm⟩
    · exact .inl ((update_of_ne hba _ _).trans e)
  · rcases h.old b hb hU with e | ⟨x, h1, h2, e⟩
    · exact .inl e
    · omega
  · rw [hself] at h1 ⊢
    exact h.new q h0 h1

theorem Journal.trans {l' : List Nat} {t' c : Nat} {g : Buf} (h : Journal ip s U ip₁ s₁ off t 0 l)
    (h' : Journal ip₁ s₁ U₁ ip' s' (off + t) t' c l') (hw : Wrote sb I i ip s U ip₁ s₁ U₁ off t f)
    (hw' : Wrote sb I i ip₁ s₁ U₁ ip' s' U' (off + t) n g)
    (htable : ∀ b ∈ U, b = ip₁.table.toNat → b = ip.table.toNat)
    (hend : 0 < c → (off + t) % BSIZE = 0) :
    Journal ip s U ip' s' off (t + t') c (l' ++ l) := by
  refine ⟨?_, fun b hb => ?_, fun b hb hm => ?_, fun q h0 h2 => ?_, fun hc => ?_⟩
  · rw [h'.logged, h.logged, append_assoc]
  · rw [mem_append, not_or] at hb
    rcases h'.same b hb.1 with e | e
    · rcases h.same b hb.2 with e₁ | e₁
      · exact .inl (e.trans e₁)
      · exact absurd e₁.1 (Nat.lt_irrefl 0)
    · rw [← Nat.add_assoc]
      exact .inr e
  · rcases mem_append.mp hb with hb | hb
    · rcases h'.old b hb (hw.sub hm) with e | ⟨x, h1, h2, e⟩
      · exact .inl (htable b hm e)
      · exact .inr ⟨x, by omega, by omega, e⟩
    · refine (h.old b hb hm).imp id ?_
      rintro ⟨x, h1, h2, e⟩
      refine ⟨x, h1, by omega, ?_⟩
      rwa [hw'.block_kept (hw.range x h1 h2)]
  · rw [mem_append]
    by_cases h1 : ip₁.addr s₁.block q = 0
    · exact .inl (h'.new q h1 h2)
    · rw [hw'.kept q h1]
      exact .inr (h.new q h0 h1)
  · obtain ⟨h1, h2⟩ := h'.chunk hc
    rw [Nat.add_assoc] at h1 h2
    refine ⟨.inr ?_, h2⟩
    rcases h1 with h1 | h1
    · rw [h1, Nat.add_zero]
      exact hend hc
    · exact h1

/-! ## the loop of `writei` -/

theorem upto_le (acc : Nat → Bool) (x m : Nat) : upto acc x m ≤ m := by
  induction m generalizing x with
  | zero => exact Nat.le_refl _
  | succ m ih =>
    unfold upto
    split
    · exact Nat.succ_le_succ (ih _)
    · exact Nat.zero_le _

theorem upto_acc {m y : Nat} (h : y < upto acc x m) : acc (x + y) = true := by
  induction m generalizing x y with
  | zero => cases h
  | succ m ih =>
    unfold upto at h
    split at h
    · rename_i hx
      cases y with
      | zero => exact hx
      | succ y =>
        have := ih (x := x + 1) (y := y) (by omega)
        rwa [Nat.add_right_comm] at this
    · cases h

theorem upto_stop {m : Nat} (h : upto acc x m < m) : acc (x + upto acc x m) = false := by
  induction m generalizing x with
  | zero => cases h
  | succ m ih =>
    unfold upto at h ⊢
    split at h
    · rename_i hx
      rw [if_pos hx]
      have := ih (x := x + 1) (by omega)
      rwa [Nat.add_right_comm] at this
    · rename_i hx
      rw [if_neg hx]
      exact Bool.eq_false_iff.mpr hx

theorem upto_all {m : Nat} (h : ∀ y, y < m → acc (x + y) = true) : upto acc x m = m := by
  refine Nat.le_antisymm (upto_le acc x m) (Nat.le_of_not_lt fun hlt => ?_)
  have := upto_stop hlt
  rw [h _ hlt] at this
  cases this

theorem Wrote.logWrite (h : Wrote sb I i ip s U ip' s' U' off t f) (a : Nat) :
    Wrote sb I i ip s U ip' (s'.logWrite a) U' off t f :=
  ⟨⟨h.sound.tight, h.sound.data, h.sound.low⟩, h.sub, h.rest, h.low, h.other, h.kept, h.foreign, h.range, h.bytes,
    h.marked⟩

theorem chunk_bounds (hn : 0 < n) : 0 < chunk off n ∧ chunk off n ≤ n ∧ off % BSIZE + chunk off n ≤ BSIZE := by
  unfold chunk
  simp only [BSIZE]
  omega

/-- how the loop of `writei` ends: it has written `t` bytes, and `c` more of a chunk that it could not
copy as a whole -/
structure Stops (sb : Superblock) (acc : Nat → Bool) (s' : Store) (tot n t c : Nat) : Prop where
  le : t + c ≤ n - tot
  copied : ∀ x, x < t + c → acc (tot + x) = true
  stop : t = n - tot ∧ c = 0 ∨ t < n - tot ∧ c = 0 ∧ Full sb s' ∨
    t + c < n - tot ∧ acc (tot + (t + c)) = false

theorem writeLoop_spec {k tot : Nat} {src : Buf}
    (hs : Sound sb (update I i ip) s U) (hi : InUse sb (update I i ip) i)
    (hmax : off + (n - tot) ≤ MAXFILE * BSIZE) (htot : tot ≤ n) (hk : n ≤ tot + k) :
    ∃ t c ip' s' U', writeLoop sb acc src k s ip off n tot = .next (tot + t, off + t, ip', s') ∧
      Wrote sb I i ip s U ip' s' U' off (t + c) (fun x => src (tot + x)) ∧ Stops sb acc s' tot n t c ∧
      ∃ l, Journal ip s U ip' s' off t c l := by
  induction k generalizing s ip U off tot with
  | zero =>
    exact ⟨0, 0, ip, s, U, rfl, (Grew.refl hs).wrote hs hi _ _, ⟨by omega, fun x hx => by omega, .inl ⟨by omega, rfl⟩⟩,
      (Grew.refl hs).journal_zero off⟩
  | succ k ih =>
    unfold writeLoop
    by_cases hlt : tot < n
    swap
    · rw [if_neg hlt]
      exact ⟨0, 0, ip, s, U, rfl, (Grew.refl hs).wrote hs hi _ _, ⟨by omega, fun x hx => by omega,
        .inl ⟨by omega, rfl⟩⟩, (Grew.refl hs).journal_zero off⟩
    rw [if_pos hlt]
    have hbn : off / BSIZE < MAXFILE := by
      simp only [BSIZE, MAXFILE] at *
      omega
    obtain ⟨ip₁, s₁, U₁, hbmap, hg, hfull, -⟩ := bmap_spec hs hi hbn
    rw [hbmap, next_bind]
    dsimp only
    have hw := hg.wrote hs hi off fun x => src (tot + x)
    obtain ⟨l, hl⟩ := hg.journal_zero off
    have hs₁ := hg.sound
    have hi₁ := hg.inUse hi
    by_cases h0 : ip₁.block s₁.block (off / BSIZE) = 0
    · rw [if_pos h0]
      exact ⟨0, 0, ip₁, s₁, U₁, rfl, hw, ⟨by omega, fun x hx => by omega, .inr (.inl ⟨by omega, rfl, hfull h0⟩)⟩,
        l, hl⟩
    rw [if_neg h0]
    obtain ⟨hm0, hmle, hmb⟩ := @chunk_bounds off (n - tot) (by omega)
    generalize hm : chunk off (n - tot) = m at *
    have hcle := upto_le acc tot m
    have hcacc : ∀ y, y < upto acc tot m → acc (tot + y) = true := fun y => upto_acc
    have hcstop : upto acc tot m < m → acc (tot + upto acc tot m) = false := upto_stop
    generalize hc : upto acc tot m = c at *
    have hchunk := chunk_wrote (m := c) hs₁ hi₁ h0 (by omega) fun x => src (tot + x)
    have hw₁ : Wrote sb I i ip s U ip₁ _ U₁ off (0 + c) _ :=
      hw.trans (by simpa only [Nat.add_zero, Nat.zero_add] using hchunk) hs hi
    have hself := addr_modify hs₁ hi₁ h0 (splice (s₁.block (ip₁.block s₁.block (off / BSIZE))) (off % BSIZE) c
      fun x => src (tot + x))
    by_cases hcm : c < m
    · rw [if_pos hcm]
      refine ⟨0, c, ip₁, _, U₁, rfl, hw₁, ⟨by omega, fun x hx => hcacc x (by omega), .inr (.inr ⟨by omega, ?_⟩)⟩,
        l, hl.part (by omega) hself⟩
      rw [Nat.zero_add]
      exact hcstop hcm
    obtain rfl : c = m := by omega
    rw [if_neg (Nat.lt_irrefl _)]
    have hw₂ := hw₁.logWrite (ip₁.block s₁.block (off / BSIZE))
    obtain ⟨t, e, ip', s', U', hrun, hw', hst, l', hl'⟩ :=
      ih hw₂.sound (hw₂.inUse hi) (by omega : off + c + (n - (tot + c)) ≤ MAXFILE * BSIZE) (by omega) (by omega)
    have hstop := hst.le
    rw [Nat.zero_add] at hw₂
    have hj := (hl.whole hm0 hself).trans hl' hw₂ hw' (fun b hb e => hg.table_old hs hi hb e) fun he => by
      rw [← hm]
      unfold chunk at *
      simp only [BSIZE] at *
      omega
    refine ⟨c + t, e, ip', s', U', ?_, ?_, ⟨?_, ?_, ?_⟩, _, hj⟩
    · rwa [← Nat.add_assoc, ← Nat.add_assoc]
    · rw [Nat.add_assoc]
      refine hw₂.trans ?_ hs hi
      simpa only [Nat.add_assoc] using hw'
    · omega
    · intro x hx
      by_cases hxc : x < c
      · exact hcacc x hxc
      · have := hst.copied (x - c) (by omega)
        rwa [show tot + c + (x - c) = tot + x by omega] at this
    · rcases hst.stop with ⟨h1, h2⟩ | ⟨h1, h2, h3⟩ | ⟨h1, h2⟩
      · exact .inl ⟨by omega, h2⟩
      · exact .inr (.inl ⟨by omega, h2, h3⟩)
      · refine .inr (.inr ⟨by omega, ?_⟩)
        rwa [show tot + (c + t + e) = tot + c + (t + e) by omega]

end

end Fs
