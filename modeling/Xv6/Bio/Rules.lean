import Xv6.Bio.Inv

/-!
# The rules for the actions of the cache

One theorem for each action: what it does to the invariant when the process that takes it owns the
claims it needs, whatever the others own.

* `Inv.bget`, `Inv.acquiresleep`, `Inv.load`           the steps of `bread`;
* `Inv.releasesleep`, `Inv.unref`                      those of `brelse`;
* `Inv.put`, `Inv.written`                             new contents of a locked buffer, and of the disk.
-/

namespace Bio
open Run Bytes Prog Own Function List Option

section
variable {K : Log.Conf} {s s' : Sys} {C C' F : Multiset Claim} {J : Multiset Part} {c c' : Claim}
  {k k' : Slot} {p : Pid} {b : Nat} {d : Buf} {m : Care} {l : List Nat} {n j : Nat}

theorem Journal.contents (h : Journal K s J) (hl : s'.lh = s.lh) (hq : s'.pinlog = s.pinlog) (hp : s'.pins = s.pins)
    (ho : s'.outstanding = s.outstanding) (hc : s'.committing = s.committing)
    (hlog : ∀ l n j, Part.commit l n j ∈ J → ∀ i b, i < n → l[i]? = some b →
      s'.disk (K.start + i + 1) = s'.store b) : Journal K s' J := by
  refine ⟨by rw [hl]; exact h.nodup, by rw [hq, hp]; exact h.counted, by rw [hl]; exact h.room, by rw [hl]; exact h.home,
    by rw [ho]; exact h.ops, by rw [hc]; exact h.commits, by rw [hc, ho]; exact h.quiet,
    by rw [hc, hp, hl]; exact h.even, fun l n j hm => ?_⟩
  obtain ⟨h1, h2, -⟩ := h.commit l n j hm
  exact ⟨hl.trans h1, hp.trans h2, hlog l n j hm⟩

theorem Journal.congr (h : Journal K s J) (hl : s'.lh = s.lh) (hq : s'.pinlog = s.pinlog) (hp : s'.pins = s.pins)
    (ho : s'.outstanding = s.outstanding) (hc : s'.committing = s.committing)
    (hd : s'.disk = s.disk) (hs : s'.store = s.store) : Journal K s' J := by
  refine h.contents hl hq hp ho hc fun l n j hm => ?_
  rw [hd, hs]
  exact (h.commit l n j hm).logged

/-- a block stays saved when the dirty buffers stay in the hands of processes -/
theorem Data.saved_of (h : Data s C)
    (hC : ∀ p k d, Claim.lock p k b d .dirty ∈ C → Claim.lock p k b d .dirty ∈ C') :
    s.disk b = s.store b ∨ b ∈ s.pins ∨ ∃ p k d, Claim.lock p k b d .dirty ∈ C' :=
  (h.saved b).imp_right (Or.imp_right fun ⟨p, k, d, hm⟩ => ⟨p, k, d, hC p k d hm⟩)

theorem Data.congr (h : Data s C) (hbuf : ∀ j, (s'.buf j).ident = (s.buf j).ident ∧
      (s'.buf j).valid = (s.buf j).valid ∧ (s'.buf j).data = (s.buf j).data)
    (hd : s'.disk = s.disk) (hbase : s'.base = s.base) (ht : s'.trace = s.trace) (hp : s'.pins = s.pins)
    (hC : ∀ p k b d, Claim.lock p k b d .dirty ∈ C → Claim.lock p k b d .dirty ∈ C') : Data s' C' := by
  have hs : s'.store = s.store := by rw [Sys.store, Sys.store, hbase, ht]
  refine ⟨by rw [hbase, ht]; exact h.reads, fun j b hi hv => ?_, fun b => ?_, fun b hb => ?_⟩
  · obtain ⟨h1, h2, h3⟩ := hbuf j
    rw [h3, hs]
    exact h.data j b (h1 ▸ hi) (h2 ▸ hv)
  · rw [hd, hs, hp]
    exact h.saved_of fun p k d => hC p k b d
  · rw [hp] at hb
    obtain ⟨k, hi, hv⟩ := h.present b hb
    exact ⟨k, (hbuf k).1.trans hi, (hbuf k).2.1.trans hv⟩

theorem setBuf_forall {P : BufHdr → BufHdr → Prop} {x : BufHdr} (hx : P x (s.buf k))
    (hr : ∀ y, P y y) (i : Slot) : P ((s.setBuf k x).buf i) (s.buf i) := by
  by_cases e : i = k
  · rwa [e, setBuf_self]
  · rw [setBuf_ne s x e]
    exact hr _

theorem same_setBuf {x : BufHdr} (hx : Same x (s.buf k)) (i : Slot) : Same ((s.setBuf k x).buf i) (s.buf i) :=
  setBuf_forall hx (fun _ => ⟨rfl, rfl, rfl, rfl⟩) i

theorem mem_swap {α : Type} {F : Multiset α} {a x : α} (b : α) (hne : a ≠ x) (h : x ∈ {a} + F) : x ∈ {b} + F := by
  rcases mem_cases h with e | h
  · exact absurd e.symm hne
  · exact mem_tail b h

theorem lock_ne {q : Pid} {x : Buf} {a : Nat} (h : a ≠ b) : Claim.lock p k b d m ≠ .lock q k' a x .dirty := by
  intro e
  cases e
  exact h rfl

/-! ## `bget` -/

theorem bget_cases (h : s.bget b = .next (k, s')) :
    ((s.buf k).ident = some b ∧ s' = s.setBuf k { s.buf k with refcnt := (s.buf k).refcnt + 1 }) ∨
      ((∀ i ∈ s.lru, (s.buf i).ident ≠ some b) ∧ (s.buf k).refcnt = 0 ∧
        s' = s.setBuf k { s.buf k with ident := some b, valid := false, refcnt := 1 }) := by
  unfold Sys.bget at h
  split at h
  · rename_i i hi
    cases h
    have hk := find?_some hi
    exact .inl ⟨of_decide_eq_true hk, rfl⟩
  rename_i hn
  have hnone : ∀ i ∈ s.lru, (s.buf i).ident ≠ some b := by
    intro i hi e
    exact find?_eq_none.mp hn i hi (decide_eq_true e)
  split at h
  · rename_i i hi
    cases h
    have hk := find?_some hi
    exact .inr ⟨hnone, of_decide_eq_true hk, rfl⟩
  · cases h

theorem Inv.bgetHit (h : Inv K s C J) (hk : (s.buf k).ident = some b) :
    Inv K (s.setBuf k { s.buf k with refcnt := (s.buf k).refcnt + 1 }) ({.ref k b} + C) J := by
  have hsame := same_setBuf (s := s) (k := k) (x := { s.buf k with refcnt := (s.buf k).refcnt + 1 })
    ⟨rfl, rfl, rfl, rfl⟩
  refine ⟨⟨h.claims.lru, fun i => ?_, fun i => ?_, fun x hx => ?_, fun i i' a => ?_⟩, ?_, ?_⟩
  · have h1 := h.claims.refcnt i
    rw [Claims.pinned_congr (hsame i).ident rfl]
    by_cases e : i = k
    · subst e
      rw [setBuf_self, uses_ref]
      show (s.buf i).refcnt + 1 = _
      omega
    · rw [setBuf_ne s _ e, uses_ne fun hn => e hn.symm, h1]
  · rw [holders_ne fun _ => rfl, (hsame i).lock]
    exact h.claims.holder i
  · rcases mem_cases hx with rfl | hx
    · exact (hsame k).ident.trans hk
    · exact Claims.ok_same (h.claims.ok x hx) (hsame _) rfl
  · rw [(hsame i).ident, (hsame i').ident]
    exact h.claims.unique i i' a
  · exact h.data.congr (fun i => ⟨(hsame i).ident, (hsame i).valid, (hsame i).data⟩) rfl rfl rfl rfl
      fun p i a d hm => mem_tail _ hm
  · exact h.journal.congr rfl rfl rfl rfl rfl rfl rfl

theorem Inv.not_pinned (h : Inv K s C J) (hk : (s.buf k).refcnt = 0) :
    (∀ c ∈ C, c.slot ≠ k) ∧ ∀ b, (s.buf k).ident = some b → b ∉ s.pins := by
  have h1 := h.claims.refcnt k
  rw [hk] at h1
  refine ⟨uses_eq_zero_iff.mp (by omega), fun b hb hm => ?_⟩
  have h2 := Claims.pinned_some hb
  have := count_pos_iff.mpr hm
  omega

theorem Inv.bgetNew (h : Inv K s C J) (hn : ∀ i ∈ s.lru, (s.buf i).ident ≠ some b)
    (hk : (s.buf k).refcnt = 0) :
    Inv K (s.setBuf k { s.buf k with ident := some b, valid := false, refcnt := 1 })
      ({.ref k b} + C) J := by
  obtain ⟨hfree, hpins⟩ := h.not_pinned hk
  have hnone : ∀ i, (s.buf i).ident ≠ some b := fun i => hn i (h.claims.lru i)
  have hb : b ∉ s.pins := fun hm => by
    obtain ⟨i, hi, -⟩ := h.data.present b hm
    exact hnone i hi
  refine ⟨⟨h.claims.lru, fun i => ?_, fun i => ?_, fun x hx => ?_, fun i i' a => ?_⟩,
    ⟨h.data.reads, fun i a hi hv => ?_, fun a => ?_, fun a ha => ?_⟩, ?_⟩
  · unfold pinned
    by_cases e : i = k
    · subst e
      rw [setBuf_self, uses_ref, uses_eq_zero_iff.mpr hfree]
      show 1 = 0 + 1 + s.pins.count b
      rw [count_eq_zero.mpr hb]
    · rw [setBuf_ne s _ e, uses_ne fun hn => e hn.symm]
      exact h.claims.refcnt i
  · rw [holders_ne fun _ => rfl, h.claims.holder i]
    by_cases e : i = k
    · rw [e, setBuf_self]
    · rw [setBuf_ne s _ e]
  · rcases mem_cases hx with rfl | hx
    · show ((s.setBuf k _).buf k).ident = some b
      rw [setBuf_self]
    · exact Claims.ok_congr (h.claims.ok x hx) (setBuf_ne s _ (hfree x hx)) fun _ _ => rfl
  · by_cases e : i = k
    · by_cases e' : i' = k
      · intro _ _
        rw [e, e']
      · intro h1 h2
        rw [e, setBuf_self] at h1
        rw [setBuf_ne s _ e', ← h1] at h2
        exact absurd h2 (hnone i')
    · by_cases e' : i' = k
      · intro h1 h2
        rw [e', setBuf_self] at h2
        rw [setBuf_ne s _ e, ← h2] at h1
        exact absurd h1 (hnone i)
      · rw [setBuf_ne s _ e, setBuf_ne s _ e']
        exact h.claims.unique i i' a
  · by_cases e : i = k
    · rw [e, setBuf_self] at hv
      cases hv
    · rw [setBuf_ne s _ e] at hi hv ⊢
      exact h.data.data i a hi hv
  · exact h.data.saved_of fun p i d hm => mem_tail _ hm
  · obtain ⟨i, hi, hv⟩ := h.data.present a ha
    have e : i ≠ k := fun e => hpins a (e ▸ hi) ha
    exact ⟨i, by rw [setBuf_ne s _ e]; exact hi, by rw [setBuf_ne s _ e]; exact hv⟩
  · exact h.journal.congr rfl rfl rfl rfl rfl rfl rfl

theorem Inv.bget (h : Inv K s C J) (hb : s.bget b = .next (k, s')) :
    Inv K s' ({.ref k b} + C) J := by
  rcases bget_cases hb with ⟨hk, rfl⟩ | ⟨hn, hk, rfl⟩
  · exact h.bgetHit hk
  · exact h.bgetNew hn hk

/-! ## locks and contents -/

theorem Inv.acquiresleep (h : Inv K s ({.ref k b} + F) J) (hk : (s.buf k).lock = none) :
    Inv K (s.setBuf k { s.buf k with lock := some p }) ({.raw p k b} + F) J := by
  have hid : (s.buf k).ident = some b := h.claims.ok _ (mem_head _ F)
  refine ⟨?_, ?_, h.journal.congr rfl rfl rfl rfl rfl rfl rfl⟩
  · refine h.claims.swap rfl rfl (fun x hx => h.claims.unlocked hk x (mem_tail _ hx)) rfl rfl
      rfl ?_
    exact ⟨by rw [setBuf_self]; exact hid, by rw [setBuf_self]⟩
  · exact h.data.congr (setBuf_forall (P := fun x y => x.ident = y.ident ∧ x.valid = y.valid ∧ x.data = y.data)
      ⟨rfl, rfl, rfl⟩ fun _ => ⟨rfl, rfl, rfl⟩) rfl rfl rfl rfl fun _ _ _ _ => mem_swap _ nofun

/-- a lock is given back only for contents that are logged or written -/
theorem Inv.releasesleep (h : Inv K s ({.lock p k b d m} + F) J) (hm : m ≠ .dirty) :
    Inv K (s.setBuf k { s.buf k with lock := none }) ({.ref k b} + F) J := by
  have hid := (h.claims.ok _ (mem_head _ F)).1
  refine ⟨?_, ?_, h.journal.congr rfl rfl rfl rfl rfl rfl rfl⟩
  · refine h.claims.swap rfl rfl (h.claims.alone rfl) rfl rfl rfl ?_
    show ((s.setBuf k _).buf k).ident = some b
    rwa [setBuf_self]
  · refine h.data.congr (setBuf_forall (P := fun x y => x.ident = y.ident ∧ x.valid = y.valid ∧ x.data = y.data)
      ⟨rfl, rfl, rfl⟩ fun _ => ⟨rfl, rfl, rfl⟩) rfl rfl rfl rfl fun _ _ _ _ => mem_swap _ ?_
    intro e
    cases e
    exact hm rfl

theorem Inv.unref (h : Inv K s ({.ref k b} + F) J) : Inv K (s.unref k) F J := by
  have hpos := h.claims.refcnt k
  rw [uses_ref] at hpos
  have hdec : dec32 (s.buf k).refcnt = uses F k + pinned s k := by
    rw [dec32, if_neg (by omega)]
    omega
  have hbuf : (s.unref k).buf = (s.setBuf k { s.buf k with refcnt := dec32 (s.buf k).refcnt }).buf := by
    unfold Sys.unref
    dsimp only
    split <;> rfl
  have hlru : ∀ i, i ∈ (s.unref k).lru := by
    intro i
    unfold Sys.unref
    dsimp only
    split
    · by_cases e : i = k
      · rw [e]
        exact mem_cons_self
      · exact mem_cons_of_mem _ ((mem_erase_of_ne e).mpr (h.claims.lru i))
    · exact h.claims.lru i
  have hrest : (s.unref k).disk = s.disk ∧ (s.unref k).base = s.base ∧ (s.unref k).trace = s.trace ∧
      (s.unref k).pinlog = s.pinlog ∧ (s.unref k).pins = s.pins ∧ (s.unref k).lh = s.lh ∧
      (s.unref k).outstanding = s.outstanding ∧ (s.unref k).committing = s.committing := by
    unfold Sys.unref
    dsimp only
    split <;> exact ⟨rfl, rfl, rfl, rfl, rfl, rfl, rfl, rfl⟩
  obtain ⟨hd, hbase, ht, hq, hp, hl, ho, hc⟩ := hrest
  have hsame : ∀ i, Same ((s.unref k).buf i) (s.buf i) := by
    rw [hbuf]
    exact same_setBuf ⟨rfl, rfl, rfl, rfl⟩
  refine ⟨⟨hlru, fun i => ?_, fun i => ?_, fun x hx => ?_, fun i i' a => ?_⟩, ?_, ?_⟩
  · rw [Claims.pinned_congr (hsame i).ident hp, hbuf]
    by_cases e : i = k
    · rwa [e, setBuf_self]
    · rw [setBuf_ne s _ e, h.claims.refcnt i, uses_ne fun hn => e hn.symm]
  · rw [(hsame i).lock, ← h.claims.holder i]
    exact (holders_ne fun _ => rfl).symm
  · exact Claims.ok_same (h.claims.ok x (mem_tail _ hx)) (hsame _) hd
  · rw [(hsame i).ident, (hsame i').ident]
    exact h.claims.unique i i' a
  · refine h.data.congr (fun i => ⟨(hsame i).ident, (hsame i).valid, (hsame i).data⟩) hd hbase ht hp ?_
    intro p i a d hm
    rcases mem_cases hm with e | hm
    · cases e
    · exact hm
  · exact h.journal.congr hl hq hp ho hc hd (by rw [Sys.store, Sys.store, hbase, ht])

theorem Inv.disk_eq (h : Inv K s C J) (hk : (s.buf k).ident = some b) (hv : (s.buf k).valid = false) :
    s.disk b = s.store b := by
  have hother : ∀ i, (s.buf i).ident = some b → (s.buf i).valid ≠ true := by
    intro i hi hvi
    rw [h.claims.unique i k b hi hk, hv] at hvi
    cases hvi
  rcases h.data.saved b with e | hp | ⟨p, i, d, hm⟩
  · exact e
  · obtain ⟨i, hi, hvi⟩ := h.data.present b hp
    exact absurd hvi (hother i hi)
  · obtain ⟨hi, -, hvi, -⟩ := h.claims.ok _ hm
    exact absurd hvi (hother i hi)

theorem Inv.fill (h : Inv K s ({.raw p k b} + F) J) :
    Inv K (s.fill k) ({.lock p k b ((s.fill k).buf k).data .clean} + F) J := by
  obtain ⟨hid, hl⟩ := h.claims.ok _ (mem_head _ F)
  have halone := h.claims.alone rfl
  have hdirty : ∀ q i a x, Claim.lock q i a x .dirty ∈ ({.raw p k b} : Multiset Claim) + F →
      Claim.lock q i a x .dirty ∈ ({.lock p k b ((s.fill k).buf k).data .clean} : Multiset Claim) + F :=
    fun _ _ _ _ => mem_swap _ nofun
  cases hv : (s.buf k).valid with
  | true =>
    have e : s.fill k = s := if_pos hv
    rw [e] at hdirty ⊢
    refine ⟨?_, ?_, h.journal⟩
    · refine h.claims.change (k := k) rfl rfl halone (fun _ _ => rfl) rfl rfl rfl rfl
        (fun _ _ _ _ => rfl) ?_ ⟨hid, hl, hv, rfl, nofun⟩
      rw [hl]
      rfl
    · exact h.data.congr (fun _ => ⟨rfl, rfl, rfl⟩) rfl rfl rfl rfl hdirty
  | false =>
    have e : s.fill k = s.setBuf k { s.buf k with data := s.disk b, valid := true } := by
      rw [Sys.fill, if_neg (by rw [hv]; exact Bool.false_ne_true), hid]
    rw [e] at hdirty ⊢
    refine ⟨?_, ⟨h.data.reads, fun i a hi hvi => ?_, fun a => ?_, fun a ha => ?_⟩,
      h.journal.congr rfl rfl rfl rfl rfl rfl rfl⟩
    · refine h.claims.swap rfl rfl halone rfl rfl (by rw [hl]; rfl) ?_
      · show _ ∧ _
        rw [setBuf_self]
        exact ⟨hid, hl, rfl, rfl, nofun⟩
    · by_cases ei : i = k
      · rw [ei, setBuf_self] at hi ⊢
        have ea : a = b := some.inj (hi.symm.trans hid)
        rw [ea]
        exact h.disk_eq hid hv
      · rw [setBuf_ne s _ ei] at hi hvi ⊢
        exact h.data.data i a hi hvi
    · exact h.data.saved_of fun q i x => hdirty q i a x
    · obtain ⟨i, hi, hvi⟩ := h.data.present a ha
      have ei : i ≠ k := fun ei => by
        rw [ei, hv] at hvi
        cases hvi
      exact ⟨i, by rw [setBuf_ne s _ ei]; exact hi, by rw [setBuf_ne s _ ei]; exact hvi⟩

theorem Inv.lock_eq (h : Inv K s C J) (hc : Claim.lock p k b d m ∈ C) : d = s.store b := by
  obtain ⟨hid, -, hv, hd, -⟩ := h.claims.ok _ hc
  rw [← hd]
  exact h.data.data k b hid hv

theorem Inv.load (h : Inv K s ({.raw p k b} + F) J) :
    Inv K (s.load b k).2 ({.lock p k b (s.load b k).1 .clean} + F) J := by
  have hf := h.fill
  have hx := hf.lock_eq (mem_head _ F)
  exact ⟨⟨hf.claims.lru, hf.claims.refcnt, hf.claims.holder,
      fun c hc => Claims.ok_same (hf.claims.ok c hc) ⟨rfl, rfl, rfl, rfl⟩ rfl, hf.claims.unique⟩,
    ⟨⟨hx, hf.data.reads⟩, hf.data.data, hf.data.saved, hf.data.present⟩,
    hf.journal.congr rfl rfl rfl rfl rfl rfl rfl⟩

theorem Inv.put (h : Inv K s ({.lock p k b d m} + F) J) (d' : Buf)
    (hj : Journal K (s.modify k d') J) :
    Inv K (s.modify k d') ({.lock p k b d' .dirty} + F) J := by
  obtain ⟨hid, hl, hv, -⟩ := h.claims.ok _ (mem_head _ F)
  have e : s.modify k d' = { s.setData k d' with trace := .write b d' :: s.trace } := by
    rw [Sys.modify, hid]
  have hself : (s.modify k d').buf k = { s.buf k with data := d' } := by
    rw [e]
    exact setBuf_self s k _
  have hne : ∀ i, i ≠ k → (s.modify k d').buf i = s.buf i := by
    intro i hi
    rw [e]
    exact setBuf_ne s _ hi
  have hstore : (s.modify k d').store = update s.store b d' := by rw [e]; rfl
  have hreads : Store.Accepts (s.modify k d').base (s.modify k d').trace := by
    rw [e]
    exact h.data.reads
  have hpins : (s.modify k d').pins = s.pins := by rw [e]; rfl
  have hdisk : (s.modify k d').disk = s.disk := by rw [e]; rfl
  have hlru : (s.modify k d').lru = s.lru := by rw [e]; rfl
  refine ⟨?_, ⟨hreads, fun i a hi hvi => ?_, fun a => ?_, fun a ha => ?_⟩, hj⟩
  · refine h.claims.change (k := k) rfl rfl (h.claims.alone rfl) hne (by rw [hself]) (by rw [hself])
      hlru hpins (fun _ a _ _ => congrFun hdisk a) (by rw [hself, hl]; rfl) ?_
    · show _ ∧ _
      rw [hself]
      exact ⟨hid, hl, hv, rfl, nofun⟩
  · rw [hstore]
    by_cases ei : i = k
    · rw [ei, hself] at hi ⊢
      have ea : a = b := some.inj (hi.symm.trans hid)
      rw [ea, update_self]
    · rw [hne i ei] at hi hvi ⊢
      rw [update_of_ne fun ea : a = b => ei (h.claims.unique i k b (ea ▸ hi) hid)]
      exact h.data.data i a hi hvi
  · rw [hstore, hdisk, hpins]
    by_cases ea : a = b
    · exact .inr (.inr ⟨p, k, d', ea ▸ mem_head _ F⟩)
    rw [update_of_ne ea]
    exact h.data.saved_of fun _ _ _ => mem_swap _ (lock_ne ea)
  · rw [hpins] at ha
    obtain ⟨i, hi, hvi⟩ := h.data.present a ha
    by_cases ei : i = k
    · rw [ei] at hi hvi
      exact ⟨k, by rw [hself]; exact hi, by rw [hself]; exact hvi⟩
    · exact ⟨i, by rw [hne i ei]; exact hi, by rw [hne i ei]; exact hvi⟩

theorem Inv.written {J' : Multiset Part} (h : Inv K s ({.lock p k b d m} + F) J)
    (hj : Journal K { s with disk := update s.disk b d } J') :
    Inv K { s with disk := update s.disk b d } ({.lock p k b d .synced} + F) J' := by
  obtain ⟨hid, hl, hv, hd, -⟩ := h.claims.ok _ (mem_head _ F)
  refine ⟨?_, ⟨h.data.reads, h.data.data, fun a => ?_, h.data.present⟩, hj⟩
  · refine h.claims.change (k := k) rfl rfl (h.claims.alone rfl) (fun _ _ => rfl) rfl rfl rfl rfl
      (fun i a hi ha => ?_) (by rw [hl]; rfl) ⟨hid, hl, hv, hd, fun _ => update_self _ _ _⟩
    exact update_of_ne (fun ea : a = b => hi (h.claims.unique i k b (ea ▸ ha) hid)) _ _
  show update s.disk b d a = s.store a ∨ _
  by_cases ea : a = b
  · rw [ea, update_self, ← hd]
    exact .inl (h.data.data k b hid hv)
  rw [update_of_ne ea]
  exact h.data.saved_of fun _ _ _ => mem_swap _ (lock_ne ea)

end

end Bio
