import Xv6.Bio.Rules

/-!
# The rules for the actions of the log

What the functions of `log.c` do to the invariant of the cache.

* `Inv.modify`, `Inv.logWrite`        a change inside of an operation; `log_write` pins the block;
* `Inv.copyLog`, `Inv.bwriteLog`      a turn of `write_log`;
* `Inv.bwriteHead`                    `write_head`;
* `Inv.copyHome`, `Inv.bwriteHome`, `Inv.bunpin`   a turn of `install_trans`;
* `Inv.beginOp`, `Inv.endOp`, `Inv.clearHeader`, `Inv.endCommit`   the sections under `log.lock`.
-/

namespace Bio
open Run Bytes Prog Own Function List Multiset Bool

section
variable {K : Log.Conf} {s s' : Sys} {C F : Multiset Claim} {J : Multiset Part} {t : Part}
  {k i : Slot} {p : Pid} {b a : Nat} {d d' : Buf} {m m' : Care} {l : List Nat} {n j n' : Nat}

/-! ## parts -/

theorem count_op (J : Multiset Part) : ({.op} + J : Multiset Part).count .op = J.count .op + 1 := by
  rw [Multiset.singleton_add, Multiset.count_cons_self]

theorem count_commit (l : List Nat) (n j : Nat) (J : Multiset Part) :
    ({.commit l n j} + J : Multiset Part).count .op = J.count .op := by
  rw [Multiset.singleton_add, Multiset.count_cons_of_ne (show Part.op ≠ .commit l n j from nofun)]

theorem commits_op (J : Multiset Part) : commits ({.op} + J) = commits J := by
  rw [commits, singleton_add, countP_cons_of_neg J (fun h => h rfl)]
  rfl

theorem commits_commit (l : List Nat) (n j : Nat) (J : Multiset Part) :
    commits ({.commit l n j} + J) = commits J + 1 := by
  rw [commits, singleton_add, countP_cons_of_pos J nofun]
  rfl

/-! ## pins -/

theorem counted_pin {q : List (Nat × Bool)} (h : q.count (a, true) = q.count (a, false) + l.count a) :
    ((b, true) :: q).count (a, true) = ((b, true) :: q).count (a, false) + (l ++ [b]).count a := by
  rw [List.count_cons_of_ne (show (b, true) ≠ (a, false) by simp), List.count_append]
  by_cases e : b = a
  · rw [e, List.count_cons_self, List.count_singleton_self, h]
    rfl
  · rw [List.count_cons_of_ne (show (b, true) ≠ (a, true) by simpa using e), h,
      count_eq_zero.mpr (show a ∉ [b] by simpa using fun ea => e ea.symm)]
    rfl

theorem counted_unpin {q : List (Nat × Bool)} (h : q.count (a, true) = q.count (a, false) + l.count a)
    (hb : b ∈ l) :
    ((b, false) :: q).count (a, true) = ((b, false) :: q).count (a, false) + (l.erase b).count a := by
  rw [List.count_cons_of_ne (show (b, false) ≠ (a, true) by simp), h]
  by_cases e : b = a
  · subst e
    have := count_pos_iff.mpr hb
    rw [List.count_cons_self, List.count_erase_self]
    omega
  · rw [List.count_cons_of_ne (show (b, false) ≠ (a, false) by simpa using e),
      List.count_erase_of_ne fun ea => e ea.symm]

namespace Journal

theorem idle_of_op (h : Journal K s J) (ho : Part.op ∈ J) : s.committing = false := by
  have h1 := count_pos.mpr ho
  rw [h.ops] at h1
  cases hc : s.committing with
  | false => rfl
  | true =>
    have := h.quiet hc
    omega

theorem no_commit (h : Journal K s J) (hc : s.committing = false) : Part.commit l n j ∉ J := by
  have h1 := h.commits
  rw [hc] at h1
  intro hm
  exact countP_eq_zero.mp h1 _ hm nofun

theorem commit_alone (h : Journal K s ({.commit l n j} + J)) :
    s.committing = true ∧ ∀ l' n' j', Part.commit l' n' j' ∉ J := by
  have h1 := h.commits
  rw [commits_commit] at h1
  cases hc : s.committing with
  | false =>
    rw [hc] at h1
    cases h1
  | true =>
    rw [hc] at h1
    have h2 : Bio.commits J = 0 := Nat.succ.inj h1
    exact ⟨rfl, fun l' n' j' hm => countP_eq_zero.mp h2 _ hm nofun⟩

theorem log_lt (h : Journal K s J) (hm : Part.commit l n j ∈ J) {i b : Nat} (hi : l[i]? = some b) :
    K.start + i + 1 < K.start + K.size := by
  have hlen := (List.getElem?_eq_some_iff.mp hi).1
  have h1 := h.room.2
  rw [(h.commit l n j hm).header] at h1
  omega

theorem not_home_log (h : Journal K s J) (hm : Part.commit l n j ∈ J) {i b : Nat}
    (hi : l[i]? = some b) : ¬ Log.Home K (K.start + i + 1) := by
  have := h.log_lt hm hi
  rintro (h1 | h1) <;> omega

theorem home_of_commit (h : Journal K s J) (hm : Part.commit l n j ∈ J) {i b : Nat}
    (hi : l[i]? = some b) : Log.Home K b := by
  apply h.home b
  rw [(h.commit l n j hm).header]
  exact mem_of_getElem? hi

/-- the process that commits goes on -/
theorem advance {l' : List Nat} {j' : Nat} (h : Journal K s ({.commit l n j} + J)) (hn : s'.lh.Nodup)
    (hq : ∀ b, s'.pinlog.count (b, true) = s'.pinlog.count (b, false) + s'.pins.count b)
    (hr : s'.lh.length ≤ Log.LOGSIZE ∧ s'.lh.length ≤ K.size - 1) (hh : ∀ b ∈ s'.lh, Log.Home K b)
    (ho : s'.outstanding = s.outstanding) (hc : s'.committing = s.committing)
    (hcom : Committed K s' l' n' j') : Journal K s' ({.commit l' n' j'} + J) := by
  obtain ⟨hbusy, hnone⟩ := h.commit_alone
  refine ⟨hn, hq, hr, hh, ?_, ?_, ?_, fun hf => ?_, fun l₁ n₁ j₁ hm => ?_⟩
  · rw [count_commit, ho, ← h.ops, count_commit]
  · rw [commits_commit, hc, ← h.commits, commits_commit]
  · rw [hc, ho]
    exact h.quiet
  · rw [hc, hbusy] at hf
    cases hf
  · rcases mem_cases hm with e | hm
    · cases e
      exact hcom
    · exact absurd hm (hnone l₁ n₁ j₁)

end Journal

/-! ## operations -/

theorem modify_eq (hid : (s.buf k).ident = some b) :
    s.modify k d = { s.setData k d with trace := .write b d :: s.trace } := by
  rw [Sys.modify, hid]

theorem Inv.modify (h : Inv K s ({.lock p k b d m} + F) J) (ho : Part.op ∈ J) :
    Inv K (s.modify k d') ({.lock p k b d' .dirty} + F) J := by
  obtain ⟨hid, -⟩ := h.claims.ok _ (mem_head _ F)
  apply h.put
  rw [modify_eq hid]
  exact h.journal.contents rfl rfl rfl rfl rfl fun l n j hm =>
    absurd hm (h.journal.no_commit (h.journal.idle_of_op ho))

theorem logWrite_cases (hid : (s.buf k).ident = some b) (hs : s.logWrite K k = .next s') :
    (b ∈ s.lh ∧ s' = s) ∨
      (b ∉ s.lh ∧ s.lh.length < Log.LOGSIZE ∧ s.lh.length < K.size - 1 ∧
        s' = { s.setBuf k { s.buf k with refcnt := (s.buf k).refcnt + 1 } with
          lh := s.lh ++ [b], pinlog := (b, true) :: s.pinlog, pins := s.pins ++ [b] }) := by
  obtain ⟨hroom, hs⟩ := panic_ite hs
  obtain ⟨-, hs⟩ := panic_ite hs
  rw [hid] at hs
  simp only at hs
  split at hs
  · rename_i hm
    cases hs
    exact .inl ⟨hm, rfl⟩
  · rename_i hm
    cases hs
    exact .inr ⟨hm, by omega, by omega, rfl⟩

theorem Inv.logWritten (h : Inv K s ({.lock p k b d m} + F) J) (hb : b ∈ s.pins) :
    Inv K s ({.lock p k b d .clean} + F) J := by
  obtain ⟨hid, hl, hv, hd, -⟩ := h.claims.ok _ (mem_head _ F)
  refine ⟨?_, ⟨h.data.reads, h.data.data, fun a => ?_, h.data.present⟩, h.journal⟩
  · refine h.claims.change (k := k) rfl rfl (h.claims.alone rfl) (fun _ _ => rfl) rfl rfl rfl rfl
      (fun _ _ _ _ => rfl) ?_ ⟨hid, hl, hv, hd, nofun⟩
    rw [hl]
    rfl
  by_cases ea : a = b
  · exact .inr (.inl (ea ▸ hb))
  · exact h.data.saved_of fun _ _ _ => mem_swap _ (lock_ne ea)

theorem Inv.bpin (h : Inv K s C J) (hid : (s.buf k).ident = some b) (hv : (s.buf k).valid = true)
    (ho : Part.op ∈ J) (hb : b ∉ s.lh) (hhome : Log.Home K b) (h1 : s.lh.length < Log.LOGSIZE)
    (h2 : s.lh.length < K.size - 1) :
    Inv K { s.setBuf k { s.buf k with refcnt := (s.buf k).refcnt + 1 } with
      lh := s.lh ++ [b], pinlog := (b, true) :: s.pinlog, pins := s.pins ++ [b] } C J := by
  have hidle := h.journal.idle_of_op ho
  have hsame := same_setBuf (s := s) (k := k) (x := { s.buf k with refcnt := (s.buf k).refcnt + 1 })
    ⟨rfl, rfl, rfl, rfl⟩
  refine ⟨h.claims.repin hid hsame (fun i hi => setBuf_ne s _ hi) ?_ ?_ rfl rfl,
    ⟨h.data.reads, fun i a hi hvi => ?_, fun a => ?_, fun a ha => ?_⟩, ?_⟩
  · rw [setBuf_self, List.count_append, List.count_singleton_self]
    show (s.buf k).refcnt + 1 + _ = _
    omega
  · intro a ha
    rw [List.count_append, List.count_singleton, if_neg (by simpa using ha.symm)]
    rfl
  · rw [(hsame i).data]
    exact h.data.data i a ((hsame i).ident ▸ hi) ((hsame i).valid ▸ hvi)
  · exact (h.data.saved a).imp_right (Or.imp_left fun hm => mem_append_left _ hm)
  · rcases mem_append.mp ha with ha | ha
    · obtain ⟨i, hi, hvi⟩ := h.data.present a ha
      exact ⟨i, (hsame i).ident.trans hi, (hsame i).valid.trans hvi⟩
    · rw [List.mem_singleton.mp ha]
      exact ⟨k, (hsame k).ident.trans hid, (hsame k).valid.trans hv⟩
  · have hj := h.journal
    refine ⟨?_, fun a => ?_, ?_, ?_, hj.ops, hj.commits, hj.quiet, fun _ => ?_,
      fun l n j hm => absurd hm (hj.no_commit hidle)⟩
    · refine List.nodup_append.mpr ⟨hj.nodup, List.nodup_singleton b, fun x hx y hy => ?_⟩
      rw [List.mem_singleton.mp hy]
      exact fun e => hb (e ▸ hx)
    · exact counted_pin (hj.counted a)
    · rw [length_append, length_singleton]
      omega
    · intro x hx
      rcases mem_append.mp hx with hx | hx
      · exact hj.home x hx
      · rwa [List.mem_singleton.mp hx]
    · rw [hj.even hidle]

theorem Inv.logWrite (h : Inv K s ({.lock p k b d m} + F) J) (ho : Part.op ∈ J)
    (hhome : Log.Home K b) (hs : s.logWrite K k = .next s') :
    Inv K s' ({.lock p k b d .clean} + F) J := by
  obtain ⟨hid, -, hv, -⟩ := h.claims.ok _ (mem_head _ F)
  rcases logWrite_cases hid hs with ⟨hb, rfl⟩ | ⟨hb, h1, h2, rfl⟩
  · refine h.logWritten ?_
    rwa [h.journal.even (h.journal.idle_of_op ho)]
  · exact (h.bpin hid hv ho hb hhome h1 h2).logWritten (List.mem_append_right _ (List.mem_singleton_self b))

/-- a section under `log.lock`: the claims speak about buffers and disk only -/
theorem Inv.latch (h : Inv K s C J) {J' : Multiset Part} {o : Nat} {x : Bool}
    (hj : Journal K { s with lh := l, outstanding := o, committing := x } J') :
    Inv K { s with lh := l, outstanding := o, committing := x } C J' :=
  ⟨⟨h.claims.lru, h.claims.refcnt, h.claims.holder,
      fun c hc => Claims.ok_same (h.claims.ok c hc) ⟨rfl, rfl, rfl, rfl⟩ rfl, h.claims.unique⟩,
    ⟨h.data.reads, h.data.data, h.data.saved, h.data.present⟩, hj⟩

theorem Inv.beginOp (h : Inv K s C J) (hs : s.beginOp = .next s') : Inv K s' C ({.op} + J) := by
  obtain ⟨hc, hs⟩ := blocked_ite hs
  obtain ⟨-, hs⟩ := blocked_ite hs
  cases hs
  have hidle : s.committing = false := eq_false_of_ne_true hc
  have hj := h.journal
  refine h.latch ⟨hj.nodup, hj.counted, hj.room, hj.home, ?_, ?_, fun hc => ?_, hj.even, fun l n j hm => ?_⟩
  · rw [count_op, hj.ops]
  · rw [commits_op]
    exact hj.commits
  · exact absurd (hidle.symm.trans hc) false_ne_true
  · rcases mem_cases hm with e | hm
    · cases e
    · exact absurd hm (hj.no_commit hidle)

theorem Inv.endOp {x : Bool} (h : Inv K s C ({.op} + J)) (hs : s.endOp = .next (x, s')) :
    Inv K s' C ((if x then {.commit s.lh 0 0} else 0) + J) := by
  have hj := h.journal
  have hidle := hj.idle_of_op (mem_head _ J)
  have hops := hj.ops
  rw [count_op] at hops
  have hcom := hj.commits
  rw [commits_op, hidle] at hcom
  have hnone : ∀ l n j, Part.commit l n j ∉ J := fun l n j hm => hj.no_commit hidle (mem_tail _ hm)
  unfold Sys.endOp at hs
  rw [hidle] at hs
  simp only [false_eq_true, if_false] at hs
  split at hs
  · cases hs
    rw [if_pos rfl]
    refine h.latch ⟨hj.nodup, hj.counted, hj.room, hj.home, ?_, ?_, fun _ => rfl, nofun, fun l n j hm => ?_⟩
    · rw [count_commit]
      show J.count .op = 0
      omega
    · rw [commits_commit, hcom]
      rfl
    · rcases mem_cases hm with e | hm
      · cases e
        exact ⟨rfl, hj.even hidle, fun i b hi => absurd hi (Nat.not_lt_zero i)⟩
      · exact absurd hm (hnone l n j)
  · cases hs
    rw [if_neg Bool.false_ne_true, zero_add]
    refine h.latch ⟨hj.nodup, hj.counted, hj.room, hj.home, ?_, hcom, nofun, fun _ => hj.even hidle,
      fun l n j hm => absurd hm (hnone l n j)⟩
    show J.count .op = s.outstanding - 1
    omega

/-! ## a commit -/

theorem Inv.header_eq (h : Inv K s C J) (hm : Part.commit l n j ∈ J) : s.lh = l ∧ l.length ≤ Log.LOGSIZE := by
  have hl := (h.journal.commit l n j hm).header
  exact ⟨hl, hl ▸ h.journal.room.1⟩

theorem Inv.clearHeader (h : Inv K s C ({.commit l n j} + J)) (hl : l.length ≤ j) :
    Inv K { s with lh := [] } C ({.commit [] 0 0} + J) := by
  have hj := h.journal
  have hpins : s.pins = [] := by
    rw [(hj.commit l n j (mem_head _ J)).pins]
    exact drop_eq_nil_of_le hl
  exact h.latch (hj.advance nodup_nil hj.counted ⟨Nat.zero_le _, Nat.zero_le _⟩ nofun rfl rfl
    ⟨rfl, hpins, fun i b hi => absurd hi (Nat.not_lt_zero i)⟩)

theorem Inv.endCommit (h : Inv K s C ({.commit [] n j} + J)) : Inv K { s with committing := false } C J := by
  have hj := h.journal
  obtain ⟨hbusy, hnone⟩ := hj.commit_alone
  have hc := hj.commit [] n j (mem_head _ J)
  refine h.latch ⟨hj.nodup, hj.counted, hj.room, hj.home, ?_, ?_, nofun, fun _ => ?_,
    fun l' n' j' hm => absurd hm (hnone l' n' j')⟩
  · rw [← hj.ops, count_commit]
  · have h1 := hj.commits
    rw [commits_commit, hbusy] at h1
    exact Nat.succ.inj h1
  · rw [hc.pins, hc.header, drop_nil]

theorem Inv.copyLog (h : Inv K s ({.lock p k b d m} + F) J) (hb : ¬ Log.Home K b) :
    Inv K (s.copy K k d') ({.lock p k b d' .dirty} + F) J := by
  obtain ⟨hid, -⟩ := h.claims.ok _ (mem_head _ F)
  have e : s.copy K k d' = s.modify k d' := by
    rw [Sys.copy, hid]
    exact if_neg hb
  rw [e]
  apply h.put
  rw [modify_eq hid]
  refine h.journal.contents rfl rfl rfl rfl rfl fun l n j hm i a hi ha => ?_
  show s.disk (K.start + i + 1) = update s.store b d' a
  rw [update_of_ne fun ea : a = b => hb (ea ▸ h.journal.home_of_commit hm ha)]
  exact (h.journal.commit l n j hm).logged i a hi ha

theorem Inv.bwriteHead (h : Inv K s ({.lock p k K.start d m} + F) J) :
    Inv K { s with disk := update s.disk K.start d } ({.lock p k K.start d .synced} + F) J := by
  apply h.written
  refine h.journal.contents rfl rfl rfl rfl rfl fun l n j hm i a hi ha => ?_
  show update s.disk K.start d (K.start + i + 1) = s.store a
  rw [update_of_ne (by omega)]
  exact (h.journal.commit l n j hm).logged i a hi ha

theorem Inv.bwriteHome (h : Inv K s ({.lock p k b d m} + F) J) (hb : Log.Home K b) :
    Inv K { s with disk := update s.disk b d } ({.lock p k b d .synced} + F) J := by
  apply h.written
  refine h.journal.contents rfl rfl rfl rfl rfl fun l n j hm i a hi ha => ?_
  show update s.disk b d (K.start + i + 1) = s.store a
  rw [update_of_ne fun e : K.start + i + 1 = b => h.journal.not_home_log hm ha (e ▸ hb)]
  exact (h.journal.commit l n j hm).logged i a hi ha

theorem Inv.bwriteLog (h : Inv K s ({.lock p k (K.start + n + 1) d m} + F) ({.commit l n j} + J))
    (hb : l[n]? = some b) (hd : d = s.store b) :
    Inv K { s with disk := update s.disk (K.start + n + 1) d }
      ({.lock p k (K.start + n + 1) d .synced} + F) ({.commit l (n + 1) j} + J) := by
  have hj := h.journal
  have hc := hj.commit l n j (mem_head _ J)
  apply h.written
  refine hj.advance hj.nodup hj.counted hj.room hj.home rfl rfl ⟨hc.header, hc.pins, fun i a hi ha => ?_⟩
  show update s.disk (K.start + n + 1) d (K.start + i + 1) = s.store a
  by_cases ei : i = n
  · subst ei
    have ea : a = b := Option.some.inj (ha.symm.trans hb)
    rw [update_self, hd, ea]
  · rw [update_of_ne (by omega)]
    exact hc.logged i a (by omega) ha

theorem Inv.log_eq (h : Inv K s C J) (hm : Part.commit l n j ∈ J) (hi : n' < n) (hl : l[n']? = some b)
    (hc : Claim.lock p k (K.start + n' + 1) d m ∈ C) (hd : m ≠ .dirty) : d = s.store b := by
  have hcom := h.journal.commit l n j hm
  have hsaved : s.disk (K.start + n' + 1) = s.store (K.start + n' + 1) := by
    rcases h.data.saved (K.start + n' + 1) with e | hp | ⟨q, i, x, hx⟩
    · exact e
    · rw [hcom.pins] at hp
      have hin : K.start + n' + 1 ∈ s.lh := by
        rw [hcom.header]
        exact mem_of_mem_drop hp
      exact absurd (h.journal.home _ hin) (h.journal.not_home_log hm hl)
    · have hk := h.claims.unique i k _ (h.claims.ok _ hx).1 (h.claims.ok _ hc).1
      have e := h.claims.eq_of_locks hc hx rfl rfl hk
      cases e
      exact absurd rfl hd
  rw [h.lock_eq hc, ← hsaved]
  exact hcom.logged n' b hi hl

theorem Inv.copyHome (h : Inv K s C J) (hc : Claim.lock p k b d m ∈ C) (hb : Log.Home K b)
    (hd : d' = s.store b) : d' = d ∧ s.copy K k d' = s := by
  obtain ⟨hid, -, -, hdata, -⟩ := h.claims.ok _ hc
  have e : d' = d := hd.trans (h.lock_eq hc).symm
  refine ⟨e, ?_⟩
  rw [Sys.copy, hid]
  show (if Log.Home K b then s.setData k d' else s.modify k d') = s
  rw [if_pos hb, Sys.setData, Sys.setBuf, e, ← hdata, update_eq_self]

theorem Inv.bunpin (h : Inv K s C ({.commit l n j} + J)) (hc : Claim.lock p k b d .synced ∈ C)
    (hb : l[j]? = some b) : Inv K (s.bunpin k) C ({.commit l n (j + 1)} + J) := by
  have hj := h.journal
  have hcom := hj.commit l n j (mem_head _ J)
  obtain ⟨hid, -, hv, hd, hsync⟩ := h.claims.ok _ hc
  have hlt := (List.getElem?_eq_some_iff.mp hb).1
  have hpins : s.pins = b :: l.drop (j + 1) := by
    rw [hcom.pins, List.drop_eq_getElem_cons hlt, (List.getElem?_eq_some_iff.mp hb).2]
  have herase : s.pins.erase b = l.drop (j + 1) := by rw [hpins, List.erase_cons_head]
  have e : s.bunpin k = { s.setBuf k { s.buf k with refcnt := dec32 (s.buf k).refcnt } with
      pinlog := (b, false) :: s.pinlog, pins := s.pins.erase b } := by
    rw [Sys.bunpin, hid]
  have hsame := same_setBuf (s := s) (k := k) (x := { s.buf k with refcnt := dec32 (s.buf k).refcnt })
    ⟨rfl, rfl, rfl, rfl⟩
  rw [e]
  refine ⟨h.claims.repin hid hsame (fun i hi => setBuf_ne s _ hi) ?_ ?_ rfl rfl,
    ⟨h.data.reads, fun i a hi hvi => ?_, fun a => ?_, fun a ha => ?_⟩, ?_⟩
  · have hr := h.claims.refcnt k
    have hpos : 0 < s.pins.count b := by
      rw [hpins, List.count_cons_self]
      omega
    rw [Claims.pinned_some hid] at hr
    rw [setBuf_self, List.count_erase_self]
    show dec32 (s.buf k).refcnt + _ = _
    rw [dec32, if_neg (by omega)]
    omega
  · intro a ha
    exact count_erase_of_ne ha
  · rw [(hsame i).data]
    exact h.data.data i a ((hsame i).ident ▸ hi) ((hsame i).valid ▸ hvi)
  · by_cases ea : a = b
    · left
      show s.disk a = s.store a
      rw [ea, hsync rfl]
      exact h.lock_eq hc
    · exact (h.data.saved a).imp_right (Or.imp_left fun hm => (List.mem_erase_of_ne ea).mpr hm)
  · obtain ⟨i, hi, hvi⟩ := h.data.present a (mem_of_mem_erase ha)
    exact ⟨i, (hsame i).ident.trans hi, (hsame i).valid.trans hvi⟩
  · refine hj.advance hj.nodup (fun a => counted_unpin (hj.counted a) ?_) hj.room hj.home rfl rfl
      ⟨hcom.header, herase, hcom.logged⟩
    rw [hpins]
    exact mem_cons_self

end

end Bio
