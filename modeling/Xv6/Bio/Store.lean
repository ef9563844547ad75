import Xv6.Bio.LogRules

/-!
# Cache and log are a block store

The processes run calls of `bread`, `brelse` and of the log in any order, and their actions interleave.

* `bread_safe`, `brelse_safe`                 what a process gets, and gives back;
* `writeLogFrom_safe`, `installFrom_safe`     the loops of a commit, by induction on the turns left;
* `commit_safe`, `endOp_safe`, `Script.run_safe`   a commit, `end_op`, and a whole process;
* `block_store`                               in every reachable state all calls of `bread` have returned
                                              what a plain block store would have.
-/

namespace Bio
open Run Bytes Prog Own Function List Multiset Finset

abbrev Owned := Multiset Claim × Multiset Part

def Owned.claim (c : Claim) : Owned := ({c}, 0)

def Owned.part (t : Part) : Owned := (0, {t})

open Owned

def machine (K : Log.Conf) : Machine Sys Op Op.Res Owned (Multiset Empty) where
  sem := sem K
  Inv := fun s r => Inv K s r.1 r.2
  keeps := fun _ _ _ => True
  keeps_refl := fun _ _ => trivial
  keeps_trans := fun _ _ _ _ _ _ => trivial
  keeps_left := fun _ _ _ _ _ => trivial
  pages := 0
  gain := fun _ _ => 0
  loss := fun _ _ => 0
  owes := fun _ _ _ => True
  owes_none := fun _ _ _ _ => trivial
  fatal := fun msg => msg = undef

section
variable {K : Log.Conf} {r r' G : Owned} {p : Pid} {k i : Slot} {b a : Nat} {d d' : Buf} {m m' : Care}
  {l : List Nat} {n j t : Nat}

/-! ## actions -/

theorem does_intro {o : Op} {Q : o.Res → Owned → Prop}
    (hu : ∀ F : Owned, ∀ s, Inv K s (r.1 + F.1) (r.2 + F.2) → sem K o s ≠ .panic undef)
    (h : ∀ F : Owned, ∀ s x s', Inv K s (r.1 + F.1) (r.2 + F.2) → sem K o s = .next (x, s') →
      ∃ r', Q x r' ∧ Inv K s' (r'.1 + F.1) (r'.2 + F.2)) : Acts (machine K) 0 o r Q := by
  refine ⟨fun F s hs => ?_, fun _ _ => trivial⟩
  refine ⟨fun msg hm => hm ▸ hu (0 + F) s hs, fun x s' hx => ?_⟩
  obtain ⟨r', hq, hi⟩ := h (0 + F) s x s' hs hx
  exact ⟨r', hq, hi, trivial, rfl⟩

theorem fst_two (c c' : Claim) (x : Part) (F : Owned) :
    (claim c + (claim c' + part x)).1 + F.1 = {c} + ({c'} + F.1) := by
  show {c} + ({c'} + 0) + F.1 = _
  rw [add_zero, add_assoc]

theorem snd_two (c c' : Claim) (x : Part) (F : Owned) :
    (claim c + (claim c' + part x)).2 + F.2 = {x} + F.2 := by
  show 0 + (0 + {x}) + F.2 = _
  rw [zero_add, zero_add]

theorem fst_one (c : Claim) (x : Part) (F : Owned) : (claim c + part x).1 + F.1 = {c} + F.1 := by
  show {c} + 0 + F.1 = _
  rw [add_zero]

theorem snd_one (c : Claim) (x : Part) (F : Owned) : (claim c + part x).2 + F.2 = {x} + F.2 := by
  show 0 + {x} + F.2 = _
  rw [zero_add]

theorem does_bget : Acts (machine K) 0 (.bget b) 0 fun k r => r = claim (.ref k b) := by
  refine does_intro (fun F s _ => ?_) fun F s k s' hi hs => ?_
  · show s.bget b ≠ _
    unfold Sys.bget
    split
    · exact next_ne_panic
    · split
      · exact next_ne_panic
      · intro h
        exact absurd (Outcome.panic.inj h) (by decide)
  · refine ⟨claim (.ref k b), rfl, ?_⟩
    rw [Prod.fst_zero, Prod.snd_zero, zero_add, zero_add] at hi
    show Inv K s' _ (0 + F.2)
    rw [zero_add]
    exact hi.bget hs

theorem does_acquiresleep : Acts (machine K) 0 (.acquiresleep p k) (claim (.ref k b) + G) fun _ r =>
    r = claim (.raw p k b) + G ∧ ∀ c ∈ G.1, c.locks = true → c.slot ≠ k := by
  refine does_intro (fun F s _ => ?_) fun F s x s' hi hs => ?_
  · show (if _ then _ else _) ≠ _
    split
    · exact next_ne_panic
    · exact blocked_ne_panic
  have hl : (s.buf k).lock = none := by
    by_contra hn
    rw [show sem K (.acquiresleep p k) s = .blocked from if_neg hn] at hs
    cases hs
  rw [show sem K (.acquiresleep p k) s = _ from if_pos hl] at hs
  cases hs
  have hi' : Inv K s ({.ref k b} + (G.1 + F.1)) (0 + G.2 + F.2) := by
    rwa [← add_assoc]
  refine ⟨claim (.raw p k b) + G, ⟨rfl, fun c hc hlock e => ?_⟩, ?_⟩
  · have := hi'.claims.unlocked hl c (mem_tail _ (mem_add.mpr (.inl hc))) e
    rw [hlock] at this
    cases this
  · show Inv K _ ({.raw p k b} + G.1 + F.1) _
    rw [add_assoc {Claim.raw p k b}]
    exact hi'.acquiresleep hl

theorem does_load : Acts (machine K) 0 (.load b k) (claim (.raw p k b)) fun x r =>
    r = claim (.lock p k b x .clean) := by
  refine does_intro (fun F s _ => next_ne_panic) fun F s x s' hi hs => ?_
  have e : s.load b k = (x, s') := Outcome.next.inj hs
  have hl := hi.load
  rw [e] at hl
  exact ⟨_, rfl, hl⟩

theorem does_releasesleep (hm : m ≠ .dirty) :
    Acts (machine K) 0 (.releasesleep p k) (claim (.lock p k b d m)) fun _ r => r = claim (.ref k b) := by
  refine does_intro (fun F s hi => ?_) fun F s x s' hi hs => ?_
  · have hl := (hi.claims.ok _ (mem_head _ F.1)).2.1
    rw [show sem K (.releasesleep p k) s = _ from if_pos hl]
    exact next_ne_panic
  · have hl := (hi.claims.ok _ (mem_head _ F.1)).2.1
    rw [show sem K (.releasesleep p k) s = _ from if_pos hl] at hs
    cases hs
    exact ⟨_, rfl, hi.releasesleep hm⟩

theorem does_unref : Acts (machine K) 0 (.unref k) (claim (.ref k b)) fun _ r => r = 0 := by
  refine does_intro (fun F s _ => next_ne_panic) fun F s x s' hi hs => ?_
  cases hs
  refine ⟨0, rfl, ?_⟩
  rw [Prod.fst_zero, zero_add]
  exact hi.unref

theorem bread_safe : Safe (machine K) 0 (bread p b) G fun x r =>
    r = claim (.lock p x.1 b x.2 .clean) + G ∧ ∀ c ∈ G.1, c.locks = true → c.slot ≠ x.1 := by
  refine Safe.call (Safe.perform does_bget) (zero_add G).symm ?_
  intro k r hr
  rw [hr]
  refine Safe.bindAct (does_acquiresleep.mono ?_)
  intro _ r hr
  rw [hr.1]
  refine Safe.call (Safe.perform does_load) rfl ?_
  intro d r hd
  rw [hd]
  exact Safe.ret ⟨rfl, hr.2⟩

theorem brelse_safe (hm : m ≠ .dirty) :
    Safe (machine K) 0 (brelse p k) (claim (.lock p k b d m)) fun _ r => r = 0 := by
  refine Safe.bindAct ((does_releasesleep hm).mono ?_)
  rintro _ _ rfl
  exact Safe.perform does_unref

/-! ## commits -/

/-- where the blocks of a commit are, and where its log is -/
def Loggable (K : Log.Conf) (l : List Nat) : Prop :=
  l.length ≤ Log.LOGSIZE ∧ ∀ t b, l[t]? = some b → Log.Home K b ∧ ¬ Log.Home K (K.start + t + 1)

theorem does_header : Acts (machine K) 0 .header (part (.commit l n j)) fun x r =>
    x = l ∧ r = part (.commit l n j) ∧ Loggable K l := by
  refine does_intro (fun F s _ => next_ne_panic) fun F s x s' hi hs => ?_
  cases hs
  have hm := mem_head (.commit l n j) F.2
  obtain ⟨h1, h2⟩ := hi.header_eq hm
  exact ⟨_, ⟨h1, rfl, h2, fun t b ht => ⟨hi.journal.home_of_commit hm ht, hi.journal.not_home_log hm ht⟩⟩, hi⟩

theorem does_copyLog (hb : ¬ Log.Home K b) : Acts (machine K) 0 (.copy k d') (claim (.lock p k b d m))
    fun _ r => r = claim (.lock p k b d' .dirty) := by
  refine does_intro (fun F s _ => next_ne_panic) fun F s x s' hi hs => ?_
  cases hs
  exact ⟨_, rfl, hi.copyLog hb⟩

theorem bwrite_eq {s : Sys} (hid : (s.buf k).ident = some b) (hl : (s.buf k).lock = some p)
    (hd : (s.buf k).data = d) :
    sem K (.bwrite p k) s = .next ((), { s with disk := update s.disk b d }) := by
  show (s.bwrite p k).map _ = _
  rw [Sys.bwrite, if_pos hl, hid, hd]
  rfl

theorem does_bwrite (h : ∀ {s : Sys} {C J}, Inv K s ({.lock p k b d m} + C) J →
      Inv K { s with disk := update s.disk b d } ({.lock p k b d .synced} + C) J) :
    Acts (machine K) 0 (.bwrite p k) (claim (.lock p k b d m)) fun _ r => r = claim (.lock p k b d .synced) := by
  refine does_intro (fun F s hi => ?_) fun F s x s' hi hs => ?_
  · obtain ⟨hid, hl, -, hd, -⟩ := hi.claims.ok _ (mem_head _ F.1)
    rw [bwrite_eq hid hl hd]
    exact next_ne_panic
  · obtain ⟨hid, hl, -, hd, -⟩ := hi.claims.ok _ (mem_head _ F.1)
    rw [bwrite_eq hid hl hd] at hs
    cases hs
    exact ⟨_, rfl, h hi⟩

theorem does_bwriteLog (hb : l[n]? = some b) : Acts (machine K) 0 (.bwrite p k)
    (claim (.lock p k (K.start + n + 1) d m) + (claim (.lock p i b d m') + part (.commit l n j)))
    fun _ r => r = claim (.lock p k (K.start + n + 1) d .synced) +
      (claim (.lock p i b d m') + part (.commit l (n + 1) j)) := by
  refine does_intro (fun F s hi => ?_) fun F s x s' hi hs => ?_
  · rw [fst_two] at hi
    obtain ⟨hid, hl, -, hd, -⟩ := hi.claims.ok _ (mem_head _ _)
    rw [bwrite_eq hid hl hd]
    exact next_ne_panic
  rw [fst_two, snd_two] at hi
  obtain ⟨hid, hl, -, hd, -⟩ := hi.claims.ok _ (mem_head _ _)
  rw [bwrite_eq hid hl hd] at hs
  cases hs
  have hsrc := hi.lock_eq (mem_tail _ (mem_head (.lock p i b d m') F.1))
  refine ⟨_, rfl, ?_⟩
  rw [fst_two, snd_two]
  exact hi.bwriteLog hb hsrc

/-- a block of the log is copied over the contents it was made from -/
theorem does_copyHome (hb : Log.Home K b) (ht : t < n) (hl : l[t]? = some b) (hm' : m' ≠ .dirty) :
    Acts (machine K) 0 (.copy k d')
    (claim (.lock p k b d m) + (claim (.lock p i (K.start + t + 1) d' m') + part (.commit l n j)))
    fun _ r => r = claim (.lock p k b d' m) +
      (claim (.lock p i (K.start + t + 1) d' m') + part (.commit l n j)) := by
  refine does_intro (fun F s _ => next_ne_panic) fun F s x s' hi hs => ?_
  cases hs
  rw [fst_two, snd_two] at hi
  have hd := hi.log_eq (mem_head _ F.2) ht hl (mem_tail _ (mem_head _ F.1)) hm'
  obtain ⟨ed, ec⟩ := hi.copyHome (mem_head _ _) hb hd
  refine ⟨_, rfl, ?_⟩
  rw [fst_two, snd_two, ec, ed]
  rwa [ed] at hi

theorem does_bunpin (hb : l[j]? = some b) : Acts (machine K) 0 (.bunpin k)
    (claim (.lock p k b d .synced) + part (.commit l n j))
    fun _ r => r = claim (.lock p k b d .synced) + part (.commit l n (j + 1)) := by
  refine does_intro (fun F s _ => next_ne_panic) fun F s x s' hi hs => ?_
  cases hs
  rw [fst_one, snd_one] at hi
  refine ⟨_, rfl, ?_⟩
  rw [fst_one, snd_one]
  exact hi.bunpin (mem_head _ _) hb

theorem does_clearHeader (hl : l.length ≤ j) : Acts (machine K) 0 .clearHeader (part (.commit l n j))
    fun _ r => r = part (.commit [] 0 0) := by
  refine does_intro (fun F s _ => next_ne_panic) fun F s x s' hi hs => ?_
  cases hs
  exact ⟨_, rfl, hi.clearHeader hl⟩

theorem does_endCommit : Acts (machine K) 0 .endCommit (part (.commit [] n j)) fun _ r => r = 0 := by
  refine does_intro (fun F s _ => next_ne_panic) fun F s x s' hi hs => ?_
  cases hs
  refine ⟨0, rfl, ?_⟩
  rw [Prod.snd_zero, zero_add]
  exact hi.endCommit

theorem writeHead_safe : Safe (machine K) 0 (writeHead K p) (part (.commit l n j)) fun _ r =>
    r = part (.commit l n j) := by
  have hstart : ¬ Log.Home K K.start := by
    have := K.size_pos
    intro h
    rcases h with h | h <;> omega
  refine Safe.bind bread_safe ?_
  intro x r hr
  rw [hr.1]
  refine Safe.call (Safe.perform does_header) (add_comm _ _) ?_
  intro l' r hl
  rw [hl.2.1]
  refine Safe.call (Safe.perform (does_copyLog hstart)) (add_comm _ _) ?_
  rintro _ _ rfl
  refine Safe.call (Safe.perform (does_bwrite Inv.bwriteHead)) rfl ?_
  rintro _ _ rfl
  refine (Safe.frame (brelse_safe (m := .synced) nofun) _).mono ?_
  intro _ r ⟨r0, hr, h0⟩
  rw [hr, h0, zero_add]

theorem writeLogFrom_safe (fuel : Nat) (hf : l.length < fuel + t) (ht : t ≤ l.length) :
    Safe (machine K) 0 (writeLogFrom K p fuel t) (part (.commit l t j)) fun _ r =>
      r = part (.commit l l.length j) := by
  induction fuel generalizing t with
  | zero => omega
  | succ fuel ih =>
    refine Safe.bind (Safe.perform does_header) ?_
    intro l' r ⟨el, er, hlog⟩
    rw [el, er]
    cases hb : l[t]? with
    | none =>
      have := getElem?_eq_none_iff.mp hb
      exact Safe.ret (by rw [show t = l.length by omega])
    | some b =>
      obtain ⟨hhome, harea⟩ := hlog.2 t b hb
      have hlt := (List.getElem?_eq_some_iff.mp hb).1
      refine Safe.bind bread_safe ?_
      intro dst r hr
      rw [hr.1]
      refine Safe.bind bread_safe ?_
      intro src r hr
      rw [hr.1]
      refine Safe.call (Safe.perform (does_copyLog harea)) (add_left_comm _ _ _) ?_
      rintro _ _ rfl
      refine Safe.bind (Safe.perform (does_bwriteLog hb)) ?_
      rintro _ _ rfl
      refine Safe.call (brelse_safe (m := .clean) nofun) (add_left_comm _ _ _) ?_
      rintro _ _ rfl
      rw [zero_add]
      refine Safe.call (brelse_safe (m := .synced) nofun) rfl ?_
      rintro _ _ rfl
      rw [zero_add]
      exact ih (by omega) (by omega)

theorem installFrom_safe (fuel : Nat) (hf : l.length < fuel + t) (ht : t ≤ l.length) :
    Safe (machine K) 0 (installFrom K p fuel t) (part (.commit l l.length t)) fun _ r =>
      r = part (.commit l l.length l.length) := by
  induction fuel generalizing t with
  | zero => omega
  | succ fuel ih =>
    refine Safe.bind (Safe.perform does_header) ?_
    intro l' r ⟨el, er, hlog⟩
    rw [el, er]
    cases hb : l[t]? with
    | none =>
      have := getElem?_eq_none_iff.mp hb
      exact Safe.ret (by rw [show t = l.length by omega])
    | some b =>
      obtain ⟨hhome, harea⟩ := hlog.2 t b hb
      have hlt := (List.getElem?_eq_some_iff.mp hb).1
      refine Safe.bind bread_safe ?_
      intro lbuf r hr
      rw [hr.1]
      refine Safe.bind bread_safe ?_
      intro dbuf r hr
      rw [hr.1]
      refine Safe.bind (Safe.perform (does_copyHome hhome hlt hb nofun)) ?_
      rintro _ _ rfl
      refine Safe.call (Safe.perform (does_bwrite fun hi => hi.bwriteHome hhome)) rfl ?_
      rintro _ _ rfl
      refine Safe.call (Safe.perform (does_bunpin hb))
        ((add_assoc _ _ _).symm.trans (add_right_comm _ _ _)) ?_
      rintro _ _ rfl
      refine Safe.call (brelse_safe (m := .clean) nofun) (add_comm _ _) ?_
      rintro _ _ rfl
      rw [zero_add]
      refine Safe.call (brelse_safe (m := .synced) nofun) rfl ?_
      rintro _ _ rfl
      rw [zero_add]
      exact ih (by omega) (by omega)

theorem commit_safe : Safe (machine K) 0 (commit K p) (part (.commit l 0 0)) fun _ r =>
    ∃ n j, r = part (.commit [] n j) := by
  refine Safe.bind (Safe.perform does_header) ?_
  intro l' r ⟨el, er, hlog⟩
  have hlen := hlog.1
  rw [el, er]
  refine Safe.ite (fun _ => ?_) fun h => ?_
  · refine Safe.bind (writeLogFrom_safe _ (by omega) (Nat.zero_le _)) ?_
    rintro _ _ rfl
    refine Safe.bind writeHead_safe ?_
    rintro _ _ rfl
    refine Safe.bind (installFrom_safe _ (by omega) (Nat.zero_le _)) ?_
    rintro _ _ rfl
    refine Safe.bind (Safe.perform (does_clearHeader le_rfl)) ?_
    rintro _ _ rfl
    exact writeHead_safe.mono fun _ r hr => ⟨0, 0, hr⟩
  · have hnil : l = [] := length_eq_zero_iff.mp (by omega)
    rw [hnil]
    exact Safe.ret ⟨0, 0, rfl⟩

/-! ## processes -/

theorem does_modify : Acts (machine K) 0 (.modify k d') (claim (.lock p k b d m) + part .op) fun _ r =>
    r = claim (.lock p k b d' .dirty) + part .op := by
  refine does_intro (fun F s _ => next_ne_panic) fun F s x s' hi hs => ?_
  cases hs
  rw [fst_one, snd_one] at hi
  refine ⟨_, rfl, ?_⟩
  rw [fst_one, snd_one]
  exact hi.modify (mem_head _ F.2)

theorem does_logWrite (hb : Log.Home K b) : Acts (machine K) 0 (.logWrite k)
    (claim (.lock p k b d m) + part .op) fun _ r => r = claim (.lock p k b d .clean) + part .op := by
  refine does_intro (fun F s hi => ?_) fun F s x s' hi hs => ?_
  · rw [fst_one] at hi
    obtain ⟨hid, -⟩ := hi.claims.ok _ (mem_head _ F.1)
    show (s.logWrite K k).map _ ≠ _
    unfold Sys.logWrite
    split
    · exact fun h => absurd (Outcome.panic.inj h) (by decide)
    split
    · exact fun h => absurd (Outcome.panic.inj h) (by decide)
    rw [hid]
    dsimp only
    split <;> exact next_ne_panic
  · rw [fst_one, snd_one] at hi
    obtain ⟨t, ht, e⟩ := map_next hs
    cases e
    refine ⟨_, rfl, ?_⟩
    rw [fst_one, snd_one]
    exact hi.logWrite (mem_head _ F.2) hb ht

theorem does_beginOp : Acts (machine K) 0 .beginOp 0 fun _ r => r = part .op := by
  refine does_intro (fun F s _ => ?_) fun F s x s' hi hs => ?_
  · show (s.beginOp).map _ ≠ _
    unfold Sys.beginOp
    split
    · exact blocked_ne_panic
    · split
      · exact blocked_ne_panic
      · exact next_ne_panic
  · obtain ⟨t, ht, e⟩ := map_next hs
    cases e
    rw [Prod.fst_zero, Prod.snd_zero, zero_add, zero_add] at hi
    refine ⟨part .op, rfl, ?_⟩
    show Inv K s' (0 + F.1) _
    rw [zero_add]
    exact hi.beginOp ht

theorem does_endOp : Acts (machine K) 0 .endOp (part .op) fun x r =>
    (x = true ∧ ∃ l, r = part (.commit l 0 0)) ∨ (x = false ∧ r = 0) := by
  refine does_intro (fun F s hi => ?_) fun F s x s' hi hs => ?_
  · show s.endOp ≠ _
    have hidle := hi.journal.idle_of_op (mem_head _ F.2)
    rw [Sys.endOp, if_neg (by rw [hidle]; exact Bool.false_ne_true)]
    split <;> exact next_ne_panic
  · have h := hi.endOp hs
    cases x with
    | true => exact ⟨part (.commit s.lh 0 0), .inl ⟨rfl, _, rfl⟩, h⟩
    | false => exact ⟨0, .inr ⟨rfl, rfl⟩, h⟩

theorem endOp_safe : Safe (machine K) 0 (endOp K p) (part .op) fun _ r => r = 0 := by
  refine Safe.bind (Safe.perform does_endOp) ?_
  intro x r hr
  rcases hr with ⟨ex, l, er⟩ | ⟨ex, er⟩
  · rw [ex, er]
    refine Safe.bind commit_safe ?_
    intro _ r ⟨n, j, hr⟩
    rw [hr]
    exact Safe.perform does_endCommit
  · rw [ex, er]
    exact Safe.ret rfl

/-- the buffers that a process has locked, with their contents -/
abbrev Locked := Slot → Option (Nat × Buf × Care)

def lockedClaim (p : Pid) (H : Locked) (k : Slot) : Owned :=
  match H k with
  | some x => claim (.lock p k x.1 x.2.1 x.2.2)
  | none => 0

def holding (p : Pid) (H : Locked) : Owned := ∑ k, lockedClaim p H k

def Locked.view (H : Locked) : Held := fun k => (H k).map fun x => (x.1, decide (x.2.2 = .dirty))

variable {H : Locked} {x : Nat × Buf × Care}

theorem holding_update (p : Pid) (H : Locked) (k : Slot) (o : Option (Nat × Buf × Care)) :
    holding p (update H k o) = lockedClaim p (update H k o) k +
      ∑ i ∈ Finset.univ.erase k, lockedClaim p H i := by
  rw [holding, ← add_sum_erase _ _ (mem_univ k)]
  refine congrArg (_ + ·) (sum_congr rfl fun i hi => ?_)
  rw [lockedClaim, lockedClaim, update_of_ne (ne_of_mem_erase hi)]

theorem holding_some (p : Pid) (H : Locked) (k : Slot) (x : Nat × Buf × Care) :
    holding p (update H k (some x)) =
      claim (.lock p k x.1 x.2.1 x.2.2) + holding p (update H k none) := by
  rw [holding_update, holding_update, lockedClaim, lockedClaim, update_self, update_self, zero_add]

theorem holding_take (hk : H k = some x) :
    holding p H = claim (.lock p k x.1 x.2.1 x.2.2) + holding p (update H k none) := by
  rw [← holding_some, ← hk, update_eq_self]

theorem holding_put (hk : H k = none) :
    holding p (update H k (some x)) = claim (.lock p k x.1 x.2.1 x.2.2) + holding p H := by
  rw [holding_some, ← hk, update_eq_self]

theorem holding_none (hH : ∀ k, H k = none) : holding p H = 0 := by
  refine Finset.sum_eq_zero fun k _ => ?_
  rw [lockedClaim, hH k]

theorem mem_holding (hk : H k = some x) (F : Owned) :
    Claim.lock p k x.1 x.2.1 x.2.2 ∈ (holding p H + F).1 := by
  rw [holding_take hk]
  exact mem_add.mpr (.inl (mem_head _ _))

theorem view_update (H : Locked) (k : Slot) (o : Option (Nat × Buf × Care)) :
    Locked.view (update H k o) =
      update (Locked.view H) k (o.map fun x => (x.1, decide (x.2.2 = .dirty))) := by
  funext i
  by_cases e : i = k
  · rw [e, update_self, Locked.view, update_self]
  · rw [update_of_ne e, Locked.view, update_of_ne e]
    rfl

theorem view_some {due : Bool} (h : Locked.view H k = some (b, due)) :
    ∃ d m, H k = some (b, d, m) ∧ due = decide (m = .dirty) := by
  obtain ⟨⟨b', d, m⟩, hx, e⟩ := Option.map_eq_some_iff.mp h
  cases e
  exact ⟨d, m, hx, rfl⟩

theorem view_none (h : Locked.view H k = none) : H k = none := Option.map_eq_none_iff.mp h

def opPart (inOp : Bool) : Owned := if inOp then part .op else 0

/-- a process that keeps to the rules; the induction is on its calls -/
theorem Script.run_safe (q : Script) {i : Bool} (hq : q.Ok K i (Locked.view H)) :
    Safe (machine K) 0 (q.run K p) (holding p H + opPart i) fun _ r => r = 0 := by
  induction q generalizing i H with
  | done =>
    obtain ⟨h1, h2⟩ := hq
    refine Safe.ret ?_
    rw [h1, holding_none fun k => view_none (h2 k)]
    rfl
  | bread b next ih =>
    refine Safe.bind bread_safe ?_
    intro y r hr
    have hnone : H y.1 = none := by
      cases e : H y.1 with
      | none => rfl
      | some x => exact absurd rfl (hr.2 _ (mem_holding e _) rfl)
    rw [hr.1, ← add_assoc, ← holding_put (x := (b, y.2, .clean)) hnone]
    apply ih
    rw [view_update]
    exact hq y.1 y.2 (by rw [Locked.view, hnone]; rfl)
  | modify k d next ih =>
    obtain ⟨h1, b, due, hk, -, hnext⟩ := hq
    obtain ⟨d0, m, hH, -⟩ := view_some hk
    rw [h1, holding_take hH, add_right_comm]
    refine Safe.call (Safe.perform does_modify) rfl ?_
    rintro _ _ rfl
    rw [add_right_comm, ← holding_some p H k (b, d, .dirty)]
    rw [h1] at hnext
    apply ih (i := true)
    rwa [view_update]
  | logWrite k next ih =>
    obtain ⟨h1, b, due, hk, hhome, hnext⟩ := hq
    obtain ⟨d0, m, hH, -⟩ := view_some hk
    rw [h1, holding_take hH, add_right_comm]
    refine Safe.call (Safe.perform (does_logWrite hhome)) rfl ?_
    rintro _ _ rfl
    rw [add_right_comm, ← holding_some p H k (b, d0, .clean)]
    rw [h1] at hnext
    apply ih (i := true)
    rwa [view_update]
  | brelse k next ih =>
    obtain ⟨b, hk, hnext⟩ := hq
    obtain ⟨d0, m, hH, hm⟩ := view_some hk
    rw [holding_take hH, add_assoc]
    refine Safe.call (brelse_safe (of_decide_eq_false hm.symm)) rfl ?_
    rintro _ _ rfl
    rw [zero_add]
    apply ih
    rwa [view_update]
  | beginOp next ih =>
    obtain ⟨h1, hnext⟩ := hq
    rw [h1]
    refine Safe.call (Safe.perform does_beginOp) (show _ = 0 + holding p H from add_comm _ _) ?_
    rintro _ _ rfl
    rw [add_comm]
    exact ih hnext
  | endOp next ih =>
    obtain ⟨h1, -, hnext⟩ := hq
    rw [h1]
    refine Safe.call endOp_safe (add_comm _ _) ?_
    rintro _ _ rfl
    rw [add_comm]
    exact ih hnext

/-! ## runs -/

theorem inv_started {s : Sys} (hs : Started s) : Inv K s 0 0 := by
  have hstore : s.store = s.disk := by
    rw [Sys.store, hs.trace]
    exact hs.base
  refine ⟨⟨hs.lru, fun k => ?_, fun k => ?_, fun c hc => absurd hc (notMem_zero c), hs.unique⟩,
    ⟨by rw [hs.trace]; trivial, fun k b hk hv => ?_, fun b => .inl (by rw [hstore]), fun b hb => ?_⟩,
    ⟨?_, fun b => ?_, ?_, fun b hb => ?_, ?_, ?_, fun _ => hs.outstanding, fun _ => ?_,
      fun l n j hm => absurd hm (notMem_zero _)⟩⟩
  · rw [hs.refcnt]
    cases hi : (s.buf k).ident with
    | none => rw [Claims.pinned_none hi]; rfl
    | some b => rw [Claims.pinned_some hi, hs.pins]; rfl
  · rw [hs.lock]
    rfl
  · rw [hstore]
    exact hs.clean k b hk hv
  · rw [hs.pins] at hb
    cases hb
  · rw [hs.header]
    exact nodup_nil
  · rw [hs.pinlog, hs.pins]
    rfl
  · rw [hs.header]
    exact ⟨Nat.zero_le _, Nat.zero_le _⟩
  · rw [hs.header] at hb
    cases hb
  · rw [hs.outstanding]
    rfl
  · rw [hs.committing]
    rfl
  · rw [hs.pins, hs.header]

/-- the claims of all processes -/
def Shared (K : Log.Conf) (c : Config) : Prop := ∃ r, Shares (machine K) (fun r => r = 0) c r

theorem shared_start {s : Sys} (hs : Started s) : Shared K ⟨s, fun _ => none⟩ := by
  refine ⟨fun _ => 0, ?_, fun _ => rfl⟩
  rw [sum_const_zero]
  exact inv_started hs

theorem step_shared {c c' : Config} {e : Event} (h : Shared K c) (he : e.Ok K)
    (hs : step K c e = .next c') : Shared K c' := by
  obtain ⟨r, hr⟩ := h
  cases e with
  | start p q =>
    dsimp only [step] at hs
    cases ht : c.thread p with
    | some t =>
      rw [ht] at hs
      cases hs
    | none =>
      rw [ht] at hs
      cases hs
      have hsafe := Script.run_safe (H := fun _ => none) (p := p) q he
      have hzero : holding p (fun _ => none) + opPart false = 0 := by
        rw [holding_none fun _ => rfl]
        rfl
      rw [hzero] at hsafe
      refine hr.spawn ht ?_ rfl hsafe
      rw [zero_add]
      exact hr.inv
  | action p =>
    refine stepThread_shares ?_ hr hs
    intro s x f hx hi
    rwa [hx, zero_add] at hi

theorem setBuf_ident {s : Sys} {y : BufHdr} (hy : y.ident = (s.buf i).ident) (k : Slot) :
    ((s.setBuf i y).buf k).ident = (s.buf k).ident := by
  by_cases e : k = i
  · rw [e, setBuf_self, hy]
  · rw [setBuf_ne s y e]

/-- a buffer in use stays that of its block -/
def Frame (s s' : Sys) : Prop :=
  s'.base = s.base ∧ ∀ k, (s.buf k).refcnt ≠ 0 → (s'.buf k).ident = (s.buf k).ident

theorem Frame.rfl {s : Sys} : Frame s s := ⟨Eq.refl _, fun _ _ => Eq.refl _⟩

theorem Frame.of_buf {s s' : Sys} {y : BufHdr} (hb : s'.base = s.base) (hs : s'.buf = (s.setBuf i y).buf)
    (hy : y.ident = (s.buf i).ident) : Frame s s' :=
  ⟨hb, fun k _ => by rw [hs]; exact setBuf_ident hy k⟩

theorem frame_modify (s : Sys) (i : Slot) (d : Buf) : Frame s (s.modify i d) := by
  unfold Sys.modify
  split <;> exact .of_buf rfl rfl rfl

theorem sem_frame {o : Op} {s s' : Sys} {x : o.Res} (hs : sem K o s = .next (x, s')) : Frame s s' := by
  cases o with
  | bget b =>
    rcases bget_cases hs with ⟨hk, rfl⟩ | ⟨hn, hk, rfl⟩
    · exact .of_buf rfl rfl rfl
    · refine ⟨rfl, fun k hne => ?_⟩
      exact congrArg BufHdr.ident (setBuf_ne s _ fun e => hne (by rw [e]; exact hk))
  | acquiresleep p i =>
    obtain ⟨-, e⟩ := ite_blocked hs
    cases e
    exact .of_buf rfl rfl rfl
  | load b i =>
    cases hs
    unfold Sys.fill
    split
    · exact Frame.rfl
    · split
      · exact .of_buf rfl rfl rfl
      · exact Frame.rfl
  | bwrite p i =>
    obtain ⟨t, ht, e⟩ := map_next hs
    cases e
    obtain ⟨-, ht⟩ := ite_panic ht
    split at ht <;> cases ht
    exact Frame.rfl
  | releasesleep p i =>
    obtain ⟨-, e⟩ := ite_panic hs
    cases e
    exact .of_buf rfl rfl rfl
  | unref i =>
    cases hs
    unfold Sys.unref
    dsimp only
    split <;> exact .of_buf rfl rfl rfl
  | bunpin i =>
    cases hs
    unfold Sys.bunpin
    split <;> exact .of_buf rfl rfl rfl
  | copy i d =>
    cases hs
    unfold Sys.copy
    split
    · split
      · exact .of_buf rfl rfl rfl
      · exact frame_modify s i d
    · exact .of_buf rfl rfl rfl
  | modify i d =>
    cases hs
    exact frame_modify s i d
  | beginOp =>
    obtain ⟨t, ht, e⟩ := map_next hs
    cases e
    obtain ⟨-, ht⟩ := blocked_ite ht
    obtain ⟨-, ht⟩ := blocked_ite ht
    cases ht
    exact Frame.rfl
  | logWrite i =>
    obtain ⟨t, ht, e⟩ := map_next hs
    cases e
    cases hid : (s.buf i).ident with
    | none =>
      obtain ⟨-, ht⟩ := panic_ite ht
      obtain ⟨-, ht⟩ := panic_ite ht
      rw [hid] at ht
      cases ht
    | some b =>
      rcases logWrite_cases hid ht with ⟨-, rfl⟩ | ⟨-, -, -, rfl⟩
      · exact Frame.rfl
      · exact .of_buf rfl rfl rfl
  | endOp =>
    obtain ⟨-, ht⟩ := panic_ite hs
    split at ht <;> cases ht <;> exact Frame.rfl
  | endCommit | header | clearHeader =>
    cases hs
    exact Frame.rfl

theorem step_frame {c c' : Config} {e : Event} (hs : step K c e = .next c') : Frame c.sys c'.sys := by
  cases e with
  | start p q =>
    dsimp only [step] at hs
    split at hs <;> cases hs
    exact Frame.rfl
  | action p =>
    rcases stepThread_cases hs with ⟨-, e⟩ | ⟨t, o, g, x, -, -, hx, -⟩
    · rw [e]
      exact Frame.rfl
    · exact sem_frame hx

theorem Inv.pins_sub {s : Sys} {C : Multiset Claim} {J : Multiset Part} (h : Inv K s C J) :
    s.pins.Sublist s.lh := by
  cases hc : s.committing with
  | false => rw [h.journal.even hc]
  | true =>
    have h1 := h.journal.commits
    rw [hc] at h1
    have hpos : 0 < commits J := by
      rw [h1]
      exact Nat.one_pos
    obtain ⟨t, ht, hne⟩ := countP_pos.mp hpos
    cases t with
    | op => exact absurd rfl hne
    | commit l n j =>
      obtain ⟨h2, h3, -⟩ := h.journal.commit l n j ht
      rw [h2, h3]
      exact drop_sublist j l

/-- **Cache and log are a block store.**  For all processes that keep to the rules, and in every order of
their actions: each call of `bread` has returned what the block was last changed to; no block is twice in
the header of the log; a block that is pinned has a buffer with its contents, which is not recycled; each
block is unpinned as often as it is pinned, except for those in the header that are not installed yet. -/
theorem block_store (K : Log.Conf) (s : Sys) (hs : Started s) (es : List Event) (hes : ∀ e ∈ es, e.Ok K)
    (c : Config) (h : exec (step K) ⟨s, fun _ => none⟩ es = .next c) :
    Store.Accepts s.disk c.sys.trace ∧ c.sys.lh.Nodup ∧
    (∀ b ∈ c.sys.pins, ∃ k, (c.sys.buf k).ident = some b ∧ (c.sys.buf k).valid = true ∧
      (c.sys.buf k).data = Store.replay s.disk c.sys.trace b ∧
      ∀ e c', step K c e = .next c' → (c'.sys.buf k).ident = some b) ∧
    (∀ b, c.sys.pinlog.count (b, true) = c.sys.pinlog.count (b, false) + c.sys.pins.count b) ∧
    c.sys.pins.Sublist c.sys.lh ∧ (c.sys.committing = false → c.sys.pins = c.sys.lh) := by
  have hinv := exec_inv (fun c => Shared K c ∧ c.sys.base = s.disk)
    (fun c e c' hc he hs => ⟨step_shared hc.1 he hs, (step_frame hs).1.trans hc.2⟩)
    ⟨shared_start hs, hs.base⟩
    (along_of_mem (fun e he _ => hes e he) _) h
  obtain ⟨⟨r, hr⟩, hbase⟩ := hinv
  have hi : Inv K c.sys _ _ := hr.inv
  rw [← hbase]
  refine ⟨hi.data.reads, hi.journal.nodup, fun b hb => ?_, hi.journal.counted, hi.pins_sub,
    hi.journal.even⟩
  obtain ⟨k, hid, hv⟩ := hi.data.present b hb
  refine ⟨k, hid, hv, hi.data.data k b hid hv, fun e c' hs => ?_⟩
  rw [← hid]
  refine (step_frame hs).2 k fun hz => ?_
  exact (hi.not_pinned hz).2 b hid hb

end

/-- an operation that changes one block -/
def changeBlock (b : Nat) (x : Buf) : Script :=
  .beginOp (.bread b fun k _ => .modify k x (.logWrite k (.brelse k (.endOp .done))))

theorem changeBlock_ok (K : Log.Conf) {b : Nat} (hb : Log.Home K b) (x : Buf) :
    (changeBlock b x).Ok K false fun _ => none := by
  refine ⟨rfl, fun k d _ => ⟨rfl, b, false, update_self _ _ _, hb, ?_⟩⟩
  refine ⟨rfl, b, true, update_self _ _ _, hb, b, update_self _ _ _, rfl, ?_, rfl, ?_⟩
  · intro i a
    by_cases e : i = k
    · rw [e, update_self]
      exact nofun
    · rw [update_of_ne e, update_of_ne e, update_of_ne e, update_of_ne e]
      exact nofun
  · intro i
    by_cases e : i = k
    · rw [e, update_self]
    · rw [update_of_ne e, update_of_ne e, update_of_ne e, update_of_ne e]

def firstPid : Pid := ⟨0, by decide⟩

theorem block_store_change :
    ∃ c : Config, exec (step Log.mkfsConf) ⟨Sys.init fun _ _ => 0, fun _ => none⟩
        (.start firstPid (changeBlock 50 fun _ => 7) :: List.replicate 58 (.action firstPid)) = .next c ∧
      (c.sys.pinlog = [(50, false), (50, true)] ∧ c.sys.disk 50 0 = 7) ∧
      Store.Accepts (fun _ _ => 0) c.sys.trace := by
  obtain ⟨c, hc, hp⟩ := exists_of_check
    (o := exec (step Log.mkfsConf) ⟨Sys.init fun _ _ => 0, fun _ => none⟩
      (.start firstPid (changeBlock 50 fun _ => 7) :: List.replicate 58 (.action firstPid)))
    (p := fun c : Config => c.sys.pinlog = [(50, false), (50, true)] ∧ c.sys.disk 50 0 = 7)
    (by decide +kernel)
  refine ⟨c, hc, hp, ?_⟩
  refine (block_store Log.mkfsConf _ (started_init _) _ (fun e he => ?_) c hc).1
  rcases List.mem_cons.mp he with rfl | he
  · exact changeBlock_ok _ (by decide) _
  · rw [List.eq_of_mem_replicate he]
    trivial

end Bio
