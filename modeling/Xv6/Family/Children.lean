import Mathlib.Algebra.Group.Nat.Defs
import Mathlib.Data.List.FinRange
import Xv6.Family.Invariant

/-!
# No child is lost

Whoever has exited is in the table as a zombie or was returned by `wait`, and as often as he has
exited (`Accounted`); as long as the pids have not come round, they tell the processes apart (`Ids`).

* `zombies`            the pids and statuses of the zombies in the table;
* `no_child_lost`      parents, zombies and `wait` in every reachable state.
-/

namespace Family
open Run Function List
open Sched (NPROC Slot ProcState slot0)

/-! ## the zombies of the table -/

def Kin.zombie (x : Kin) : Option (Word × Word) :=
  if x.kind = .dead then some (x.pid, x.xstate) else none

/-- the pids and statuses of the zombies in the table -/
def zombies (s : State) : List (Word × Word) :=
  (List.finRange NPROC).filterMap fun q => (s.kin q).zombie

theorem filterMap_update {ι α : Type*} [DecidableEq ι] {l : List ι} {i : ι} (hl : l.Nodup) (hi : i ∈ l)
    (f : ι → Option α) (x : α) :
    (l.filterMap (update f i (some x))).Perm (x :: l.filterMap (update f i none)) := by
  have hp := perm_cons_erase hi
  have hrest : ∀ y, (l.erase i).filterMap (update f i y) = (l.erase i).filterMap f := by
    intro y
    apply filterMap_congr
    intro j hj
    exact update_of_ne (fun e => hl.not_mem_erase (e ▸ hj)) _ _
  have hsome := hp.filterMap (update f i (some x))
  have hnone := hp.filterMap (update f i none)
  rw [filterMap_cons_some (update_self ..), hrest] at hsome
  rw [filterMap_cons_none (update_self ..), hrest] at hnone
  exact hsome.trans (hnone.symm.cons x)

section
variable {s s' : State} {p q : Slot}

theorem zombie_update (h : ∀ t, t ≠ q → s'.kin t = s.kin t) :
    (fun t => (s'.kin t).zombie) = update (fun t => (s.kin t).zombie) q (s'.kin q).zombie := by
  funext t
  by_cases e : t = q
  · rw [e, update_self]
  · rw [update_of_ne e, h t e]

theorem zombies_same (h : ∀ t, t ≠ q → s'.kin t = s.kin t)
    (hz : (s'.kin q).zombie = (s.kin q).zombie) : zombies s' = zombies s := by
  unfold zombies
  rw [zombie_update h, hz, update_eq_self]

theorem zombies_add {x : Word × Word} (h : ∀ t, t ≠ q → s'.kin t = s.kin t)
    (hz : (s.kin q).zombie = none) (hx : (s'.kin q).zombie = some x) :
    (zombies s').Perm (x :: zombies s) := by
  have hf : update (fun t => (s.kin t).zombie) q none = fun t => (s.kin t).zombie := by
    rw [← hz, update_eq_self]
  have := filterMap_update (nodup_finRange NPROC) (mem_finRange q)
    (fun t => (s.kin t).zombie) x
  rw [hf] at this
  rw [zombies, zombie_update h, hx]
  exact this

end

/-! ## who has exited is a zombie or was returned -/

/-- whoever has exited is a zombie or was returned, as often as he has exited -/
def Accounted (s : State) : Prop := s.exits.Perm (s.reaped ++ zombies s)

section
variable {s s' : State} {p q : Slot}

theorem accounted_same (h : Accounted s) (hk : ∀ t, t ≠ q → s'.kin t = s.kin t)
    (hz : (s'.kin q).zombie = (s.kin q).zombie) (he : s'.exits = s.exits)
    (hr : s'.reaped = s.reaped) : Accounted s' := by
  rw [Accounted, zombies_same hk hz, he, hr]
  exact h

theorem zombie_none {x : Kin} (h : x.kind ≠ .dead) : x.zombie = none := if_neg h

theorem accounted_step {e : Event} (hI : Inv s) (hA : Accounted s) (h : step s e = .next s') :
    Accounted s' := by
  cases step_cases h with
  | calm p h =>
    exact accounted_same (q := p) hA (fun t _ => h.kin t) (by rw [h.kin]) h.exits h.reaped
  | alloc hp hpc hq =>
    refine accounted_same hA (kin_of_ne rfl) ?_ rfl rfl
    rw [kin_self rfl, zombie_none (ne_of_eq_of_ne (kind_eq hq rfl) (by decide))]
    rfl
  | @allocFail p q hp hpc hq =>
    have hx := update_idem (f := s.proc) (a := q) (v := { s.proc q with
      state := .USED, pid := s.nextpid, lived := ⟨0, 0, 0⟩ }) (w := freed ((s.alloc q).proc q))
    refine accounted_same hA (kin_of_ne hx) ?_ rfl rfl
    rw [kin_self hx, zombie_none (ne_of_eq_of_ne (kind_eq hq rfl) (by decide))]
    rfl
  | setParent hp hpc _ | adopt hp hpc hq =>
    refine accounted_same hA (kin_of_ne rfl) ?_ rfl rfl
    rw [kin_self rfl]
    rfl
  | @setRunnable p q pid _ _ hpc =>
    refine accounted_same hA (kin_of_ne rfl) ?_ rfl rfl
    have embryo := (hI.placed p).child q (by rw [hpc]; rfl)
    rw [kin_self rfl, zombie_none (ne_of_eq_of_ne embryo (by decide))]
    rfl
  | @die p _ status hp hpc =>
    have hz : (zombies (s.die p status)).Perm (((s.proc p).pid, status) :: zombies s) :=
      zombies_add (kin_of_ne rfl) (zombie_none (ne_of_eq_of_ne (kin_live hp) (by decide)))
        (by rw [kin_self rfl]; rfl)
    have h1 := perm_append_singleton ((s.proc p).pid, status) s.exits
    have h2 := (hA.cons ((s.proc p).pid, status)).trans perm_middle.symm
    exact (h1.trans h2).trans (hz.symm.append_left _)
  | @reap p _ q hp hpc hpar hz =>
    have dead : (s.kin q).zombie = some ((s.proc q).pid, (s.proc q).xstate) :=
      if_pos (kind_eq hz rfl)
    have hz : (zombies s).Perm (((s.proc q).pid, (s.proc q).xstate) :: zombies (s.reap p q)) :=
      zombies_add (fun t ht => (kin_of_ne rfl t ht).symm) (by rw [kin_self rfl]; rfl) dead
    show s.exits.Perm ((s.reaped ++ [((s.proc q).pid, (s.proc q).xstate)]) ++ zombies (s.reap p q))
    rw [append_assoc]
    exact hA.trans (hz.append_left _)

end

/-! ## pids -/

/-- the pids tell the processes apart, those who have exited included -/
structure Ids (s : State) : Prop where
  next : s.nextpid = BitVec.ofNat 32 (s.allocated + 1)
  le : ∀ q, (s.kin q).kind ≠ .free → (s.kin q).pid.toNat ≤ s.allocated
  apart : ∀ p q, (s.kin p).kind ≠ .free → (s.kin q).kind ≠ .free → (s.kin p).pid = (s.kin q).pid →
    p = q
  gone_le : ∀ x ∈ s.exits, x.1.toNat ≤ s.allocated
  once : (s.exits.map Prod.fst).Nodup
  alive : ∀ q, (s.kin q).kind = .embryo ∨ (s.kin q).kind = .live →
    (s.kin q).pid ∉ s.exits.map Prod.fst

section
variable {s s' : State} {p q : Slot}

theorem next_toNat (h : Ids s) (hb : s.allocated + 1 < 2 ^ 31 - 1) :
    s.nextpid.toNat = s.allocated + 1 := by
  rw [h.next, BitVec.toNat_ofNat]
  omega

theorem ids_update (h : Ids s) (hk : ∀ t, t ≠ q → s'.kin t = s.kin t)
    (hq : (s'.kin q).kind ≠ .free → (s.kin q).kind ≠ .free ∧ (s'.kin q).pid = (s.kin q).pid)
    (hl : (s'.kin q).kind = .embryo ∨ (s'.kin q).kind = .live →
      (s.kin q).kind = .embryo ∨ (s.kin q).kind = .live)
    (hn : s'.nextpid = s.nextpid) (ha : s'.allocated = s.allocated) (he : s'.exits = s.exits) :
    Ids s' := by
  have key : ∀ t, (s'.kin t).kind ≠ .free → (s.kin t).kind ≠ .free ∧ (s'.kin t).pid = (s.kin t).pid := by
    intro t ht
    by_cases e : t = q
    · subst e
      exact hq ht
    · rw [hk t e] at ht ⊢
      exact ⟨ht, rfl⟩
  refine ⟨by rw [hn, ha, h.next], fun t ht => ?_, fun t u ht hu htu => ?_, ?_, he ▸ h.once,
    fun t ht => ?_⟩
  · obtain ⟨h0, h1⟩ := key t ht
    rw [h1, ha]
    exact h.le t h0
  · obtain ⟨ht0, ht1⟩ := key t ht
    obtain ⟨hu0, hu1⟩ := key u hu
    exact h.apart t u ht0 hu0 (by rw [← ht1, ← hu1, htu])
  · rw [he, ha]
    exact h.gone_le
  · have ht' : (s'.kin t).kind ≠ .free := by
      rcases ht with ht | ht <;> rw [ht] <;> decide
    rw [(key t ht').2, he]
    apply h.alive t
    by_cases e : t = q
    · subst e
      exact hl ht
    · rwa [hk t e] at ht

theorem ids_alloc (h : Ids s) (hb : s.allocated + 1 < 2 ^ 31 - 1)
    (hk : ∀ t, t ≠ q → s'.kin t = s.kin t)
    (hq : (s'.kin q).kind ≠ .free → (s'.kin q).pid = s.nextpid)
    (hn : s'.nextpid = s.nextpid + 1) (ha : s'.allocated = s.allocated + 1)
    (he : s'.exits = s.exits) : Ids s' := by
  have hnext := next_toNat h hb
  have hgone : ∀ x ∈ s.exits, x.1 ≠ s.nextpid := by
    intro x hx e
    have := h.gone_le x hx
    rw [e] at this
    omega
  have hother : ∀ t, t ≠ q → (s'.kin t).kind ≠ .free → (s'.kin q).kind ≠ .free →
      (s'.kin t).pid ≠ (s'.kin q).pid := by
    intro t e ht hqf htq
    rw [hq hqf, hk t e] at htq
    have := h.le t (hk t e ▸ ht)
    rw [htq] at this
    omega
  refine ⟨?_, fun t ht => ?_, fun t u ht hu htu => ?_, fun x hx => ?_, he ▸ h.once, fun t ht => ?_⟩
  · rw [hn, ha, h.next]
    exact (BitVec.ofNat_add (s.allocated + 1) 1).symm
  · by_cases e : t = q
    · subst e
      rw [hq ht, hnext, ha]
    · rw [hk t e] at ht ⊢
      rw [ha]
      exact Nat.le_succ_of_le (h.le t ht)
  · by_cases e : t = q <;> by_cases e' : u = q
    · rw [e, e']
    · exact absurd (e ▸ htu).symm (hother u e' hu (e ▸ ht))
    · exact absurd (e' ▸ htu) (hother t e ht (e' ▸ hu))
    · rw [hk t e] at ht htu
      rw [hk u e'] at hu htu
      exact h.apart t u ht hu htu
  · rw [he] at hx
    rw [ha]
    exact Nat.le_succ_of_le (h.gone_le x hx)
  · rw [he]
    by_cases e : t = q
    · subst e
      have ht' : (s'.kin t).kind ≠ .free := by
        rcases ht with ht | ht <;> rw [ht] <;> decide
      rw [hq ht']
      intro hm
      obtain ⟨x, hx, hxe⟩ := mem_map.mp hm
      exact hgone x hx hxe
    · rw [hk t e] at ht ⊢
      exact h.alive t ht

theorem ids_die {status : Word} (h : Ids s) (hp : (s.kin p).kind = .live) : Ids (s.die p status) := by
  have hpid : ∀ t, ((s.die p status).kin t).pid = (s.kin t).pid := by
    intro t
    by_cases e : t = p
    · rw [e, kin_self rfl]
      rfl
    · rw [kin_of_ne rfl t e]
  have hkind : ∀ t, ((s.die p status).kin t).kind ≠ .free → (s.kin t).kind ≠ .free := by
    intro t ht
    by_cases e : t = p
    · rw [e, hp]
      decide
    · rwa [kin_of_ne rfl t e] at ht
  have hmap : (s.die p status).exits.map Prod.fst = s.exits.map Prod.fst ++ [(s.kin p).pid] :=
    map_append
  refine ⟨h.next, fun t ht => ?_, fun t u ht hu htu => ?_, fun x hx => ?_, ?_, fun t ht hm => ?_⟩
  · rw [hpid]
    exact h.le t (hkind t ht)
  · rw [hpid, hpid] at htu
    exact h.apart t u (hkind t ht) (hkind u hu) htu
  · rcases mem_append.mp hx with hx | hx
    · exact h.gone_le x hx
    · rw [mem_singleton.mp hx]
      exact h.le p (by rw [hp]; decide)
  · rw [hmap, ← concat_eq_append]
    exact h.once.concat (h.alive p (.inr hp))
  · have e : t ≠ p := by
      rintro rfl
      rw [kin_self rfl] at ht
      rcases ht with ht | ht <;> cases ht
    rw [hpid, hmap] at hm
    rw [kin_of_ne rfl t e] at ht
    rcases mem_append.mp hm with hm | hm
    · exact h.alive t ht hm
    · apply e
      apply h.apart t p ?_ (by rw [hp]; decide) (mem_singleton.mp hm)
      rcases ht with ht | ht <;> rw [ht] <;> decide

theorem ids_step {e : Event} (hI : Inv s) (h : s.allocated < 2 ^ 31 - 1 → Ids s)
    (hs : step s e = .next s') (hb : s'.allocated < 2 ^ 31 - 1) : Ids s' := by
  cases step_cases hs with
  | calm p hc =>
    refine ids_update (q := p) (h (hc.allocated ▸ hb)) (fun t _ => hc.kin t) ?_ ?_ hc.nextpid
      hc.allocated hc.exits
    · rw [hc.kin]
      exact fun hq => ⟨hq, rfl⟩
    · rw [hc.kin]
      exact id
  | alloc hp hpc hq =>
    refine ids_alloc (h (Nat.lt_of_succ_lt hb)) hb (kin_of_ne rfl) ?_ rfl rfl rfl
    rw [kin_self rfl]
    exact fun _ => rfl
  | @allocFail p q hp hpc hq =>
    have hx := update_idem (f := s.proc) (a := q) (v := { s.proc q with
      state := .USED, pid := s.nextpid, lived := ⟨0, 0, 0⟩ }) (w := freed ((s.alloc q).proc q))
    refine ids_alloc (h (Nat.lt_of_succ_lt hb)) hb (kin_of_ne hx) ?_ rfl rfl rfl
    rw [kin_self hx]
    exact fun hf => absurd rfl hf
  | setParent hp hpc _ | adopt hp hpc hq =>
    refine ids_update (h hb) (kin_of_ne rfl) ?_ ?_ rfl rfl rfl
    · rw [kin_self rfl]
      exact fun hf => ⟨hf, rfl⟩
    · rw [kin_self rfl]
      exact id
  | @setRunnable p q pid _ _ hpc =>
    have embryo := (hI.placed p).child q (by rw [hpc]; rfl)
    refine ids_update (h hb) (kin_of_ne rfl) ?_ (fun _ => .inl embryo) rfl rfl rfl
    rw [kin_self rfl]
    exact fun _ => ⟨ne_of_eq_of_ne embryo (by decide), rfl⟩
  | die hp hpc => exact ids_die (h hb) (kin_live hp)
  | reap hp hpc hpar hz =>
    refine ids_update (h hb) (kin_of_ne rfl) ?_ ?_ rfl rfl rfl
    · rw [kin_self rfl]
      exact fun hf => absurd rfl hf
    · rw [kin_self rfl]
      intro hl
      rcases hl with hl | hl <;> cases hl

end

theorem ids_init : Ids init := by
  have hfree : ∀ q, (init.kin q).kind ≠ .free → q = slot0 := by
    intro q hq
    by_contra e
    rw [init_kin, if_neg e] at hq
    exact hq rfl
  refine ⟨rfl, fun q hq => ?_, fun p q hp hq _ => ?_, ?_, nodup_nil, ?_⟩
  · rw [hfree q hq]
    decide
  · rw [hfree p hp, hfree q hq]
  · exact fun x hx => absurd hx not_mem_nil
  · exact fun q _ => not_mem_nil

theorem accounted_init : Accounted init := by
  have hz : zombies init = [] := by
    apply filterMap_eq_nil_iff.mpr
    intro q _
    rw [init_kin]
    split <;> rfl
  rw [Accounted, hz]
  exact .refl _

theorem accounted_run {es : List Event} {s : State} (h : exec step init es = .next s) :
    Accounted s ∧ (s.allocated < 2 ^ 31 - 1 → Ids s) := by
  have := exec_inv
    (fun s => Inv s ∧ Accounted s ∧ (s.allocated < 2 ^ 31 - 1 → Ids s))
    (fun _ _ _ ⟨hI, hA, hD⟩ _ hs => ⟨inv_step hI hs, accounted_step hI hA hs, ids_step hI hD hs⟩)
    ⟨inv_init, accounted_init, fun _ => ids_init⟩ (along_of_forall (fun _ _ => trivial) _ _) h
  exact this.2

/-! ## zombies stay until they are returned -/

section
variable {s s' : State} {p q : Slot}

theorem kind_dead {x : Proc} : kind x.state = .dead ↔ x.state = .ZOMBIE := by
  cases x.state <;> decide

theorem kind_free {x : Proc} : kind x.state = .free ↔ x.state = .UNUSED := by
  cases x.state <;> decide

/-- the pid and the status of a zombie, and that it is one -/
def SameZombie (s s' : State) (q : Slot) : Prop :=
  (s'.proc q).state = .ZOMBIE ∧ (s'.proc q).pid = (s.proc q).pid ∧
    (s'.proc q).xstate = (s.proc q).xstate

theorem sameZombie_of_kin (hq : (s.proc q).state = .ZOMBIE) (hk : (s'.kin q).kind = (s.kin q).kind)
    (hp : (s'.kin q).pid = (s.kin q).pid) (hx : (s'.kin q).xstate = (s.kin q).xstate) :
    SameZombie s s' q :=
  ⟨kind_dead.mp (hk.trans (kind_eq hq rfl)), hp, hx⟩

theorem sameZombie_of_ne {x : Proc} {r : Slot} (hq : (s.proc q).state = .ZOMBIE)
    (hx : s'.proc = update s.proc r x) (hr : q ≠ r) : SameZombie s s' q := by
  have := kin_of_ne hx q hr
  exact sameZombie_of_kin hq (by rw [this]) (by rw [this]) (by rw [this])

theorem zombie_step {e : Event} (hI : Inv s) (hq : (s.proc q).state = .ZOMBIE)
    (h : step s e = .next s') : SameZombie s s' q ∨
      ∃ p havekids, e = .step p true ∧ s.pc p = .waitScan q.val havekids ∧
        (s.proc q).parent = some p ∧ s' = s.reap p q := by
  cases step_cases h with
  | calm p hc =>
    left
    exact sameZombie_of_kin hq (by rw [hc.kin]) (by rw [hc.kin]) (by rw [hc.kin])
  | @alloc p r hp hpc hr =>
    left
    exact sameZombie_of_ne hq rfl fun e => absurd (hr.symm.trans (e ▸ hq)) (by decide)
  | @allocFail p r hp hpc hr =>
    left
    exact sameZombie_of_ne hq (update_idem ..)
      fun e => absurd (hr.symm.trans (e ▸ hq)) (by decide)
  | @setParent p r pid _ hp hpc _ | @setRunnable p r pid _ _ hpc =>
    have embryo := (hI.placed p).child r (by rw [hpc]; rfl)
    left
    exact sameZombie_of_ne hq rfl
      fun e => absurd (embryo.symm.trans (kind_eq (e ▸ hq) rfl)) (by decide)
  | @adopt p _ status r hp hpc hr =>
    left
    by_cases e : q = r
    · subst e
      refine sameZombie_of_kin hq ?_ ?_ ?_ <;> rw [kin_self rfl] <;> rfl
    · exact sameZombie_of_ne hq rfl e
  | die hp hpc =>
    left
    exact sameZombie_of_ne hq rfl fun e => absurd (hp.symm.trans (e ▸ hq)) (by decide)
  | @reap p havekids r hp hpc hpar hz =>
    by_cases e : q = r
    · subst e
      exact .inr ⟨p, havekids, rfl, hpc, hpar, rfl⟩
    · exact .inl (sameZombie_of_ne hq rfl e)

theorem wait_fails {havekids : Bool} (hpc : s.pc p = .waitScan q.val havekids)
    (hpar : (s.proc q).parent = some p) (hq : (s.proc q).state = .ZOMBIE)
    (h : step s (.step p false) = .next s') : s' = { s with waitLock := none }.return p failed := by
  obtain ⟨-, h⟩ := ite_blocked h
  unfold stepProc at h
  rw [hpc] at h
  dsimp only at h
  rw [dif_pos q.isLt, if_pos hpar, if_pos hq] at h
  cases h
  rfl

end

/-- **No child is lost.**  In every reachable state a zombie has no children; whoever has been started
and is not `init` has a parent that is neither free nor a zombie; those who have exited are the ones
`wait` has returned and the zombies of the table, each as often as he has exited.  A zombie stays
what it is until `wait` of its parent returns its pid and status; a `wait` that cannot copy the
status out leaves the table as it is.  While fewer than `2 ^ 31 - 1` pids were given out, no two slots
in use have the same pid, and `wait` has returned no pid twice. -/
theorem no_child_lost {es : List Event} {s : State} (h : exec step init es = .next s) :
    (∀ p q, (s.proc p).state = .ZOMBIE → (s.proc q).parent ≠ some p) ∧
    (∀ q, q ≠ slot0 → (s.proc q).state ≠ .UNUSED → (s.proc q).state ≠ .USED →
      ∃ p, (s.proc q).parent = some p ∧ (s.proc p).state ≠ .UNUSED ∧ (s.proc p).state ≠ .ZOMBIE) ∧
    s.exits.Perm (s.reaped ++ zombies s) ∧
    (∀ q e s', (s.proc q).state = .ZOMBIE → step s e = .next s' → SameZombie s s' q ∨
      ∃ p havekids, e = .step p true ∧ s.pc p = .waitScan q.val havekids ∧
        (s.proc q).parent = some p ∧ (s'.proc q).state = .UNUSED ∧ s'.pc p = .user ∧
        s'.ret p = (s.proc q).pid ∧
        s'.reaped = s.reaped ++ [((s.proc q).pid, (s.proc q).xstate)]) ∧
    (∀ p q havekids s', s.pc p = .waitScan q.val havekids → (s.proc q).parent = some p →
      (s.proc q).state = .ZOMBIE → step s (.step p false) = .next s' →
      s'.proc = s.proc ∧ s'.reaped = s.reaped ∧ s'.pc p = .user ∧ s'.ret p = failed) ∧
    (s.allocated < 2 ^ 31 - 1 →
      (∀ p q, (s.proc p).state ≠ .UNUSED → (s.proc q).state ≠ .UNUSED →
        (s.proc p).pid = (s.proc q).pid → p = q) ∧
      (s.reaped.map Prod.fst).Nodup) := by
  have hI := inv_run h
  obtain ⟨hA, hD⟩ := accounted_run h
  refine ⟨fun p q hp hq => ?_, fun q hq hu hd => ?_, hA, fun q e s' hq hs => ?_,
    fun p q havekids s' hpc hpar hq hs => ?_, fun hb => ⟨fun p q hp hq e => ?_, ?_⟩⟩
  · have live : (s.kin p).kind = .live := hI.tree.parent q p hq
    rw [kind_eq hp rfl] at live
    cases live
  · have hk : (s.kin q).kind = .live ∨ (s.kin q).kind = .dead := by
      show kind (s.proc q).state = _ ∨ kind (s.proc q).state = _
      cases hst : (s.proc q).state with
      | UNUSED => exact absurd hst hu
      | USED => exact absurd hst hd
      | ZOMBIE => exact .inr rfl
      | _ => exact .inl rfl
    obtain ⟨p, hp⟩ := Option.ne_none_iff_exists'.mp (hI.tree.adopted q hq hk)
    have live : (s.kin p).kind = .live := hI.tree.parent q p hp
    refine ⟨p, hp, fun e => ?_, fun e => ?_⟩
    · rw [kind_eq e rfl] at live
      cases live
    · rw [kind_eq e rfl] at live
      cases live
  · rcases zombie_step hI hq hs with hz | ⟨p, havekids, he, hpc, hpar, hs'⟩
    · exact .inl hz
    · subst hs'
      refine .inr ⟨p, havekids, he, hpc, hpar, ?_, ?_, ?_, rfl⟩
      · show (update s.proc q _ q).state = _
        rw [update_self]
        rfl
      · exact update_self ..
      · exact update_self ..
  · rw [wait_fails hpc hpar hq hs]
    exact ⟨rfl, rfl, update_self .., update_self ..⟩
  · exact (hD hb).apart p q (fun h => hp (kind_free.mp h)) (fun h => hq (kind_free.mp h)) e
  · have hn := (hA.map Prod.fst).nodup_iff.mp (hD hb).once
    rw [List.map_append] at hn
    exact (List.nodup_append.mp hn).1

/-- the slot of the first child -/
def slot1 : Slot := ⟨slot0.val + 1, by decide⟩

/-- `init` forks, the child exits with status 7, and `init` waits twice: the first time the status
cannot be copied out -/
def forkExitWait : List Event :=
  [.dispatch slot0, .fork slot0] ++ List.replicate 4 (.step slot0 true) ++
  [.dispatch slot1, .exit slot1 7] ++ List.replicate 132 (.step slot1 true) ++
  [.wait slot0, .step slot0 true, .step slot0 true, .step slot0 false] ++
  [.wait slot0, .step slot0 true, .step slot0 true, .step slot0 true]

theorem no_child_lost_forkExitWait :
    ∃ s, exec step init forkExitWait = .next s ∧ s.reaped = [(2, 7)] ∧ s.ret slot0 = 2 ∧
      s.exits.Perm (s.reaped ++ zombies s) := by
  obtain ⟨s, hs, hr⟩ := exists_of_check (p := fun s : State => s.reaped = [(2, 7)] ∧ s.ret slot0 = 2)
    (show (exec step init forkExitWait).check _ = true by decide +kernel)
  exact ⟨s, hs, hr.1, hr.2, (no_child_lost hs).2.2.1⟩

end Family
