import Xv6.Log.Procs

/-!
# Groups of operations

`commit()` is called for a group: the operations that have ended since the last `commit()` began, with
all their calls of `log_write`.

* `Group.Sound`     the header and the buffers of a group are those of its calls of `log_write`;
* `GroupInv`        what holds of the groups, and of the operations since the last one;
* `GroupInv.next`   every step keeps it;
* `group_commit`    commits exclude each other, operations and `log_write`, and every group consists of
                    whole operations.
-/

namespace Log
open Run Bytes Function List Finset

def lastWrite (ws : List Write) (b : Blockno) : Option Write := ws.reverse.find? fun w => w.block = b

/-- the header names the blocks of the calls of `log_write`, once, and the buffers have the data of the
last one -/
structure Group.Sound (g : Group) : Prop where
  nodup : g.header.Nodup
  blocks : ∀ b, b ∈ g.header ↔ ∃ w ∈ g.writes, w.block = b
  contents : ∀ b w, lastWrite g.writes b = some w → g.contents b.toNat = w.data

namespace Procs

/-- the group that `commit()` would be called for now -/
def current (t : Procs) : Group := ⟨t.ended, t.writes, t.lh, t.cache⟩

/-- all calls of `log_write` so far -/
def allWrites (t : Procs) : List Write := t.groups.flatMap Group.writes ++ t.writes

/-- a group of whole operations: they have ended, the group has calls of `log_write` of theirs only, and
all of them -/
structure Whole (t : Procs) (g : Group) : Prop where
  sound : g.Sound
  ended : ∀ i, t.pc i = .op → t.inst i ∉ g.ops
  only : ∀ w ∈ g.writes, w.op ∈ g.ops
  all : ∀ o ∈ g.ops, t.allWrites.filter (fun w => w.op = o) = g.writes.filter (fun w => w.op = o)

structure GroupInv (t : Procs) : Prop where
  sound : t.committing = false → t.current.Sound
  emptied : ∀ i ph, t.pc i = .committing ph → ph = .clear ∨ ph = .done → t.lh = []
  quiet : t.outstanding = 0 → t.ended = [] ∧ t.writes = []
  owner : ∀ w ∈ t.writes, w.op ∈ t.ended ∨ ∃ i, t.pc i = .op ∧ t.inst i = w.op
  running : ∀ i, t.pc i = .op → t.inst i < t.count ∧ t.inst i ∉ t.ended ∧ ∀ g ∈ t.groups, t.inst i ∉ g.ops
  distinct : ∀ i j, t.pc i = .op → t.pc j = .op → t.inst i = t.inst j → i = j
  bound : ∀ o, o ∈ t.ended ∨ (∃ g ∈ t.groups, o ∈ g.ops) → o < t.count
  apart : ∀ g ∈ t.groups, ∀ o ∈ g.ops, o ∉ t.ended
  groups : ∀ g ∈ t.groups, g.Sound ∧ ∀ w ∈ g.writes, w.op ∈ g.ops
  pairwise : t.groups.Pairwise fun g g' => ∀ o ∈ g.ops, o ∉ g'.ops

section
variable {K : Conf} {t t' : Procs} {i j : Nat} {c : Pc} {A : Finset Nat}

/-! ## headers -/

theorem lastWrite_append (ws : List Write) (w : Write) (b : Blockno) :
    lastWrite (ws ++ [w]) b = if w.block = b then some w else lastWrite ws b := by
  unfold lastWrite
  rw [reverse_append, reverse_singleton, singleton_append, find?_cons]
  by_cases h : w.block = b <;> simp [h]

theorem sound_empty (ops : List Nat) (f : Nat → Buf) : Group.Sound ⟨ops, [], [], f⟩ := by
  refine ⟨nodup_nil, fun b => ?_, fun b w h => ?_⟩
  · exact iff_of_false not_mem_nil fun ⟨w, hw, _⟩ => absurd hw not_mem_nil
  · cases h

theorem nodup_absorb {l : List Blockno} (h : l.Nodup) (b : Blockno) : (absorb l b).Nodup := by
  by_cases hb : b ∈ l
  · rwa [absorb_of_mem hb]
  · rw [absorb_of_notMem hb]
    exact List.nodup_append.mpr ⟨h, List.nodup_singleton b, fun x hx y hy e => hb (by
      rw [List.mem_singleton] at hy
      rwa [e, hy] at hx)⟩

theorem sound_absorb {ops : List Nat} {ws : List Write} {l : List Blockno} {f : Nat → Buf} {w : Write}
    (h : Group.Sound ⟨ops, ws, l, f⟩) :
    Group.Sound ⟨ops, ws ++ [w], absorb l w.block, update f w.block.toNat w.data⟩ := by
  refine ⟨nodup_absorb h.nodup _, fun b => ?_, fun b v hv => ?_⟩
  · rw [mem_absorb, h.blocks b]
    constructor
    · rintro (⟨v, hv, e⟩ | rfl)
      · exact ⟨v, mem_append_left _ hv, e⟩
      · exact ⟨w, mem_append_right _ mem_cons_self, rfl⟩
    · rintro ⟨v, hv, e⟩
      rcases mem_append.mp hv with hv | hv
      · exact .inl ⟨v, hv, e⟩
      · rw [List.mem_singleton] at hv
        exact .inr (e.symm.trans (congrArg Write.block hv))
  · have hv' : lastWrite (ws ++ [w]) b = some v := hv
    rw [lastWrite_append] at hv'
    show update f w.block.toNat w.data b.toNat = v.data
    split at hv'
    · rename_i e
      cases hv'
      rw [e, update_self]
    · rename_i e
      have hne : b.toNat ≠ w.block.toNat := fun hb => e (BitVec.eq_of_toNat_eq hb).symm
      rw [update_of_ne hne]
      exact h.contents b v hv'

theorem emptied_io {s s' : State} (h : IoStep K s s')
    (hs : s.phase = .clear ∨ s.phase = .done → s.lh = []) (hs' : s'.phase = .clear ∨ s'.phase = .done)
    (hne : s.phase ≠ .done) : s'.lh = [] := by
  cases h with
  | installed hp hb => rfl
  | clear hp => exact hs (.inl hp)
  | done hp => exact absurd hp hne
  | _ => rcases hs' with h1 | h1 <;> cases h1

/-! ## steps -/

namespace GroupInv

theorem init (d : Nat → Buf) : GroupInv (start d) := by
  refine ⟨fun _ => sound_empty _ _, fun i ph h => (nomatch h), fun _ => ⟨rfl, rfl⟩, fun w hw => (nomatch hw),
    fun i h => (nomatch h), fun i j h => (nomatch h), fun o h => ?_, fun g hg => (nomatch hg),
    fun g hg => (nomatch hg), List.Pairwise.nil⟩
  rcases h with h | ⟨g, hg, -⟩
  · exact absurd h not_mem_nil
  · exact absurd hg not_mem_nil

/-- processes move outside of operations; what is in the header may go if it is committed -/
theorem move (h : GroupInv t) (hop : ∀ j, t'.pc j = .op ↔ t.pc j = .op)
    (hemp : ∀ j ph, t'.pc j = .committing ph → ph = .clear ∨ ph = .done → t'.lh = [])
    (hsound : t'.committing = false → t'.current.Sound) (ho : t'.outstanding = t.outstanding)
    (hinst : t'.inst = t.inst) (hcount : t'.count = t.count) (hended : t'.ended = t.ended)
    (hwrites : t'.writes = t.writes) (hgroups : t'.groups = t.groups) : GroupInv t' := by
  refine ⟨hsound, hemp, ?_, ?_, fun j hj => ?_, fun j k hj hk => ?_, ?_, ?_, ?_, ?_⟩
  · rw [ho, hended, hwrites]
    exact h.quiet
  · rw [hwrites, hended, hinst]
    intro w hw
    rcases h.owner w hw with h1 | ⟨j, hj, e⟩
    · exact .inl h1
    · exact .inr ⟨j, (hop j).mpr hj, e⟩
  · rw [hinst, hcount, hended, hgroups]
    exact h.running j ((hop j).mp hj)
  · rw [hinst]
    exact h.distinct j k ((hop j).mp hj) ((hop k).mp hk)
  · rw [hended, hgroups, hcount]
    exact h.bound
  · rw [hgroups, hended]
    exact h.apart
  · rw [hgroups]
    exact h.groups
  · rw [hgroups]
    exact h.pairwise

theorem goto (h : GroupInv t) (hop : t.pc i ≠ .op) (hc : c ≠ .op)
    (hemp : ∀ ph, c = .committing ph → ph = .clear ∨ ph = .done → t.lh = []) :
    GroupInv (t.goto i c) := by
  refine h.move (fun j => ?_) (fun j ph hj hph => ?_) h.sound rfl rfl rfl rfl rfl rfl
  · by_cases e : j = i
    · rw [e, goto_pc_self]
      exact iff_of_false hc hop
    · rw [goto_pc_of_ne e]
  · by_cases e : j = i
    · rw [e, goto_pc_self] at hj
      exact hemp ph hj hph
    · rw [goto_pc_of_ne e] at hj
      exact h.emptied j ph hj hph

theorem beginOp (h : GroupInv t) (hi : Inv t A) (hs : beginOp t i = .next t') : GroupInv t' := by
  obtain ⟨hp, rfl | ⟨hcom, -, rfl⟩⟩ := beginOp_next hs
  · exact h.goto (by rw [hp]; exact nofun) nofun nofun
  have hpc : ∀ j, (t.goto i .op).pc j = .op ↔ j = i ∨ t.pc j = .op := by
    intro j
    by_cases e : j = i
    · rw [e, goto_pc_self]
      exact iff_of_true rfl (.inl rfl)
    · rw [goto_pc_of_ne e, or_iff_right e]
  have hinst : ∀ j, t.pc j = .op → update t.inst i t.count j = t.inst j := by
    intro j hj
    refine update_of_ne (fun e => ?_) _ _
    rw [e, hp] at hj
    cases hj
  refine ⟨fun _ => h.sound hcom, fun j ph hj hph => ?_, fun h0 => ?_, fun w hw => ?_, fun j hj => ?_,
    fun j k hj hk e => ?_, fun o ho => ?_, h.apart, h.groups, h.pairwise⟩
  · have hj' : (t.goto i .op).pc j = .committing ph := hj
    by_cases e : j = i
    · rw [e, goto_pc_self] at hj'
      cases hj'
    · rw [goto_pc_of_ne e] at hj'
      exact h.emptied j ph hj' hph
  · have h0' : t.outstanding + 1 = 0 := h0
    have := hi.card
    omega
  · rcases h.owner w hw with h1 | ⟨j, hj, e⟩
    · exact .inl h1
    · exact .inr ⟨j, (hpc j).mpr (.inr hj), (hinst j hj).trans e⟩
  · show update t.inst i t.count j < t.count + 1 ∧ update t.inst i t.count j ∉ t.ended ∧
      ∀ g ∈ t.groups, update t.inst i t.count j ∉ g.ops
    rcases (hpc j).mp hj with rfl | hj
    · rw [update_self]
      refine ⟨Nat.lt_succ_self _, fun hm => ?_, fun g hg hm => ?_⟩
      · exact Nat.lt_irrefl _ (h.bound _ (.inl hm))
      · exact Nat.lt_irrefl _ (h.bound _ (.inr ⟨g, hg, hm⟩))
    · rw [hinst j hj]
      obtain ⟨h1, h2⟩ := h.running j hj
      exact ⟨Nat.lt_succ_of_lt h1, h2⟩
  · have e' : update t.inst i t.count j = update t.inst i t.count k := e
    rcases (hpc j).mp hj with rfl | hj'
    · rcases (hpc k).mp hk with rfl | hk
      · rfl
      · rw [update_self, hinst k hk] at e'
        have := (h.running k hk).1
        omega
    · rcases (hpc k).mp hk with rfl | hk'
      · rw [update_self, hinst j hj'] at e'
        have := (h.running j hj').1
        omega
      · rw [hinst j hj', hinst k hk'] at e'
        exact h.distinct j k hj' hk' e'
  · exact Nat.lt_succ_of_lt (h.bound o ho)

theorem logWrite {b : Blockno} {d : Buf} (h : GroupInv t) (hi : Inv t A)
    (hs : logWrite K t i b d = .next t') : GroupInv t' := by
  obtain ⟨hp, -, -, -, rfl⟩ := logWrite_next hs
  have hcom := hi.not_committing hp
  have hno := hi.not_inCommit hp
  have hpos := (hi.pos hp).2
  refine ⟨fun _ => sound_absorb (h.sound hcom), fun j ph hj _ => ?_, fun h0 => ?_,
    fun w hw => ?_, h.running, h.distinct, h.bound, h.apart, h.groups, h.pairwise⟩
  · have hj' : t.pc j = .committing ph := hj
    have := hno j
    rw [hj'] at this
    cases this
  · have h0' : t.outstanding = 0 := h0
    omega
  · rcases mem_append.mp hw with hw | hw
    · exact h.owner w hw
    · rw [List.mem_singleton] at hw
      rw [hw]
      exact .inr ⟨i, hp, rfl⟩

/-- an operation that has ended is another one than those that run -/
theorem ended_ne (h : GroupInv t) (hp : t.pc i = .op) {o : Nat} (ho : o ∈ t.ended ++ [t.inst i])
    (hj : t.pc j = .op) (e : j ≠ i) : t.inst j ≠ o := by
  intro heq
  rcases mem_append.mp ho with h1 | h1
  · rw [← heq] at h1
    exact (h.running j hj).2.1 h1
  · rw [List.mem_singleton] at h1
    exact e (h.distinct j i hj hp (heq.trans h1))

theorem endOp (h : GroupInv t) (hi : Inv t A) (hs : endOp t i = .next t') : GroupInv t' := by
  obtain ⟨hp, hcom, hcase⟩ := endOp_next hs
  obtain ⟨hlt, hnot, hnotg⟩ := h.running i hp
  have hno := hi.not_inCommit hp
  have hbound : ∀ o ∈ t.ended ++ [t.inst i], o < t.count := by
    intro o ho
    rcases mem_append.mp ho with h1 | h1
    · exact h.bound o (.inl h1)
    · rw [List.mem_singleton] at h1
      rwa [h1]
  have hapart : ∀ g ∈ t.groups, ∀ o ∈ g.ops, o ∉ t.ended ++ [t.inst i] := by
    intro g hg o ho hm
    rcases mem_append.mp hm with h1 | h1
    · exact h.apart g hg o ho h1
    · rw [List.mem_singleton] at h1
      rw [h1] at ho
      exact hnotg g hg ho
  rcases hcase with ⟨h0, rfl⟩ | ⟨h0, rfl⟩
  · -- no other process is in an operation, so every call of `log_write` is of one that has ended
    have honly : ∀ j, t.pc j = .op → j = i := by
      intro j hj
      have hcard : A.card = 1 := by
        have := hi.card
        omega
      obtain ⟨a, rfl⟩ := card_eq_one.mp hcard
      have h1 := Finset.mem_singleton.mp ((hi.mem j).mpr hj)
      have h2 := Finset.mem_singleton.mp ((hi.mem i).mpr hp)
      rw [h1, h2]
    have hno' : ∀ j, (t.goto i .commit).pc j ≠ .op := by
      intro j hj
      by_cases e : j = i
      · rw [e, goto_pc_self] at hj
        cases hj
      · rw [goto_pc_of_ne e] at hj
        exact e (honly j hj)
    have hgroup : ∀ w ∈ t.writes, w.op ∈ t.ended ++ [t.inst i] := by
      intro w hw
      rcases h.owner w hw with h1 | ⟨j, hj, e⟩
      · exact mem_append_left _ h1
      · rw [honly j hj] at e
        rw [← e]
        exact mem_append_right _ mem_cons_self
    refine ⟨fun hf => (nomatch hf), fun j ph hj _ => ?_, fun _ => ⟨rfl, rfl⟩, fun w hw => (nomatch hw),
      fun j hj => absurd hj (hno' j), fun j k hj => absurd hj (hno' j), fun o ho => ?_,
      fun g hg o ho hm => absurd hm not_mem_nil, fun g hg => ?_, ?_⟩
    · have hj' : (t.goto i .commit).pc j = .committing ph := hj
      by_cases e : j = i
      · rw [e, goto_pc_self] at hj'
        cases hj'
      · rw [goto_pc_of_ne e] at hj'
        have := hno j
        rw [hj'] at this
        cases this
    · rcases ho with ho | ⟨g, hg, ho⟩
      · exact absurd ho not_mem_nil
      rcases mem_append.mp hg with hg | hg
      · exact h.bound o (.inr ⟨g, hg, ho⟩)
      · rw [List.mem_singleton] at hg
        rw [hg] at ho
        exact hbound o ho
    · rcases mem_append.mp hg with hg | hg
      · exact h.groups g hg
      · rw [List.mem_singleton] at hg
        rw [hg]
        have hs := h.sound hcom
        exact ⟨⟨hs.nodup, hs.blocks, hs.contents⟩, hgroup⟩
    · refine pairwise_append.mpr ⟨h.pairwise, pairwise_singleton _ _, fun g hg g' hg' o ho => ?_⟩
      rw [List.mem_singleton] at hg'
      rw [hg']
      exact hapart g hg o ho
  · have hpc : ∀ j, (t.goto i .idle).wakeup.pc j = .op ↔ j ≠ i ∧ t.pc j = .op := by
      intro j
      rw [wakeup_pc (c := .op) nofun nofun]
      by_cases e : j = i
      · rw [e, goto_pc_self]
        exact iff_of_false nofun fun h => h.1 rfl
      · rw [goto_pc_of_ne e, and_iff_right e]
    have hs := h.sound hcom
    refine ⟨fun _ => ⟨hs.nodup, hs.blocks, hs.contents⟩, fun j ph hj _ => ?_, fun hz => absurd hz h0,
      fun w hw => ?_, fun j hj => ?_, fun j k hj hk => ?_, fun o ho => ?_, hapart, h.groups, h.pairwise⟩
    · have hj' : (t.goto i .idle).wakeup.pc j = .committing ph := hj
      rw [wakeup_pc (c := .committing ph) nofun nofun] at hj'
      by_cases e : j = i
      · rw [e, goto_pc_self] at hj'
        cases hj'
      · rw [goto_pc_of_ne e] at hj'
        have := hno j
        rw [hj'] at this
        cases this
    · rcases h.owner w hw with h1 | ⟨j, hj, e⟩
      · exact .inl (mem_append_left _ h1)
      · by_cases hji : j = i
        · rw [hji] at e
          exact .inl (List.mem_append_right _ (List.mem_singleton.mpr e.symm))
        · exact .inr ⟨j, (hpc j).mpr ⟨hji, hj⟩, e⟩
    · obtain ⟨hji, hj'⟩ := (hpc j).mp hj
      obtain ⟨h1, -, h3⟩ := h.running j hj'
      exact ⟨h1, fun hm => h.ended_ne hp hm hj' hji rfl, h3⟩
    · exact h.distinct j k ((hpc j).mp hj).2 ((hpc k).mp hk).2
    · rcases ho with ho | ho
      · exact hbound o ho
      · exact h.bound o (.inr ho)

theorem commit (h : GroupInv t) (hi : Inv t A) (hs : commit K t i = .next t') : GroupInv t' := by
  rcases commit_next hs with ⟨hp, rfl⟩ | ⟨hp, rfl⟩ | ⟨ph, s, hp, hne, hio, rfl⟩
  · refine h.goto (by rw [hp]; exact nofun) nofun fun ph e hph => ?_
    cases e
    unfold startPhase at hph
    split at hph
    · rcases hph with h1 | h1 <;> cases h1
    · rename_i hl
      exact length_eq_zero_iff.mp (Nat.eq_zero_of_not_pos hl)
  · obtain ⟨-, hA, -⟩ := hi.alone i (by rw [hp]; rfl)
    have h0 : t.outstanding = 0 := by
      rw [← hi.card, hA]
      rfl
    obtain ⟨hended, hwrites⟩ := h.quiet h0
    have hlh := h.emptied i .done hp (.inr rfl)
    refine h.move (fun j => ?_) (fun j ph hj hph => ?_) (fun _ => ?_) rfl rfl rfl rfl rfl rfl
    · rw [wakeup_pc (c := .op) nofun nofun]
      by_cases e : j = i
      · rw [e, goto_pc_self, hp]
        exact iff_of_false nofun nofun
      · rw [goto_pc_of_ne e]
    · exact hlh
    · show Group.Sound ⟨t.ended, t.writes, t.lh, t.cache⟩
      rw [hwrites, hlh]
      exact sound_empty _ _
  · obtain ⟨hcom, -, honly⟩ := hi.alone i (by rw [hp]; rfl)
    refine h.move (fun j => ?_) (fun j ph' hj hph => ?_) (fun hf => ?_) rfl rfl rfl rfl rfl rfl
    · by_cases e : j = i
      · rw [e, goto_pc_self, hp]
        exact iff_of_false nofun nofun
      · rw [goto_pc_of_ne e]
    · have hj' : (t.goto i (.committing s.phase)).pc j = .committing ph' := hj
      have hji : j = i := by
        apply Classical.byContradiction
        intro e
        rw [goto_pc_of_ne e] at hj'
        exact e (honly j (by rw [hj']; rfl))
      rw [hji, goto_pc_self] at hj'
      cases hj'
      exact emptied_io hio (h.emptied i ph hp) hph hne
    · have hf' : t.committing = false := hf
      rw [hcom] at hf'
      cases hf'

theorem next {e : Event} (h : GroupInv t) (hi : Inv t A) (hs : step K t e = .next t') : GroupInv t' := by
  cases e with
  | call i =>
    obtain ⟨hp, rfl⟩ := call_next hs
    exact h.goto (by rw [hp]; exact nofun) nofun nofun
  | beginOp i => exact h.beginOp hi hs
  | logWrite i b d => exact h.logWrite hi hs
  | endOp i => exact h.endOp hi hs
  | commit i => exact h.commit hi hs

end GroupInv

/-! ## runs -/

theorem io_ne_panic (K : Conf) (s : State) (msg : String) : io K s ≠ .panic msg := by
  unfold io
  split
  · exact blocked_ne_panic
  · split <;> exact next_ne_panic
  all_goals exact next_ne_panic

theorem map_panic {α β : Type} {f : α → β} {o : Outcome α} {msg : String} (h : o.map f = .panic msg) :
    o = .panic msg := by
  cases o with
  | next x | blocked => cases h
  | panic m =>
    cases h
    rfl

theorem commit_ne_panic (K : Conf) (t : Procs) (i : Nat) (msg : String) : commit K t i ≠ .panic msg := by
  unfold Procs.commit
  split
  · exact next_ne_panic
  · exact next_ne_panic
  · exact fun h => io_ne_panic K _ msg (map_panic h)
  · exact blocked_ne_panic

theorem panic_eq {e : Event} {msg : String} (h : Inv t A) (hs : step K t e = .panic msg) :
    msg = "too big a transaction" := by
  cases e with
  | call i =>
    have hs' : call t i = .panic msg := hs
    unfold call at hs'
    split at hs' <;> cases hs'
  | beginOp i =>
    have hs' : Procs.beginOp t i = .panic msg := hs
    unfold Procs.beginOp at hs'
    split at hs'
    · split at hs'
      · cases hs'
      · split at hs' <;> cases hs'
    · cases hs'
  | logWrite i b d =>
    have hs' : Procs.logWrite K t i b d = .panic msg := hs
    unfold Procs.logWrite at hs'
    split at hs'
    · rename_i hp
      have hpos := (h.pos hp.1).2
      rw [if_neg (show ¬ t.outstanding < 1 by omega)] at hs'
      split at hs'
      · exact (Outcome.panic.inj hs').symm
      · cases hs'
    · cases hs'
  | endOp i =>
    have hs' : Procs.endOp t i = .panic msg := hs
    unfold Procs.endOp at hs'
    split at hs'
    · rename_i hp
      rw [h.not_committing hp, if_neg Bool.false_ne_true] at hs'
      split at hs' <;> cases hs'
    · cases hs'
  | commit i => exact absurd hs (commit_ne_panic K t i msg)

theorem exec_inv_group {d : Nat → Buf} {es : List Event} (h : exec (step K) (start d) es = .next t) :
    (∃ A, Inv t A) ∧ GroupInv t :=
  exec_inv (fun t => (∃ A, Inv t A) ∧ GroupInv t)
    (fun _ _ _ ⟨⟨_, hi⟩, hg⟩ _ hs => ⟨hi.next hs, hg.next hi hs⟩)
    ⟨⟨∅, Inv.init d⟩, GroupInv.init d⟩ (along_of_forall (fun _ _ => trivial) _ _) h

theorem filter_flatMap {gs : List Group} (hp : gs.Pairwise fun g g' => ∀ o ∈ g.ops, o ∉ g'.ops)
    (hon : ∀ g ∈ gs, ∀ w ∈ g.writes, w.op ∈ g.ops) {g : Group} (hg : g ∈ gs) {o : Nat} (ho : o ∈ g.ops) :
    (gs.flatMap Group.writes).filter (fun w => w.op = o) = g.writes.filter fun w => w.op = o := by
  have hnone : ∀ g' : Group, (∀ w ∈ g'.writes, w.op ∈ g'.ops) → o ∉ g'.ops →
      g'.writes.filter (fun w => w.op = o) = [] := by
    intro g' hon' hno
    rw [filter_eq_nil_iff]
    intro w hw e
    rw [decide_eq_true_iff] at e
    exact hno (e ▸ hon' w hw)
  induction gs with
  | nil => exact absurd hg not_mem_nil
  | cons g0 gs ih =>
    obtain ⟨hp0, hps⟩ := pairwise_cons.mp hp
    have hons : ∀ g' ∈ gs, ∀ w ∈ g'.writes, w.op ∈ g'.ops := fun g' h' => hon g' (mem_cons_of_mem _ h')
    rw [flatMap_cons, filter_append]
    rcases mem_cons.mp hg with rfl | hg
    · have hrest : (gs.flatMap Group.writes).filter (fun w => w.op = o) = [] := by
        rw [filter_eq_nil_iff]
        intro w hw e
        rw [decide_eq_true_iff] at e
        obtain ⟨g', hg', hw'⟩ := mem_flatMap.mp hw
        exact hp0 g' hg' o ho (e ▸ hons g' hg' w hw')
      rw [hrest, append_nil]
    · have hfirst : g0.writes.filter (fun w => w.op = o) = [] :=
        hnone g0 (hon g0 mem_cons_self) fun h0 => hp0 g hg o h0 ho
      rw [hfirst, nil_append]
      exact ih hps hons hg

theorem GroupInv.whole (h : GroupInv t) {g : Group} (hg : g ∈ t.groups) : Whole t g := by
  obtain ⟨hsound, honly⟩ := h.groups g hg
  refine ⟨hsound, fun i hp => (h.running i hp).2.2 g hg, honly, fun o ho => ?_⟩
  have hcur : t.writes.filter (fun w => w.op = o) = [] := by
    rw [filter_eq_nil_iff]
    intro w hw e
    rw [decide_eq_true_iff] at e
    rcases h.owner w hw with h1 | ⟨i, hp, hi⟩
    · rw [e] at h1
      exact h.apart g hg o ho h1
    · refine (h.running i hp).2.2 g hg ?_
      rwa [hi, e]
  rw [allWrites, filter_append, hcur, append_nil]
  exact filter_flatMap h.pairwise (fun g' hg' => (h.groups g' hg').2) hg ho

/-- **Group commit.**  In every state that processes can reach that bracket their writes: while a
process commits, `outstanding` is 0, no process is between `begin_op` and `end_op` and no other process
commits; no `log_write` happens then; of the panics only the one for a full log can be met; and every
group for which `commit()` was called consists of the calls of `log_write` of whole operations, all of
them. -/
theorem group_commit {d : Nat → Buf} {es : List Event} (h : exec (step K) (start d) es = .next t) :
    (∀ i, (t.pc i).inCommit = true → t.outstanding = 0 ∧ (∀ j, t.pc j ≠ .op) ∧
        ∀ j, (t.pc j).inCommit = true → j = i) ∧
      (∀ i b x t', step K t (.logWrite i b x) = .next t' → ∀ j, (t.pc j).inCommit = false) ∧
      (∀ e, step K t e ≠ .panic "log.committing" ∧ step K t e ≠ .panic "log_write outside of trans") ∧
      ∀ g ∈ t.groups, Whole t g := by
  obtain ⟨⟨A, hi⟩, hg⟩ := exec_inv_group h
  refine ⟨fun i hc => ?_, fun i b x t' hs => ?_, fun e => ⟨fun hp => ?_, fun hp => ?_⟩,
    fun g hgm => hg.whole hgm⟩
  · obtain ⟨-, hA, honly⟩ := hi.alone i hc
    refine ⟨?_, fun j hj => ?_, honly⟩
    · rw [← hi.card, hA]
      rfl
    · have := (hi.mem j).mpr hj
      rw [hA] at this
      exact absurd this (Finset.notMem_empty j)
  · exact hi.not_inCommit (logWrite_next hs).1
  · exact absurd (panic_eq hi hp) (by decide)
  · exact absurd (panic_eq hi hp) (by decide)

/-- two operations at once; a third process waits while the second of them commits -/
def twoOps : List Event :=
  [.call 0, .beginOp 0, .call 1, .beginOp 1, .logWrite 0 46 fun _ => 1, .logWrite 1 47 fun _ => 2,
    .endOp 0, .logWrite 1 46 fun _ => 3, .endOp 1, .call 2, .beginOp 2, .commit 1, .commit 1]

theorem group_commit_two : ∃ t, exec (step mkfsConf) (start fun _ _ => 0) twoOps = .next t ∧
    (t.pc 1).inCommit = true ∧ t.outstanding = 0 ∧ ∃ g ∈ t.groups, g.ops = [0, 1] ∧ Whole t g := by
  obtain ⟨t, ht, hc, hgroups⟩ := exists_of_check (o := exec (step mkfsConf) (start fun _ _ => 0) twoOps)
    (p := fun t : Procs => (t.pc 1).inCommit = true ∧ t.groups.map Group.ops = [[0, 1]]) (by decide +kernel)
  obtain ⟨h1, -, -, h4⟩ := group_commit ht
  have hmem : [0, 1] ∈ t.groups.map Group.ops := by
    rw [hgroups]
    exact List.mem_cons_self
  obtain ⟨g, hg, hops⟩ := List.mem_map.mp hmem
  exact ⟨t, ht, hc, (h1 1 hc).1, g, hg, hops, h4 g hg⟩

end

end Procs

end Log
