import Xv6.Sync.Monitor
import Xv6.Sync.Calls
import Xv6.Lib.Ring

/-!
# The rules of the kernel's calls

* `Exclusive`, `Fifo`     the invariants of a sleep-lock and of a pipe;
* `rules a b`             with them the reasons: with `a` those of sleep-locks, which ask that only a
                          holder releases one, and with `b` those of pipes, which ask that a
                          `pipewrite` that gives up has put nothing into the ring since it woke readers;
* `rules_sound`           every call keeps them.
-/

namespace Sync
open Run Prog Bytes List Bool
open Sched (Slot NPROC ProcState)

/-- at most one process is between `acquiresleep` and `releasesleep`, and `locked` says whether -/
def Exclusive (d : SleepLock) : Prop :=
  d.locked = false ∧ d.holders = [] ∨ d.locked = true ∧ ∃ p, d.holders = [p]

/-- the bytes in the ring -/
def Pipe.contents (d : Pipe) : List Byte := Ring.contents PIPESIZE d.data d.nread d.nwrite

/-- the ring holds at most `PIPESIZE` bytes, and with those removed they are what was accepted -/
def Fifo (d : Pipe) : Prop :=
  Ring.count d.nread d.nwrite ≤ PIPESIZE ∧ d.removed ++ d.contents = d.accepted

def Pipe.Empty (d : Pipe) : Prop := d.nread = d.nwrite

def Pipe.Full (d : Pipe) : Prop := d.nwrite = d.nread + BitVec.ofNat 32 PIPESIZE

def KLock.Inv (a : Bool) : (l : KLock) → l.Data → Prop
  | .sleep _, d => a = true → Exclusive d
  | .pipe _, d => Fifo d
  | _, _ => True

/-- why one sleeps on a channel; each channel goes with one lock -/
def KLock.Reason (a b : Bool) : (l : KLock) → KChan → l.Data → Prop
  | .sleep i, .sleep i', d => i' = i ∧ (a = true → SleepLock.locked d = true)
  | .pipe j, .nread j', d => j' = j ∧ (b = true → Pipe.Empty d ∧ Pipe.writeopen d = true)
  | .pipe j, .nwrite j', d => j' = j ∧ (b = true → Pipe.Full d ∧ Pipe.readopen d = true)
  | .cons, .consR, _ => True
  | .ticks, .ticks, _ => True
  | .wait, .proc _, _ => True
  | _, _, _ => False

def KLock.Guard (a b : Bool) : (l : KLock) → l.Act → Slot → l.Data → Prop
  | .sleep _, SleepAct.clear, p, d => a = true → p ∈ SleepLock.holders d
  | .pipe _, PipeAct.giveUp fresh, _, _ => b = true → fresh = 0
  | _, _, _, _ => True

def rules (a b : Bool) : Rules kernel where
  J := KLock.Inv a
  reason := KLock.Reason a b
  guard := KLock.Guard a b

section
variable {a b : Bool} {p : Slot} {pid : Int}

/-- the pair of a lock of the kernel with its data -/
abbrev owned (l : KLock) (d : l.Data) (D : Set KChan) : Held kernel := one (M := kernel) l d D

/-! ## sleep-locks -/

section
variable {i : Nat} {g : Unit → Code kernel Unit} {d : SleepLock} {D : Set KChan}

theorem sleep_ok {x : SleepAct} {g : x.Ans → Code kernel Unit}
    (h : KLock.Guard a b (.sleep i) x p d → (a = true → Exclusive (x.eff p pid d).2) ∧
      Ok (rules a b) p pid (g (x.eff p pid d).1) (owned (.sleep i) (x.eff p pid d).2
        (D ∪ (rules a b).ended (.sleep i) d (x.eff p pid d).2))) :
    Ok (rules a b) p pid ((sleepWork i x).bind g) (owned (.sleep i) d D) :=
  ok_act (M := kernel) (l := KLock.sleep i) h

theorem sleep_read {x : SleepAct} {g : x.Ans → Code kernel Unit} (he : (x.eff p pid d).2 = d)
    (hJ : a = true → Exclusive d)
    (h : Ok (rules a b) p pid (g (x.eff p pid d).1) (owned (.sleep i) d D)) :
    Ok (rules a b) p pid ((sleepWork i x).bind g) (owned (.sleep i) d D) :=
  ok_read (M := kernel) (l := KLock.sleep i) he hJ fun _ => h

theorem acquiresleepLoop_ok (fuel : Nat) (hJ : a = true → Exclusive d)
    (hg : ∀ d : SleepLock, (a = true → Exclusive d) → d.locked = false →
      Ok (rules a b) p pid (g ()) (owned (.sleep i) d ∅)) :
    Ok (rules a b) p pid ((acquiresleepLoop i fuel).bind g) (owned (.sleep i) d ∅) := by
  induction fuel generalizing d with
  | zero => exact trivial
  | succ fuel ih =>
    refine sleep_read rfl hJ ?_
    show Ok _ _ _ (Prog.bind (if d.locked then _ else _) g) _
    cases hd : d.locked with
    | false => exact hg d hJ hd
    | true => exact ok_sleep rfl trivial ⟨rfl, fun _ => hd⟩ fun d' hd' _ => ih hd'

theorem ended_sleep (d d' : SleepLock) : (rules a b).ended (.sleep i) d d' ⊆ {KChan.sleep i} := by
  intro ch h
  cases ch with
  | sleep i' =>
    obtain ⟨rfl, -⟩ := h.1
    rfl
  | _ => exact absurd h.1 id

theorem acquiresleep_ok (fuel : Nat) :
    Ok (rules a b) p pid (acquiresleep i fuel) fun _ => none := by
  refine ok_acquire fun d hd _ => ?_
  refine acquiresleepLoop_ok fuel hd fun d hd hl => ?_
  refine sleep_ok fun _ => ⟨fun ha => ?_, ?_⟩
  · rcases hd ha with h | h
    · rw [SleepAct.eff, h.2]
      exact .inr ⟨rfl, p, rfl⟩
    · rw [hl] at h
      cases h.1
  · have he : (rules a b).ended (.sleep i) d (SleepAct.eff p pid .take d).2 = ∅ := by
      ext ch
      refine ⟨fun h => ?_, fun h => absurd h (Set.notMem_empty ch)⟩
      cases ended_sleep _ _ h
      exact absurd ⟨rfl, fun _ => rfl⟩ h.2
    rw [he, Set.union_empty]
    exact ok_release rfl trivial fun _ => rfl

theorem releasesleep_ok : Ok (rules a b) p pid (releasesleep i) fun _ => none := by
  refine ok_acquire fun d hd _ => ?_
  refine sleep_ok fun hg => ⟨fun ha => ?_, ?_⟩
  · rcases hd ha with h | ⟨h1, q, h2⟩
    · have hp := hg ha
      rw [h.2] at hp
      cases hp
    have hp := hg ha
    rw [h2, mem_singleton] at hp
    subst hp
    refine .inl ⟨rfl, ?_⟩
    show d.holders.erase p = []
    rw [h2, erase_cons_head]
  · refine ok_wakeup (ok_release ?_ trivial fun _ => rfl)
    rw [Set.empty_union, Set.sdiff_eq_empty]
    exact ended_sleep _ _

theorem holdingsleep_ok {g : Bool → Code kernel Unit} (hg : ∀ r, Ok (rules a b) p pid (g r) fun _ => none) :
    Ok (rules a b) p pid ((holdingsleep i).bind g) fun _ => none := by
  refine ok_acquire fun d hd _ => ?_
  refine sleep_read rfl hd ?_
  exact ok_release rfl trivial (hg _)

end

/-! ## pipes -/

section
variable {j : Nat} {d : Pipe} {D : Set KChan}

theorem count_lt (h : Fifo d) (hf : ¬ d.Full) : Ring.count d.nread d.nwrite < PIPESIZE := by
  refine lt_of_le_of_ne h.1 fun e => hf ?_
  rw [Pipe.Full, ← e, Ring.add_count]

theorem fifo_put (h : Fifo d) (hf : ¬ d.Full) (ch : Byte) : Fifo (PipeAct.eff (.put ch) d).2 := by
  have hc := count_lt h hf
  have hP : PIPESIZE < 2 ^ 32 := by decide
  refine ⟨?_, ?_⟩
  · show Ring.count d.nread (d.nwrite + 1) ≤ PIPESIZE
    rwa [Ring.count_push (by omega)]
  · show d.removed ++ Ring.contents PIPESIZE
      (Function.update d.data (d.nwrite.toNat % PIPESIZE) ch) d.nread (d.nwrite + 1) = d.accepted ++ [ch]
    rw [Ring.contents_push (by decide) hc hP, ← append_assoc]
    exact congrArg (· ++ [ch]) h.2

theorem fifo_get (h : Fifo d) (he : ¬ d.Empty) : Fifo (PipeAct.eff .get d).2 := by
  have hc := Ring.count_pop he
  refine ⟨?_, ?_⟩
  · show Ring.count (d.nread + 1) d.nwrite ≤ PIPESIZE
    have := h.1
    omega
  · show (d.removed ++ [_]) ++ Ring.contents PIPESIZE d.data (d.nread + 1) d.nwrite = d.accepted
    rw [append_assoc, singleton_append, ← Ring.contents_pop he]
    exact h.2

theorem pipe_ok {x : PipeAct} {g : x.Ans → Code kernel Unit}
    (h : KLock.Guard a b (.pipe j) x p d → Fifo (x.eff d).2 ∧
      Ok (rules a b) p pid (g (x.eff d).1) (owned (.pipe j) (x.eff d).2
        (D ∪ (rules a b).ended (.pipe j) d (x.eff d).2))) :
    Ok (rules a b) p pid ((pipeWork j x).bind g) (owned (.pipe j) d D) :=
  ok_act (M := kernel) (l := KLock.pipe j) h

theorem pipe_read {x : PipeAct} {g : x.Ans → Code kernel Unit} (he : (x.eff d).2 = d)
    (hJ : Fifo d)
    (h : KLock.Guard a b (.pipe j) x p d →
      Ok (rules a b) p pid (g (x.eff d).1) (owned (.pipe j) d D)) :
    Ok (rules a b) p pid ((pipeWork j x).bind g) (owned (.pipe j) d D) :=
  ok_read (M := kernel) (l := KLock.pipe j) he hJ h

theorem ended_pipe_of_false (hb : b = false) (d d' : Pipe) :
    (rules a b).ended (.pipe j) d d' = ∅ := by
  subst hb
  ext ch
  refine ⟨fun h => ?_, fun h => absurd h (Set.notMem_empty ch)⟩
  cases ch with
  | nread j' | nwrite j' => exact absurd ⟨h.1.1, fun e => absurd e false_ne_true⟩ h.2
  | _ => exact absurd h.1 id

theorem ended_nread {d' : Pipe} (h : d.Full → d.readopen = true → d'.Full ∧ d'.readopen = true) :
    (rules a b).ended (.pipe j) d d' ⊆ {KChan.nread j} := by
  intro ch hch
  cases ch with
  | nread j' =>
    obtain ⟨rfl, -⟩ := hch.1
    rfl
  | nwrite j' =>
    obtain ⟨hj, h1⟩ := hch.1
    exact absurd ⟨hj, fun hb => h (h1 hb).1 (h1 hb).2⟩ hch.2
  | _ => exact absurd hch.1 id

theorem ended_nwrite {d' : Pipe} (h : d.Empty → d.writeopen = true → d'.Empty ∧ d'.writeopen = true) :
    (rules a b).ended (.pipe j) d d' ⊆ {KChan.nwrite j} := by
  intro ch hch
  cases ch with
  | nwrite j' =>
    obtain ⟨rfl, -⟩ := hch.1
    rfl
  | nread j' =>
    obtain ⟨hj, h1⟩ := hch.1
    exact absurd ⟨hj, fun hb => h (h1 hb).1 (h1 hb).2⟩ hch.2
  | _ => exact absurd hch.1 id

theorem pipeclose_ok (writable : Bool) :
    Ok (rules a b) p pid (pipeclose j writable) fun _ => none := by
  refine ok_acquire fun d hd _ => ?_
  cases writable with
  | true =>
    refine pipe_ok fun _ => ⟨hd, ok_wakeup (ok_release ?_ trivial fun _ => rfl)⟩
    rw [Set.empty_union, Set.sdiff_eq_empty]
    exact ended_nread fun h1 h2 => ⟨h1, h2⟩
  | false =>
    refine pipe_ok fun _ => ⟨hd, ok_wakeup (ok_release ?_ trivial fun _ => rfl)⟩
    rw [Set.empty_union, Set.sdiff_eq_empty]
    exact ended_nwrite fun h1 h2 => ⟨h1, h2⟩

/-- what the loop of `pipewrite` owes: readers, and nothing if it has put nothing into the ring -/
def Owes (b : Bool) (j : Nat) (D : Set KChan) (fresh : Nat) : Prop :=
  D ⊆ {KChan.nread j} ∧ ((b = true → fresh = 0) → D = ∅)

variable {g : Bool → Code kernel Unit}

theorem readerGone_ok (hJ : Fifo d)
    (h : ∀ r, (r = false → d.readopen = true) → Ok (rules a b) p pid (g r) (owned (.pipe j) d D)) :
    Ok (rules a b) p pid ((readerGone j).bind g) (owned (.pipe j) d D) := by
  refine pipe_read rfl hJ fun _ => ?_
  show Ok _ _ _ (Prog.bind (if d.readopen then _ else _) g) _
  cases hr : d.readopen with
  | true => exact ok_killed fun r => h r fun _ => hr
  | false => exact h true fun e => absurd e.symm false_ne_true

theorem pipewriteLoop_ok {g : Option Nat → Code kernel Unit} {src : Nat → Option Byte} {n : Int}
    (fuel : Nat) {i fresh : Nat} (hJ : Fifo d) (hD : Owes b j D fresh)
    (hnone : Ok (rules a b) p pid (g none) fun _ => none)
    (hsome : ∀ i (d : Pipe) D, Fifo d → D ⊆ {KChan.nread j} →
      Ok (rules a b) p pid (g (some i)) (owned (.pipe j) d D)) :
    Ok (rules a b) p pid ((pipewriteLoop j src n fuel i fresh).bind g) (owned (.pipe j) d D) := by
  induction fuel generalizing d D i fresh with
  | zero => exact trivial
  | succ fuel ih =>
    unfold pipewriteLoop
    split
    · rw [bind_eq, bind_assoc]
      refine readerGone_ok hJ fun r hr => ?_
      cases r with
      | true =>
        refine pipe_read rfl hJ fun hg => ?_
        exact ok_release (hD.2 hg) trivial hnone
      | false =>
        refine pipe_read rfl hJ fun _ => ?_
        show Ok _ _ _ (Prog.bind (if d.nwrite == d.nread + BitVec.ofNat 32 PIPESIZE then _ else _) g) _
        cases hf : d.nwrite == d.nread + BitVec.ofNat 32 PIPESIZE with
        | true =>
          have hfull : d.Full := eq_of_beq hf
          refine ok_wakeup (ok_sleep (Set.sdiff_eq_empty.mpr hD.1) trivial ⟨rfl, fun _ => ⟨hfull, hr rfl⟩⟩ ?_)
          intro d' hd' _
          exact ih hd' ⟨Set.empty_subset _, fun _ => rfl⟩
        | false =>
          have hfull : ¬ d.Full := fun e => absurd (hf.symm.trans (beq_iff_eq.mpr e)) false_ne_true
          cases src i with
          | none => exact hsome i d D hJ hD.1
          | some ch =>
            refine pipe_ok fun _ => ⟨fifo_put hJ hfull ch, ih (fifo_put hJ hfull ch) ?_⟩
            refine ⟨Set.union_subset hD.1 (ended_nread fun h => absurd h hfull), fun h => ?_⟩
            have hb : b = false := by
              cases b with
              | false => rfl
              | true => exact absurd (h rfl) (Nat.succ_ne_zero fresh)
            rw [ended_pipe_of_false hb, Set.union_empty]
            exact hD.2 fun e => absurd (hb.symm.trans e) false_ne_true
    · exact hsome i d D hJ hD.1

theorem pipewrite_ok {g : Int → Code kernel Unit} (src : Nat → Option Byte) (n : Int) (fuel : Nat)
    (hg : ∀ r, Ok (rules a b) p pid (g r) fun _ => none) :
    Ok (rules a b) p pid ((pipewrite j src n fuel).bind g) fun _ => none := by
  refine ok_acquire fun d hd _ => ?_
  show Ok _ _ _ (Prog.bind ((pipewriteLoop j src n fuel 0 0).bind _) g) _
  rw [bind_assoc]
  refine pipewriteLoop_ok fuel hd ⟨Set.empty_subset _, fun _ => rfl⟩ (hg _) ?_
  intro i d D hd hD
  exact ok_wakeup (ok_release (Set.sdiff_eq_empty.mpr hD) trivial (hg _))

theorem mustWait_ok (hJ : Fifo d) (h : ∀ r, (r = true → d.Empty ∧ d.writeopen = true) →
      Ok (rules a b) p pid (g r) (owned (.pipe j) d D)) :
    Ok (rules a b) p pid ((mustWait j).bind g) (owned (.pipe j) d D) := by
  refine pipe_read rfl hJ fun _ => ?_
  show Ok _ _ _ (Prog.bind (if d.nread == d.nwrite then _ else _) g) _
  cases he : d.nread == d.nwrite with
  | true => exact pipe_read rfl hJ fun _ => h _ fun hw => ⟨eq_of_beq he, hw⟩
  | false => exact h false fun e => absurd e false_ne_true

theorem pipereadWait_ok (fuel : Nat) (hJ : Fifo d) (hfalse : Ok (rules a b) p pid (g false) fun _ => none)
    (htrue : ∀ d : Pipe, Fifo d → Ok (rules a b) p pid (g true) (owned (.pipe j) d ∅)) :
    Ok (rules a b) p pid ((pipereadWait j fuel).bind g) (owned (.pipe j) d ∅) := by
  induction fuel generalizing d with
  | zero => exact trivial
  | succ fuel ih =>
    rw [pipereadWait, bind_eq, bind_assoc]
    refine mustWait_ok hJ fun r hr => ?_
    cases r with
    | false => exact htrue d hJ
    | true =>
      refine ok_killed fun r => ?_
      cases r with
      | true => exact ok_release rfl trivial hfalse
      | false => exact ok_sleep rfl trivial ⟨rfl, fun _ => hr rfl⟩ fun d' hd' _ => ih hd'

theorem pipereadCopy_ok {g : Nat → Code kernel Unit} (dst : Nat → Bool) (m : Nat) {i : Nat}
    (hJ : Fifo d) (hD : D ⊆ {KChan.nwrite j})
    (hg : ∀ i (d : Pipe) D, Fifo d → D ⊆ {KChan.nwrite j} →
      Ok (rules a b) p pid (g i) (owned (.pipe j) d D)) :
    Ok (rules a b) p pid ((pipereadCopy j dst m i).bind g) (owned (.pipe j) d D) := by
  induction m generalizing d D i with
  | zero => exact hg i d D hJ hD
  | succ m ih =>
    refine pipe_read rfl hJ fun _ => ?_
    show Ok _ _ _ (Prog.bind (if d.nread == d.nwrite then _ else _) g) _
    cases he : d.nread == d.nwrite with
    | true => exact hg i d D hJ hD
    | false =>
      have hne : ¬ d.Empty := fun e => absurd (he.symm.trans (beq_iff_eq.mpr e)) false_ne_true
      have hD' : D ∪ (rules a b).ended (.pipe j) d (PipeAct.eff .get d).2 ⊆ {KChan.nwrite j} :=
        Set.union_subset hD (ended_nwrite fun h => absurd h hne)
      refine pipe_ok fun _ => ⟨fifo_get hJ hne, ?_⟩
      cases dst i with
      | true => exact ih (fifo_get hJ hne) hD'
      | false => exact hg i _ _ (fifo_get hJ hne) hD'

theorem piperead_ok {g : Int → Code kernel Unit} (dst : Nat → Bool) (n : Int) (fuel : Nat)
    (hg : ∀ r, Ok (rules a b) p pid (g r) fun _ => none) :
    Ok (rules a b) p pid ((piperead j dst n fuel).bind g) fun _ => none := by
  refine ok_acquire fun d hd _ => ?_
  show Ok _ _ _ (Prog.bind ((pipereadWait j fuel).bind _) g) _
  rw [bind_assoc]
  refine pipereadWait_ok fuel hd (hg _) fun d hd => ?_
  show Ok _ _ _ (Prog.bind ((pipereadCopy j dst n.toNat 0).bind _) g) _
  rw [bind_assoc]
  refine pipereadCopy_ok dst n.toNat hd (Set.empty_subset _) fun i d D hd hD => ?_
  exact ok_wakeup (ok_release (Set.sdiff_eq_empty.mpr hD) trivial (hg _))

end

/-! ## `wait`, `consoleread`, `sys_sleep` -/

section
variable {g : Int → Code kernel Unit}

theorem ended_of_trivial {l : KLock} (h : l = .wait ∨ l = .cons ∨ l = .ticks) (d d' : l.Data) :
    (rules a b).ended l d d' = ∅ := by
  ext ch
  refine ⟨fun hch => ?_, fun h => absurd h (Set.notMem_empty ch)⟩
  rcases h with rfl | rfl | rfl
  · cases ch with
    | proc q => exact absurd trivial hch.2
    | _ => exact absurd hch.1 id
  · cases ch with
    | consR => exact absurd trivial hch.2
    | _ => exact absurd hch.1 id
  · cases ch with
    | ticks => exact absurd trivial hch.2
    | _ => exact absurd hch.1 id

/-- under a lock without invariant and reasons every work is fine -/
theorem plain_ok {l : KLock} (h : l = .wait ∨ l = .cons ∨ l = .ticks) {x : l.Act} {d : l.Data}
    {g : l.Ans x → Code kernel Unit}
    (hg : ∀ r (d' : l.Data), Ok (rules a b) p pid (g r) (owned l d' ∅)) :
    Ok (rules a b) p pid ((work (M := kernel) l x).bind g) (owned l d ∅) := by
  refine ok_act fun _ => ⟨?_, ?_⟩
  · rcases h with rfl | rfl | rfl <;> exact trivial
  · rw [ended_of_trivial h, Set.union_empty]
    exact hg _ _

theorem noWait_ok {g : Bool → Code kernel Unit} {d : Kids}
    (hg : ∀ r (d : Kids), Ok (rules a b) p pid (g r) (owned .wait d ∅)) :
    Ok (rules a b) p pid (noWait.bind g) (owned .wait d ∅) := by
  refine plain_ok (.inl rfl) fun k d => ?_
  cases k with
  | true => exact ok_killed fun r => hg r d
  | false => exact hg true d

theorem waitLoop_ok (q : Slot) (copied : Bool) (fuel : Nat) {d : Kids}
    (hg : ∀ r, Ok (rules a b) p pid (g r) fun _ => none) :
    Ok (rules a b) p pid ((waitLoop q copied fuel).bind g) (owned .wait d ∅) := by
  induction fuel generalizing d with
  | zero => exact trivial
  | succ fuel ih =>
    refine plain_ok (.inl rfl) fun z d => ?_
    cases z with
    | some pid =>
      cases copied with
      | true => exact plain_ok (.inl rfl) fun _ d => ok_release rfl trivial (hg _)
      | false => exact ok_release rfl trivial (hg _)
    | none =>
      show Ok _ _ _ (Prog.bind (noWait.bind _) g) _
      rw [bind_assoc]
      refine noWait_ok fun r d => ?_
      cases r with
      | true => exact ok_release rfl trivial (hg _)
      | false => exact ok_sleep rfl trivial trivial fun d' _ _ => ih

theorem wait_ok (q : Slot) (copied : Bool) (fuel : Nat)
    (hg : ∀ r, Ok (rules a b) p pid (g r) fun _ => none) :
    Ok (rules a b) p pid ((wait q copied fuel).bind g) fun _ => none :=
  ok_acquire fun _ _ _ => waitLoop_ok q copied fuel hg

theorem consoleWait_ok {g : Bool → Code kernel Unit} (fuel : Nat) {d : Console.Cons}
    (hfalse : Ok (rules a b) p pid (g false) fun _ => none)
    (htrue : ∀ d, Ok (rules a b) p pid (g true) (owned .cons d ∅)) :
    Ok (rules a b) p pid ((consoleWait fuel).bind g) (owned .cons d ∅) := by
  induction fuel generalizing d with
  | zero => exact trivial
  | succ fuel ih =>
    refine plain_ok (.inr (.inl rfl)) fun r d => ?_
    cases r with
    | false => exact htrue d
    | true =>
      refine ok_killed fun r => ?_
      cases r with
      | true => exact ok_release rfl trivial hfalse
      | false => exact ok_sleep rfl trivial trivial fun d' _ _ => ih

theorem consoleLoop_ok {g : Option Nat → Code kernel Unit} (copied : Nat → Bool) (target fuel n : Nat)
    {d : Console.Cons} (hnone : Ok (rules a b) p pid (g none) fun _ => none)
    (hsome : ∀ m d, Ok (rules a b) p pid (g (some m)) (owned .cons d ∅)) :
    Ok (rules a b) p pid ((consoleLoop copied target fuel n).bind g) (owned .cons d ∅) := by
  induction n generalizing d with
  | zero => exact hsome 0 d
  | succ n ih =>
    rw [consoleLoop, bind_eq, bind_assoc]
    refine consoleWait_ok fuel hnone fun d => ?_
    refine plain_ok (.inr (.inl rfl)) fun (c : Byte) d => ?_
    show Ok _ _ _ (Prog.bind (if c = Console.ctrl 'D' then _ else _) g) _
    split
    · split
      · exact plain_ok (.inr (.inl rfl)) fun _ d => hsome _ d
      · exact hsome _ d
    · split
      · split
        · exact hsome _ d
        · exact ih
      · exact hsome _ d

theorem consoleread_ok (copied : Nat → Bool) (n : Int) (fuel : Nat)
    (hg : ∀ r, Ok (rules a b) p pid (g r) fun _ => none) :
    Ok (rules a b) p pid ((consoleread copied n fuel).bind g) fun _ => none := by
  refine ok_acquire fun d _ _ => ?_
  show Ok _ _ _ (Prog.bind ((consoleLoop copied n.toNat fuel n.toNat).bind _) g) _
  rw [bind_assoc]
  exact consoleLoop_ok copied n.toNat fuel n.toNat (hg _) fun m d => ok_release rfl trivial (hg _)

theorem sysSleepLoop_ok (n ticks0 : BitVec 32) (fuel : Nat) {d : BitVec 32}
    (hg : ∀ r, Ok (rules a b) p pid (g r) fun _ => none) :
    Ok (rules a b) p pid ((sysSleepLoop n ticks0 fuel).bind g) (owned .ticks d ∅) := by
  induction fuel generalizing d with
  | zero => exact trivial
  | succ fuel ih =>
    refine plain_ok (.inr (.inr rfl)) fun t d => ?_
    show Ok _ _ _ (Prog.bind (if (show BitVec 32 from t) - ticks0 < n then _ else _) g) _
    split
    · refine ok_killed fun r => ?_
      cases r with
      | true => exact ok_release rfl trivial (hg _)
      | false => exact ok_sleep rfl trivial trivial fun d' _ _ => ih
    · exact ok_release rfl trivial (hg _)

theorem sysSleep_ok (n : BitVec 32) (fuel : Nat)
    (hg : ∀ r, Ok (rules a b) p pid (g r) fun _ => none) :
    Ok (rules a b) p pid ((sysSleep n fuel).bind g) fun _ => none :=
  ok_acquire fun _ _ _ => plain_ok (.inr (.inr rfl)) fun t _ => sysSleepLoop_ok n t fuel hg

end

end

/-! ## all calls -/

theorem rules_sound (a b : Bool) : (rules a b).Sound Call.code := by
  have hg : ∀ (p : Slot) (pid : Int) (u : Unit), Ok (rules a b) p pid (.ret u) fun _ => none :=
    fun _ _ _ _ => rfl
  refine ⟨fun k p pid => ?_, fun l x d hd => ?_, fun _ _ _ _ => trivial, fun l x ch d hd => ?_⟩
  · cases k with
    | acquiresleep i fuel => exact acquiresleep_ok fuel
    | releasesleep i => exact releasesleep_ok
    | holdingsleep i => exact holdingsleep_ok fun _ => hg p pid ()
    | pipewrite j src n fuel => exact pipewrite_ok src n fuel fun _ => hg p pid ()
    | piperead j dst n fuel => exact piperead_ok dst n fuel fun _ => hg p pid ()
    | pipeclose j writable => exact pipeclose_ok writable
    | wait copied fuel => exact wait_ok p copied fuel fun _ => hg p pid ()
    | consoleread copied n fuel => exact consoleread_ok copied n fuel fun _ => hg p pid ()
    | sysSleep n fuel => exact sysSleep_ok n fuel fun _ => hg p pid ()
    | kill v => exact ok_kill fun _ => hg p pid ()
  · cases l with
    | sleep i | pipe j => cases x
    | _ => exact trivial
  · cases l with
    | sleep i | pipe j => cases x
    | cons =>
      cases ch with
      | consR => exact trivial
      | _ => exact absurd hd id
    | ticks =>
      cases ch with
      | ticks => exact trivial
      | _ => exact absurd hd id
    | wait =>
      cases ch with
      | proc q => exact trivial
      | _ => exact absurd hd id

end Sync
