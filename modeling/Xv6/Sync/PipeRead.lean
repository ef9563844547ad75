import Xv6.Sync.Calls
import Xv6.Vm.UserCopy
import Xv6.Lib.Ring

/-!
# Reading from a pipe into user memory (`kernel/pipe.c`)

The second loop of `piperead` takes a byte out of the ring before it knows whether `copyout` can store
it.  Here the loop runs on the pipe and on the memory of the process together, while it holds the
lock of the pipe.

* `copyLoop_run`      how far the loop comes;
* `piperead_exact`    it consumes exactly what it reports, and stores it, if and only if every byte
                      it tries to store is accessible.
-/

namespace Sync
open Run Bytes Function
open Vm (Layout Table Sys Accessible UserRam paddr)

/-- `ch = pi->data[pi->nread++ % PIPESIZE]` -/
def Pipe.get (pi : Pipe) : Byte × Pipe := PipeAct.eff .get pi

/-- `pi->nread == pi->nwrite` -/
def Pipe.isEmpty (pi : Pipe) : Bool := (PipeAct.eff .isEmpty pi).1

section
variable (L : Layout) (T : Table 2) (addr : BitVec 64)

/-- `addr + i` -/
def byteAddr (i : Nat) : Nat := (addr + BitVec.ofNat 64 i).toNat

/-- `copyout(pr->pagetable, addr + i, &ch, 1)` -/
def copyByte (i : Nat) (ch : Byte) (s : Sys) : Outcome (Bool × Sys) :=
  (Vm.copyout T (byteAddr addr i) (fun _ => ch) 1).run (Vm.sem L) s

/-- the second loop of `piperead` for the next `m` bytes -/
def copyLoop : (m i : Nat) → Pipe → Sys → Outcome (Nat × Pipe × Sys)
  | 0, i, pi, s => .next (i, pi, s)
  | m + 1, i, pi, s =>
    if pi.isEmpty then .next (i, pi, s)
    else
      match copyByte L T addr i pi.get.1 s with
      | .next (true, s) => copyLoop m (i + 1) pi.get.2 s
      | .next (false, s) => .next (i, pi.get.2, s)
      | .panic msg => .panic msg
      | .blocked => .blocked

/-- `piperead` from where it holds `pi->lock`; it sleeps while the pipe is empty and can be written -/
def pipereadLocked (killed : Bool) (n : BitVec 32) (pi : Pipe) (s : Sys) : Outcome (Int × Pipe × Sys) :=
  if pi.isEmpty && pi.writeopen then
    if killed then .next (-1, pi, s) else .blocked
  else (copyLoop L T addr n.toInt.toNat 0 pi s).map fun r => ((r.1 : Int), r.2)

end

/-- the user pages are memory, and different ones are different pages of memory -/
structure UserSpace (T : Table 2) : Prop where
  ram : UserRam T
  distinct : ∀ va vb, Accessible T va → Accessible T vb → (T.leaf va).pa = (T.leaf vb).pa →
    va / Vm.PGSIZE = vb / Vm.PGSIZE

/-- the bytes that `piperead` tries to store -/
def Pipe.tries (pi : Pipe) (n : BitVec 32) : Nat := min n.toInt.toNat (Ring.count pi.nread pi.nwrite)

/-- the byte `k` of the contents -/
def Pipe.byte (pi : Pipe) (k : Nat) : Byte := pi.data ((pi.nread + BitVec.ofNat 32 k).toNat % PIPESIZE)

/-- `i` bytes have left the pipe and are stored at `addr` -/
def Consumed (T : Table 2) (addr : BitVec 64) (pi pi' : Pipe) (s' : Sys) (i : Nat) : Prop :=
  pi'.nread = pi.nread + BitVec.ofNat 32 i ∧
    ∀ k, k < i → Accessible T (byteAddr addr k) ∧ s'.kmem.mem (paddr T (byteAddr addr k)) = pi.byte k

section
variable {L : Layout} {T : Table 2} {addr : BitVec 64} {pi : Pipe} {s : Sys}

theorem copyByte_run (hT : UserRam T) (i : Nat) (ch : Byte) :
    copyByte L T addr i ch s = .next (decide (Accessible T (byteAddr addr i)),
      s.setMem (if Accessible T (byteAddr addr i) then
        update s.kmem.mem (paddr T (byteAddr addr i)) ch else s.kmem.mem)) := by
  obtain ⟨k, hk, hrun⟩ : ∃ k, Vm.Upto T (byteAddr addr i) 1 k ∧
      (Vm.copyout T (byteAddr addr i) (fun _ => ch) 1).run (Vm.sem L) s = .next (decide (k = 1),
        s.setMem (scatter s.kmem.mem (fun j => paddr T (byteAddr addr i + j)) (fun _ => ch) k)) :=
    Vm.copyout_run (fun _ => ch) hT
  rw [copyByte, hrun]
  by_cases h : Accessible T (byteAddr addr i)
  · have hall : k = 1 := hk.all_iff.mpr fun j hj => by
      obtain rfl : j = 0 := by omega
      exact h
    rw [if_pos h, decide_eq_true h, hall]
    rfl
  · have hz : k = 0 := by
      by_contra hne
      exact h (hk.acc 0 (by omega))
    rw [if_neg h, decide_eq_false h, hz]
    rfl

theorem isEmpty_iff : pi.isEmpty = true ↔ Ring.count pi.nread pi.nwrite = 0 := by
  rw [Ring.count_eq_zero]
  exact beq_iff_eq

/-- the loop goes up to the first byte that is not accessible; that one is taken out of the ring, but
not stored -/
structure Copied (T : Table 2) (addr : BitVec 64) (m i : Nat) (pi pi' : Pipe) (s s' : Sys) (j : Nat) : Prop where
  le : j ≤ min m (Ring.count pi.nread pi.nwrite)
  acc : ∀ k, k < j → Accessible T (byteAddr addr (i + k))
  mem : s'.kmem.mem = scatter s.kmem.mem (fun k => paddr T (byteAddr addr (i + k))) pi.byte j
  stop : j = min m (Ring.count pi.nread pi.nwrite) ∧ pi'.nread = pi.nread + BitVec.ofNat 32 j ∨
    j < min m (Ring.count pi.nread pi.nwrite) ∧ ¬ Accessible T (byteAddr addr (i + j)) ∧
      pi'.nread = pi.nread + BitVec.ofNat 32 (j + 1)

theorem byte_zero : pi.byte 0 = pi.get.1 := by
  show pi.data ((pi.nread + 0#32).toNat % PIPESIZE) = _
  rw [BitVec.add_zero]
  rfl

theorem byte_get (k : Nat) : pi.get.2.byte k = pi.byte (k + 1) := by
  show pi.data ((pi.nread + 1 + BitVec.ofNat 32 k).toNat % PIPESIZE) = _
  rw [Pipe.byte, Nat.add_comm k 1, BitVec.ofNat_add, ← BitVec.add_assoc]
  rfl

variable {pi' : Pipe} {i j m : Nat} {s' : Sys}

theorem Copied.cons (hne : pi.nread ≠ pi.nwrite) (ha : Accessible T (byteAddr addr i))
    (h : Copied T addr m (i + 1) pi.get.2 pi'
      (s.setMem (update s.kmem.mem (paddr T (byteAddr addr i)) pi.get.1)) s' j) :
    Copied T addr (m + 1) i pi pi' s s' (j + 1) := by
  have hcount : Ring.count pi.get.2.nread pi.get.2.nwrite + 1 = Ring.count pi.nread pi.nwrite :=
    Ring.count_pop hne
  have hnread : ∀ n, pi.get.2.nread + BitVec.ofNat 32 n = pi.nread + BitVec.ofNat 32 (n + 1) := by
    intro n
    rw [Nat.add_comm n 1, BitVec.ofNat_add, ← BitVec.add_assoc]
    rfl
  have hidx : ∀ k, i + 1 + k = i + (k + 1) := fun k => by omega
  have hle := h.le
  refine ⟨by omega, fun k hk => ?_, ?_, ?_⟩
  · cases k with
    | zero => exact ha
    | succ k =>
      rw [← hidx]
      exact h.acc k (by omega)
  · rw [h.mem, Nat.add_comm j 1, ← scatter_add]
    have hone : scatter s.kmem.mem (fun k => paddr T (byteAddr addr (i + k))) pi.byte 1 =
        update s.kmem.mem (paddr T (byteAddr addr i)) pi.get.1 := by
      rw [← byte_zero]
      rfl
    rw [hone]
    refine scatter_congr (fun k _ => ?_) fun k _ => ?_
    · rw [Nat.add_assoc]
    · rw [byte_get, Nat.add_comm]
  · rcases h.stop with ⟨h1, h2⟩ | ⟨h1, h2, h3⟩
    · exact .inl ⟨by omega, by rw [h2, hnread]⟩
    · refine .inr ⟨by omega, ?_, by rw [h3, hnread]⟩
      rwa [← hidx]

theorem copyLoop_run (hT : UserRam T) (m i : Nat) :
    ∃ j pi' s', copyLoop L T addr m i pi s = .next (i + j, pi', s') ∧ Copied T addr m i pi pi' s s' j := by
  induction m generalizing i pi s with
  | zero =>
    refine ⟨0, pi, s, rfl, by omega, fun k hk => absurd hk (Nat.not_lt_zero k), rfl, .inl ⟨by omega, ?_⟩⟩
    exact (BitVec.add_zero _).symm
  | succ m ih =>
    unfold copyLoop
    by_cases he : pi.isEmpty = true
    · rw [if_pos he]
      have hz := isEmpty_iff.mp he
      refine ⟨0, pi, s, rfl, by omega, fun k hk => absurd hk (Nat.not_lt_zero k), rfl, .inl ⟨by omega, ?_⟩⟩
      exact (BitVec.add_zero _).symm
    rw [if_neg he, copyByte_run hT]
    have hz : Ring.count pi.nread pi.nwrite ≠ 0 := fun h => he (isEmpty_iff.mpr h)
    by_cases ha : Accessible T (byteAddr addr i)
    · rw [decide_eq_true ha, if_pos ha]
      obtain ⟨j, pi', s', hrun, hc⟩ := @ih pi.get.2
        (s.setMem (update s.kmem.mem (paddr T (byteAddr addr i)) pi.get.1)) (i + 1)
      refine ⟨j + 1, pi', s', ?_, hc.cons (fun e => hz (Ring.count_eq_zero.mpr e)) ha⟩
      rwa [← Nat.add_assoc, Nat.add_right_comm]
    · rw [decide_eq_false ha, if_neg ha]
      exact ⟨0, _, _, rfl, by omega, fun k hk => absurd hk (Nat.not_lt_zero k), rfl,
        .inr ⟨by omega, ha, rfl⟩⟩

theorem byteAddr_inj (hi : i < 2 ^ 64) (hj : j < 2 ^ 64) (h : byteAddr addr i = byteAddr addr j) : i = j := by
  have e : BitVec.ofNat 64 i = BitVec.ofNat 64 j := (BitVec.add_right_inj addr).mp (BitVec.eq_of_toNat_eq h)
  have e' := congrArg BitVec.toNat e
  rwa [BitVec.toNat_ofNat, BitVec.toNat_ofNat, Nat.mod_eq_of_lt hi, Nat.mod_eq_of_lt hj] at e'

theorem UserSpace.paddr_ne (hT : UserSpace T) (hi : i < 2 ^ 64) (hj : j < 2 ^ 64) (hne : j ≠ i)
    (ai : Accessible T (byteAddr addr i)) (aj : Accessible T (byteAddr addr j)) :
    paddr T (byteAddr addr j) ≠ paddr T (byteAddr addr i) := by
  intro h
  have h1 := Vm.pa_aligned (T.leaf (byteAddr addr j))
  have h2 := Vm.pa_aligned (T.leaf (byteAddr addr i))
  simp only [paddr, Vm.PGSIZE] at h h1 h2
  have hpa : (T.leaf (byteAddr addr j)).pa = (T.leaf (byteAddr addr i)).pa := by omega
  have hpage := hT.distinct _ _ aj ai hpa
  simp only [Vm.PGSIZE] at hpage
  have he : byteAddr addr j = byteAddr addr i := by omega
  exact hne (byteAddr_inj hj hi he)

theorem Copied.stored (hT : UserSpace T) (hm : m < 2 ^ 64)
    (h : Copied T addr m 0 pi pi' s s' j) {k : Nat} (hk : k < j) :
    s'.kmem.mem (paddr T (byteAddr addr k)) = pi.byte k := by
  have hle := h.le
  have hacc : ∀ k, k < j → Accessible T (byteAddr addr k) := by
    intro k hk
    have := h.acc k hk
    rwa [Nat.zero_add] at this
  have hmem := h.mem
  simp only [Nat.zero_add] at hmem
  rw [hmem]
  refine scatter_in hk fun l hkl hl => ?_
  exact hT.paddr_ne (by omega) (by omega) (by omega) (hacc k hk) (hacc l hl)

theorem add_ofNat_succ_ne (r : BitVec 32) (j : Nat) : r + BitVec.ofNat 32 (j + 1) ≠ r + BitVec.ofNat 32 j := by
  intro h
  have e := (BitVec.add_right_inj r).mp h
  have e' := congrArg BitVec.toNat e
  rw [BitVec.toNat_ofNat, BitVec.toNat_ofNat] at e'
  omega

/-- the loop consumes what it reports exactly if it meets no byte that is not accessible -/
theorem Copied.consumed_iff (hT : UserSpace T) (hm : m < 2 ^ 64) (h : Copied T addr m 0 pi pi' s s' j) :
    Consumed T addr pi pi' s' j ↔
      ∀ k, k < min m (Ring.count pi.nread pi.nwrite) → Accessible T (byteAddr addr k) := by
  have hacc : ∀ k, k < j → Accessible T (byteAddr addr k) := by
    intro k hk
    have := h.acc k hk
    rwa [Nat.zero_add] at this
  rcases h.stop with ⟨hj, hn⟩ | ⟨hj, ha, hn⟩
  · constructor
    · intro _ k hk
      exact hacc k (by omega)
    · intro _
      exact ⟨hn, fun k hk => ⟨hacc k hk, h.stored hT hm hk⟩⟩
  · constructor
    · intro hc
      exact absurd (hn.symm.trans hc.1) (add_ofNat_succ_ne _ _)
    · intro hall
      rw [Nat.zero_add] at ha
      exact absurd (hall j hj) ha

/-- **`piperead` and faults.**  Where it need not sleep, `piperead` returns some `i ≥ 0`; then the pipe
has lost exactly `i` bytes and they are stored at `addr` if and only if all bytes that it tries to store
are accessible. -/
theorem piperead_exact (hT : UserSpace T) (killed : Bool) (n : BitVec 32)
    (hw : ¬ (pi.isEmpty = true ∧ pi.writeopen = true)) :
    ∃ (i : Nat) (pi' : Pipe) (s' : Sys), pipereadLocked L T addr killed n pi s = .next ((i : Int), pi', s') ∧
      (Consumed T addr pi pi' s' i ↔ ∀ k, k < pi.tries n → Accessible T (byteAddr addr k)) := by
  obtain ⟨i, pi', s', hrun, hc⟩ : ∃ i pi' s', copyLoop L T addr n.toInt.toNat 0 pi s = .next (0 + i, pi', s') ∧
      Copied T addr n.toInt.toNat 0 pi pi' s s' i := copyLoop_run hT.ram _ 0
  have hm : n.toInt.toNat < 2 ^ 64 := by
    have := BitVec.toInt_lt (x := n)
    omega
  refine ⟨i, pi', s', ?_, hc.consumed_iff hT hm⟩
  unfold pipereadLocked
  rw [if_neg (by rwa [Bool.and_eq_true]), hrun, Nat.zero_add]
  rfl

end

/-! ## the first process -/

theorem userSpace_of_wellFormed {L : Layout} {s : Sys} {T : Table 2} {p : Vm.Slot} (hs : Vm.WellFormed L s)
    (hT : s.userTable p = some T) : UserSpace T := by
  obtain ⟨tf, hl⟩ := Vm.userTable_live hs.inv hT
  refine ⟨hs.userRam hT, fun va vb ha hb hpa => ?_⟩
  exact hs.inj p T hT va vb (hl.space.lt_trapframe_of_user ha.1 ha.2.2)
    (hl.space.lt_trapframe_of_user hb.1 hb.2.2) ha.2.1 hb.2.1 hpa

/-- a pipe with two bytes in it -/
def twoBytes : Pipe := ⟨fun i => BitVec.ofNat 8 (7 + i), 0, 2, true, true, [7, 8], []⟩

theorem piperead_exact_boot : ∃ s T, Vm.Booted s ∧ s.userTable Vm.initproc = some T ∧
    ∃ (i : Nat) (pi' : Pipe) (s' : Sys),
      pipereadLocked Vm.smallLayout T 4094 false 2 twoBytes s = .next ((i : Int), pi', s') ∧
      Consumed T 4094 twoBytes pi' s' i := by
  obtain ⟨s, T, hb, hs, hT, h0, -⟩ := Vm.exists_booted
  obtain ⟨i, pi', s', hrun, hiff⟩ := @piperead_exact Vm.smallLayout T 4094 twoBytes s
    (userSpace_of_wellFormed hs hT) false 2 (by decide)
  refine ⟨s, T, hb, hT, i, pi', s', hrun, hiff.mpr fun k hk => (h0.page ?_).1⟩
  have htries : twoBytes.tries 2 = 2 := by decide
  rw [htries] at hk
  have : ∀ k, k < 2 → byteAddr 4094 k / Vm.PGSIZE = 0 / Vm.PGSIZE := by decide
  exact this k hk

/-- the first byte is stored at the end of the page of the process, the second one cannot be stored; one
byte is reported and two have left the pipe -/
theorem piperead_loses_byte : ∃ s T, Vm.Booted s ∧ s.userTable Vm.initproc = some T ∧
    ∃ (pi' : Pipe) (s' : Sys),
      pipereadLocked Vm.smallLayout T 4095 false 2 twoBytes s = .next (1, pi', s') ∧
      pi'.nread = twoBytes.nread + 2 := by
  obtain ⟨s, T, hb, hs, hT, h0, h1⟩ := Vm.exists_booted
  have hram := hs.userRam hT
  have ha : Accessible T (byteAddr 4095 0) := (h0.page (by decide)).1
  have hna : ¬ Accessible T (byteAddr 4095 1) := h1
  refine ⟨s, T, hb, hT, twoBytes.get.2.get.2, ?_⟩
  unfold pipereadLocked
  rw [if_neg (by decide), show (2 : BitVec 32).toInt.toNat = 2 from rfl, copyLoop, if_neg (by decide),
    copyByte_run hram, decide_eq_true ha]
  dsimp only
  rw [copyLoop, if_neg (by decide), copyByte_run hram, decide_eq_false hna]
  exact ⟨_, rfl, rfl⟩

end Sync
