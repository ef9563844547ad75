import Xv6.Vm.Copyout

/-!
# Copies between the kernel and user memory (`kernel/vm.c`)

`copyoutW`, `copyinW` and `copyinstrW` are the functions of `vm.c` on 64-bit words, with the kernel
buffer in memory and with the byte loop of `copyinstr`; `fuel` bounds the turns of the outer loop,
and to run out of it is `undef`.

* `copyout_run`              what `copyout` of `Vm.Address` does;
* `copyW_run`                `copyoutW` and `copyinW` move the bytes of the accessible pages one by one;
* `copyinstrW_run_eq`        `copyinstrW` does what `copyinstr` does;
* `user_copies`              the three functions follow the page table.
-/

namespace Vm
open Run Bytes Prog Own Table

/-! ## words -/

/-- `PGROUNDDOWN` of a word -/
def pageOf (a : BitVec 64) : BitVec 64 := a &&& ~~~(4096 - 1)

/-- `n` of the three loops: what is left of the page, or of the range -/
def chunk (va len : BitVec 64) : BitVec 64 :=
  let n := 4096 - (va - pageOf va)
  if n > len then len else n

/-- `memmove` to user memory at `user`, or from there, with the kernel buffer at `kern` -/
def move (out : Bool) (user kern n : Nat) : Kernel Unit :=
  if out then Act.memmove user kern n else Act.memmove kern user n

/-- the loop that `copyout` and `copyin` share -/
def copyW (out : Bool) (T : Table 2) : (fuel : Nat) → (va : BitVec 64) → (kern : Nat) →
    (len : BitVec 64) → Kernel Bool
  | 0, _, _, _ => .panic undef
  | fuel + 1, va, kern, len =>
    if len = 0 then pure true
    else if walkaddr T (pageOf va).toNat = 0 then pure false
    else do
      move out (walkaddr T (pageOf va).toNat + (va - pageOf va).toNat) kern (chunk va len).toNat
      copyW out T fuel (pageOf va + 4096) (kern + (chunk va len).toNat) (len - chunk va len)

def copyoutW (T : Table 2) (fuel : Nat) (dstva : BitVec 64) (src : Nat) (len : BitVec 64) : Kernel Bool :=
  copyW true T fuel dstva src len

def copyinW (T : Table 2) (fuel dst : Nat) (srcva len : BitVec 64) : Kernel Bool :=
  copyW false T fuel srcva dst len

/-- the inner loop of `copyinstr`: whether it got the NUL, and what it leaves of `dst` and `max` -/
def strLoop : (n p dst : Nat) → (max : BitVec 64) → Kernel (Bool × Nat × BitVec 64)
  | 0, _, dst, max => pure (false, dst, max)
  | n + 1, p, dst, max => do
    let b ← Act.read p 1
    if b 0 = 0 then do
      Act.write dst 1 fun _ => 0
      pure (true, dst, max)
    else do
      Act.write dst 1 b
      strLoop n (p + 1) (dst + 1) (max - 1)

def copyinstrW (T : Table 2) : (fuel dst : Nat) → (srcva max : BitVec 64) → Kernel Bool
  | 0, _, _, _ => .panic undef
  | fuel + 1, dst, srcva, max =>
    if max = 0 then pure false
    else if walkaddr T (pageOf srcva).toNat = 0 then pure false
    else do
      let r ← strLoop (chunk srcva max).toNat
        (walkaddr T (pageOf srcva).toNat + (srcva - pageOf srcva).toNat) dst max
      if r.1 then pure true else copyinstrW T fuel r.2.1 (pageOf srcva + 4096) r.2.2

theorem pageOf_toNat (a : BitVec 64) : (pageOf a).toNat = PGROUNDDOWN a.toNat := by
  have e : pageOf a = a >>> 12 <<< 12 := by
    apply BitVec.eq_of_getLsbD_eq
    intro i hi
    have hm : (~~~(4096 - 1) : BitVec 64).getLsbD i = decide (12 ≤ i) := by
      have : ∀ j : Fin 64, (~~~(4096 - 1) : BitVec 64).getLsbD j = decide (12 ≤ j.val) := by decide
      exact this ⟨i, hi⟩
    rw [pageOf, BitVec.getLsbD_and, hm]
    simp only [BitVec.getLsbD_shiftLeft, BitVec.getLsbD_ushiftRight]
    by_cases h : 12 ≤ i
    · simp [h, hi, Nat.not_lt.mpr h, Nat.add_sub_cancel' h]
    · simp [h, Nat.lt_of_not_le h]
  rw [e, BitVec.toNat_shiftLeft, BitVec.toNat_ushiftRight, Nat.shiftRight_eq_div_pow, Nat.shiftLeft_eq,
    Nat.mod_eq_of_lt]
  · rfl
  · omega

theorem offset_toNat (a : BitVec 64) : (a - pageOf a).toNat = a.toNat - PGROUNDDOWN a.toNat := by
  have hle : PGROUNDDOWN a.toNat ≤ a.toNat := Nat.div_mul_le_self _ _
  rw [BitVec.toNat_sub_of_le, pageOf_toNat]
  rw [BitVec.le_def, pageOf_toNat]
  exact hle

theorem chunk_toNat (va len : BitVec 64) : (chunk va len).toNat = turn va.toNat len.toNat := by
  have hoff := sub_rounddown va.toNat
  have hn : (4096 - (va - pageOf va) : BitVec 64).toNat = PGSIZE - (va.toNat - PGROUNDDOWN va.toNat) := by
    rw [BitVec.toNat_sub_of_le, offset_toNat]
    · rfl
    · rw [BitVec.le_def, offset_toNat]
      exact Nat.le_of_lt hoff
  unfold chunk turn
  dsimp only
  split
  · rename_i h
    rw [gt_iff_lt, BitVec.lt_def, hn] at h
    exact (Nat.min_eq_right (Nat.le_of_lt h)).symm
  · rename_i h
    rw [gt_iff_lt, BitVec.lt_def, hn] at h
    rw [hn]
    exact (Nat.min_eq_left (Nat.le_of_not_lt h)).symm

theorem chunk_le (va len : BitVec 64) : chunk va len ≤ len := by
  rw [BitVec.le_def, chunk_toNat]
  exact Nat.min_le_right _ _

theorem rest_toNat (va len : BitVec 64) : (len - chunk va len).toNat = len.toNat - turn va.toNat len.toNat := by
  rw [BitVec.toNat_sub_of_le (chunk_le va len), chunk_toNat]

theorem nextPage_toNat {va : BitVec 64} (h : va.toNat < MAXVA) :
    (pageOf va + 4096).toNat = PGROUNDDOWN va.toNat + PGSIZE := by
  have hle : PGROUNDDOWN va.toNat ≤ va.toNat := Nat.div_mul_le_self _ _
  have hmax : MAXVA = 2 ^ 38 := rfl
  rw [BitVec.toNat_add, pageOf_toNat]
  show (PGROUNDDOWN va.toNat + 4096) % 2 ^ 64 = PGROUNDDOWN va.toNat + 4096
  apply Nat.mod_eq_of_lt
  omega

/-! ## user memory -/

/-- the page of `va` is valid and for the user -/
def Accessible (T : Table 2) (va : Nat) : Prop :=
  va < MAXVA ∧ (T.leaf va).has PTE_V = true ∧ (T.leaf va).has PTE_U = true

instance (T : Table 2) (va : Nat) : Decidable (Accessible T va) := inferInstanceAs (Decidable (_ ∧ _ ∧ _))

/-- where the byte at `va` is -/
def paddr (T : Table 2) (va : Nat) : Nat := (T.leaf va).pa + va % PGSIZE

/-- the user pages are pages of memory; so none of them is at the physical address 0 -/
def UserRam (T : Table 2) : Prop := ∀ va, Accessible T va → ram (T.leaf va).pa PGSIZE

/-- a kernel buffer: `n` bytes of memory at `a` that are not in a user page -/
structure Apart (T : Table 2) (a n : Nat) : Prop where
  ram : ram a n
  apart : ∀ va, Accessible T va → ∀ i, i < n → paddr T va ≠ a + i

/-- `k` bytes of the `len` at `va` come before the first one that is not accessible -/
structure Upto (T : Table 2) (va len k : Nat) : Prop where
  le : k ≤ len
  acc : ∀ i, i < k → Accessible T (va + i)
  stop : k < len → ¬ Accessible T (va + k)

section
variable {L : Layout} {s t : Sys} {T : Table 2} {va len k a n fuel : Nat}

theorem Upto.all_iff (h : Upto T va len k) : k = len ↔ ∀ i, i < len → Accessible T (va + i) := by
  constructor
  · rintro rfl
    exact h.acc
  · intro hall
    have hle := h.le
    by_contra hne
    exact h.stop (by omega) (hall k (by omega))

theorem Accessible.page {vb : Nat} (h : Accessible T va) (e : vb / PGSIZE = va / PGSIZE) :
    Accessible T vb ∧ (T.leaf vb).pa = (T.leaf va).pa := by
  have hmax : MAXVA % PGSIZE = 0 := by decide
  have hlt : vb < MAXVA := by
    have := h.1
    simp only [PGSIZE] at *
    omega
  have hleaf : T.leaf vb = T.leaf va := leaf_page (lt_of_maxva hlt) (lt_of_maxva h.1) e
  rw [Accessible, hleaf]
  exact ⟨⟨hlt, h.2⟩, rfl⟩

theorem rounddown_page (va : Nat) : PGROUNDDOWN va / PGSIZE = va / PGSIZE := Nat.mul_div_cancel _ (by decide)

theorem walkaddr_of_accessible (h : Accessible T va) : walkaddr T va = (T.leaf va).pa := by
  rw [walkaddr_eq]
  exact if_pos h

theorem walkaddr_iff (hT : UserRam T) : walkaddr T (PGROUNDDOWN va) ≠ 0 ↔ Accessible T va := by
  constructor
  · intro h
    obtain ⟨h1, h2, h3, -⟩ := walkaddr_ne_zero h
    exact (Accessible.page ⟨h1, h2, h3⟩ (rounddown_page va).symm).1
  intro h
  obtain ⟨hacc, hpa⟩ := h.page (rounddown_page va)
  rw [walkaddr_of_accessible hacc, hpa]
  have := (hT va h).1
  have hk : 0 < KERNBASE := by decide
  omega

theorem walkaddr_pa (h : Accessible T va) : walkaddr T (PGROUNDDOWN va) = (T.leaf va).pa := by
  obtain ⟨hacc, hpa⟩ := h.page (rounddown_page va)
  rw [walkaddr_of_accessible hacc, hpa]

theorem mod_eq_sub_rounddown (a : Nat) : a % PGSIZE = a - PGROUNDDOWN a := by
  simp only [PGROUNDDOWN, PGSIZE]
  omega

theorem turn_le (va len : Nat) : turn va len ≤ len := Nat.min_le_right _ _

theorem turn_pos (va : Nat) (h : 0 < len) : 0 < turn va len := by
  have := sub_rounddown va
  unfold turn
  omega

theorem turn_fits (va len : Nat) : va % PGSIZE + turn va len ≤ PGSIZE := by
  have := sub_rounddown va
  rw [mod_eq_sub_rounddown]
  unfold turn
  omega

theorem turn_next (va len : Nat) (h : turn va len < len) : va + turn va len = PGROUNDDOWN va + PGSIZE := by
  have hle : PGROUNDDOWN va ≤ va := Nat.div_mul_le_self _ _
  have hoff := sub_rounddown va
  unfold turn at h ⊢
  omega

variable {dst i max : Nat} {b m : Buf} {ok out : Bool} {q : Slot}

theorem turn_byte (h : Accessible T va) (hi : i < turn va len) :
    Accessible T (va + i) ∧ paddr T (va + i) = (T.leaf va).pa + va % PGSIZE + i := by
  have hfit := turn_fits va len
  have hdiv : (va + i) / PGSIZE = va / PGSIZE := by
    simp only [PGSIZE] at *
    omega
  obtain ⟨hacc, hpa⟩ := h.page hdiv
  refine ⟨hacc, ?_⟩
  rw [paddr, hpa]
  simp only [PGSIZE] at *
  omega

theorem turn_ram (len : Nat) (hT : UserRam T) (h : Accessible T va) : ram ((T.leaf va).pa + va % PGSIZE) (turn va len) := by
  obtain ⟨h1, h2⟩ := hT va h
  have hfit := turn_fits va len
  exact ⟨by omega, by omega⟩

theorem Upto.zero_len : Upto T va 0 0 := ⟨le_rfl, fun i hi => absurd hi (Nat.not_lt_zero i),
  fun h => absurd h (Nat.lt_irrefl 0)⟩

theorem Upto.none (h : ¬ Accessible T va) : Upto T va len 0 :=
  ⟨Nat.zero_le _, fun i hi => absurd hi (Nat.not_lt_zero i), fun _ => h⟩

theorem Upto.turn (h : Accessible T va)
    (hk : Upto T (PGROUNDDOWN va + PGSIZE) (len - turn va len) k) : Upto T va len (turn va len + k) := by
  have hle := hk.le
  have hl := turn_le va len
  refine ⟨by omega, fun i hi => ?_, fun hlt => ?_⟩
  · by_cases hi' : i < Vm.turn va len
    · exact (turn_byte h hi').1
    · have hnext := turn_next va len (by omega)
      have := hk.acc (i - Vm.turn va len) (by omega)
      rwa [← hnext, Nat.add_assoc, Nat.add_sub_cancel' (Nat.le_of_not_lt hi')] at this
  · have hnext := turn_next va len (by omega)
    have := hk.stop (by omega)
    rwa [← hnext, Nat.add_assoc] at this

/-! ## accesses to memory -/

section
variable {α : Type}

theorem run_read (h : ram a n) (p : Buf → Kernel α) :
    ((Act.read a n).bind p).run (sem L) s = (p fun i => s.kmem.mem (a + i)).run (sem L) s :=
  run_act_next (if_pos h)

theorem run_write {b : Buf} (h : ram a n) (p : Unit → Kernel α) :
    ((Act.write a n b).bind p).run (sem L) s = (p ()).run (sem L) (s.setMem (splice s.kmem.mem a n b)) :=
  run_act_next (write_ram h)

theorem run_memmove {dst src : Nat} (h1 : ram dst n) (h2 : ram src n) (p : Unit → Kernel α) :
    ((Act.memmove dst src n).bind p).run (sem L) s
      = (p ()).run (sem L) (s.setMem (splice s.kmem.mem dst n fun i => s.kmem.mem (src + i))) :=
  run_act_next ((if_pos h2).trans (if_pos h1))

end

/-! ## `copyout` and `copyin` -/

theorem decide_add {n k len : Nat} (h : n ≤ len) : decide (k = len - n) = decide (n + k = len) := by
  rw [decide_eq_decide]
  omega

theorem scatter_turn (h : Accessible T va) (hk : Upto T (PGROUNDDOWN va + PGSIZE) (len - turn va len) k) :
    scatter (splice m ((T.leaf va).pa + va % PGSIZE) (turn va len) b)
        (fun i => paddr T (PGROUNDDOWN va + PGSIZE + i)) (fun i => b (turn va len + i)) k
      = scatter m (fun i => paddr T (va + i)) b (turn va len + k) := by
  have hle := hk.le
  rw [splice_eq_scatter, ← scatter_add, scatter_congr (fun i hi => (turn_byte h hi).2.symm) fun _ _ => rfl]
  refine scatter_congr (fun i hi => ?_) fun _ _ => rfl
  rw [← turn_next va len (by omega), Nat.add_assoc]

theorem copyoutLoop_run (src : Buf) (hT : UserRam T) (hfuel : len ≤ fuel) :
    ∃ k, Upto T va len k ∧ (copyoutLoop T fuel va src len).run (sem L) s
      = .next (decide (k = len), s.setMem (scatter s.kmem.mem (fun i => paddr T (va + i)) src k)) := by
  induction fuel generalizing va src len s with
  | zero =>
    obtain rfl : len = 0 := by omega
    exact ⟨0, Upto.zero_len, rfl⟩
  | succ fuel ih =>
    unfold copyoutLoop
    by_cases hlen : len > 0
    · rw [if_pos hlen]
      by_cases hacc : Accessible T va
      · rw [if_neg ((walkaddr_iff hT).mpr hacc), walkaddr_pa hacc, ← mod_eq_sub_rounddown]
        have hpos := turn_pos va hlen
        have hstep := write_ram (L := L) (s := s) (b := src) (turn_ram len hT hacc)
        obtain ⟨k, hk, hrun⟩ : ∃ k, Upto T (PGROUNDDOWN va + PGSIZE) (len - turn va len) k ∧ _ :=
          ih (s := s.setMem (splice s.kmem.mem ((T.leaf va).pa + va % PGSIZE) (turn va len) src))
            (fun i => src (turn va len + i)) (by omega)
        refine ⟨_, hk.turn hacc, ?_⟩
        rw [← scatter_turn hacc hk, ← decide_add (turn_le va len)]
        rw [mod_eq_sub_rounddown] at hstep hrun ⊢
        exact (run_act_next hstep).trans hrun
      · rw [if_pos (not_not.mp fun h => hacc ((walkaddr_iff hT).mp h))]
        refine ⟨0, Upto.none hacc, ?_⟩
        rw [decide_eq_false (by omega)]
        rfl
    · obtain rfl : len = 0 := by omega
      exact ⟨0, Upto.zero_len, rfl⟩

theorem copyout_run (src : Buf) (hT : UserRam T) :
    ∃ k, Upto T va len k ∧ (copyout T va src len).run (sem L) s
      = .next (decide (k = len), s.setMem (scatter s.kmem.mem (fun i => paddr T (va + i)) src k)) :=
  copyoutLoop_run src hT le_rfl

/-! ## on words -/

/-- where the byte `i` of a copy goes to -/
def target (out : Bool) (T : Table 2) (va kern i : Nat) : Nat := if out then paddr T (va + i) else kern + i

/-- memory after a copy of `k` bytes -/
def moved (out : Bool) (T : Table 2) (m : Buf) (va kern k : Nat) : Buf :=
  scatter m (target out T va kern) (fun i => m (target (!out) T va kern i)) k

theorem move_run {kern : Nat} (hT : UserRam T) (h : Accessible T va)
    (hk : ram kern (turn va len)) {α : Type} (p : Unit → Kernel α) :
    ((move out ((T.leaf va).pa + va % PGSIZE) kern (turn va len)).bind p).run (sem L) s
      = (p ()).run (sem L) (s.setMem (moved out T s.kmem.mem va kern (turn va len))) := by
  have hu := turn_ram len hT h
  cases out with
  | true =>
    refine (run_memmove hu hk p).trans ?_
    rw [splice_eq_scatter]
    refine congrArg (fun m => (p ()).run (sem L) (s.setMem m)) (scatter_congr (fun i hi => ?_) fun _ _ => rfl)
    exact (turn_byte h hi).2.symm
  | false =>
    refine (run_memmove hk hu p).trans ?_
    rw [splice_eq_scatter]
    refine congrArg (fun m => (p ()).run (sem L) (s.setMem m)) (scatter_congr (fun _ _ => rfl) fun i hi => ?_)
    exact congrArg s.kmem.mem (turn_byte h hi).2.symm

theorem Apart.next {kern : Nat} (h : Apart T kern len) (hn : n ≤ len) : Apart T (kern + n) (len - n) := by
  obtain ⟨⟨h1, h2⟩, h3⟩ := h
  refine ⟨⟨by omega, by omega⟩, fun va hacc i hi => ?_⟩
  rw [Nat.add_assoc]
  exact h3 va hacc (n + i) (by omega)

theorem target_ne {kern j : Nat} (h : Apart T kern len) (hi : i < len) (hj : j < len)
    (hai : Accessible T (va + i)) (haj : Accessible T (va + j)) :
    target out T va kern i ≠ target (!out) T va kern j := by
  cases out with
  | true => exact h.apart _ hai j hj
  | false => exact (h.apart _ haj i hi).symm

theorem moved_turn {kern : Nat} (hbuf : Apart T kern len) (h : Accessible T va)
    (hk : Upto T (PGROUNDDOWN va + PGSIZE) (len - turn va len) k) :
    moved out T (moved out T m va kern (turn va len)) (PGROUNDDOWN va + PGSIZE) (kern + turn va len) k
      = moved out T m va kern (turn va len + k) := by
  have hle := hk.le
  have hall := hk.turn h
  have hshift : ∀ b i, i < k → target b T (PGROUNDDOWN va + PGSIZE) (kern + turn va len) i
      = target b T va kern (turn va len + i) := by
    intro b i hi
    unfold target
    rw [← turn_next va len (by omega), Nat.add_assoc, Nat.add_assoc]
  unfold moved
  rw [← scatter_add]
  refine scatter_congr (fun i hi => hshift out i hi) fun i hi => ?_
  rw [hshift (!out) i hi]
  refine scatter_out fun j hj => ?_
  exact target_ne hbuf (by omega) (by omega) (hall.acc j (by omega)) (hall.acc _ (by omega))

theorem copyW_run (out : Bool) (va len : BitVec 64) (kern : Nat) (hT : UserRam T)
    (hbuf : Apart T kern len.toNat) (hfuel : len.toNat < fuel) :
    ∃ k, Upto T va.toNat len.toNat k ∧ (copyW out T fuel va kern len).run (sem L) s
      = .next (decide (k = len.toNat), s.setMem (moved out T s.kmem.mem va.toNat kern k)) := by
  induction fuel generalizing va kern len s with
  | zero => exact absurd hfuel (Nat.not_lt_zero _)
  | succ fuel ih =>
    unfold copyW
    by_cases hlen : len = 0
    · rw [if_pos hlen, hlen]
      exact ⟨0, Upto.zero_len, rfl⟩
    have hpos : 0 < len.toNat := Nat.pos_of_ne_zero fun e => hlen (BitVec.eq_of_toNat_eq e)
    rw [if_neg hlen, pageOf_toNat, offset_toNat, chunk_toNat]
    by_cases hacc : Accessible T va.toNat
    · rw [if_neg ((walkaddr_iff hT).mpr hacc), walkaddr_pa hacc, ← mod_eq_sub_rounddown]
      have ht := turn_pos va.toNat hpos
      have hl := turn_le va.toNat len.toNat
      have hram : ram kern (turn va.toNat len.toNat) := by
        obtain ⟨h1, h2⟩ := hbuf.ram
        exact ⟨h1, by omega⟩
      have hva := nextPage_toNat hacc.1
      have hrest := rest_toNat va len
      obtain ⟨k, hk, hrun⟩ := ih (s := s.setMem (moved out T s.kmem.mem va.toNat kern (turn va.toNat len.toNat)))
        (pageOf va + 4096) (len - chunk va len) (kern + turn va.toNat len.toNat)
        (by rw [hrest]; exact hbuf.next hl) (by rw [hrest]; omega)
      rw [hva, hrest] at hk
      refine ⟨_, hk.turn hacc, (move_run hT hacc hram _).trans (hrun.trans ?_)⟩
      rw [hva, hrest, decide_add hl]
      exact congrArg (fun m => Outcome.next (_, s.setMem m)) (moved_turn hbuf hacc hk)
    · rw [if_pos (not_not.mp fun h => hacc ((walkaddr_iff hT).mp h))]
      refine ⟨0, Upto.none hacc, ?_⟩
      rw [decide_eq_false (by omega)]
      rfl

/-! ## `copyinstr` -/

/-- the first NUL of the `n` bytes `b` is at `k`, if `ok`; else there is none and `k = n` -/
structure Scanned (b : Buf) (n k : Nat) (ok : Bool) : Prop where
  le : k ≤ n
  nonzero : ∀ i, i < k → b i ≠ 0
  nul : ok = true → k < n ∧ b k = 0
  full : ok = false → k = n

theorem Scanned.findNul (h : Scanned b n k ok) : findNul b n = if ok then some k else none := by
  unfold Vm.findNul
  cases ok with
  | true =>
    obtain ⟨hk, hz⟩ := h.nul rfl
    rw [if_pos rfl, List.find?_range_eq_some]
    refine ⟨by rw [hz]; rfl, List.mem_range.mpr hk, fun j hj => ?_⟩
    simpa using h.nonzero j hj
  | false =>
    rw [if_neg Bool.false_ne_true, List.find?_eq_none]
    intro i hi
    rw [List.mem_range, ← h.full rfl] at hi
    simpa using h.nonzero i hi

/-- `k + 1` bytes with the NUL, or all -/
def kept (k : Nat) (ok : Bool) : Nat := if ok then k + 1 else k

theorem kept_add (n k : Nat) (ok : Bool) : kept (n + k) ok = n + kept k ok := by
  unfold kept
  split
  · omega
  · rfl

theorem Scanned.congr {b' : Buf} (h : Scanned b n k ok) (hb : ∀ i, i < n → b i = b' i) :
    Scanned b' n k ok := by
  have hle := h.le
  refine ⟨hle, fun i hi => ?_, fun hok => ?_, h.full⟩
  · rw [← hb i (by omega)]
    exact h.nonzero i hi
  · obtain ⟨h1, h2⟩ := h.nul hok
    exact ⟨h1, by rw [← hb k h1, h2]⟩

theorem Scanned.zero : Scanned b 0 0 false :=
  ⟨le_rfl, fun i hi => absurd hi (Nat.not_lt_zero i), fun h => absurd h Bool.false_ne_true, fun _ => rfl⟩

theorem Scanned.here (h : b 0 = 0) : Scanned b (n + 1) 0 true :=
  ⟨Nat.zero_le _, fun i hi => absurd hi (Nat.not_lt_zero i), fun _ => ⟨Nat.succ_pos n, h⟩,
    fun h => absurd h.symm Bool.false_ne_true⟩

theorem Scanned.succ (h0 : b 0 ≠ 0) (h : Scanned (fun i => b (1 + i)) n k ok) :
    Scanned b (n + 1) (1 + k) ok := by
  have hle := h.le
  refine ⟨by omega, fun i hi => ?_, fun hok => ?_, fun hok => ?_⟩
  · cases i with
    | zero => exact h0
    | succ i =>
      rw [Nat.add_comm]
      exact h.nonzero i (by omega)
  · obtain ⟨h1, h2⟩ := h.nul hok
    exact ⟨by omega, h2⟩
  · rw [h.full hok, Nat.add_comm]

theorem strLoop_run (n p dst : Nat) (max : BitVec 64) (hp : ram p n) (hd : ram dst n)
    (hne : ∀ i j, i < n → j < n → p + i ≠ dst + j) :
    ∃ k ok, Scanned (fun i => s.kmem.mem (p + i)) n k ok ∧ (strLoop n p dst max).run (sem L) s
      = .next ((ok, dst + k, max - BitVec.ofNat 64 k),
          s.setMem (splice s.kmem.mem dst (kept k ok) fun i => s.kmem.mem (p + i))) := by
  induction n generalizing p dst max s with
  | zero =>
    refine ⟨0, false, Scanned.zero, ?_⟩
    rw [splice_eq_scatter, BitVec.sub_zero]
    rfl
  | succ n ih =>
    obtain ⟨hp1, hp2⟩ := hp
    obtain ⟨hd1, hd2⟩ := hd
    have hwrite : ram dst 1 := ⟨hd1, by omega⟩
    rw [strLoop, bind_eq, run_read ⟨hp1, by omega⟩]
    by_cases hz : s.kmem.mem (p + 0) = 0
    · refine ⟨0, true, Scanned.here hz, ?_⟩
      rw [if_pos hz, bind_eq, run_write hwrite, BitVec.sub_zero]
      refine congrArg (fun m => Outcome.next (_, s.setMem m)) (splice_congr fun i hi => ?_)
      obtain rfl : i = 0 := by omega
      exact hz.symm
    -- the byte that is stored is not one of those that are still to be read
    have hsame : ∀ i, i < n → splice s.kmem.mem dst 1 (fun i => s.kmem.mem (p + i)) (p + 1 + i)
        = s.kmem.mem (p + (1 + i)) := by
      intro i hi
      have h1 := hne (1 + i) 0 (by omega) (by omega)
      rw [splice_out (by omega), Nat.add_assoc]
    obtain ⟨k, ok, hscan, hrun⟩ := ih (s := s.setMem (splice s.kmem.mem dst 1 fun i => s.kmem.mem (p + i)))
      (p + 1) (dst + 1) (max - 1) ⟨by omega, by omega⟩ ⟨by omega, by omega⟩ fun i j hi hj => by
        have := hne (1 + i) (1 + j) (by omega) (by omega)
        omega
    have hle : kept k ok ≤ n := by
      unfold kept
      split
      · exact (hscan.nul ‹_›).1
      · exact hscan.le
    refine ⟨1 + k, ok, Scanned.succ hz (hscan.congr hsame), ?_⟩
    have hmax : max - 1 - BitVec.ofNat 64 k = max - BitVec.ofNat 64 (1 + k) := by
      rw [BitVec.ofNat_add, BitVec.sub_sub]
      rfl
    rw [if_neg hz, bind_eq, run_write hwrite, hrun, kept_add, ← splice_add, Nat.add_assoc, hmax]
    refine congrArg (fun m => Outcome.next (_, s.setMem m)) (splice_congr fun i hi => ?_)
    exact hsame i (by omega)

/-- the string at `va`: `k` accessible bytes before its NUL, if `ok`; else there is no NUL among the
accessible bytes -/
structure StringAt (T : Table 2) (m : Buf) (va max k : Nat) (ok : Bool) : Prop where
  le : k ≤ max
  acc : ∀ i, i < k → Accessible T (va + i) ∧ m (paddr T (va + i)) ≠ 0
  nul : ok = true → k < max ∧ Accessible T (va + k) ∧ m (paddr T (va + k)) = 0
  stop : ok = false → k < max → ¬ Accessible T (va + k)

theorem copyinstrLoop_succ (hT : UserRam T) (hbuf : Apart T dst max) (hmax : 0 < max) (hacc : Accessible T va)
    (hscan : Scanned (fun i => s.kmem.mem ((T.leaf va).pa + va % PGSIZE + i)) (turn va max) k ok) :
    (copyinstrLoop T (fuel + 1) dst va max).run (sem L) s
      = if ok then .next (true, s.setMem (splice s.kmem.mem dst (k + 1)
          fun i => s.kmem.mem ((T.leaf va).pa + va % PGSIZE + i)))
        else (copyinstrLoop T fuel (dst + turn va max) (PGROUNDDOWN va + PGSIZE) (max - turn va max)).run
          (sem L) (s.setMem (splice s.kmem.mem dst (turn va max)
            fun i => s.kmem.mem ((T.leaf va).pa + va % PGSIZE + i))) := by
  have hl := turn_le va max
  obtain ⟨hr1, hr2⟩ := hbuf.ram
  have hread := turn_ram max hT hacc
  have hfind := hscan.findNul
  rw [copyinstrLoop, if_pos hmax, if_neg ((walkaddr_iff hT).mpr hacc), walkaddr_pa hacc, ← mod_eq_sub_rounddown]
  unfold turn at hread hfind hl ⊢
  rw [mod_eq_sub_rounddown] at hread hfind ⊢
  rw [bind_eq, run_read hread, hfind]
  cases ok with
  | true =>
    have hk := (hscan.nul rfl).1
    unfold turn at hk
    simp only [if_true]
    rw [bind_eq, run_write ⟨hr1, by omega⟩]
    rfl
  | false =>
    simp only [Bool.false_eq_true, if_false]
    rw [bind_eq, run_write ⟨hr1, by omega⟩]

theorem copyinstrLoop_stop (hT : UserRam T) (h : max = 0 ∨ ¬ Accessible T va) :
    copyinstrLoop T fuel dst va max = .ret false := by
  cases fuel with
  | zero => rfl
  | succ fuel =>
    rw [copyinstrLoop]
    split
    · rename_i hmax
      rw [if_pos (not_not.mp fun hw => h.elim (by omega) (absurd ((walkaddr_iff hT).mp hw)))]
      rfl
    · rfl

/-- after a turn without NUL the next one reads what was there before -/
theorem splice_apart (hbuf : Apart T dst max) (hn : n ≤ max)
    (h : Accessible T va) : splice m dst n b (paddr T va) = m (paddr T va) := by
  apply splice_out
  by_contra hc
  exact hbuf.apart va h (paddr T va - dst) (by omega) (by omega)

theorem StringAt.kept (h : StringAt T m va max k ok)
    (hi : i < kept k ok) : i < max ∧ Accessible T (va + i) := by
  have hle := h.le
  unfold Vm.kept at hi
  split at hi
  · rename_i hok
    obtain ⟨hlt, hacc, -⟩ := h.nul hok
    rcases Nat.lt_succ_iff_lt_or_eq.mp hi with hi | rfl
    · exact ⟨by omega, (h.acc i hi).1⟩
    · exact ⟨hlt, hacc⟩
  · exact ⟨by omega, (h.acc i hi).1⟩

theorem StringAt.stop_here (h : max = 0 ∨ ¬ Accessible T va) : StringAt T m va max 0 false :=
  ⟨Nat.zero_le _, fun i hi => absurd hi (Nat.not_lt_zero i), fun h => absurd h Bool.false_ne_true,
    fun _ hlt => h.resolve_left (by omega)⟩

theorem StringAt.first (h : Accessible T va)
    (hscan : Scanned (fun i => m ((T.leaf va).pa + va % PGSIZE + i)) (turn va max) k true) :
    StringAt T m va max k true := by
  obtain ⟨hk, hz⟩ := hscan.nul rfl
  have hl := turn_le va max
  refine ⟨by omega, fun i hi => ?_, fun _ => ?_, fun h => absurd h.symm Bool.false_ne_true⟩
  · have hi' : i < turn va max := by omega
    obtain ⟨hacc, hpa⟩ := turn_byte h hi'
    exact ⟨hacc, by rw [hpa]; exact hscan.nonzero i hi⟩
  · obtain ⟨hacc, hpa⟩ := turn_byte h hk
    exact ⟨by omega, hacc, by rw [hpa]; exact hz⟩

theorem StringAt.later {m' : Buf} (h : Accessible T va)
    (hscan : Scanned (fun i => m ((T.leaf va).pa + va % PGSIZE + i)) (turn va max) (turn va max) false)
    (hm : ∀ vb, Accessible T vb → m' (paddr T vb) = m (paddr T vb))
    (hs : StringAt T m' (PGROUNDDOWN va + PGSIZE) (max - turn va max) k ok) :
    StringAt T m va max (turn va max + k) ok := by
  have hl := turn_le va max
  have hle := hs.le
  have hva : ∀ i, turn va max < max → PGROUNDDOWN va + PGSIZE + i = va + (turn va max + i) := by
    intro i hlt
    rw [← turn_next va max hlt, Nat.add_assoc]
  refine ⟨by omega, fun i hi => ?_, fun hok => ?_, fun hok hlt => ?_⟩
  · by_cases hi' : i < turn va max
    · obtain ⟨hacc, hpa⟩ := turn_byte h hi'
      exact ⟨hacc, by rw [hpa]; exact hscan.nonzero i hi'⟩
    · obtain ⟨hacc, hne⟩ := hs.acc (i - turn va max) (by omega)
      rw [hm _ hacc] at hne
      rw [hva _ (by omega), Nat.add_sub_cancel' (Nat.le_of_not_lt hi')] at hacc hne
      exact ⟨hacc, hne⟩
  · obtain ⟨hlt, hacc, hz⟩ := hs.nul hok
    rw [hm _ hacc] at hz
    rw [hva _ (by omega)] at hacc hz
    exact ⟨by omega, hacc, hz⟩
  · have := hs.stop hok (by omega)
    rwa [hva _ (by omega)] at this

theorem Scanned.exists (b : Buf) (n : Nat) : ∃ k ok, Scanned b n k ok := by
  induction n generalizing b with
  | zero => exact ⟨0, false, Scanned.zero⟩
  | succ n ih =>
    by_cases h : b 0 = 0
    · exact ⟨0, true, Scanned.here h⟩
    · obtain ⟨k, ok, hs⟩ := ih fun i => b (1 + i)
      exact ⟨1 + k, ok, Scanned.succ h hs⟩

theorem copyinstrLoop_run (dst va max : Nat) (hT : UserRam T) (hbuf : Apart T dst max) (hfuel : max ≤ fuel) :
    ∃ k ok, StringAt T s.kmem.mem va max k ok ∧ (copyinstrLoop T fuel dst va max).run (sem L) s
      = .next (ok, s.setMem (splice s.kmem.mem dst (kept k ok) fun i => s.kmem.mem (paddr T (va + i)))) := by
  induction fuel generalizing dst va max s with
  | zero =>
    refine ⟨0, false, StringAt.stop_here (.inl (by omega)), ?_⟩
    rw [splice_eq_scatter]
    rfl
  | succ fuel ih =>
    by_cases hstop : max = 0 ∨ ¬ Accessible T va
    · refine ⟨0, false, StringAt.stop_here hstop, ?_⟩
      rw [copyinstrLoop_stop hT hstop, splice_eq_scatter]
      rfl
    rw [not_or, not_not] at hstop
    obtain ⟨hmax, hacc⟩ := hstop
    have hpos := turn_pos va (Nat.pos_of_ne_zero hmax)
    have hl := turn_le va max
    obtain ⟨k, ok, hscan⟩ := Scanned.exists (fun i => s.kmem.mem ((T.leaf va).pa + va % PGSIZE + i)) (turn va max)
    rw [copyinstrLoop_succ hT hbuf (Nat.pos_of_ne_zero hmax) hacc hscan]
    cases ok with
    | true =>
      have hk := (hscan.nul rfl).1
      refine ⟨k, true, StringAt.first hacc hscan, ?_⟩
      rw [if_pos rfl]
      refine congrArg (fun m => Outcome.next (true, s.setMem m)) (splice_congr fun i hi => ?_)
      have hi' : i < turn va max := by omega
      rw [(turn_byte hacc hi').2]
    | false =>
      obtain rfl := hscan.full rfl
      obtain ⟨k, ok, hs, hrun⟩ := ih (s := s.setMem (splice s.kmem.mem dst (turn va max)
        fun i => s.kmem.mem ((T.leaf va).pa + va % PGSIZE + i))) (dst + turn va max) (PGROUNDDOWN va + PGSIZE)
        (max - turn va max) (hbuf.next hl) (by omega)
      have hsame : ∀ vb, Accessible T vb → splice s.kmem.mem dst (turn va max)
          (fun i => s.kmem.mem ((T.leaf va).pa + va % PGSIZE + i)) (paddr T vb) = s.kmem.mem (paddr T vb) :=
        fun vb hb => splice_apart hbuf hl hb
      refine ⟨_, ok, hs.later hacc hscan hsame, ?_⟩
      rw [if_neg Bool.false_ne_true, hrun, kept_add, ← splice_add,
        splice_congr fun i hi => congrArg s.kmem.mem (turn_byte hacc hi).2.symm]
      refine congrArg (fun m => Outcome.next (ok, s.setMem m)) (splice_congr fun i hi => ?_)
      obtain ⟨hlt, hacc'⟩ := hs.kept hi
      have e : va + (turn va max + i) = PGROUNDDOWN va + PGSIZE + i := by
        rw [← turn_next va max (by omega), Nat.add_assoc]
      rw [e]
      exact splice_apart (b := fun i => s.kmem.mem (paddr T (va + i))) hbuf hl hacc'

theorem copyinstrW_run_eq (dst : Nat) (va max : BitVec 64) (hT : UserRam T) (hbuf : Apart T dst max.toNat)
    (hfuel : max.toNat < fuel) : (copyinstrW T fuel dst va max).run (sem L) s
      = (copyinstrLoop T fuel dst va.toNat max.toNat).run (sem L) s := by
  induction fuel generalizing dst va max s with
  | zero => exact absurd hfuel (Nat.not_lt_zero _)
  | succ fuel ih =>
    rw [copyinstrW, pageOf_toNat, offset_toNat, chunk_toNat]
    by_cases hz : max = 0
    · rw [if_pos hz, copyinstrLoop_stop hT (.inl (congrArg BitVec.toNat hz))]
      rfl
    have hpos : 0 < max.toNat := Nat.pos_of_ne_zero fun e => hz (BitVec.eq_of_toNat_eq e)
    rw [if_neg hz]
    by_cases hacc : Accessible T va.toNat
    · rw [if_neg ((walkaddr_iff hT).mpr hacc), walkaddr_pa hacc, ← mod_eq_sub_rounddown]
      have ht := turn_pos va.toNat hpos
      have hl := turn_le va.toNat max.toNat
      obtain ⟨hr1, hr2⟩ := hbuf.ram
      obtain ⟨k, ok, hscan, hrun⟩ := strLoop_run (turn va.toNat max.toNat)
        ((T.leaf va.toNat).pa + va.toNat % PGSIZE) dst max (turn_ram max.toNat hT hacc) ⟨hr1, by omega⟩
        fun i j hi hj => by
          obtain ⟨hai, hpi⟩ := turn_byte hacc hi
          rw [← hpi]
          exact hbuf.apart _ hai j (by omega)
      rw [bind_eq, run_bind_next hrun, copyinstrLoop_succ hT hbuf hpos hacc hscan]
      cases ok with
      | true =>
        rw [if_pos rfl, if_pos rfl]
        rfl
      | false =>
        obtain rfl := hscan.full rfl
        have hrest : (max - BitVec.ofNat 64 (turn va.toNat max.toNat)).toNat = max.toNat - turn va.toNat max.toNat := by
          rw [← chunk_toNat, BitVec.ofNat_toNat, BitVec.setWidth_eq, rest_toNat, chunk_toNat]
        rw [if_neg Bool.false_ne_true, if_neg Bool.false_ne_true]
        refine (ih _ _ _ ?_ ?_).trans ?_
        · rw [hrest]
          exact hbuf.next hl
        · rw [hrest]
          omega
        · rw [hrest, nextPage_toNat hacc.1]
          rfl
    · rw [if_pos (not_not.mp fun h => hacc ((walkaddr_iff hT).mp h)), copyinstrLoop_stop hT (.inr hacc)]
      rfl

/-! ## the page table decides -/

theorem StringAt.found_iff (h : StringAt T m va max k ok) :
    ok = true ↔ ∃ j, j < max ∧ (∀ i, i ≤ j → Accessible T (va + i)) ∧ m (paddr T (va + j)) = 0 := by
  constructor
  · intro hok
    obtain ⟨hlt, hacc, hz⟩ := h.nul hok
    refine ⟨k, hlt, fun i hi => ?_, hz⟩
    rcases Nat.lt_or_eq_of_le hi with hi | rfl
    · exact (h.acc i hi).1
    · exact hacc
  · rintro ⟨j, hj, hacc, hz⟩
    rw [← Bool.not_eq_false]
    intro hok
    have hkj : k ≤ j := by
      by_contra hc
      exact (h.acc j (by omega)).2 hz
    exact h.stop hok (by omega) (hacc k hkj)

/-- **User copies.**  `copyout` and `copyin` return 0 exactly if all bytes at `va` are accessible, and
then move them one by one; `copyinstr` returns 0 exactly if there is a NUL within the first `n` bytes
with all bytes up to it accessible, and then it has stored the string with its NUL.  Nothing else
changes, and `n` turns are enough. -/
theorem user_copies (va n : BitVec 64) (buf fuel : Nat) (hT : UserRam T) (hbuf : Apart T buf n.toNat)
    (hfuel : n.toNat < fuel) :
    (∃ ok k, (copyoutW T fuel va buf n).run (sem L) s = .next (ok, s.setMem (scatter s.kmem.mem
        (fun i => paddr T (va.toNat + i)) (fun i => s.kmem.mem (buf + i)) k)) ∧
      (ok = true ↔ ∀ i, i < n.toNat → Accessible T (va.toNat + i)) ∧ (ok = true → k = n.toNat) ∧
      k ≤ n.toNat) ∧
    (∃ ok k, (copyinW T fuel buf va n).run (sem L) s = .next (ok, s.setMem (splice s.kmem.mem buf k
        fun i => s.kmem.mem (paddr T (va.toNat + i)))) ∧
      (ok = true ↔ ∀ i, i < n.toNat → Accessible T (va.toNat + i)) ∧ (ok = true → k = n.toNat) ∧
      k ≤ n.toNat) ∧
    ∃ ok k, (copyinstrW T fuel buf va n).run (sem L) s = .next (ok, s.setMem (splice s.kmem.mem buf k
        fun i => s.kmem.mem (paddr T (va.toNat + i)))) ∧
      (ok = true ↔ ∃ j, j < n.toNat ∧ (∀ i, i ≤ j → Accessible T (va.toNat + i)) ∧
        s.kmem.mem (paddr T (va.toNat + j)) = 0) ∧
      (ok = true → ∃ j, k = j + 1 ∧ s.kmem.mem (paddr T (va.toNat + j)) = 0 ∧
        ∀ i, i < j → s.kmem.mem (paddr T (va.toNat + i)) ≠ 0) ∧ k ≤ n.toNat := by
  refine ⟨?_, ?_, ?_⟩
  · obtain ⟨k, hk, hrun⟩ := copyW_run true va n buf hT hbuf hfuel
    exact ⟨_, k, hrun, by rw [decide_eq_true_iff, hk.all_iff], of_decide_eq_true, hk.le⟩
  · obtain ⟨k, hk, hrun⟩ := copyW_run false va n buf hT hbuf hfuel
    refine ⟨_, k, ?_, by rw [decide_eq_true_iff, hk.all_iff], of_decide_eq_true, hk.le⟩
    rw [splice_eq_scatter]
    exact hrun
  · obtain ⟨k, ok, hs, hrun⟩ := copyinstrLoop_run buf va.toNat n.toNat hT hbuf hfuel.le
    refine ⟨ok, kept k ok, (copyinstrW_run_eq buf va n hT hbuf hfuel).trans hrun, hs.found_iff, fun hok => ?_, ?_⟩
    · refine ⟨k, by rw [kept, if_pos hok], (hs.nul hok).2.2, fun i hi => (hs.acc i hi).2⟩
    · unfold kept
      split
      · exact (hs.nul ‹_›).1
      · exact hs.le

/-! ## processes -/

theorem WellFormed.userPage (hs : WellFormed L s) (hT : s.userTable q = some T)
    (h : Accessible T va) : L.Page (T.leaf va).pa := by
  obtain ⟨tf, hl⟩ := userTable_live hs.inv hT
  have hmem := mem_pages_stored hT (hl.space.lt_trapframe_of_user h.1 h.2.2) h.2.1
  exact hs.inv.kmem.owned (T.leaf va).pa (by rwa [zero_add])

theorem WellFormed.userRam (hs : WellFormed L s) (hT : s.userTable q = some T) : UserRam T :=
  fun _ h => ram_page (hs.userPage hT h)

theorem WellFormed.apart (hs : WellFormed L s) (hT : s.userTable q = some T)
    (h1 : KERNBASE ≤ a) (h2 : a + n ≤ L.kend) : Apart T a n := by
  refine ⟨⟨h1, h2.trans L.kend_le⟩, fun va hacc i hi => ?_⟩
  have hle := (hs.userPage hT hacc).le
  unfold paddr
  omega

theorem exists_booted : ∃ s T, Booted s ∧ WellFormed smallLayout s ∧ s.userTable initproc = some T ∧
    Accessible T 0 ∧ ¬ Accessible T PGSIZE := by
  obtain ⟨s, hb, hwell, hsome, hacc⟩ := booted_of_check
    (p := fun s => (s.userTable initproc).isSome ∧
      ∀ T ∈ s.userTable initproc, Accessible T 0 ∧ ¬ Accessible T PGSIZE) (by decide +kernel)
  obtain ⟨T', hT'⟩ := Option.isSome_iff_exists.mp hsome
  exact ⟨s, T', hb, hwell, hT', hacc T' hT'⟩

/-- eight bytes at 0 of the first process, and a range that wraps -/
theorem user_copies_boot : ∃ s T, Booted s ∧ s.userTable initproc = some T ∧
    (∃ k t, (copyoutW T 9 0 KERNBASE 8).run (sem smallLayout) s = .next (true, t) ∧ k = 8) ∧
    ∃ t, (copyinW T 17 KERNBASE (-8) 16).run (sem smallLayout) s = .next (false, t) := by
  obtain ⟨s, T, hb, hs, hT, h0, -⟩ := exists_booted
  have hle : KERNBASE + 16 ≤ smallLayout.kend := by decide
  have hbuf8 : Apart T KERNBASE (8 : BitVec 64).toNat :=
    hs.apart hT le_rfl ((show KERNBASE + 8 ≤ KERNBASE + 16 by omega).trans hle)
  obtain ⟨⟨ok, k, hrun, hok, hk, -⟩, -⟩ := user_copies 0 8 KERNBASE 9
    (hs.userRam hT) hbuf8 (by decide)
  obtain ⟨-, ⟨ok', k', hrun', hok', -⟩, -⟩ := user_copies (-8) 16 KERNBASE 17
    (hs.userRam hT) (hs.apart hT le_rfl hle) (by decide)
  have hall : ∀ i, i < 8 → Accessible T (0 + i) := by
    intro i hi
    refine (h0.page ?_).1
    simp only [PGSIZE]
    omega
  obtain rfl : ok = true := hok.mpr hall
  obtain rfl : ok' = false := by
    rw [← Bool.not_eq_true]
    intro e
    have := (hok'.mp e 0 (by decide)).1
    exact absurd this (by decide)
  exact ⟨s, T, hb, hT, ⟨k, _, hrun, hk rfl⟩, _, hrun'⟩

end

end Vm
