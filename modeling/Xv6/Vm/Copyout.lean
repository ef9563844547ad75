import Xv6.Vm.Isolation

/-!
# Page protection of kernel copies

`copyout` asks `walkaddr` for the page of every address, which tests `PTE_V` and `PTE_U` only.

* `copyoutLoop_changes`      a page that `copyout` changes is one that it reaches;
* `copyoutLoop_flips`        it does change every page that it reaches, for some source;
* `copyout_protection`       it keeps page protection exactly if all PTEs that it goes through have
                             `PTE_W` and their pages are not mapped by another process;
* `copyout_writes_cow`       it writes through a PTE of copy-on-write.
-/

namespace Vm
open Run Bytes Prog Own Table

/-- a page that `copyout` to `len` bytes at `dstva` comes to -/
structure Reaches (T : Table 2) (dstva len va : Nat) : Prop where
  aligned : va % PGSIZE = 0
  pos : 0 < len
  first : PGROUNDDOWN dstva ≤ va
  last : va < dstva + len
  mapped : ∀ vb, vb % PGSIZE = 0 → PGROUNDDOWN dstva ≤ vb → vb ≤ va → walkaddr T vb ≠ 0

/-- the process `p` with the page table `T` can write to the page `pa`, and it is neither a page of
another process nor mapped read-only -/
structure MayWrite (s : Sys) (p : Slot) (T : Table 2) (pa : Nat) : Prop where
  writable : ∃ va, va < MAXVA ∧ (T.leaf va).has PTE_V ∧ (T.leaf va).has PTE_U ∧ (T.leaf va).has PTE_W ∧
    (T.leaf va).pa = pa
  own : ∀ q, q ≠ p → pa ∉ (s.proc q).userPages
  notReadOnly : ∀ va, va < TRAPFRAME → (T.leaf va).has PTE_V → (T.leaf va).has PTE_W = false →
    (T.leaf va).pa ≠ pa

section
variable {L : Layout} {s t : Sys} {T : Table 2} {p : Slot} {fuel dstva len va : Nat} {src : Buf}
  {ok : Bool}

theorem walkaddr_aligned (T : Table 2) (va : Nat) : walkaddr T va % PGSIZE = 0 := by
  by_cases h : walkaddr T va = 0
  · rw [h]
    rfl
  · rw [(walkaddr_ne_zero h).2.2.2]
    exact pa_aligned _

/-! ## one turn of the loop -/

theorem sub_rounddown (a : Nat) : a - PGROUNDDOWN a < PGSIZE := by
  simp only [PGROUNDDOWN, PGSIZE]
  omega

/-- the bytes of the first turn -/
def turn (dstva len : Nat) : Nat := min (PGSIZE - (dstva - PGROUNDDOWN dstva)) len

theorem Reaches.here (hlen : 0 < len) (h : walkaddr T (PGROUNDDOWN dstva) ≠ 0) :
    Reaches T dstva len (PGROUNDDOWN dstva) := by
  have hle : PGROUNDDOWN dstva ≤ dstva := Nat.div_mul_le_self dstva PGSIZE
  refine ⟨rounddown_mod dstva, hlen, le_rfl, by omega, fun vb _ h1 h2 => ?_⟩
  rwa [Nat.le_antisymm h2 h1]

theorem Reaches.next (h : walkaddr T (PGROUNDDOWN dstva) ≠ 0)
    (hr : Reaches T (PGROUNDDOWN dstva + PGSIZE) (len - turn dstva len) va) : Reaches T dstva len va := by
  have hal : (PGROUNDDOWN dstva + PGSIZE) % PGSIZE = 0 := by
    rw [Nat.add_mod_right, rounddown_mod]
  have hrd := rounddown_aligned hal
  have hpos := hr.pos
  have h1 := hr.first
  have h2 := hr.last
  have hle : PGROUNDDOWN dstva ≤ dstva := Nat.div_mul_le_self dstva PGSIZE
  rw [hrd] at h1
  unfold turn at hpos h2
  refine ⟨hr.aligned, by omega, by omega, by omega, fun vb hb hv1 hv2 => ?_⟩
  by_cases e : vb = PGROUNDDOWN dstva
  · rwa [e]
  · refine hr.mapped vb hb ?_ hv2
    rw [hrd]
    simp only [PGSIZE] at *
    omega

theorem Reaches.cases (hr : Reaches T dstva len va) : walkaddr T (PGROUNDDOWN dstva) ≠ 0 ∧
    (va = PGROUNDDOWN dstva ∨ Reaches T (PGROUNDDOWN dstva + PGSIZE) (len - turn dstva len) va) := by
  have hal : (PGROUNDDOWN dstva + PGSIZE) % PGSIZE = 0 := by
    rw [Nat.add_mod_right, rounddown_mod]
  have hrd := rounddown_aligned hal
  have h1 := hr.first
  have h2 := hr.last
  have h3 := hr.aligned
  have hal' := rounddown_mod dstva
  have hoff := sub_rounddown dstva
  refine ⟨hr.mapped _ hal' le_rfl h1, or_iff_not_imp_left.mpr fun hne => ?_⟩
  have hge : PGROUNDDOWN dstva + PGSIZE ≤ va := by
    simp only [PGSIZE] at *
    omega
  refine ⟨h3, ?_, by rwa [hrd], ?_, fun vb hb hv1 hv2 => hr.mapped vb hb ?_ hv2⟩
  · unfold turn
    omega
  · unfold turn
    omega
  · rw [hrd] at hv1
    omega

theorem write_next {a n : Nat} {b : Buf} {u : Unit} (h : sem L (.write a n b) s = .next (u, t)) :
    t = s.setMem (splice s.kmem.mem a n b) := by
  have hsem : sem L (.write a n b) s = touch a n ((), s.setMem (splice s.kmem.mem a n b)) := rfl
  rw [hsem] at h
  obtain ⟨-, h⟩ := ite_panic h
  cases h
  rfl

theorem turn_page {pa a : Nat} (len : Nat) (hpa : pa % PGSIZE = 0) (h1 : pa + (dstva - PGROUNDDOWN dstva) ≤ a)
    (h2 : a < pa + (dstva - PGROUNDDOWN dstva) + turn dstva len) : PGROUNDDOWN a = pa := by
  rw [rounddown_eq_iff hpa]
  unfold turn at h2
  omega

/-! ## what the loop changes -/

theorem copyoutLoop_changes {a : Nat}
    (h : (copyoutLoop T fuel dstva src len).run (sem L) s = .next (ok, t))
    (ha : t.kmem.mem a ≠ s.kmem.mem a) : ∃ va, Reaches T dstva len va ∧ walkaddr T va = PGROUNDDOWN a := by
  induction fuel generalizing dstva src len s with
  | zero =>
    cases h
    exact absurd rfl ha
  | succ fuel ih =>
    unfold copyoutLoop at h
    split at h
    swap
    · cases h
      exact absurd rfl ha
    rename_i hlen
    split at h
    · cases h
      exact absurd rfl ha
    rename_i hw
    obtain ⟨u, s', hs', h⟩ := run_act h
    obtain rfl := write_next hs'
    by_cases hin : walkaddr T (PGROUNDDOWN dstva) + (dstva - PGROUNDDOWN dstva) ≤ a ∧
        a < walkaddr T (PGROUNDDOWN dstva) + (dstva - PGROUNDDOWN dstva) + turn dstva len
    · exact ⟨_, Reaches.here hlen hw, (turn_page len (walkaddr_aligned T _) hin.1 hin.2).symm⟩
    · have hsame : splice s.kmem.mem (walkaddr T (PGROUNDDOWN dstva) + (dstva - PGROUNDDOWN dstva))
          (turn dstva len) src a = s.kmem.mem a := splice_out (by omega)
      obtain ⟨va, hr, hva⟩ := ih h fun e => ha (e.trans hsame)
      exact ⟨va, hr.next hw, hva⟩

/-- where the byte at `va` is -/
def byteAddr (T : Table 2) (va : Nat) : Nat := walkaddr T (PGROUNDDOWN va) + (va - PGROUNDDOWN va)

theorem byteAddr_turn {i : Nat} (hi : i < turn dstva len) :
    byteAddr T (dstva + i) = walkaddr T (PGROUNDDOWN dstva) + (dstva - PGROUNDDOWN dstva) + i := by
  have hle : PGROUNDDOWN dstva ≤ dstva := Nat.div_mul_le_self dstva PGSIZE
  unfold turn at hi
  have hrd : PGROUNDDOWN (dstva + i) = PGROUNDDOWN dstva := by
    rw [rounddown_eq_iff (rounddown_mod dstva)]
    omega
  rw [byteAddr, hrd]
  omega

theorem write_ram {a n : Nat} {b : Buf} (h : ram a n) :
    sem L (.write a n b) s = .next ((), s.setMem (splice s.kmem.mem a n b)) := if_pos h

/-- with a source that differs from `m` by one everywhere, every page that is reached is changed -/
theorem copyoutLoop_flips {m : Nat → Byte} (src : Buf) (hfuel : len ≤ fuel)
    (hram : ∀ va, walkaddr T va ≠ 0 → ram (walkaddr T va) PGSIZE)
    (hsrc : ∀ i, i < len → src i = m (byteAddr T (dstva + i)) + 1) :
    ∃ ok t, (copyoutLoop T fuel dstva src len).run (sem L) s = .next (ok, t) ∧
      (∀ a, s.kmem.mem a = m a + 1 → t.kmem.mem a = m a + 1) ∧
      ∀ va, Reaches T dstva len va → ∃ a, PGROUNDDOWN a = walkaddr T va ∧ t.kmem.mem a = m a + 1 := by
  induction fuel generalizing dstva src len s with
  | zero => exact ⟨true, s, rfl, fun _ h => h, fun va hr => absurd hr.pos (by omega)⟩
  | succ fuel ih =>
    unfold copyoutLoop
    split
    swap
    · rename_i hlen
      exact ⟨true, s, rfl, fun _ h => h, fun va hr => absurd hr.pos hlen⟩
    rename_i hlen
    split
    · rename_i hw
      exact ⟨false, s, rfl, fun _ h => h, fun va hr => absurd hw hr.cases.1⟩
    rename_i hw
    have hoff := sub_rounddown dstva
    have hle : PGROUNDDOWN dstva ≤ dstva := Nat.div_mul_le_self dstva PGSIZE
    have hturn : turn dstva len ≤ len := Nat.min_le_right _ _
    have hpos : 0 < turn dstva len := by
      unfold turn
      omega
    have hpage : (dstva - PGROUNDDOWN dstva) + turn dstva len ≤ PGSIZE := by
      unfold turn
      omega
    obtain ⟨hr1, hr2⟩ := hram _ hw
    generalize hbase : walkaddr T (PGROUNDDOWN dstva) + (dstva - PGROUNDDOWN dstva) = base
    have hwrite : sem L (.write base (turn dstva len) src) s
        = .next ((), s.setMem (splice s.kmem.mem base (turn dstva len) src)) :=
      write_ram ⟨by omega, by omega⟩
    -- a byte of this turn is one more than that of `m`
    have hbyte : ∀ a, base ≤ a → a < base + turn dstva len →
        splice s.kmem.mem base (turn dstva len) src a = m a + 1 := by
      intro a h1 h2
      have hi : a - base < turn dstva len := by omega
      rw [splice_in h1 h2, hsrc (a - base) (by omega), byteAddr_turn hi, hbase, Nat.add_sub_cancel' h1]
    have hnext : ∀ i, i < len - turn dstva len → src (turn dstva len + i)
        = m (byteAddr T (PGROUNDDOWN dstva + PGSIZE + i)) + 1 := by
      intro i hi
      have hfull : dstva + turn dstva len = PGROUNDDOWN dstva + PGSIZE := by
        unfold turn at hi ⊢
        omega
      rw [hsrc _ (by omega), ← hfull, Nat.add_assoc]
    obtain ⟨ok, t, hrun, hkeep, hall⟩ := ih
      (s := s.setMem (splice s.kmem.mem base (turn dstva len) src))
      (fun i => src (turn dstva len + i)) (by omega) hnext
    refine ⟨ok, t, (run_act_next hwrite).trans hrun, fun a ha => hkeep a ?_, fun va hr => ?_⟩
    · by_cases hin : base ≤ a ∧ a < base + turn dstva len
      · exact hbyte a hin.1 hin.2
      · show splice s.kmem.mem base (turn dstva len) src a = m a + 1
        rwa [splice_out (by omega)]
    · rcases hr.cases.2 with rfl | hr
      · refine ⟨base, turn_page len (walkaddr_aligned T _) hbase.le (by omega),
          hkeep base (hbyte base le_rfl (by omega))⟩
      · exact hall va hr

/-! ## protection -/

theorem ram_page {pa : Nat} (h : L.Page pa) : ram pa PGSIZE := by
  obtain ⟨hal, hlo, hhi⟩ := h
  have hend := le_roundup L.kend
  have hkern := L.kernbase_le
  have htramp := L.trampoline_lt
  have hstop : PHYSTOP % PGSIZE = 0 := by decide
  refine ⟨by omega, ?_⟩
  simp only [PGSIZE] at hal hstop ⊢
  omega

theorem WellFormed.ram_walkaddr (hs : WellFormed L s) (hT : s.userTable p = some T)
    (h : walkaddr T va ≠ 0) : ram (walkaddr T va) PGSIZE := by
  obtain ⟨hmax, hv, hu, e⟩ := walkaddr_ne_zero h
  obtain ⟨tf, hl⟩ := userTable_live hs.inv hT
  have hmem := mem_pages_stored hT (hl.space.lt_trapframe_of_user hmax hu) hv
  have hpage := hs.inv.kmem.owned (T.leaf va).pa (by rwa [zero_add])
  rw [e]
  exact ram_page hpage

/-- **Protection.**  `copyout` changes only pages that the process may write, whatever it copies, if
and only if all PTEs that it goes through have `PTE_W` and no other process maps their pages. -/
theorem copyout_protection (hs : WellFormed L s) (hT : s.userTable p = some T) :
    (∀ src ok t, (copyout T dstva src len).run (sem L) s = .next (ok, t) →
      ∀ a, t.kmem.mem a ≠ s.kmem.mem a → MayWrite s p T (PGROUNDDOWN a)) ↔
    ∀ va, Reaches T dstva len va → (T.leaf va).has PTE_W ∧
      ∀ q, q ≠ p → (T.leaf va).pa ∉ (s.proc q).userPages := by
  obtain ⟨tf, hl⟩ := userTable_live hs.inv hT
  constructor
  · intro h va hr
    have hw := hr.mapped va hr.aligned hr.first le_rfl
    obtain ⟨hmax, hv, hu, e⟩ := walkaddr_ne_zero hw
    have hlt := hl.space.lt_trapframe_of_user hmax hu
    obtain ⟨ok, t, hrun, -, hall⟩ := copyoutLoop_flips
      (fun i => s.kmem.mem (byteAddr T (dstva + i)) + 1) le_rfl (fun va h => hs.ram_walkaddr hT h) fun i _ => rfl
    obtain ⟨a, hpage, ha⟩ := hall va hr
    have hne : t.kmem.mem a ≠ s.kmem.mem a := by
      rw [ha]
      intro e
      bv_omega
    have hmay := h _ ok t hrun a hne
    rw [hpage, e] at hmay
    refine ⟨?_, hmay.own⟩
    cases hW : (T.leaf va).has PTE_W with
    | true => rfl
    | false => exact absurd rfl (hmay.notReadOnly va hlt hv hW)
  · intro h src ok t hrun a ha
    obtain ⟨va, hr, hva⟩ := copyoutLoop_changes hrun ha
    have hw := hr.mapped va hr.aligned hr.first le_rfl
    obtain ⟨hmax, hv, hu, e⟩ := walkaddr_ne_zero hw
    have hlt := hl.space.lt_trapframe_of_user hmax hu
    obtain ⟨hW, hown⟩ := h va hr
    rw [← hva, e]
    refine ⟨⟨va, hmax, hv, hu, hW, rfl⟩, hown, fun vb hvb hv' hW' heq => ?_⟩
    have h39 : TRAPFRAME < 2 ^ 39 := by decide
    have hpage := hs.inj p T hT vb va hvb hlt hv' hv heq
    rw [leaf_page (hvb.trans h39) (hlt.trans h39) hpage, hW] at hW'
    cases hW'

theorem reaches_one (h : Reaches T 0 1 va) : va = 0 := by
  have := h.last
  omega

/-- the first process may be given a byte at 0 -/
theorem copyout_protection_boot : ∃ s T, Booted s ∧ s.userTable initproc = some T ∧
    ∀ src ok t, (copyout T 0 src 1).run (sem smallLayout) s = .next (ok, t) →
      ∀ a, t.kmem.mem a ≠ s.kmem.mem a → MayWrite s initproc T (PGROUNDDOWN a) := by
  obtain ⟨s, hb, hwell, hu, hW, hown⟩ := booted_of_check
    (p := fun s => (s.userTable initproc).isSome ∧ (∀ T ∈ s.userTable initproc, (T.leaf 0).has PTE_W) ∧
      ∀ T ∈ s.userTable initproc, ∀ q, q ≠ initproc → (T.leaf 0).pa ∉ (s.proc q).userPages)
    (by decide +kernel)
  obtain ⟨T', hT'⟩ := Option.isSome_iff_exists.mp hu
  refine ⟨s, T', hb, hT', (copyout_protection hwell hT').mpr fun va hr => ?_⟩
  rw [reaches_one hr]
  exact ⟨hW T' hT', hown T' hT'⟩

/-- the first process has forked; a byte that the kernel copies to its child at 0 goes through a PTE
without `PTE_W` to the page that the parent reads -/
theorem copyout_writes_cow : ∃ s w T t, Booted s ∧
    Run.exec (watch smallLayout) ⟨s, view s⟩ [.fork initproc] = .next w ∧
    w.sys.userTable child = some T ∧ (T.leaf 0).has PTE_W = false ∧
    (copyout T 0 (fun _ => 7) 1).run (sem smallLayout) w.sys = .next (true, t) ∧
    view w.sys initproc 0 = some 0 ∧ view t initproc 0 = some 7 := by
  obtain ⟨s, hb, -, hw⟩ := booted_of_check
    (p := fun s => (Run.exec (watch smallLayout) ⟨s, view s⟩ [.fork initproc]).check
        (fun w : Watched => (w.sys.userTable child).isSome ∧ view w.sys initproc 0 = some 0 ∧
          ∀ T ∈ w.sys.userTable child, (T.leaf 0).has PTE_W = false ∧
            ((copyout T 0 (fun _ => 7) 1).run (sem smallLayout) w.sys).check
              fun y : Bool × Sys => y.1 = true ∧ view y.2 initproc 0 = some 7)) (by decide +kernel)
  obtain ⟨w, hw, hsome, hview, hall⟩ := exists_of_check hw
  obtain ⟨T', hT'⟩ := Option.isSome_iff_exists.mp hsome
  obtain ⟨hW, hcopy⟩ := hall T' hT'
  obtain ⟨⟨ok, t⟩, ht, rfl, hv⟩ := exists_of_check hcopy
  exact ⟨s, w, T', t, hb, hw, hT', hW, ht, hview, hv⟩

end

end Vm
