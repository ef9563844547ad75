import Xv6.Vm.Failure

/-!
# `exec` against any executable file

The fields of an ELF file are arbitrary.  `exec` returns all the same: the pages of the new image are
mapped one behind the other from 0 on, and memory runs out before an address becomes too large.  The
loop of `loadseg` counts with a `uint`; `loadsegUint` is that loop, and since an image fits into memory
the counter does not wrap.

* `loadsegUint_eq`     the loop on `uint`s comes to its end, with the result of `loadseg`;
* `loadsegLoop_writes`     `loadseg` changes pages of the image only;
* `exec_returns`       `exec` comes to its end, whatever the file contains.
-/

namespace Vm
open Run Bytes Prog Own Table BitVec

/-! ## the loop of `loadseg` -/

/-- the loop of `loadseg` from `i` on; `none` if it is not through after `fuel` turns -/
def loadsegUint (T : Table 2) (va : Nat) (ip : Inode) (offset sz : BitVec 32) :
    (fuel : Nat) → (i : BitVec 32) → Kernel (Option Bool)
  | 0, _ => pure none
  | fuel + 1, i =>
    if i < sz then
      if walkaddr T ((va + i.toNat) % 2 ^ 64) = 0 then .panic "loadseg: address should exist"
      else do
        let n : BitVec 32 := if sz - i < 4096 then sz - i else 4096
        let r := ip (offset + i).toNat n.toNat
        Act.write (walkaddr T ((va + i.toNat) % 2 ^ 64)) (min r.1 n.toNat) r.2
        if r.1 ≠ n.toNat then pure (some false) else loadsegUint T va ip offset sz fuel (i + 4096)
    else pure (some true)

section
variable {T : Table 2} {va : Nat} {ip : Inode} {offset sz : BitVec 32}

/-- the loop on `uint`s is the one on numbers, as long as the counter does not wrap -/
theorem loadsegUint_loop (hsz : sz.toNat + 4096 ≤ 2 ^ 32) (hva : va + sz.toNat ≤ 2 ^ 64) {n fuel : Nat} {i : BitVec 32}
    (hn : n = (sz.toNat - i.toNat + 4095) / 4096) (hf : n < fuel) :
    loadsegUint T va ip offset sz fuel i
      = (loadsegLoop T va ip offset.toNat sz.toNat n i.toNat).bind fun b => .ret (some b) := by
  induction n generalizing fuel i with
  | zero =>
    obtain ⟨fuel, rfl⟩ := Nat.exists_eq_succ_of_ne_zero (Nat.ne_of_gt hf)
    have hge : ¬ i < sz := by
      rw [lt_def]
      omega
    rw [loadsegUint, if_neg hge]
    rfl
  | succ n ih =>
    obtain ⟨fuel, rfl⟩ := Nat.exists_eq_succ_of_ne_zero (Nat.ne_of_gt (Nat.zero_lt_of_lt hf))
    have hlt : i.toNat < sz.toNat := by omega
    have hsub : (sz - i).toNat = sz.toNat - i.toNat := toNat_sub_of_le (le_def.mpr hlt.le)
    have h4096 : (4096 : BitVec 32).toNat = 4096 := rfl
    have hi : (i + 4096).toNat = i.toNat + PGSIZE := by
      rw [toNat_add, h4096, Nat.mod_eq_of_lt]
      · rfl
      · omega
    have hoff : (offset + i).toNat = (offset.toNat + i.toNat) % 2 ^ 32 := toNat_add _ _
    have hmin : (if sz - i < 4096 then sz - i else 4096 : BitVec 32).toNat = min PGSIZE (sz.toNat - i.toNat) := by
      split
      · rename_i h
        rw [lt_def, hsub, h4096] at h
        rw [hsub]
        simp only [PGSIZE]
        omega
      · rename_i h
        rw [lt_def, hsub, h4096] at h
        rw [h4096]
        simp only [PGSIZE]
        omega
    have hadr : (va + i.toNat) % 2 ^ 64 = va + i.toNat := Nat.mod_eq_of_lt (by omega)
    rw [loadsegUint, if_pos (lt_def.mpr hlt), loadsegLoop, hadr]
    dsimp only
    rw [hmin, hoff]
    by_cases hw : walkaddr T (va + i.toNat) = 0
    · rw [if_pos hw, if_pos hw]
      rfl
    rw [if_neg hw, if_neg hw]
    refine congrArg _ (funext fun _ => ?_)
    show (ite _ _ _ : Kernel (Option Bool)) = (ite _ _ _ : Kernel Bool).bind _
    split
    · rfl
    · have hP : PGSIZE = 4096 := rfl
      rw [ih (by rw [hi, hP]; omega) (Nat.lt_of_succ_lt_succ hf), hi]

theorem loadsegUint_eq {fuel : Nat} (hsz : sz.toNat + 4096 ≤ 2 ^ 32) (hva : va + sz.toNat ≤ 2 ^ 64)
    (hf : 2 ^ 20 ≤ fuel) :
    loadsegUint T va ip offset sz fuel 0 = (loadseg T va ip offset sz).bind fun b => .ret (some b) := by
  refine loadsegUint_loop hsz hva ?_ ?_
  · rfl
  · simp only [PGSIZE]
    omega

theorem loadsegLoop_writes {L : Layout} {off len n i a : Nat} {s t : Sys} {ok : Bool}
    (h : (loadsegLoop T va ip off len n i).run (sem L) s = .next (ok, t)) (ha : t.kmem.mem a ≠ s.kmem.mem a) :
    ∃ vb, walkaddr T vb ≠ 0 ∧ walkaddr T vb ≤ a ∧ a < walkaddr T vb + PGSIZE := by
  induction n generalizing i s with
  | zero =>
    cases h
    exact absurd rfl ha
  | succ n ih =>
    rw [loadsegLoop] at h
    split at h
    · cases h
    rename_i hne
    obtain ⟨_, s', hw, h⟩ := run_act h
    cases touch_next hw
    by_cases hin : walkaddr T (va + i) ≤ a ∧ a < walkaddr T (va + i) + PGSIZE
    · exact ⟨va + i, hne, hin⟩
    have hout : splice s.kmem.mem (walkaddr T (va + i))
        (min (ip ((off + i) % 2 ^ 32) (min PGSIZE (len - i))).1 (min PGSIZE (len - i)))
        (ip ((off + i) % 2 ^ 32) (min PGSIZE (len - i))).2 a = s.kmem.mem a := splice_out (by omega)
    have h' : (ite _ _ _ : Kernel Bool).run (sem L) _ = .next (ok, t) := h
    split at h'
    · cases h'
      exact absurd hout ha
    · exact ih h' fun e => ha (e.trans hout)

end

/-! ## `exec` with the loop on `uint`s -/

/-- `loadLoop` with `loadsegUint` -/
def loadLoopUint (fuel : Nat) (ip : Inode) : (n : Nat) → Table 2 → (sz : Nat) → (off : BitVec 32) →
    Kernel (Option (Table 2 × Nat × Bool))
  | 0, T, sz, _ => pure (some (T, sz, true))
  | n + 1, T, sz, off =>
    let ph := (ip off.toNat 56).2
    let vaddr := (get64 ph 16).toNat
    let filesz := get64 ph 32
    let memsz := get64 ph 40
    if (ip off.toNat 56).1 ≠ 56 then pure (some (T, sz, false))
    else if get32 ph 0 ≠ 1 then loadLoopUint fuel ip n T sz (off + 56)
    else if memsz.toNat < filesz.toNat then pure (some (T, sz, false))
    else if vaddr + memsz.toNat ≥ 2 ^ 64 then pure (some (T, sz, false))
    else if vaddr % PGSIZE ≠ 0 then pure (some (T, sz, false))
    else do
      let (T, sz1) ← uvmalloc T sz (vaddr + memsz.toNat) (flags2perm (get32 ph 4))
      if sz1 = 0 then pure (some (T, sz, false))
      else do
        match ← loadsegUint T vaddr ip ((get64 ph 8).setWidth 32) (filesz.setWidth 32) fuel 0 with
        | none => pure none
        | some true => loadLoopUint fuel ip n T sz1 (off + 56)
        | some false => pure (some (T, sz1, false))

/-- `execImage` behind the loop over the program headers -/
def execRest (argv : List Nat) (z : Table 2 × Nat × Bool) : Kernel (Option (Table 2 × Nat × Nat)) :=
  if z.2.2 = false then do
    procFreepagetable z.1 z.2.1
    pure none
  else do
    let (T, sz1) ← uvmalloc z.1 (PGROUNDUP z.2.1) (PGROUNDUP z.2.1 + 2 * PGSIZE) PTE_W
    if sz1 = 0 then do
      procFreepagetable T (PGROUNDUP z.2.1)
      pure none
    else do
      let T ← uvmclear T (sz1 - 2 * PGSIZE)
      match ← pushArgs T sz1 argv with
      | none => do
        procFreepagetable T sz1
        pure none
      | some sp => pure (some (T, sz1, sp))

/-- `exec` with the loop of `loadseg` on `uint`s; `none` if it is not through with it -/
def execUint (L : Layout) (fuel : Nat) (T : Table 2) (tf : Nat) (x : Proc) (ip : Option Inode) (argv : List Nat) :
    Kernel (Option (Proc × Int)) :=
  match ip with
  | none => pure (some (x, -1))
  | some ip =>
    let elf := (ip 0 64).2
    if (ip 0 64).1 ≠ 64 then pure (some (x, -1))
    else if get32 elf 0 ≠ ELF_MAGIC then pure (some (x, -1))
    else do
      match ← procPagetable L tf with
      | none => pure (some (x, -1))
      | some Tn => do
        match ← loadLoopUint fuel ip (get16 elf 56).toNat Tn 0 ((get64 elf 32).setWidth 32) with
        | none => pure none
        | some z => do
          let o ← execRest argv z
          let r ← execCommit T tf x elf argv o
          pure (some r)

section
variable {L : Layout} {T : Table 2} {tf sz fuel : Nat} {ip : Inode} {argv : List Nat} {k₀ : Kmem} {R₀ g : Ledger}
  {s : Sys} {x : Proc}

/-- an image of the size `sz` that `exec` is loading, while others own `g` -/
structure Loading (L : Layout) (tf : Nat) (k₀ : Kmem) (R₀ g : Ledger) (T : Table 2) (sz : Nat) (s : Sys) : Prop where
  space : Space L tf T
  user : UserPages T
  size : sz ≤ TRAPFRAME
  shape : Shape L T sz
  inv : Inv L strictMode s (tableTok T .priv + (0 + g)) true
  exact : Exact L k₀ R₀ s.kmem (tableTok T .priv + (0 + g) + stored s)

theorem loadseg_returns {va : Nat} {off fsz : BitVec 32} (hf : 2 ^ 20 ≤ fuel) (h : Loading L tf k₀ R₀ g T sz s)
    (hle : va + fsz.toNat ≤ sz) :
    ∃ ok t, (loadseg T va ip off fsz).run (sem L) s = .next (ok, t) ∧
      (loadsegUint T va ip off fsz fuel 0).run (sem L) s = .next (some ok, t) ∧ Loading L tf k₀ R₀ g T sz t := by
  have hsafe : Safe (exactMachine L k₀ R₀) 0 (loadseg T va ip off fsz) (tableTok T .priv) fun _ r =>
      r = tableTok T .priv := by
    refine loadsegLoop_safe (h.space.ownsUser le_rfl) fun _ j hj => ?_
    refine h.shape.walkaddr_ne h.user h.size ?_
    simp only [PGSIZE] at hj ⊢
    omega
  obtain ⟨ok, t, hrun⟩ := exact_returns hsafe h.inv h.exact
  obtain ⟨_, rfl, hi, hx, -⟩ := exact_run hsafe h.inv h.exact hrun
  have hround : Shape L T (PGROUNDUP sz) := h.shape.resize (roundup_of_aligned (roundup_aligned sz))
  have htop := hround.le_phystop (roundup_aligned sz) (roundup_le h.size (by decide))
  have hup := le_roundup sz
  have hP : PHYSTOP = 0x88000000 := rfl
  refine ⟨ok, t, hrun, ?_, ⟨h.space, h.user, h.size, h.shape, hi, hx⟩⟩
  rw [loadsegUint_eq (by omega) (by omega) hf, run_bind_next hrun]
  rfl

theorem uvmalloc_returns {newsz : Nat} {perm : BitVec 10} (h : Loading L tf k₀ R₀ g T sz s) :
    ∃ T' sz1 t, (uvmalloc T sz newsz perm).run (sem L) s = .next ((T', sz1), t) ∧
      (sz1 ≠ 0 → newsz ≤ sz1 ∧ Loading L tf k₀ R₀ g T' sz1 t) := by
  have hsafe : Safe (exactMachine L k₀ R₀) 0 (uvmalloc T sz newsz perm) (tableTok T .priv) _ :=
    uvmalloc_safe h.space h.size fun _ => h.shape
  obtain ⟨⟨T', sz1⟩, t, hrun⟩ := exact_returns hsafe h.inv h.exact
  obtain ⟨_, ⟨rfl, hT, hsz, hsh, hge, hU⟩, hi, hx, -⟩ := exact_run hsafe h.inv h.exact hrun
  refine ⟨T', sz1, t, hrun, fun h0 => ⟨hge h0, hT, hU h.user, hsz, ?_, hi, hx⟩⟩
  have := hsh rfl
  rwa [if_neg h0] at this

theorem loadLoop_returns (hf : 2 ^ 20 ≤ fuel) {n : Nat} {off : BitVec 32} (h : Loading L tf k₀ R₀ g T sz s) :
    ∃ z t, (loadLoop ip n T sz off).run (sem L) s = .next (z, t) ∧
      (loadLoopUint fuel ip n T sz off).run (sem L) s = .next (some z, t) := by
  induction n generalizing T sz off s with
  | zero => exact ⟨_, _, rfl, rfl⟩
  | succ n ih =>
    unfold loadLoop loadLoopUint
    dsimp only
    split
    · exact ⟨_, _, rfl, rfl⟩
    split
    · exact ih h
    split
    · exact ⟨_, _, rfl, rfl⟩
    rename_i hmem
    split
    · exact ⟨_, _, rfl, rfl⟩
    split
    · exact ⟨_, _, rfl, rfl⟩
    obtain ⟨T', sz1, s1, h1, hload⟩ := uvmalloc_returns h
    rw [Prog.bind_eq, Prog.bind_eq, run_bind_next h1, run_bind_next h1]
    split
    · exact ⟨_, _, rfl, rfl⟩
    rename_i h0
    obtain ⟨hle, h'⟩ := hload h0
    -- the file part of the segment is in the memory part
    have hin : (get64 (ip off.toNat 56).2 16).toNat + ((get64 (ip off.toNat 56).2 32).setWidth 32).toNat ≤ sz1 := by
      rw [toNat_setWidth]
      omega
    obtain ⟨ok, s2, h2, h2', h''⟩ := loadseg_returns hf h' hin
    rw [Prog.bind_eq, Prog.bind_eq, run_bind_next h2, run_bind_next h2']
    cases ok with
    | true => exact ih h''
    | false => exact ⟨_, _, rfl, rfl⟩

theorem execUint_run {i : Option Inode} {y : Proc × Int} {t : Sys} (hf : 2 ^ 20 ≤ fuel)
    (hs : Inv L strictMode s (0 + (0 + g)) true) (he : Exact L k₀ R₀ s.kmem (0 + (0 + g) + stored s))
    (h : (exec L T tf x i argv).run (sem L) s = .next (y, t)) :
    (execUint L fuel T tf x i argv).run (sem L) s = .next (some y, t) := by
  match i with
  | none =>
    cases h
    rfl
  | some ip =>
    unfold exec at h
    unfold execUint
    dsimp only at h ⊢
    split at h
    · rename_i hc
      cases h
      rw [if_pos hc]
      rfl
    rename_i hc
    rw [if_neg hc]
    split at h
    · rename_i hc
      cases h
      rw [if_pos hc]
      rfl
    rename_i hc
    rw [if_neg hc]
    obtain ⟨o, s1, h1, h⟩ := run_bind h
    rw [Prog.bind_eq, run_bind_next h1]
    have hsafe : Safe (exactMachine L k₀ R₀) 0 (procPagetable L tf) 0 _ := procPagetable_safe (c := .priv)
    obtain ⟨r, hr, hi, hx, -⟩ := exact_run hsafe hs he h1
    match o, hr with
    | none, _ =>
      cases h
      rfl
    | some Tn, hr =>
      obtain ⟨rfl, hS, hblank⟩ := hr
      have hl : Loading L tf k₀ R₀ g Tn 0 s1 :=
        ⟨hS, hblank.userPages, Nat.zero_le _, hblank.shape, hi, hx⟩
      obtain ⟨o, s3, h3, h⟩ := run_bind h
      obtain ⟨z, s2, h2, h3⟩ := run_bind h3
      obtain ⟨z', s2', h2', h2''⟩ := loadLoop_returns hf hl
      obtain ⟨rfl, rfl⟩ := Prod.mk.inj (Outcome.next.inj (h2'.symm.trans h2))
      refine (run_bind_next h2'').trans ?_
      have h3' : (execRest argv z').run (sem L) s2' = .next (o, s3) := h3
      have h' : (execCommit T tf x (ip 0 64).2 argv o).run (sem L) s3 = .next (y, t) := h
      refine (run_bind_next h3').trans ?_
      exact run_bind_next h'

/-- **`exec` is robust against any file.**  In any state that can be reached, when `sys_exec` of the process
`p` has read the arguments, `exec` returns, whatever is in the file: it does not end in a panic.  With the
counter of `loadseg` a `uint` it does not loop for ever either, and does the same.  The memory of other
processes stays as it is, and what `loadseg` changes is in pages of the new image. -/
theorem exec_returns {c : Config} {p : Slot} {uargv : Nat} {i : Option Inode} (hc : Reachable L c)
    (hT : c.sys.userTable p = some T) (htf : (c.sys.proc p).trapframe = some tf)
    (harg : (argvLoop T (c.sys.proc p) uargv MAXARG 0 []).run (sem L) (c.sys.setOut p true (c.sys.proc p))
      = .next ((argv, true), s)) :
    ∃ y t, (exec L T tf (c.sys.proc p) i argv).run (sem L) s = .next (y, t) ∧
      (∀ fuel, 2 ^ 20 ≤ fuel →
        (execUint L fuel T tf (c.sys.proc p) i argv).run (sem L) s = .next (some y, t)) ∧
      (∀ q a, q ≠ p → c.sys.out q = false → (c.sys.proc q).Uses (PGROUNDDOWN a) →
        t.kmem.mem a = c.sys.kmem.mem a) ∧
      ∀ ip ∈ i, ∀ Tn va off fsz s' ok t' a, (loadseg Tn va ip off fsz).run (sem L) s' = .next (ok, t') →
        t'.kmem.mem a ≠ s'.kmem.mem a →
        ∃ vb, walkaddr Tn vb ≠ 0 ∧ walkaddr Tn vb ≤ a ∧ a < walkaddr Tn vb + PGSIZE := by
  obtain ⟨r, hinv, hlive⟩ := hc.enter hT htf
  obtain ⟨hi, he⟩ := enter_exact hinv hT
  have hsafe : Safe (exactMachine L c.sys.kmem (r + stored c.sys)) (recTok (c.sys.proc p))
      (argvLoop T (c.sys.proc p) uargv MAXARG 0 []) 0 _ := argvLoop_safe [] fun _ => hlive.hasUser
  obtain ⟨_, rfl, hi1, he1, hk1, -⟩ := exact_run hsafe hi he harg
  rw [add_left_comm] at hi1 he1
  have hexec : Safe (exactMachine L c.sys.kmem (r + stored c.sys)) (privTok argv)
      (exec L T tf (c.sys.proc p) i argv) (recTok (c.sys.proc p)) _ :=
    exec_safe hlive fun _ pg hpg => mem_privTok hpg
  obtain ⟨y, t, hrun⟩ := exact_returns hexec hi1 he1
  obtain ⟨-, -, -, -, hk2, -⟩ := exact_run hexec hi1 he1 hrun
  refine ⟨y, t, hrun, fun fuel hf => ?_, fun q a hq ho hu => ?_, fun ip _ Tn va off fsz s' ok t' a h ha => ?_⟩
  · rw [← zero_add (recTok (c.sys.proc p) + _), ← zero_add (recTok (c.sys.proc p) + _)] at hi1 he1
    exact execUint_run hf hi1 he1 hrun
  · have hmem : PGROUNDDOWN a ∈ pages (stored (c.sys.setOut p true (c.sys.proc p))) := by
      obtain ⟨u, hu1, hu2⟩ := mem_pages_iff.mp hu.mem
      refine mem_pages_of_mem (mem_stored (q := q) ?_ ?_) hu2
      · rw [← ho]
        exact Function.update_of_ne hq _ _
      · rwa [setOut_proc_of_ne hq]
    rw [hk2.mem a, hk1.mem a]
    · rfl
    · rw [map_add]
      exact Multiset.mem_add.mpr (.inr hmem)
    · rw [map_add]
      exact Multiset.mem_add.mpr (.inr (Multiset.mem_of_le hk1.stored hmem))
  · exact loadsegLoop_writes h ha

/-- `exec` of the first process without arguments, of a file with a segment of one page -/
theorem exec_returns_page : ∃ c T tf s y t, Reachable smallLayout c ∧ c.sys.userTable initproc = some T ∧
    (c.sys.proc initproc).trapframe = some tf ∧
    (argvLoop T (c.sys.proc initproc) 0 MAXARG 0 []).run (sem smallLayout)
      (c.sys.setOut initproc true (c.sys.proc initproc)) = .next (([], true), s) ∧
    (execUint smallLayout (2 ^ 20) T tf (c.sys.proc initproc) (some (inodeOf onePage)) []).run (sem smallLayout) s
      = .next (some y, t) := by
  obtain ⟨⟨k, T, s0, c⟩, hrun, hT, hu, htf, hw⟩ := exists_of_check
    (o := bootRun smallLayout 3 (fun _ => 0) (fun _ => 0) [])
    (p := fun x : Kmem × Table 2 × Sys × Config => (x.2.1.leaf 0).has PTE_V = true ∧
      (x.2.2.2.sys.userTable initproc).isSome = true ∧
      (x.2.2.2.sys.proc initproc).trapframe.isSome = true ∧
      ∀ T ∈ x.2.2.2.sys.userTable initproc,
        ((argvLoop T (x.2.2.2.sys.proc initproc) 0 MAXARG 0 []).run (sem smallLayout)
          (x.2.2.2.sys.setOut initproc true (x.2.2.2.sys.proc initproc))).check
          (fun y : (List Nat × Bool) × Sys => y.1 = ([], true)) = true) (by decide +kernel)
  obtain ⟨hk, hb, hc⟩ := bootRun_next hrun
  obtain ⟨T', hT'⟩ := Option.isSome_iff_exists.mp hu
  obtain ⟨tf, htf'⟩ := Option.isSome_iff_exists.mp htf
  obtain ⟨⟨y, s⟩, hs, hy⟩ := exists_of_check (hw T' hT')
  have hy' : y = ([], true) := hy
  subst hy'
  have hreach : Reachable smallLayout c := ⟨_, k, 3, _, T, s0, [], hk, hb, hT, hc⟩
  obtain ⟨y, t, -, hexec, -⟩ := exec_returns hreach hT' htf' hs
  exact ⟨c, T', tf, s, y, t, hreach, hT', htf', hs, hexec _ le_rfl⟩

end

end Vm
