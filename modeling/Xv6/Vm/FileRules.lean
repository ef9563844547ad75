import Xv6.Vm.Rules

/-!
# The rules for the file table and the pipes

The two ends of a pipe are open as long as an open file or a thread stands for them (`FInv.balance`), so
`pipeclose` finds its pipe, and the page of a pipe is free to go when both ends are closed.
-/

namespace Vm
open Run Bytes Prog Own Function

section
variable {L : Layout} {m : Mode} {sh : Bool} {s : Sys} {B r r' g R R' : Ledger} {f : FileNo} {pi : Nat}
  {w : Bool}

/-! ## open files -/

/-- how many references to the file `f` the tokens name -/
def nrefs (f : FileNo) (r : Ledger) : Nat := (refs r).count (f, false) + (refs r).count (f, true)

theorem nrefs_add (f : FileNo) (r r' : Ledger) : nrefs f (r + r') = nrefs f r + nrefs f r' := by
  rw [nrefs, map_add, Multiset.count_add, Multiset.count_add]
  exact Nat.add_add_add_comm _ _ _ _

theorem nrefs_file : nrefs f {.file f} = 1 := by
  rw [nrefs, refs_singleton]
  simp [Token.fileOf]

theorem nrefs_newfile : nrefs f {.newfile f} = 1 := by
  rw [nrefs, refs_singleton]
  simp [Token.fileOf]

theorem nrefs_zero : nrefs f 0 = 0 := rfl

theorem nrefs_pend {pi : Nat} {w : Bool} : nrefs f {.pend pi w} = 0 := by
  rw [nrefs, refs_singleton]
  rfl

/-- tokens that concern the file table only, of files only the file `f` -/
structure Paper (f : FileNo) (X : Ledger) : Prop where
  pages : Vm.pages X = 0
  priv : ∀ pa, Token.priv pa ∉ X
  slot : ∀ q, X.count (.slot q) = 0
  only : ∀ j b, j ≠ f → (refs X).count (j, b) = 0

theorem paper_zero : Paper f 0 :=
  ⟨map_zero _, fun _ => Multiset.notMem_zero _, fun _ => Multiset.count_zero _, fun _ _ _ => rfl⟩

variable {X Y : Ledger} {x : File} {Q : Unit → Ledger → Prop}

theorem Paper.add (hX : Paper f X) (hY : Paper f Y) : Paper f (X + Y) := by
  refine ⟨?_, fun pa hpa => ?_, fun q => ?_, fun j b hj => ?_⟩
  · rw [map_add, hX.pages, hY.pages, add_zero]
  · rcases Multiset.mem_add.mp hpa with h | h
    · exact hX.priv pa h
    · exact hY.priv pa h
  · rw [Multiset.count_add, hX.slot, hY.slot]
  · rw [map_add, Multiset.count_add, hX.only j b hj, hY.only j b hj]

theorem paper_file : Paper f {.file f} := by
  refine ⟨pages_singleton _, by simp, by simp, fun j b hj => ?_⟩
  rw [refs_singleton]
  simp [Token.fileOf, hj]

theorem paper_newfile : Paper f {.newfile f} := by
  refine ⟨pages_singleton _, by simp, by simp, fun j b hj => ?_⟩
  rw [refs_singleton]
  simp [Token.fileOf, hj]

theorem paper_pend : Paper f {.pend pi w} := by
  refine ⟨pages_singleton _, by simp, by simp, fun j b _ => ?_⟩
  rw [refs_singleton]
  rfl

theorem SamePages.trans {R'' : Ledger} (h : SamePages R R') (h' : SamePages R' R'') : SamePages R R'' :=
  ⟨h'.pages.trans h.pages, fun pa => (h'.priv pa).trans (h.priv pa)⟩

theorem Paper.samePages (h : Paper f X) (R : Ledger) : SamePages R (R + X) :=
  SamePages.add h.pages h.priv

theorem Paper.pages_add (h : Paper f X) (r : Ledger) : Vm.pages (r + X) = Vm.pages r := by
  rw [map_add, h.pages, add_zero]

theorem FInv.setFile (h : FInv s R) (href : (refs R').count (f, false) + (refs R').count (f, true) = x.ref)
    (hne : ∀ j b, j ≠ f → (refs R').count (j, b) = (refs R).count (j, b))
    (hfresh : (f, true) ∈ refs R' → x.kind = .none ∧ (refs R').count (f, true) = 1)
    (hcl : x.ref = 0 → x.kind = .none)
    (hends : kindEnd x.kind + ends R' = kindEnd (s.ftable f).kind + ends R) :
    FInv (s.setFile f x) R' := by
  refine ⟨fun j => ?_, fun j => ?_, fun j => ?_, ?_, h.live⟩
  · by_cases e : j = f
    · simp only [e, Sys.setFile, update_self]
      exact href
    · simp only [Sys.setFile, update_of_ne e]
      rw [hne j _ e, hne j _ e]
      exact h.ref j
  · by_cases e : j = f
    · simp only [e, Sys.setFile, update_self]
      exact hfresh
    · simp only [Sys.setFile, update_of_ne e]
      rw [← Multiset.count_pos, hne j _ e, Multiset.count_pos]
      exact h.fresh j
  · by_cases e : j = f
    · simp only [e, Sys.setFile, update_self]
      exact hcl
    · simp only [Sys.setFile, update_of_ne e]
      exact h.closed j
  · have hsum : fileEnds (s.setFile f x) + kindEnd (s.ftable f).kind
        = fileEnds s + kindEnd x.kind := by
      refine sum_change (i := f) (fun j hj => ?_) ?_
      · simp only [Sys.setFile, update_of_ne hj]
      · simp only [Sys.setFile, update_self]
        exact add_comm _ _
    have heq : fileEnds (s.setFile f x) + ends R' + kindEnd (s.ftable f).kind
        = fileEnds s + ends R + kindEnd (s.ftable f).kind := by
      calc fileEnds (s.setFile f x) + ends R' + kindEnd (s.ftable f).kind
          = fileEnds s + (kindEnd x.kind + ends R') := by
            rw [add_right_comm, hsum, add_assoc]
        _ = fileEnds s + (kindEnd (s.ftable f).kind + ends R) := by rw [hends]
        _ = fileEnds s + ends R + kindEnd (s.ftable f).kind := by abel
    exact (add_right_cancel heq).trans h.balance

theorem Inv.setFile (h : Inv L m s (r + Y + g) sh) (hX : Paper f X)
    (hY : Paper f Y) (href : x.ref + nrefs f Y = (s.ftable f).ref + nrefs f X)
    (hfresh : (f, true) ∈ refs (r + X + g + stored s) →
      x.kind = .none ∧ (refs (r + X + g + stored s)).count (f, true) = 1)
    (hcl : x.ref = 0 → x.kind = .none)
    (hends : kindEnd x.kind + ends X = kindEnd (s.ftable f).kind + ends Y) :
    Inv L m (s.setFile f x) (r + X + g) sh := by
  have hr : nrefs f (r + X + g + stored s) = x.ref := by
    have hold : nrefs f (r + Y + g + stored s) = (s.ftable f).ref := h.files.ref f
    simp only [nrefs_add] at hold ⊢
    omega
  have hne : ∀ j b, j ≠ f →
      (refs (r + X + g + stored s)).count (j, b) = (refs (r + Y + g + stored s)).count (j, b) := by
    intro j b hj
    simp only [map_add, Multiset.count_add, hX.only j b hj, hY.only j b hj]
  have hends' : kindEnd x.kind + ends (r + X + g + stored s)
      = kindEnd (s.ftable f).kind + ends (r + Y + g + stored s) := by
    have e : ∀ Z, ends (r + Z + g + stored s) = ends Z + ends (r + g + stored s) := by
      intro Z
      simp only [map_add]
      abel
    rw [e, e, ← add_assoc, ← add_assoc, hends]
  have e : ∀ Z, r + Z + g + stored s = r + g + stored s + Z := by
    intro Z
    abel
  refine ⟨h.kmem.same ?_, ⟨fun q => ?_, h.slots.ok, h.slots.unused⟩,
    h.files.setFile hr hne hfresh hcl hends'⟩
  · show SamePages (r + Y + g + stored s) (r + X + g + stored s)
    rw [e, e]
    exact (hY.samePages _).symm.trans (hX.samePages _)
  · have hq := h.slots.out q
    simp only [Multiset.count_add, hY.slot] at hq
    simp only [Multiset.count_add, hX.slot]
    exact hq

theorem Inv.fresh_of_le (h : Inv L m s (r + Y + g) sh)
    (hXY : (refs X).count (f, true) = (refs Y).count (f, true))
    (hk : (s.ftable f).kind = .none → x.kind = .none) :
    (f, true) ∈ refs (r + X + g + stored s) →
      x.kind = .none ∧ (refs (r + X + g + stored s)).count (f, true) = 1 := by
  have e : (refs (r + X + g + stored s)).count (f, true)
      = (refs (r + Y + g + stored s)).count (f, true) := by
    simp only [map_add, Multiset.count_add, hXY]
  rw [← Multiset.count_pos, e, Multiset.count_pos]
  intro hm
  obtain ⟨h1, h2⟩ := h.files.fresh f hm
  exact ⟨hk h1, h2⟩

theorem count_fresh_le (R : Ledger) : (refs R).count (f, true) ≤ nrefs f R := Nat.le_add_left _ _

theorem not_fresh_of_nrefs (h : nrefs f R = 0) : (f, true) ∉ refs R := by
  intro hm
  have h1 := Multiset.count_pos.mpr hm
  have h2 := count_fresh_le (f := f) R
  omega

theorem does_filealloc {Q : Option FileNo → Ledger → Prop}
    (h1 : ∀ f, Q (some f) (r + {.newfile f})) (h0 : Q none r) :
    Acts (machine L m sh) B .filealloc r Q := by
  refine acts_intro (fun _ _ => trivial) fun g s _ hs => ⟨next_ne_panic, fun x s' hx => ?_⟩
  have hx' : Outcome.next s.filealloc = .next (x, s') := hx
  unfold Sys.filealloc at hx'
  cases hf : (List.finRange NFILE).find? fun f => decide ((s.ftable f).ref = 0) with
  | none =>
    rw [hf] at hx'
    cases hx'
    exact ⟨r, h0, hs, Keeps.rfl, rfl⟩
  | some f =>
    rw [hf] at hx'
    cases hx'
    have hz : (s.ftable f).ref = 0 := by simpa using List.find?_some hf
    have hk : (s.ftable f).kind = .none := hs.files.closed f hz
    have hn : nrefs f (r + g + stored s) = 0 := (hs.files.ref f).trans hz
    have hs0 : Inv L m s (r + 0 + g) sh := by rwa [add_zero]
    refine ⟨r + {.newfile f}, h1 f, hs0.setFile
      paper_newfile paper_zero ?_ (fun _ => ⟨hk, ?_⟩) (fun h => absurd h Nat.one_ne_zero) ?_,
      Keeps.of_stored le_rfl rfl rfl rfl, ?_⟩
    · rw [nrefs_newfile, hz, nrefs_zero]
    · have e : r + {Token.newfile f} + g + stored s = r + g + stored s + {.newfile f} := by abel
      have hle := count_fresh_le (f := f) (r + g + stored s)
      rw [e, map_add, Multiset.count_add, refs_singleton]
      show _ + Multiset.count (f, true) {(f, true)} = 1
      rw [Multiset.count_singleton_self]
      omega
    · rw [ends_singleton]
      rfl
    · show pages (r + {.newfile f}) + 0 = pages r + 0
      rw [paper_newfile.pages_add]

theorem machine_filedup (h : Q () (r + {.file f})) : Acts (machine L m sh) B (.filedup f) r Q := by
  refine acts_intro (fun _ _ => trivial) fun g s _ hs => ?_
  have hsem : sem L (.filedup f) s = (s.filedup f).map fun s' => ((), s') := rfl
  rw [hsem]
  unfold Sys.filedup
  split
  · refine ⟨fun e => ?_, fun x s' hx => by cases hx⟩
    have : "filedup" = undef := Outcome.panic.inj e
    exact absurd this (by decide)
  refine ⟨next_ne_panic, fun x s' hx => ?_⟩
  cases hx
  have hs0 : Inv L m s (r + 0 + g) sh := by rwa [add_zero]
  refine ⟨r + {.file f}, h, hs0.setFile
    paper_file paper_zero ?_ (hs0.fresh_of_le ?_ id) (fun h => absurd h (Nat.succ_ne_zero _)) ?_,
    Keeps.of_stored le_rfl rfl rfl rfl, ?_⟩
  · rw [nrefs_file, nrefs_zero]
  · rw [refs_singleton]
    simp [Token.fileOf]
  · rw [ends_singleton]
    rfl
  · show pages (r + {.file f}) + 0 = pages r + 0
    rw [paper_file.pages_add]

theorem Inv.nrefs_le (h : Inv L m s (r + Y + g) sh) : nrefs f Y ≤ (s.ftable f).ref := by
  have hr : nrefs f (r + Y + g + stored s) = (s.ftable f).ref := h.files.ref f
  simp only [nrefs_add] at hr
  omega

theorem Inv.dropRef (h : Inv L m s (r + Y + g) sh) (hY : Paper f Y) (hn : nrefs f Y = 1)
    (he : ends Y = 0) (h1 : 1 < (s.ftable f).ref) :
    Inv L m (s.setFile f { s.ftable f with ref := (s.ftable f).ref - 1 }) (r + g) sh := by
  have hi := h.setFile (x := { s.ftable f with ref := (s.ftable f).ref - 1 }) paper_zero hY
    ?_ ?_ ?_ ?_
  · rwa [add_zero] at hi
  · rw [hn, nrefs_zero]
    show (s.ftable f).ref - 1 + 1 = (s.ftable f).ref + 0
    omega
  · have e : refs (r + Y + g + stored s) = refs (r + 0 + g + stored s) + refs Y := by
      simp only [map_add, map_zero]
      abel
    intro hm
    obtain ⟨hk, hc⟩ := h.files.fresh f (by rw [e]; exact Multiset.mem_add.mpr (.inl hm))
    have hpos := Multiset.count_pos.mpr hm
    rw [e, Multiset.count_add] at hc
    exact ⟨hk, by omega⟩
  · intro h0
    have h0' : (s.ftable f).ref - 1 = 0 := h0
    omega
  · rw [he, map_zero]

/-- the last reference goes; the thread takes over the end of the pipe -/
theorem Inv.lastRef (h : Inv L m s (r + Y + g) sh) (hX : Paper f X) (hXn : nrefs f X = 0)
    (hY : Paper f Y) (hn : nrefs f Y = 1) (h1 : (s.ftable f).ref = 1)
    (he : ends X = kindEnd (s.ftable f).kind + ends Y) :
    Inv L m (s.setFile f ⟨0, .none⟩) (r + X + g) sh := by
  refine h.setFile hX hY ?_ (fun hm => absurd hm (not_fresh_of_nrefs ?_)) (fun _ => rfl) ?_
  · rw [hn, hXn, h1]
  · have hr : nrefs f (r + Y + g + stored s) = (s.ftable f).ref := h.files.ref f
    simp only [nrefs_add] at hr ⊢
    omega
  · rw [← he]
    exact zero_add _

theorem does_fileclose {Q : Option (Nat × Bool) → Ledger → Prop}
    (h1 : ∀ pi w, Q (some (pi, w)) (r + {.pend pi w})) (h0 : Q none r) :
    Acts (machine L m sh) B (.fileclose f) (r + {.file f}) Q := by
  refine acts_intro (fun _ _ => trivial) fun g s _ hs => ?_
  have hsem : sem L (.fileclose f) s = s.fileclose f := rfl
  have he : ends {Token.file f} = 0 := ends_singleton _
  have hpos : 1 ≤ (s.ftable f).ref := nrefs_file ▸ hs.nrefs_le
  have hp : pages r + 0 = pages (r + {.file f}) + 0 := by rw [paper_file.pages_add]
  rw [hsem]
  rw [Sys.fileclose, if_neg (by omega)]
  split
  · rename_i hgt
    refine ⟨next_ne_panic, fun x s' hx => ?_⟩
    cases hx
    exact ⟨r, h0, hs.dropRef paper_file nrefs_file he (by omega), Keeps.of_stored le_rfl rfl rfl rfl, hp⟩
  rename_i hle
  have hone : (s.ftable f).ref = 1 := by omega
  have hlast := fun X hX hXn => hs.lastRef (X := X) hX hXn paper_file nrefs_file hone
  refine ⟨next_ne_panic, fun x s' hx => ?_⟩
  cases hk : (s.ftable f).kind with
  | pipe pi w =>
    rw [hk] at hx hlast
    cases hx
    refine ⟨r + {.pend pi w}, h1 pi w, hlast _ paper_pend nrefs_pend ?_,
      Keeps.of_stored le_rfl rfl rfl rfl, ?_⟩
    · rw [he, ends_singleton]
      rfl
    · show pages (r + {.pend pi w}) + 0 = pages (r + {.file f}) + 0
      rw [(paper_pend (f := f)).pages_add, paper_file.pages_add]
  | none | inode =>
    rw [hk] at hx hlast
    cases hx
    have hi := hlast 0 paper_zero nrefs_zero (by rw [he]; rfl)
    rw [add_zero] at hi
    exact ⟨r, h0, hi, Keeps.of_stored le_rfl rfl rfl rfl, hp⟩

theorem Inv.new_kind (h : Inv L m s (r + {.newfile f} + g) sh) : (s.ftable f).kind = .none := by
  refine (h.files.fresh f ?_).1
  simp only [map_add, refs_singleton, Multiset.mem_add]
  exact .inl (.inl (.inr (Multiset.mem_singleton_self _)))

theorem does_fileclose_new {Q : Option (Nat × Bool) → Ledger → Prop} (h0 : Q none r) :
    Acts (machine L m sh) B (.fileclose f) (r + {.newfile f}) Q := by
  refine acts_intro (fun _ _ => trivial) fun g s _ hs => ?_
  have hsem : sem L (.fileclose f) s = s.fileclose f := rfl
  have he : ends {Token.newfile f} = 0 := ends_singleton _
  have hpos : 1 ≤ (s.ftable f).ref := nrefs_newfile ▸ hs.nrefs_le
  have hp : pages r + 0 = pages (r + {.newfile f}) + 0 := by rw [paper_newfile.pages_add]
  rw [hsem]
  rw [Sys.fileclose, if_neg (by omega), hs.new_kind]
  split
  · rename_i hgt
    refine ⟨next_ne_panic, fun x s' hx => ?_⟩
    cases hx
    exact ⟨r, h0, hs.dropRef paper_newfile nrefs_newfile he (by omega),
      Keeps.of_stored le_rfl rfl rfl rfl, hp⟩
  · rename_i hle
    have hone : (s.ftable f).ref = 1 := by omega
    refine ⟨next_ne_panic, fun x s' hx => ?_⟩
    cases hx
    have hi := hs.lastRef paper_zero nrefs_zero paper_newfile nrefs_newfile hone
      (by rw [he, hs.new_kind]; rfl)
    rw [add_zero] at hi
    exact ⟨r, h0, hi, Keeps.of_stored le_rfl rfl rfl rfl, hp⟩

theorem Inv.setKind {k : FileKind} (h : Inv L m s (r + (Y + {.newfile f}) + g) sh)
    (hY : Paper f Y) (hYn : nrefs f Y = 0) (hk : ends Y = kindEnd k) :
    Inv L m (s.setFile f { s.ftable f with kind := k }) (r + {.file f} + g) sh := by
  have h' : Inv L m s (r + Y + {.newfile f} + g) sh := by rwa [add_assoc r Y]
  refine h.setFile paper_file (hY.add paper_newfile) ?_ (fun hm => ?_) (fun h0 => ?_) ?_
  · rw [nrefs_add, hYn, nrefs_newfile, nrefs_file]
  · -- the new file was the only one of this name
    have e : refs (r + (Y + {.newfile f}) + g + stored s)
        = refs (r + Y + g + stored s) + {(f, true)} := by
      simp only [map_add, refs_singleton, Token.fileOf]
      abel
    have hmem : (f, true) ∈ refs (r + (Y + {.newfile f}) + g + stored s) := by
      rw [e]
      simp
    have hc := (h.files.fresh f hmem).2
    rw [e, Multiset.count_add, Multiset.count_singleton_self] at hc
    have hz : (f, true) ∉ refs (r + {.file f} + g + stored s) := by
      have hle : (refs (r + g + stored s)).count (f, true) ≤ (refs (r + Y + g + stored s)).count (f, true) := by
        simp only [map_add, Multiset.count_add]
        omega
      have hcount : (refs (r + {.file f} + g + stored s)).count (f, true)
          = (refs (r + g + stored s)).count (f, true) := by
        simp [map_add, refs_singleton, Token.fileOf]
      rw [← Multiset.count_pos, hcount]
      omega
    exact absurd hm hz
  · have hpos : 1 ≤ (s.ftable f).ref := nrefs_newfile ▸ h'.nrefs_le
    have h0' : (s.ftable f).ref = 0 := h0
    omega
  · rw [map_add, ends_singleton, ends_singleton, hk, h'.new_kind]
    show kindEnd k + 0 = 0 + (kindEnd k + 0)
    rw [zero_add]

/-! ## pipes -/

theorem pages_pend : pages {Token.pend pi w} = 0 := pages_singleton _

theorem ends_pend : ends {Token.pend pi w} = {(pi, w)} := ends_singleton _

theorem samePages_pend (R : Ledger) (pi : Nat) (w : Bool) : SamePages R (R + {.pend pi w}) :=
  SamePages.add pages_pend (by simp)

theorem does_setfile_inode (h : Q () (r + {.file f})) :
    Acts (machine L m sh) B (.setfile f .inode) (r + {.newfile f}) Q := by
  refine acts_intro (fun _ _ => trivial) fun g s _ hs => ⟨next_ne_panic, fun x s' hx => ?_⟩
  cases hx
  have hs0 : Inv L m s (r + (0 + {.newfile f}) + g) sh := by rwa [zero_add]
  refine ⟨r + {.file f}, h, hs0.setKind paper_zero nrefs_zero (map_zero _),
    Keeps.of_stored le_rfl rfl rfl rfl, ?_⟩
  show pages (r + {.file f}) + 0 = pages (r + {.newfile f}) + 0
  rw [paper_file.pages_add, paper_newfile.pages_add]

theorem does_setfile_pipe (h : Q () (r + {.file f})) :
    Acts (machine L m sh) B (.setfile f (.pipe pi w)) (r + ({.pend pi w} + {.newfile f})) Q := by
  refine acts_intro (fun _ _ => trivial) fun g s _ hs => ⟨next_ne_panic, fun x s' hx => ?_⟩
  cases hx
  refine ⟨r + {.file f}, h, hs.setKind paper_pend nrefs_pend (ends_singleton _),
    Keeps.of_stored le_rfl rfl rfl rfl, ?_⟩
  show pages (r + {.file f}) + 0 = pages (r + ({.pend pi w} + {.newfile f})) + 0
  rw [paper_file.pages_add, (paper_pend.add paper_newfile).pages_add]

theorem stored_pipes (s : Sys) (l : List Pipe) :
    stored { s with pipes := l } + (s.pipes : Multiset Pipe).map (fun x => Token.priv x.pa)
      = stored s + (l : Multiset Pipe).map fun x => Token.priv x.pa := by
  exact add_right_comm _ _ _

theorem does_pipeopen (h : Q () (r + {.pend pi false} + {.pend pi true})) :
    Acts (machine L m sh) B (.pipeopen pi) (r + {.priv pi}) Q := by
  refine acts_intro (fun _ _ => trivial) fun g s _ hs => ⟨next_ne_panic, fun x s' hx => ?_⟩
  cases hx
  have hst : stored { s with pipes := ⟨pi, true, true⟩ :: s.pipes } = stored s + {.priv pi} := by
    have := stored_pipes s (⟨pi, true, true⟩ :: s.pipes)
    rw [← Multiset.cons_coe, Multiset.map_cons, ← Multiset.singleton_add, ← add_assoc] at this
    exact add_right_cancel this
  have e : r + {.pend pi false} + {.pend pi true} + g
        + stored { s with pipes := ⟨pi, true, true⟩ :: s.pipes }
      = r + {.priv pi} + g + stored s + {.pend pi false} + {.pend pi true} := by
    rw [hst]
    abel
  refine ⟨_, h, ⟨?_, ⟨fun q => ?_, hs.slots.ok, hs.slots.unused⟩,
    hs.files.withPipes ?_ rfl ?_ ?_⟩,
    Keeps.of_stored ?_ rfl rfl rfl, ?_⟩
  · rw [e]
    exact hs.kmem.same ((samePages_pend _ _ _).trans (samePages_pend _ _ _))
  · have := hs.slots.out q
    simpa using this
  · rw [e, map_add, map_add, refs_singleton, refs_singleton]
    exact (add_zero _).trans (add_zero _)
  · rw [e, map_add, map_add, ends_pend, ends_pend]
    have hop : openEnds { s with pipes := ⟨pi, true, true⟩ :: s.pipes }
        = {(pi, false)} + {(pi, true)} + openEnds s := by
      show ((⟨pi, true, true⟩ :: s.pipes : List Pipe) : Multiset Pipe).bind openEnd = _
      rw [← Multiset.cons_coe, Multiset.cons_bind]
      rfl
    rw [hop, ← add_assoc, ← add_assoc, add_comm ({(pi, false)} + {(pi, true)}), ← add_assoc,
      ← hs.files.balance]
    rfl
  · intro x hx
    rcases List.mem_cons.mp hx with rfl | hx
    · exact Multiset.singleton_ne_zero _ ∘ fun h => (add_eq_zero.mp h).1
    · exact hs.files.live x hx
  · rw [hst]
    exact Multiset.le_add_right _ _
  · show pages (r + {.pend pi false} + {.pend pi true}) + {pi} = pages (r + {.priv pi}) + 0
    rw [map_add, map_add, map_add, pages_pend, pages_pend, pages_singleton, add_zero, add_zero, add_zero]
    rfl

theorem openEnd_close {x : Pipe} (h : (pi, w) ∈ openEnd x) :
    x.pa = pi ∧ openEnd x = openEnd (x.close w) + {(x.pa, w)} := by
  obtain ⟨pa, readopen, writeopen⟩ := x
  have hm : (pi, w) ∈ (if readopen then {(pa, false)} else 0)
      + (if writeopen then {(pa, true)} else (0 : Multiset (Nat × Bool))) := h
  cases w with
  | false =>
    have hr : readopen = true ∧ pi = pa := by
      cases readopen <;> cases writeopen <;> simp_all
    refine ⟨hr.2.symm, ?_⟩
    rw [hr.1]
    show {(pa, false)} + _ = 0 + _ + {(pa, false)}
    rw [zero_add]
    exact add_comm _ _
  | true =>
    have hw : writeopen = true ∧ pi = pa := by
      cases readopen <;> cases writeopen <;> simp_all
    refine ⟨hw.2.symm, ?_⟩
    rw [hw.1]
    show _ + {(pa, true)} = _ + 0 + {(pa, true)}
    rw [add_zero]
    rfl

theorem openEnd_ne_zero {x : Pipe} (h : ¬ (x.readopen = false ∧ x.writeopen = false)) :
    openEnd x ≠ 0 := by
  obtain ⟨pa, readopen, writeopen⟩ := x
  cases readopen <;> cases writeopen <;> simp_all [openEnd]

theorem Inv.pipes_nodup (h : Inv L m s r sh) : (s.pipes.map Pipe.pa).Nodup := by
  rw [List.nodup_iff_count_le_one]
  intro pa
  by_cases hm : pa ∈ s.pipes.map Pipe.pa
  · obtain ⟨x, hx, rfl⟩ := List.mem_map.mp hm
    have hst : stored s = stored { s with pipes := [] }
        + ((s.pipes.map Pipe.pa : List Nat) : Multiset Nat).map .priv := by
      have := stored_pipes s []
      rw [Multiset.coe_nil, Multiset.map_zero, add_zero] at this
      rw [← this, ← Multiset.map_coe, Multiset.map_map]
      rfl
    have hpriv : Token.priv x.pa ∈ r + stored s := by
      rw [hst]
      refine Multiset.mem_add.mpr (.inr (Multiset.mem_add.mpr (.inr ?_)))
      exact Multiset.mem_map_of_mem _ (Multiset.mem_coe.mpr hm)
    have hpage := h.kmem.owned x.pa (mem_pages_of_mem hpriv (Multiset.mem_singleton_self _))
    have hone := (h.kmem.page x.pa hpage).single hpriv
    rw [hst, map_add, map_add, pages_map_priv, Multiset.count_add, Multiset.count_add,
      Multiset.coe_count] at hone
    omega
  · rw [List.count_eq_zero_of_not_mem hm]
    exact Nat.zero_le _

/-- the pipe of an end that nobody has closed is there, with this end open -/
theorem Inv.exists_pipe (hs : Inv L m s r sh) (h : (pi, w) ∈ openEnds s) :
    ∃ x, s.pipes.find? (fun x => x.pa = pi) = some x ∧ openEnd x = openEnd (x.close w) + {(x.pa, w)} := by
  obtain ⟨x, hx, hm⟩ := Multiset.mem_bind.mp h
  obtain ⟨hpa, hopen⟩ := openEnd_close hm
  have hsome : (s.pipes.find? fun x => decide (x.pa = pi)).isSome := by
    rw [List.find?_isSome]
    exact ⟨x, Multiset.mem_coe.mp hx, by simpa using hpa⟩
  obtain ⟨y, hy⟩ := Option.isSome_iff_exists.mp hsome
  have hyp : y.pa = pi := by simpa using List.find?_some hy
  have hxy : y = x := List.inj_on_of_nodup_map hs.pipes_nodup (List.mem_of_find?_eq_some hy)
    (Multiset.mem_coe.mp hx) (hyp.trans hpa.symm)
  subst hxy
  exact ⟨y, hy, hopen⟩

/-- one end of a pipe is closed; `X` is what the thread gets for it -/
theorem Inv.closePipe {x : Pipe} {l : List Pipe}
    (h : Inv L m s (r + {.pend x.pa w} + g) sh) (hx : x ∈ s.pipes)
    (hX : X + (l : Multiset Pipe).map (fun y => Token.priv y.pa)
      = (s.pipes : Multiset Pipe).map fun y => Token.priv y.pa)
    (hopen : openEnd x = openEnd (x.close w) + {(x.pa, w)})
    (hl : openEnd (x.close w) + ((s.pipes.erase x : List Pipe) : Multiset Pipe).bind openEnd
      = (l : Multiset Pipe).bind openEnd) (hlive : ∀ y ∈ l, openEnd y ≠ 0) (hplain : Plain X) :
    Inv L m { s with pipes := l } (r + X + g) sh := by
  have hst : stored { s with pipes := l } + X = stored s := by
    have := stored_pipes s l
    rw [← hX, ← add_assoc] at this
    exact add_right_cancel this
  have e : r + X + g + stored { s with pipes := l } + {.pend x.pa w}
      = r + {.pend x.pa w} + g + stored s := by
    rw [← hst]
    abel
  have hk := h.kmem
  have hf := h.files
  rw [← e] at hk hf
  refine ⟨hk.same (samePages_pend _ _ _).symm, ⟨fun q => ?_, h.slots.ok, h.slots.unused⟩,
    hf.withPipes ?_ rfl ?_ hlive⟩
  · have := h.slots.out q
    simp only [Multiset.count_add, hplain.slot] at this ⊢
    simpa using this
  · rw [map_add _ _ {Token.pend x.pa w}, refs_singleton]
    exact (add_zero _).symm
  have hb := hf.balance
  rw [map_add _ (r + X + g + stored { s with pipes := l }), ends_pend, ← add_assoc] at hb
  have hop : openEnds s = openEnds { s with pipes := l } + {(x.pa, w)} := by
    have hperm : (s.pipes : Multiset Pipe) = x ::ₘ ((s.pipes.erase x : List Pipe) : Multiset Pipe) := by
      rw [Multiset.cons_coe, Multiset.coe_eq_coe]
      exact List.perm_cons_erase hx
    calc openEnds s = openEnd x + ((s.pipes.erase x : List Pipe) : Multiset Pipe).bind openEnd := by
          rw [openEnds, hperm, Multiset.cons_bind]
      _ = openEnd (x.close w) + {(x.pa, w)}
            + ((s.pipes.erase x : List Pipe) : Multiset Pipe).bind openEnd := by rw [← hopen]
      _ = openEnd (x.close w) + ((s.pipes.erase x : List Pipe) : Multiset Pipe).bind openEnd
            + {(x.pa, w)} := add_right_comm _ _ _
      _ = openEnds { s with pipes := l } + {(x.pa, w)} := by
          rw [hl]
          rfl
  exact add_right_cancel (hb.trans hop)

theorem does_pipeclose {Q : Bool → Ledger → Prop} (hm : m.strict = false) (h1 : Q true (r + {.priv pi}))
    (h0 : Q false r) : Does (machine L m sh) B (.pipeclose pi w) (r + {.pend pi w}) Q := by
  refine does_intro fun g s _ hs => ?_
  have hsem : sem L (.pipeclose pi w) s = s.pipeclose pi w := rfl
  have hend : (pi, w) ∈ openEnds s := by
    rw [← hs.files.balance]
    simp [ends_pend]
  obtain ⟨x, hfind, hopen⟩ := hs.exists_pipe hend
  have hpa : x.pa = pi := by simpa using List.find?_some hfind
  have hx : x ∈ s.pipes := List.mem_of_find?_eq_some hfind
  subst hpa
  have hperm : (s.pipes : Multiset Pipe) = x ::ₘ ((s.pipes.erase x : List Pipe) : Multiset Pipe) := by
    rw [Multiset.cons_coe, Multiset.coe_eq_coe]
    exact List.perm_cons_erase hx
  have hkeep : ∀ s', Keeps m g s s' := fun s' hm' => absurd hm' (by rw [hm]; exact Bool.false_ne_true)
  rw [hsem]
  rw [Sys.pipeclose, hfind]
  dsimp only
  split
  · rename_i hc
    refine ⟨next_ne_panic, fun y s' hy => ?_⟩
    cases hy
    have hce : openEnd (x.close w) = 0 := by
      rw [openEnd, hc.1, hc.2]
      rfl
    have hlive : ∀ y ∈ s.pipes.erase x, openEnd y ≠ 0 :=
      fun y hy => hs.files.live y (List.mem_of_mem_erase hy)
    refine ⟨r + {.priv x.pa}, h1, hs.closePipe hx ?_ hopen ?_ hlive ?_, hkeep _, ?_⟩
    · rw [hperm, Multiset.map_cons, ← Multiset.singleton_add]
    · rw [hce, zero_add]
    · exact ⟨fun q => by simp, ends_singleton _⟩
    · show pages (r + {.priv x.pa}) + 0 = pages (r + {.pend x.pa w}) + {x.pa}
      rw [map_add, map_add, pages_pend, pages_singleton, add_zero, add_zero]
      rfl
  · rename_i hc
    refine ⟨next_ne_panic, fun y s' hy => ?_⟩
    cases hy
    have hca : (x.close w).pa = x.pa := by cases w <;> rfl
    have hi := hs.closePipe (l := x.close w :: s.pipes.erase x) hx ?_ hopen ?_ ?_ Plain.zero
    · rw [add_zero] at hi
      refine ⟨r, h0, hi, hkeep _, ?_⟩
      show pages r + 0 = pages (r + {.pend x.pa w}) + 0
      rw [(samePages_pend r x.pa w).pages]
    · rw [zero_add, hperm, ← Multiset.cons_coe, Multiset.map_cons, Multiset.map_cons, hca]
    · rw [← Multiset.cons_coe, Multiset.cons_bind]
    · intro y hy
      rcases List.mem_cons.mp hy with rfl | hy
      · exact openEnd_ne_zero hc
      · exact hs.files.live y (List.mem_of_mem_erase hy)

/-! ## the pages of the kernel -/

theorem does_keep {l : List Nat} (h : Q () r) :
    Acts (machine L m sh) B (.keep l) (r + (l : Multiset Nat).map .priv) Q := by
  refine acts_intro (fun _ _ => trivial) fun g s _ hs => ⟨next_ne_panic, fun x s' hx => ?_⟩
  cases hx
  have hst : stored { s with kernel := l ++ s.kernel } = stored s + (l : Multiset Nat).map .priv := by
    show ∑ q, slotTok s q + ((l ++ s.kernel : List Nat) : Multiset Nat).map Token.priv + _
      = ∑ q, slotTok s q + _ + _ + _
    rw [← Multiset.coe_add, Multiset.map_add]
    abel
  have e : r + g + stored { s with kernel := l ++ s.kernel }
      = r + (l : Multiset Nat).map .priv + g + stored s := by
    rw [hst]
    abel
  have hpl : Plain ((l : Multiset Nat).map Token.priv) := Plain.map (by simp) fun _ => rfl
  refine ⟨r, h, ⟨?_, ⟨fun q => ?_, hs.slots.ok, hs.slots.unused⟩, ?_⟩,
    Keeps.of_stored ?_ rfl rfl rfl, ?_⟩
  · rw [e]
    exact hs.kmem
  · have := hs.slots.out q
    simp only [Multiset.count_add, hpl.slot] at this ⊢
    exact this
  · rw [e]
    exact hs.files.congr rfl rfl rfl rfl
  · rw [hst]
    exact Multiset.le_add_right _ _
  · show pages r + (l : Multiset Nat) = pages (r + (l : Multiset Nat).map .priv) + 0
    rw [map_add, pages_map_priv, add_zero]

end

end Vm
