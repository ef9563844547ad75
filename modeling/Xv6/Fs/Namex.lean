import Xv6.Fs.Path

/-!
# `namei` and `nameiparent` (`kernel/fs.c`)

`ilock` reads an inode from the disk; `refs` are the references to each inode that are held elsewhere.

* `Resolves`            what a path is looked up for: one name after the other;
* `namexLoop_spec`      `namei`;
* `namexLoop_parent`    `nameiparent`;
* `namexLoop_congr`     only the components matter;
* `path_resolution`     for every path.
-/

namespace Fs
open Bytes Run Assoc List

section
variable (sb : Superblock)

/-- drop one of the `ref` references to an inode -/
def iput (s : Store) (ref inum : Nat) : Outcome Store :=
  if ref = 1 ∧ (inodeAt sb s inum).nlink = 0 then do
    let (ip, s) ← itrunc sb s inum (inodeAt sb s inum)
    Outcome.next (iupdate sb s inum { ip with type := 0 })
  else .next s

/-- the loop of `namex`, with at most `k` turns left; the result is the inode, and the buffer -/
def namexLoop (refs : Nat → Nat) (parent : Bool) (de : Buf) :
    (k : Nat) → Store → (ip : Nat) → (path : List Byte) → (name : Buf) → Outcome (Option Nat × Buf × Store)
  | 0, _, _, _, _ => .blocked
  | k + 1, s, ip, path, name =>
    match skipelem path name with
    | none =>
      if parent then do
        let s ← iput sb s (refs ip + 1) ip
        Outcome.next (none, name, s)
      else .next (some ip, name, s)
    | some (path, name) =>
      let d := inodeAt sb s ip
      if d.type = 0 then .panic "ilock: no type"
      else if d.type ≠ T_DIR then do
        let s ← iput sb s (refs ip + 1) ip
        Outcome.next (none, name, s)
      else if parent ∧ deref path = 0 then .next (some ip, name, s)
      else do
        let (next, _, s) ← dirlookup sb s d de name
        match next with
        | none => do
          let s ← iput sb s (refs ip + 1) ip
          Outcome.next (none, name, s)
        | some (inum, _) => do
          let s ← iput sb s (if inum.toNat = ip then refs ip + 2 else refs ip + 1) ip
          namexLoop refs parent de k s inum.toNat path name

/-- where a path starts -/
def startOf (cwd : Nat) (path : List Byte) : Nat := if deref path = SLASH then ROOTINO else cwd

def namex (refs : Nat → Nat) (s : Store) (cwd : Nat) (path : List Byte) (parent : Bool) (de name : Buf) :
    Outcome (Option Nat × Buf × Store) :=
  namexLoop sb refs parent de (path.length + 1) s (startOf cwd path) path name

def namei (refs : Nat → Nat) (s : Store) (cwd : Nat) (path : List Byte) (de name : Buf) :
    Outcome (Option Nat × Buf × Store) := namex sb refs s cwd path false de name

def nameiparent (refs : Nat → Nat) (s : Store) (cwd : Nat) (path : List Byte) (de name : Buf) :
    Outcome (Option Nat × Buf × Store) := namex sb refs s cwd path true de name

/-! ## what a path is looked up for -/

/-- the entry `x` of the directory `d` -/
def Entry (s : Store) (d : Nat) (x : List Byte) (r : Option (BitVec 16 × Nat)) : Prop :=
  Found (slots s (inodeAt sb s d)) (nslots (inodeAt sb s d)) x r

/-- names are looked up one after the other, from the inode `d` on -/
inductive Resolves (s : Store) : (d : Nat) → List (List Byte) → Option Nat → Prop where
  | done {d : Nat} : Resolves s d [] (some d)
  | notDir {d : Nat} {x : List Byte} {l : List (List Byte)} : (inodeAt sb s d).type ≠ T_DIR → Resolves s d (x :: l) none
  | lacks {d : Nat} {x : List Byte} {l : List (List Byte)} : (inodeAt sb s d).type = T_DIR → Entry sb s d x none →
      Resolves s d (x :: l) none
  | step {d k : Nat} {v : BitVec 16} {x : List Byte} {l : List (List Byte)} {r : Option Nat} :
      (inodeAt sb s d).type = T_DIR → Entry sb s d x (some (v, k)) → Resolves s v.toNat l r → Resolves s d (x :: l) r

/-- dropping a reference does not free the inode -/
def Kept (refs : Nat → Nat) (s : Store) (d : Nat) : Prop := (inodeAt sb s d).nlink ≠ 0 ∨ refs d ≠ 0

/-- an inode in use; if it is a directory, its blocks are there and its entries are whole -/
structure Sane (refs : Nat → Nat) (s : Store) (d : Nat) : Prop where
  used : (inodeAt sb s d).type ≠ 0
  kept : Kept sb refs s d
  dir : (inodeAt sb s d).type = T_DIR → Allocated s (inodeAt sb s d) ∧ (inodeAt sb s d).size.toNat % 16 = 0

/-- the inodes in which a name is looked up, from `d` on -/
def Walkable (refs : Nat → Nat) (s : Store) (d : Nat) (l : List (List Byte)) : Prop :=
  ∀ l₁ x l₂ e, l = l₁ ++ x :: l₂ → Resolves sb s d l₁ (some e) → Sane sb refs s e

/-- the names of a path, cut to `DIRSIZ` bytes -/
def pathNames (p : List Byte) : List (List Byte) := (components p).map fun c => c.take DIRSIZ

end

section
variable {sb : Superblock} {refs : Nat → Nat} {s : Store} {d k : Nat} {p q : List Byte} {name de : Buf}
  {r r' : Option Nat} {l : List (List Byte)}

theorem Resolves.unique (h : Resolves sb s d l r) (h' : Resolves sb s d l r') : r = r' := by
  induction h with
  | done =>
    cases h'
    rfl
  | notDir hd =>
    cases h' with
    | notDir | lacks => rfl
    | step hd' => exact absurd hd' hd
  | lacks hd he =>
    cases h' with
    | notDir | lacks => rfl
    | step _ he' =>
      have := he.unique he'
      cases this
  | step hd he _ ih =>
    cases h' with
    | notDir hd' => exact absurd hd hd'
    | lacks _ he' =>
      have := he.unique he'
      cases this
    | step _ he' hr' =>
      have := he.unique he'
      cases this
      exact ih hr'

theorem Resolves.append {e : Nat} {l' : List (List Byte)} (h : Resolves sb s d l r) (he : r = some e)
    (h' : Resolves sb s e l' r') : Resolves sb s d (l ++ l') r' := by
  induction h with
  | done =>
    cases he
    exact h'
  | notDir | lacks => cases he
  | step hd hx _ ih => exact .step hd hx (ih he)

theorem Resolves.fails (h : Resolves sb s d l r) (hr : r = none) :
    ∃ l₁ x l₂ e, l = l₁ ++ x :: l₂ ∧ Resolves sb s d l₁ (some e) ∧
      ((inodeAt sb s e).type ≠ T_DIR ∨ Entry sb s e x none) := by
  induction h with
  | done => cases hr
  | @notDir d x l hd => exact ⟨[], x, l, d, rfl, .done, .inl hd⟩
  | @lacks d x l hd hx => exact ⟨[], x, l, d, rfl, .done, .inr hx⟩
  | @step d k v x l r hd hx _ ih =>
    obtain ⟨l₁, y, l₂, e, hl, hres, hfail⟩ := ih hr
    exact ⟨x :: l₁, y, l₂, e, by rw [hl, cons_append], .step hd hx hres, hfail⟩

/-- the lookup fails if and only if some inode on the way is not a directory or lacks the next name -/
theorem Resolves.none_iff (h : Resolves sb s d l r) :
    r = none ↔ ∃ l₁ x l₂ e, l = l₁ ++ x :: l₂ ∧ Resolves sb s d l₁ (some e) ∧
      ((inodeAt sb s e).type ≠ T_DIR ∨ Entry sb s e x none) := by
  refine ⟨h.fails, ?_⟩
  rintro ⟨l₁, x, l₂, e, rfl, hres, hfail⟩
  refine h.unique (hres.append rfl ?_)
  by_cases hd : (inodeAt sb s e).type = T_DIR
  · exact .lacks hd (hfail.resolve_left (not_not.mpr hd))
  · exact .notDir hd

/-! ## one turn -/

variable {p' x : List Byte}

theorem Walkable.head (h : Walkable sb refs s d (x :: l)) : Sane sb refs s d := h [] x l d rfl .done

theorem Walkable.tail {v : BitVec 16} {j : Nat} (h : Walkable sb refs s d (x :: l))
    (hd : (inodeAt sb s d).type = T_DIR) (hx : Entry sb s d x (some (v, j))) : Walkable sb refs s v.toNat l := by
  intro l₁ y l₂ e hl hres
  exact h (x :: l₁) y l₂ e (by rw [hl, cons_append]) (.step hd hx hres)

theorem iput_kept (h : Kept sb refs s d) {ref : Nat} (hr : refs d + 1 ≤ ref) : iput sb s ref d = .next s := by
  refine if_neg fun hc => ?_
  rcases h with h | h
  · exact h hc.2
  · omega

theorem namexLoop_cons {parent : Bool} {c : List Byte} (hd : Sane sb refs s d)
    (hskip : skipelem p name = some (skipSlashes q, putName name c)) (h0 : (0 : Byte) ∉ c) (hq : (0 : Byte) ∉ q) :
    (inodeAt sb s d).type ≠ T_DIR ∧
        namexLoop sb refs parent de (k + 1) s d p name = .next (none, putName name c, s) ∨
      (inodeAt sb s d).type = T_DIR ∧ (parent = true ∧ components q = []) ∧
        namexLoop sb refs parent de (k + 1) s d p name = .next (some d, putName name c, s) ∨
      (inodeAt sb s d).type = T_DIR ∧ ¬ (parent = true ∧ components q = []) ∧ Entry sb s d (c.take DIRSIZ) none ∧
        namexLoop sb refs parent de (k + 1) s d p name = .next (none, putName name c, s) ∨
      ∃ v j, (inodeAt sb s d).type = T_DIR ∧ ¬ (parent = true ∧ components q = []) ∧
        Entry sb s d (c.take DIRSIZ) (some (v, j)) ∧
        namexLoop sb refs parent de (k + 1) s d p name =
          namexLoop sb refs parent de k s v.toNat (skipSlashes q) (putName name c) := by
  have hput : iput sb s (refs d + 1) d = .next s := iput_kept hd.kept (Nat.le_refl _)
  rw [namexLoop, hskip]
  dsimp only
  rw [if_neg hd.used, hput]
  by_cases ht : (inodeAt sb s d).type = T_DIR
  swap
  · rw [if_pos ht]
    exact .inl ⟨ht, rfl⟩
  rw [if_neg (not_not.mpr ht)]
  have hend := deref_skipSlashes hq
  by_cases hlast : parent = true ∧ components q = []
  · rw [if_pos ⟨hlast.1, hend.mpr hlast.2⟩]
    exact .inr (.inl ⟨ht, hlast, rfl⟩)
  rw [if_neg fun hc => hlast ⟨hc.1, hend.mp hc.2⟩]
  obtain ⟨ha, he⟩ := hd.dir ht
  obtain ⟨x, hx⟩ := exists_found (slots s (inodeAt sb s d)) (nslots (inodeAt sb s d)) (nameAt (putName name c))
  rw [dirlookup_eq ht ha he hx, next_bind]
  rw [nameAt_putName h0] at hx
  cases x with
  | none =>
    refine .inr (.inr (.inl ⟨ht, hlast, hx, ?_⟩))
    rw [hput]
    rfl
  | some y =>
    refine .inr (.inr (.inr ⟨y.1, y.2, ht, hlast, hx, ?_⟩))
    dsimp only [report, Option.map]
    rw [iput_kept hd.kept (by split <;> omega)]
    rfl

/-! ## all turns -/

theorem pathNames_cons {c : List Byte} (h : components p = c :: components q) :
    pathNames p = c.take DIRSIZ :: pathNames (skipSlashes q) := by
  rw [pathNames, h, pathNames, components_skipSlashes]
  rfl

theorem namexLoop_spec (hfs : Walkable sb refs s d (pathNames p)) (h0 : (0 : Byte) ∉ p) (hk : p.length < k) :
    ∃ r name', namexLoop sb refs false de k s d p name = .next (r, name', s) ∧ Resolves sb s d (pathNames p) r := by
  induction k generalizing d p name with
  | zero => omega
  | succ k ih =>
    obtain ⟨h1, h2, -⟩ | ⟨c, q, h1, h2, h3, h4, h5, -⟩ := skipelem_cases h0 name
    · refine ⟨some d, name, ?_, ?_⟩
      · rw [namexLoop, h1]
        rfl
      · rw [pathNames, h2]
        exact .done
    rw [pathNames_cons h2] at hfs ⊢
    have hlen := (skipSlashes_suffix q).length_le
    obtain ⟨ht, hrun⟩ | ⟨ht, hl, hrun⟩ | ⟨ht, -, hx, hrun⟩ | ⟨v, j, ht, -, hx, hrun⟩ :=
      @namexLoop_cons sb refs s d k p q name de false c hfs.head h1 h3 h4
    · exact ⟨none, _, hrun, .notDir ht⟩
    · cases hl.1
    · exact ⟨none, _, hrun, .lacks ht hx⟩
    · obtain ⟨r, name', hrun', hres⟩ := @ih v.toNat (skipSlashes q) (putName name c) (hfs.tail ht hx)
        (fun h => h4 ((skipSlashes_suffix q).subset h)) (by omega)
      exact ⟨r, name', hrun.trans hrun', .step ht hx hres⟩

theorem namexLoop_parent_nil (hd : Kept sb refs s d) (h0 : (0 : Byte) ∉ p) (h : components p = []) :
    namexLoop sb refs true de (k + 1) s d p name = .next (none, name, s) := by
  obtain ⟨h1, -⟩ | ⟨c, q, -, h2, -⟩ := skipelem_cases h0 name
  · rw [namexLoop, h1, if_pos rfl, iput_kept hd (Nat.le_refl _)]
    rfl
  · rw [h] at h2
    cases h2

theorem namexLoop_parent (hfs : Walkable sb refs s d (pathNames p)) (h0 : (0 : Byte) ∉ p)
    (hk : p.length < k) (hp : pathNames p = l ++ [x]) :
    ∃ r₀ r name', namexLoop sb refs true de k s d p name = .next (r, name', s) ∧
      Resolves sb s d l r₀ ∧ (∀ e, r = some e ↔ r₀ = some e ∧ (inodeAt sb s e).type = T_DIR) ∧
      (r ≠ none → nameAt name' = x) := by
  induction k generalizing d p name l with
  | zero => omega
  | succ k ih =>
    obtain ⟨-, h2, -⟩ | ⟨c, q, h1, h2, h3, h4, h5, -⟩ := skipelem_cases h0 name
    · rw [pathNames, h2] at hp
      exact absurd hp.symm (append_ne_nil_of_right_ne_nil l (cons_ne_nil x []))
    have hlen := (skipSlashes_suffix q).length_le
    rw [pathNames_cons h2] at hp hfs
    have hturn := @namexLoop_cons sb refs s d k p q name de true c hfs.head h1 h3 h4
    cases l with
    | nil =>
      obtain ⟨hx, hq⟩ := cons.inj hp
      have hq' : components q = [] := by
        rw [pathNames, components_skipSlashes] at hq
        exact map_eq_nil_iff.mp hq
      obtain ⟨ht, hrun⟩ | ⟨ht, -, hrun⟩ | ⟨-, hl, -⟩ | ⟨v, j, -, hl, -⟩ := hturn
      · refine ⟨some d, none, _, hrun, .done, fun e => ⟨fun h => (by cases h), fun h => ?_⟩, fun h => absurd rfl h⟩
        cases h.1
        exact absurd h.2 ht
      · refine ⟨some d, some d, _, hrun, .done, fun e => ⟨fun h => ?_, fun h => h.1⟩, fun _ => ?_⟩
        · cases h
          exact ⟨rfl, ht⟩
        · rw [nameAt_putName h3, hx]
      · exact absurd ⟨rfl, hq'⟩ hl
      · exact absurd ⟨rfl, hq'⟩ hl
    | cons y l =>
      obtain ⟨hy, hq⟩ := cons.inj hp
      subst hy
      have hnone : ∀ e, (none : Option Nat) = some e ↔ (none : Option Nat) = some e ∧ (inodeAt sb s e).type = T_DIR :=
        fun e => ⟨fun h => (by cases h), fun h => h.1⟩
      obtain ⟨ht, hrun⟩ | ⟨-, hl, -⟩ | ⟨ht, -, hx, hrun⟩ | ⟨v, j, ht, -, hx, hrun⟩ := hturn
      · exact ⟨none, none, _, hrun, .notDir ht, hnone, fun h => absurd rfl h⟩
      · rw [pathNames, components_skipSlashes, hl.2] at hq
        exact absurd hq.symm (append_ne_nil_of_right_ne_nil l (cons_ne_nil x []))
      · exact ⟨none, none, _, hrun, .lacks ht hx, hnone, fun h => absurd rfl h⟩
      · obtain ⟨r₀, r, name', hrun', hres, hr, hname⟩ := @ih v.toNat (skipSlashes q) (putName name c) l (hfs.tail ht hx)
          (fun h => h4 ((skipSlashes_suffix q).subset h)) (by omega) hq
        exact ⟨r₀, r, name', hrun.trans hrun', .step ht hx hres, hr, hname⟩

theorem namexLoop_congr {parent : Bool} {k' : Nat} (h0 : (0 : Byte) ∉ p) (h0' : (0 : Byte) ∉ p')
    (hk : p.length < k) (hk' : p'.length < k') (h : components p = components p') :
    namexLoop sb refs parent de k s d p name = namexLoop sb refs parent de k' s d p' name := by
  induction k generalizing s d p name k' p' with
  | zero => omega
  | succ k ih =>
    obtain ⟨k', rfl⟩ := Nat.exists_eq_succ_of_ne_zero (by omega : k' ≠ 0)
    rw [namexLoop, namexLoop]
    obtain ⟨h1, h2, -⟩ | ⟨c, q, h1, h2, h3, h4, h5, -⟩ := skipelem_cases h0 name
    · obtain ⟨h1', -⟩ | ⟨c', q', -, h2', -⟩ := skipelem_cases h0' name
      · rw [h1, h1']
      · rw [← h, h2] at h2'
        cases h2'
    obtain ⟨-, h2', -⟩ | ⟨c', q', h1', h2', -, h4', h5', -⟩ := skipelem_cases h0' name
    · rw [h2, h2'] at h
      cases h
    rw [h2, h2'] at h
    obtain ⟨rfl, hq⟩ := cons.inj h
    have hend : deref (skipSlashes q) = 0 ↔ deref (skipSlashes q') = 0 := by
      rw [deref_skipSlashes h4, deref_skipSlashes h4', hq]
    have hlen := (skipSlashes_suffix q).length_le
    have hlen' := (skipSlashes_suffix q').length_le
    have hrest : ∀ s d name, namexLoop sb refs parent de k s d (skipSlashes q) name =
        namexLoop sb refs parent de k' s d (skipSlashes q') name := by
      intro s d name
      refine ih (fun hm => h4 ((skipSlashes_suffix q).subset hm)) (fun hm => h4' ((skipSlashes_suffix q').subset hm))
        (by omega) (by omega) ?_
      rw [components_skipSlashes, components_skipSlashes, hq]
    rw [h1, h1']
    simp only [hend, hrest]

/-! ## the names of a path -/

/-- the names that one call of `skipelem` after the other stores -/
def elems : (k : Nat) → List Byte → Buf → List (List Byte)
  | 0, _, _ => []
  | k + 1, path, name =>
    match skipelem path name with
    | none => []
    | some (path, name) => nameAt name :: elems k path name

theorem elems_eq (h0 : (0 : Byte) ∉ p) (hk : p.length < k) : elems k p name = pathNames p := by
  induction k generalizing p name with
  | zero => omega
  | succ k ih =>
    rw [elems]
    obtain ⟨h1, h2, -⟩ | ⟨c, q, h1, h2, h3, h4, h5, -⟩ := skipelem_cases h0 name
    · rw [h1, pathNames, h2]
      rfl
    · have hlen := (skipSlashes_suffix q).length_le
      rw [h1, pathNames_cons h2]
      dsimp only
      rw [nameAt_putName h3, ih (fun h => h4 ((skipSlashes_suffix q).subset h)) (by omega)]

/-- one more slash between components, or behind the last one -/
def ExtraSlash (p p' : List Byte) : Prop :=
  (∃ a b, p = a ++ SLASH :: b ∧ p' = a ++ SLASH :: SLASH :: b) ∨ p ≠ [] ∧ p' = p ++ [SLASH]

theorem ExtraSlash.components (h : ExtraSlash p p') : components p' = components p := by
  rcases h with ⟨a, b, rfl, rfl⟩ | ⟨-, rfl⟩
  · rw [components_append, components_append, components_slash]
  · rw [components_append, components_nil, append_nil]

theorem ExtraSlash.deref (h : ExtraSlash p p') : deref p' = deref p := by
  rcases h with ⟨a, b, rfl, rfl⟩ | ⟨hp, rfl⟩
  · cases a with
    | nil | cons => rfl
  · cases p with
    | nil => exact absurd rfl hp
    | cons => rfl

end

/-! ## an empty root directory -/

def rooted : Store := iupdate small blank 1 newDir

theorem rooted_root : inodeAt small rooted 1 = newDir := inodeAt_iupdate_self

theorem rooted_sane : Sane small (fun _ => 0) rooted 1 := by
  refine ⟨?_, .inl ?_, fun _ => ⟨fun bn hbn => ?_, ?_⟩⟩
  · rw [rooted_root]
    decide
  · rw [rooted_root]
    decide
  · rw [rooted_root] at hbn
    exact absurd hbn (Nat.not_lt_zero bn)
  · rw [rooted_root]
    rfl

end Fs
