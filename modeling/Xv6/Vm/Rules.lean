import Xv6.Vm.Ledger
import Mathlib.Tactic.Abel

/-!
# The rules for the actions

`Inv L m s r` is the invariant of the shared state `s` when the threads own `r`: the allocator
(`KInv`), the process table (`SInv`) and the file table (`FInv`).  The mode `m` says whether
references may leak, and whether threads are `strict`: then they write to private pages only, and a
record that they put back is a free one; so the contents of all pages that others own or that are
stored and the records of all processes stay as they are (`Kept`).  With `sh` the invariant says
moreover which pages an address space maps (`Shape`), and the panics that follow from it are fatal.

The main results are the rules `machine_kalloc` to `does_reparent`, one for each action; those that
`Vm.Lawful` asks of any discipline are named after `machine`.
-/

namespace Vm
open Run Bytes Prog Own Function

/-- which discipline the threads follow -/
structure Mode where
  leak : Bool
  strict : Bool

/-! ## address spaces -/

/-- a page table of a process with the trapframe `tf` -/
structure Space (L : Layout) (tf : Nat) (T : Table 2) : Prop where
  leafy : T.Leafy
  trampoline : T.leaf TRAMPOLINE = Pte.ofPa L.trampoline (PTE_R ||| PTE_X ||| PTE_V)
  trapframe : T.leaf TRAPFRAME = Pte.ofPa tf (PTE_R ||| PTE_W ||| PTE_V)
  high : ∀ va, MAXVA ≤ va → va < 2 ^ 39 → (T.leaf va).has PTE_V = false

/-- the user part of an address space: the pages below `sz` are mapped, to different pages -/
structure Shape (L : Layout) (T : Table 2) (sz : Nat) : Prop where
  mapped : ∀ va, va < TRAPFRAME → ((T.leaf va).has PTE_V = true ↔ va < PGROUNDUP sz)
  page : ∀ va, va < TRAPFRAME → (T.leaf va).has PTE_V = true → L.Page (T.leaf va).pa
  inj : ∀ va vb, va < TRAPFRAME → vb < TRAPFRAME → (T.leaf va).has PTE_V = true →
    (T.leaf vb).has PTE_V = true → (T.leaf va).pa = (T.leaf vb).pa → va / PGSIZE = vb / PGSIZE

/-- the record of a slot that is not out -/
structure RecOk (L : Layout) (x : Proc) (sh : Bool := false) : Prop where
  empty : x.state = .unused ∨ x.state = .used → recTok x = 0
  closed : x.state = .zombie → fileTok x.ofile = 0
  space : x.state = .runnable ∨ x.state = .zombie →
    ∃ T tf, x.pagetable = some T ∧ x.trapframe = some tf ∧ Space L tf T ∧ x.sz ≤ TRAPFRAME
  shape : sh = true → x.state = .runnable ∨ x.state = .zombie →
    ∀ T, x.pagetable = some T → Shape L T x.sz

/-! ## the invariant -/

structure SInv (L : Layout) (s : Sys) (r : Ledger) (sh : Bool := false) : Prop where
  out : ∀ q, r.count (.slot q) = if s.out q then 1 else 0
  ok : ∀ q, s.out q = false → RecOk L (s.proc q) sh
  unused : ∀ q, (s.proc q).state = .unused → s.out q = false

def kindEnd : FileKind → Multiset (Nat × Bool)
  | .pipe pi w => {(pi, w)}
  | _ => 0

def fileEnds (s : Sys) : Multiset (Nat × Bool) := ∑ f, kindEnd (s.ftable f).kind

def openEnd (x : Pipe) : Multiset (Nat × Bool) :=
  (if x.readopen then {(x.pa, false)} else 0) + (if x.writeopen then {(x.pa, true)} else 0)

def openEnds (s : Sys) : Multiset (Nat × Bool) := (s.pipes : Multiset Pipe).bind openEnd

structure FInv (s : Sys) (R : Ledger) : Prop where
  ref : ∀ f, (refs R).count (f, false) + (refs R).count (f, true) = (s.ftable f).ref
  fresh : ∀ f, (f, true) ∈ refs R → (s.ftable f).kind = .none ∧ (refs R).count (f, true) = 1
  closed : ∀ f, (s.ftable f).ref = 0 → (s.ftable f).kind = .none
  balance : fileEnds s + ends R = openEnds s
  live : ∀ x ∈ s.pipes, openEnd x ≠ 0

structure Inv (L : Layout) (m : Mode) (s : Sys) (r : Ledger) (sh : Bool := false) : Prop where
  kmem : KInv L m.leak s.kmem (r + stored s)
  slots : SInv L s r sh
  files : FInv s (r + stored s)

/-! ## the machine -/

def gain : (o : Op) → o.Res → Multiset Nat
  | .kalloc, x => match x with
    | some pa => {pa}
    | none => 0
  | .inckref pa, _ => {pa}
  | .reap _ _, x => pages (recTok x)
  | .pipeclose pi _, x => match x with
    | true => {pi}
    | false => 0
  | _, _ => 0

def loss : (o : Op) → o.Res → Multiset Nat
  | .kfree pa, _ => {pa}
  | .deckref pa, _ => {pa}
  | .putback _ x, _ => pages (recTok x)
  | .pipeopen pi, _ => {pi}
  | .keep l, _ => l
  | _, _ => 0

/-- the last end of a pipe to be closed obliges its thread to free the page -/
def owes : (o : Op) → o.Res → Option Op → Prop
  | .pipeclose pi _, x, q => match x with
    | true => q = some (.kfree pi)
    | false => True
  | _, _, _ => True

theorem owes_none {o : Op} {x : o.Res} (h : owes o x none) (q : Option Op) : owes o x q := by
  cases o with
  | pipeclose pi w =>
    cases x with
    | false => trivial
    | true => cases h
  | _ => trivial

/-- the pages of `g` and the stored ones keep their contents, the slots in use their records -/
structure Kept (g : Ledger) (s s' : Sys) : Prop where
  stored : pages (stored s) ≤ pages (stored s')
  mem : ∀ a, PGROUNDDOWN a ∈ pages (g + Vm.stored s) → s'.kmem.mem a = s.kmem.mem a
  slots : ∀ q, s.out q = false → (s.proc q).state ≠ .unused → s'.out q = false ∧ s'.proc q = s.proc q
  other : ∀ q, s'.proc q = s.proc q ∨ s'.proc q = Proc.locked ∨ s'.proc q = Proc.free

def Keeps (m : Mode) (g : Ledger) (s s' : Sys) : Prop := m.strict = true → Kept g s s'

variable {g : Ledger} {m : Mode} {s : Sys}

theorem Keeps.rfl : Keeps m g s s :=
  fun _ => ⟨le_refl _, fun _ _ => Eq.refl _, fun _ h _ => ⟨h, Eq.refl _⟩, fun _ => .inl (Eq.refl _)⟩

theorem Keeps.of_stored {s' : Sys} (h : stored s ≤ stored s')
    (hm : s'.kmem.mem = s.kmem.mem) (ho : s'.out = s.out) (hp : s'.proc = s.proc) : Keeps m g s s' := by
  obtain ⟨x, hx⟩ := Multiset.le_iff_exists_add.mp h
  refine fun _ => ⟨?_, fun a _ => congrFun hm a, fun q hq _ => ⟨(congrFun ho q).trans hq, congrFun hp q⟩,
    fun q => .inl (congrFun hp q)⟩
  rw [hx, map_add]
  exact Multiset.le_add_right _ _

theorem Keeps.trans {t u : Sys} (h : Keeps m g s t) (h' : Keeps m g t u) : Keeps m g s u := by
  intro hm
  obtain ⟨h1, h2, h3, h4⟩ := h hm
  obtain ⟨h1', h2', h3', h4'⟩ := h' hm
  refine ⟨h1.trans h1', fun a ha => ?_, fun q ho hp => ?_, fun q => ?_⟩
  · rw [h2' a, h2 a ha]
    rw [map_add] at ha ⊢
    exact Multiset.mem_of_le (add_le_add_right h1 _) ha
  · obtain ⟨ho1, hp1⟩ := h3 q ho hp
    obtain ⟨ho2, hp2⟩ := h3' q ho1 (hp1 ▸ hp)
    exact ⟨ho2, hp2.trans hp1⟩
  · rcases h4' q with e | e
    · rw [e]
      exact h4 q
    · exact .inr e

theorem Keeps.left {f : Ledger} {t : Sys} (h : Keeps m (f + g) s t) : Keeps m f s t := by
  intro hm
  obtain ⟨h1, h2, h3, h4⟩ := h hm
  refine ⟨h1, fun a ha => h2 a ?_, h3, h4⟩
  rw [map_add] at ha ⊢
  rw [map_add]
  rcases Multiset.mem_add.mp ha with ha | ha
  · exact Multiset.mem_add.mpr (.inl (Multiset.mem_add.mpr (.inl ha)))
  · exact Multiset.mem_add.mpr (.inr ha)

/-- the panics of `vm.c` about what is mapped -/
def shapePanics : List String :=
  ["uvmunmap: walk", "uvmunmap: not mapped", "uvmunmap: not a leaf", "freewalk: leaf", "mappages: remap",
    "uvmcopy: pte should exist", "uvmcopy: page not present"]

def Fatal (sh : Bool) (msg : String) : Prop := msg = undef ∨ (sh = true ∧ msg ∈ shapePanics)

def machine (L : Layout) (m : Mode) (sh : Bool := false) :
    Machine Sys Op Op.Res Ledger (Multiset Nat) where
  sem := sem L
  Inv s r := Inv L m s r sh
  keeps := Keeps m
  keeps_refl _ _ := Keeps.rfl
  keeps_trans _ _ _ _ h h' := h.trans h'
  keeps_left _ _ _ _ h := h.left
  pages := pages
  gain := gain
  loss := loss
  owes := owes
  owes_none _ _ h q := owes_none h q
  fatal := Fatal sh

/-! ## actions on pages -/

section
variable {L : Layout} {m : Mode} {sh : Bool} {s s' : Sys} {B r g : Ledger} {t : Token} {pa : Nat} {k' : Kmem}

/-- a token for a page -/
def Token.IsPage (t : Token) (pa : Nat) : Prop := t = .priv pa ∨ t = .user pa

theorem Token.IsPage.slot (h : t.IsPage pa) (q : Slot) : ({t} : Ledger).count (.slot q) = 0 := by
  rcases h with rfl | rfl <;> simp

theorem Token.IsPage.refs (h : t.IsPage pa) : Vm.refs {t} = 0 := by
  rcases h with rfl | rfl <;> rw [refs_singleton] <;> rfl

theorem Token.IsPage.ends (h : t.IsPage pa) : Vm.ends {t} = 0 := by
  rcases h with rfl | rfl <;> rw [ends_singleton] <;> rfl

theorem Token.IsPage.pages (h : t.IsPage pa) : Vm.pages {t} = {pa} := by
  rcases h with rfl | rfl <;> rw [pages_singleton] <;> rfl

theorem stored_setKmem (s : Sys) (k : Kmem) : stored (s.setKmem k) = stored s := rfl

variable {R R' r' : Ledger} {a n : Nat} {o : Op} {Q : Unit → Ledger → Prop} {p q : Slot} {x : Proc} {b : Bool}

theorem FInv.withPipes {t : Sys} (h : FInv s R) (hr : refs R' = refs R)
    (hf : t.ftable = s.ftable) (hb : fileEnds t + Vm.ends R' = openEnds t)
    (hl : ∀ x ∈ t.pipes, openEnd x ≠ 0) : FInv t R' := by
  refine ⟨?_, ?_, ?_, hb, hl⟩
  · rw [hr, hf]
    exact h.ref
  · rw [hr, hf]
    exact h.fresh
  · rw [hf]
    exact h.closed

/-- the file table matters to a ledger only through its references and open ends -/
theorem FInv.congr (h : FInv s R) (hr : refs R' = refs R) (he : Vm.ends R' = Vm.ends R)
    (hf : s'.ftable = s.ftable) (hp : s'.pipes = s.pipes) : FInv s' R' := by
  refine h.withPipes hr hf ?_ ?_
  · rw [fileEnds, openEnds, he, hf, hp]
    exact h.balance
  · rw [hp]
    exact h.live

theorem Inv.congr (h : Inv L m s r sh) (hk : KInv L m.leak k' (r' + stored s))
    (hslot : ∀ q, r'.count (.slot q) = r.count (.slot q))
    (hfile : refs r' = refs r) (hends : Vm.ends r' = Vm.ends r) :
    Inv L m (s.setKmem k') r' sh := by
  refine ⟨hk, ⟨fun q => ?_, h.slots.ok, h.slots.unused⟩, h.files.congr ?_ ?_ rfl rfl⟩
  · rw [hslot]
    exact h.slots.out q
  · rw [map_add, map_add, hfile]
    rfl
  · rw [map_add, map_add, hends]
    rfl

theorem Inv.add_page (h : Inv L m s (r + g) sh) (ht : t.IsPage pa)
    (hk : KInv L m.leak k' (r + g + stored s + {t})) : Inv L m (s.setKmem k') (r + {t} + g) sh := by
  refine h.congr ?_ (fun q => ?_) ?_ ?_
  · rwa [add_right_comm r, add_right_comm (r + g)]
  · rw [add_right_comm, Multiset.count_add _ (r + g), ht.slot, Nat.add_zero]
  · rw [add_right_comm, map_add _ (r + g), ht.refs, add_zero]
  · rw [add_right_comm, map_add _ (r + g), ht.ends, add_zero]

theorem Inv.sub_page (h : Inv L m s (r + {t} + g) sh) (ht : t.IsPage pa)
    (hk : KInv L m.leak k' (r + g + stored s)) : Inv L m (s.setKmem k') (r + g) sh := by
  refine h.congr hk (fun q => ?_) ?_ ?_
  · rw [add_right_comm, Multiset.count_add _ (r + g), ht.slot, Nat.add_zero]
  · rw [add_right_comm, map_add _ (r + g), ht.refs, add_zero]
  · rw [add_right_comm, map_add _ (r + g), ht.ends, add_zero]

theorem Inv.kmem_token (h : Inv L m s (r + {t} + g) sh) :
    KInv L m.leak s.kmem (r + g + stored s + {t}) := by
  have := h.kmem
  rwa [add_right_comm r, add_right_comm (r + g)] at this

theorem Inv.set_mem (h : Inv L m s r sh) (mem : Nat → Byte) : Inv L m (s.setMem mem) r sh :=
  ⟨⟨h.kmem.nodup, h.kmem.range, h.kmem.owned, h.kmem.page⟩,
    ⟨h.slots.out, h.slots.ok, h.slots.unused⟩, h.files.congr rfl rfl rfl rfl⟩

theorem rounddown_eq_iff (h : pa % PGSIZE = 0) : PGROUNDDOWN a = pa ↔ pa ≤ a ∧ a < pa + PGSIZE := by
  simp only [PGROUNDDOWN, PGSIZE] at h ⊢
  omega

theorem keeps_setKmem (h : m.strict = true → ∀ a, PGROUNDDOWN a ∈ pages (g + stored s) →
    k'.mem a = s.kmem.mem a) : Keeps m g s (s.setKmem k') :=
  fun hm => ⟨le_refl _, h hm, fun _ ho _ => ⟨ho, rfl⟩, fun _ => .inl rfl⟩

theorem KInv.notMem_of_priv {leak : Bool} {k : Kmem} (h : KInv L leak k (r + R))
    (hp : Token.priv pa ∈ r) : pa ∉ pages R := by
  intro hm
  have hr : 0 < (pages r).count pa :=
    Multiset.count_pos.mpr (mem_pages_of_mem hp (Multiset.mem_singleton_self pa))
  have hR : 0 < (pages R).count pa := Multiset.count_pos.mpr hm
  have hmem : Token.priv pa ∈ r + R := Multiset.mem_add.mpr (.inl hp)
  have hpage := h.owned pa (mem_pages_of_mem hmem (Multiset.mem_singleton_self pa))
  have h1 := (h.page pa hpage).single hmem
  rw [map_add, Multiset.count_add] at h1
  omega

theorem touch_next {α : Type} {x y : α} (h : touch a n x = .next y) : y = x := by
  obtain ⟨-, h⟩ := ite_panic h
  exact (Outcome.next.inj h).symm

theorem touch_ne {α : Type} {x : α} {msg : String} (hm : msg ∈ shapePanics) : touch a n x ≠ .panic msg := by
  unfold touch
  split
  · exact next_ne_panic
  · intro e
    rw [← Outcome.panic.inj e] at hm
    exact absurd hm (by decide)

theorem sem_ne_shape {msg : String} (hm : msg ∈ shapePanics) : sem L o s ≠ .panic msg := by
  have hne : ∀ m : String, m ∉ shapePanics → msg ≠ m := fun m hn e => hn (e ▸ hm)
  cases o with
  | kfree pa =>
    show (kfree L s.kmem pa).map _ ≠ _
    unfold kfree
    split
    · exact fun e => hne _ (by decide) (Outcome.panic.inj e).symm
    · split <;> exact next_ne_panic
  | memset a n c | read a n | write a n b => exact touch_ne hm
  | memmove dst src n =>
    show (if ram src n then touch dst n _ else _) ≠ _
    split
    · exact touch_ne hm
    · exact fun e => hne _ (by decide) (Outcome.panic.inj e).symm
  | claim q =>
    show s.claim q ≠ _
    unfold Sys.claim
    split <;> exact next_ne_panic
  | reap p q =>
    show s.reap p q ≠ _
    unfold Sys.reap
    split
    · exact next_ne_panic
    · exact blocked_ne_panic
  | filedup f =>
    show (s.filedup f).map _ ≠ _
    unfold Sys.filedup
    split
    · exact fun e => hne _ (by decide) (Outcome.panic.inj e).symm
    · exact next_ne_panic
  | fileclose f =>
    show s.fileclose f ≠ _
    unfold Sys.fileclose
    split
    · exact fun e => hne _ (by decide) (Outcome.panic.inj e).symm
    · split <;> exact next_ne_panic
  | pipeclose pi w =>
    show s.pipeclose pi w ≠ _
    unfold Sys.pipeclose
    split
    · exact fun e => hne _ (by decide) (Outcome.panic.inj e).symm
    · split <;> exact next_ne_panic
  | _ => exact next_ne_panic

theorem does_intro {Q : o.Res → Ledger → Prop}
    (h : ∀ g s, B ≤ g → Inv L m s (r + g) sh → sem L o s ≠ .panic undef ∧
      ∀ x s', sem L o s = .next (x, s') → ∃ r', Q x r' ∧ Inv L m s' (r' + g) sh ∧ Keeps m g s s' ∧
        pages r' + loss o x = pages r + gain o x) : Does (machine L m sh) B o r Q :=
  fun f s hs => by
    obtain ⟨hu, hn⟩ := h (B + f) s (Multiset.le_add_right B f) hs
    refine ⟨fun msg hm => ?_, hn⟩
    rcases hm with rfl | hm
    · exact hu
    · exact sem_ne_shape hm.2

theorem acts_intro {Q : o.Res → Ledger → Prop} (hc : ∀ x q, owes o x q)
    (h : ∀ g s, B ≤ g → Inv L m s (r + g) sh → sem L o s ≠ .panic undef ∧
      ∀ x s', sem L o s = .next (x, s') → ∃ r', Q x r' ∧ Inv L m s' (r' + g) sh ∧ Keeps m g s s' ∧
        pages r' + loss o x = pages r + gain o x) : Acts (machine L m sh) B o r Q :=
  ⟨does_intro h, hc⟩

theorem machine_kalloc {Q : Option Nat → Ledger → Prop}
    (h1 : ∀ pa, L.Page pa → pa ∉ pages r → Q (some pa) (r + {.priv pa})) (h0 : Q none r) :
    Acts (machine L m sh) B .kalloc r Q := by
  refine acts_intro (fun _ _ => trivial) fun g s _ hs => ⟨next_ne_panic, fun x s' hx => ?_⟩
  have hx' : Outcome.next ((kalloc L s.kmem).1, s.setKmem (kalloc L s.kmem).2) = .next (x, s') := hx
  cases hl : s.kmem.freelist with
  | nil =>
    have e : kalloc L s.kmem = (none, s.kmem) := by simp only [kalloc, hl]
    rw [e] at hx'
    cases hx'
    exact ⟨r, h0, hs, Keeps.rfl, rfl⟩
  | cons pa rest =>
    have e1 : (kalloc L s.kmem).1 = some pa := by simp only [kalloc, hl]
    have hpa : pa ∈ s.kmem.freelist := by rw [hl]; exact List.mem_cons_self
    have hpage := hs.kmem.range pa hpa
    have hzero := ((hs.kmem.page pa hpage).free hpa).1
    cases hx'
    refine ⟨r + {.priv pa}, ?_, hs.add_page (.inl rfl) (hs.kmem.kalloc hl), ?_, ?_⟩
    · rw [e1]
      refine h1 pa hpage fun hin => ?_
      rw [← Multiset.count_pos] at hin
      rw [add_assoc, map_add, Multiset.count_add] at hzero
      omega
    · refine keeps_setKmem fun _ a ha => ?_
      have hne : PGROUNDDOWN a ≠ pa := by
        intro e
        rw [e, ← Multiset.count_pos] at ha
        rw [add_assoc, map_add, Multiset.count_add] at hzero
        omega
      rw [Ne, rounddown_eq_iff hpage.1] at hne
      have hout : a < pa ∨ pa + PGSIZE ≤ a := by omega
      simp only [kalloc, hl]
      show splice s.kmem.mem pa PGSIZE (fun _ => 5) a = s.kmem.mem a
      exact splice_out hout
    · show pages (r + {.priv pa}) + 0 = pages r + gain Op.kalloc (kalloc L s.kmem).1
      rw [e1, map_add, pages_singleton, add_zero]
      rfl

theorem machine_kfree (ht : t.IsPage pa) (h : Q () r) : Acts (machine L m sh) B (.kfree pa) (r + {t}) Q := by
  refine acts_intro (fun _ _ => trivial) fun g s _ hs => ?_
  have hK := hs.kmem_token
  have hpage := (hK.count_pos (by rcases ht with rfl | rfl <;> rfl : t.pageOf = {pa})).1
  have hsem : sem L (.kfree pa) s = (kfree L s.kmem pa).map fun k => ((), s.setKmem k) := rfl
  obtain ⟨k', hk'⟩ : ∃ k', kfree L s.kmem pa = .next k' := by
    rw [kfree_page hpage]
    split <;> exact ⟨_, rfl⟩
  rw [hsem, hk']
  refine ⟨next_ne_panic, fun x s' hx => ?_⟩
  cases hx
  have hK' := hK.kfree ht hk'
  refine ⟨r, h, hs.sub_page ht hK', ?_, ?_⟩
  · refine keeps_setKmem fun _ a ha => ?_
    rw [kfree_page hpage] at hk'
    split at hk'
    · cases hk'
      rfl
    cases hk'
    have hzero := ((hK'.page pa hpage).free List.mem_cons_self).1
    have hne : PGROUNDDOWN a ≠ pa := by
      intro e
      rw [e, ← Multiset.count_pos] at ha
      rw [add_assoc, map_add, Multiset.count_add] at hzero
      omega
    rw [Ne, rounddown_eq_iff hpage.1] at hne
    have hout : a < pa ∨ pa + PGSIZE ≤ a := by omega
    show splice s.kmem.mem pa PGSIZE (fun _ => 1) a = s.kmem.mem a
    exact splice_out hout
  · show pages r + {pa} = pages (r + {t}) + 0
    rw [map_add, ht.pages, add_zero]

theorem machine_inckref (hu : Token.user pa ∈ r + B)
    (h : Q () (r + {.user pa})) : Acts (machine L m sh) B (.inckref pa) r Q := by
  refine acts_intro (fun _ _ => trivial) fun g s hg hs => ⟨next_ne_panic, fun x s' hx => ?_⟩
  cases hx
  have hmem : Token.user pa ∈ r + g + stored s :=
    Multiset.mem_add.mpr (.inl (Multiset.mem_of_le (add_le_add_right hg r) hu))
  refine ⟨r + {.user pa}, h, hs.add_page (.inr rfl) (hs.kmem.inckref hmem),
    keeps_setKmem fun _ _ _ => rfl, ?_⟩
  show pages (r + {.user pa}) + 0 = pages r + {pa}
  rw [map_add, pages_singleton, add_zero]
  rfl

theorem does_deckref (hm : m.leak = true) (h : Q () r) :
    Acts (machine L m sh) B (.deckref pa) (r + {.user pa}) Q := by
  refine acts_intro (fun _ _ => trivial) fun g s _ hs => ⟨next_ne_panic, fun x s' hx => ?_⟩
  cases hx
  have hK : KInv L true s.kmem (r + g + stored s + {.user pa}) := hm ▸ hs.kmem_token
  refine ⟨r, h, hs.sub_page (.inr rfl) (hm ▸ hK.deckref), keeps_setKmem fun _ _ _ => rfl, ?_⟩
  show pages r + {pa} = pages (r + {.user pa}) + 0
  rw [map_add, pages_singleton, add_zero]
  rfl

theorem machine_share (r : Ledger) (pa : Nat) :
    Shift (machine L m sh) (r + {.priv pa}) (r + {.user pa}) := by
  have hp : pages (r + {.priv pa}) = pages (r + {.user pa}) := by
    rw [map_add, map_add, pages_singleton, pages_singleton]
    rfl
  refine ⟨hp, fun f s hs => ?_⟩
  have hs' : Inv L m s (r + {.priv pa} + f) sh := hs
  refine hs'.congr ?_ (fun q => ?_) ?_ ?_
  · rw [add_right_comm r, add_right_comm (r + f)]
    exact hs'.kmem_token.share
  · simp
  · simp only [map_add, refs_singleton]
    rfl
  · simp only [map_add, ends_singleton]
    rfl

/-! ## memory -/

/-- the bytes from `a` to `a + n` are in a page that the thread owns alone -/
def Private (r : Ledger) (a n : Nat) : Prop := ∃ pa, Token.priv pa ∈ r ∧ pa ≤ a ∧ a + n ≤ pa + PGSIZE

theorem does_splice {Q : o.Res → Ledger → Prop} {b : Sys → Buf} {u : o.Res} (hc : ∀ x q, owes o x q)
    (hsem : ∀ s, sem L o s = .next (u, s.setMem (splice s.kmem.mem a n (b s))) ∨
      sem L o s = .panic "kerneltrap")
    (hg : ∀ x, gain o x = 0) (hl : ∀ x, loss o x = 0)
    (hp : m.strict = true → Private r a n) (h : Q u r) : Acts (machine L m sh) B o r Q := by
  refine acts_intro hc fun g s _ hs => ?_
  rcases hsem s with hs1 | hs1
  · rw [hs1]
    refine ⟨next_ne_panic, fun x s' hx => ?_⟩
    cases hx
    refine ⟨r, h, hs.set_mem _, keeps_setKmem fun hm c hc => ?_, by rw [hg, hl]⟩
    obtain ⟨pa, hpriv, h1, h2⟩ := hp hm
    have hK := hs.kmem
    rw [add_assoc] at hK
    have hne : PGROUNDDOWN c ≠ pa := fun e => hK.notMem_of_priv hpriv (e ▸ hc)
    have hpage : L.Page pa := hK.owned pa
      (mem_pages_of_mem (Multiset.mem_add.mpr (.inl hpriv)) (Multiset.mem_singleton_self pa))
    rw [Ne, rounddown_eq_iff hpage.1] at hne
    have hout : c < a ∨ a + n ≤ c := by omega
    exact splice_out hout
  · rw [hs1]
    refine ⟨fun e => ?_, fun x s' hx => by cases hx⟩
    have : "kerneltrap" = undef := Outcome.panic.inj e
    exact absurd this (by decide)

theorem machine_memset {c : Byte} (hp : m.strict = true → Private r a n) (h : Q () r) :
    Acts (machine L m sh) B (.memset a n c) r Q := by
  refine does_splice (fun _ _ => trivial) (b := fun _ _ => c) (fun s => ?_) (fun _ => rfl) (fun _ => rfl) hp h
  show touch a n _ = _ ∨ touch a n _ = _
  unfold touch
  split
  · exact .inl rfl
  · exact .inr rfl

theorem machine_memmove {dst src : Nat} (hp : m.strict = true → Private r dst n) (h : Q () r) :
    Acts (machine L m sh) B (.memmove dst src n) r Q := by
  refine does_splice (fun _ _ => trivial) (b := fun s i => s.kmem.mem (src + i)) (fun s => ?_) (fun _ => rfl)
    (fun _ => rfl) hp h
  show (if ram src n then touch dst n _ else _) = _ ∨ (if ram src n then touch dst n _ else _) = _
  unfold touch
  split
  · split
    · exact .inl rfl
    · exact .inr rfl
  · exact .inr rfl

theorem does_memmove_null {src : Nat} : Acts (machine L m sh) B (.memmove 0 src n) r Q := by
  refine acts_intro (fun _ _ => trivial) fun g s _ hs => ?_
  have hram : ¬ ram 0 n := fun h => absurd h.1 (by decide)
  have hsem : sem L (.memmove 0 src n) s = .panic "kerneltrap" := by
    show (if ram src n then touch 0 n _ else _) = _
    rw [touch, if_neg hram]
    split <;> rfl
  rw [hsem]
  refine ⟨fun e => ?_, fun x s' hx => by cases hx⟩
  have : "kerneltrap" = undef := Outcome.panic.inj e
  exact absurd this (by decide)

theorem machine_write {b : Buf} (hp : m.strict = true → Private r a n) (h : Q () r) :
    Acts (machine L m sh) B (.write a n b) r Q := by
  refine does_splice (fun _ _ => trivial) (b := fun _ => b) (fun s => ?_) (fun _ => rfl) (fun _ => rfl) hp h
  show touch a n _ = _ ∨ touch a n _ = _
  unfold touch
  split
  · exact .inl rfl
  · exact .inr rfl

theorem machine_read {Q : Buf → Ledger → Prop} (h : ∀ b, Q b r) :
    Acts (machine L m sh) B (.read a n) r Q := by
  refine acts_intro (fun _ _ => trivial) fun g s _ hs => ?_
  have hsem : sem L (.read a n) s = touch a n (fun i => s.kmem.mem (a + i), s) := rfl
  rw [hsem]
  unfold touch
  split
  · refine ⟨next_ne_panic, fun x s' hx => ?_⟩
    cases hx
    exact ⟨r, h _, hs, Keeps.rfl, rfl⟩
  · refine ⟨fun e => ?_, fun x s' hx => by cases hx⟩
    have : "kerneltrap" = undef := Outcome.panic.inj e
    exact absurd this (by decide)

/-! ## the process table -/

/-- what a slot stores before and after it goes out or comes back -/
theorem stored_setOut : stored (s.setOut q b x) + slotTok s q = stored s + if b then 0 else recTok x := by
  have hsum : ∑ j, slotTok (s.setOut q b x) j + slotTok s q
      = ∑ j, slotTok s j + if b then 0 else recTok x := by
    refine sum_change (i := q) (fun j hj => ?_) ?_
    · simp only [slotTok, Sys.setOut, update_of_ne hj]
    · simp only [slotTok, Sys.setOut, update_self]
      exact add_comm _ _
  show ∑ j, slotTok (s.setOut q b x) j + _ + _ + slotTok s q = ∑ j, slotTok s j + _ + _ + _
  rw [add_right_comm _ _ (slotTok s q), add_right_comm _ _ (slotTok s q), hsum]
  rw [add_right_comm _ _ (if b then 0 else recTok x), add_right_comm _ _ (if b then 0 else recTok x)]
  rfl

theorem recTok_free : recTok Proc.free = 0 := by
  simp [recTok, Proc.free, tableTokOpt, frameTokOpt, fileTok, fdTok]

theorem recOk_free : RecOk L Proc.free sh :=
  ⟨fun _ => recTok_free, fun h => (nomatch h), fun h => (by rcases h with h | h <;> cases h),
    fun _ h => (by rcases h with h | h <;> cases h)⟩

/-- a ledger without slots and open ends -/
structure Plain (r : Ledger) : Prop where
  slot : ∀ q, r.count (.slot q) = 0
  ends : Vm.ends r = 0

theorem Plain.zero : Plain 0 := ⟨fun _ => rfl, map_zero _⟩

theorem Plain.add {r : Ledger} (h : Plain r) (h' : Plain r') : Plain (r + r') :=
  ⟨fun q => by rw [Multiset.count_add, h.slot, h'.slot], by rw [map_add, h.ends, h'.ends, add_zero]⟩

theorem Plain.sum {ι : Type} [Fintype ι] {r : ι → Ledger} (h : ∀ i, Plain (r i)) : Plain (∑ i, r i) := by
  refine Finset.sum_induction r Plain (fun _ _ h h' => h.add h') Plain.zero fun i _ => h i

theorem Plain.map {m : Multiset Nat} {c : Nat → Token} (hs : ∀ a q, c a ≠ .slot q)
    (he : ∀ a, (c a).endOf = 0) : Plain (m.map c) := by
  refine ⟨fun q => Multiset.count_eq_zero_of_notMem ?_, ?_⟩
  · intro h
    obtain ⟨a, -, ha⟩ := Multiset.mem_map.mp h
    exact hs a q ha
  · show (m.map c).bind Token.endOf = 0
    rw [Multiset.bind_map]
    simp [he]

theorem plain_recTok (x : Proc) : Plain (recTok x) := by
  refine (Plain.add ?_ ?_).add (Plain.sum fun fd => ?_)
  · cases x.pagetable with
    | none => exact Plain.zero
    | some T => exact (Plain.map (by simp) fun _ => rfl).add (Plain.map (by simp) fun _ => rfl)
  · cases x.trapframe with
    | none => exact Plain.zero
    | some tf => exact ⟨fun q => by simp [frameTokOpt], by rw [frameTokOpt, ends_singleton]; rfl⟩
  · cases x.ofile fd with
    | none => exact Plain.zero
    | some f => exact ⟨fun q => by simp [fdTok], by rw [fdTok, ends_singleton]; rfl⟩

/-- ledgers that differ in slots and files only -/
structure SamePages (R R' : Ledger) : Prop where
  pages : Vm.pages R' = Vm.pages R
  priv : ∀ pa, Token.priv pa ∈ R' ↔ Token.priv pa ∈ R

theorem SamePages.add {X : Ledger} (hp : Vm.pages X = 0) (hX : ∀ pa, Token.priv pa ∉ X) :
    SamePages R (R + X) :=
  ⟨by rw [map_add, hp, add_zero], fun pa => by rw [Multiset.mem_add, or_iff_left (hX pa)]⟩

theorem SamePages.symm (h : SamePages R R') : SamePages R' R :=
  ⟨h.pages.symm, fun pa => (h.priv pa).symm⟩

theorem samePages_slot (R : Ledger) (q : Slot) : SamePages R (R + {.slot q}) :=
  SamePages.add (by rw [pages_singleton]; rfl) (by simp)

theorem KInv.same {leak : Bool} {k : Kmem} (h : KInv L leak k R)
    (hR : SamePages R R') : KInv L leak k R' := by
  refine ⟨h.nodup, h.range, ?_, fun pa hpa => ?_⟩
  · rw [hR.pages]
    exact h.owned
  · rw [hR.pages, hR.priv]
    exact h.page pa hpa

theorem refs_slot (R : Ledger) (q : Slot) : refs (R + {.slot q}) = refs R := by
  rw [map_add, refs_singleton]
  exact add_zero _

theorem ends_slot (R : Ledger) (q : Slot) : Vm.ends (R + {.slot q}) = Vm.ends R := by
  rw [map_add, ends_singleton]
  exact add_zero _

theorem slot_mem_out (h : SInv L s r sh) (hq : Token.slot q ∈ r) : s.out q = true := by
  have h1 := h.out q
  have h2 : 0 < r.count (.slot q) := Multiset.count_pos.mpr hq
  by_contra hc
  rw [if_neg hc] at h1
  omega

theorem SInv.setOut (h : SInv L s r sh) (hq : r'.count (.slot q) = if b then 1 else 0)
    (hne : ∀ j, j ≠ q → r'.count (.slot j) = r.count (.slot j)) (hok : b = false → RecOk L x sh)
    (hun : x.state = .unused → b = false) : SInv L (s.setOut q b x) r' sh := by
  refine ⟨fun j => ?_, fun j hj => ?_, fun j hj => ?_⟩
  · by_cases e : j = q
    · simp only [e, Sys.setOut, update_self]
      exact hq
    · simp only [Sys.setOut, update_of_ne e]
      rw [hne j e]
      exact h.out j
  · by_cases e : j = q
    · simp only [e, Sys.setOut, update_self] at hj ⊢
      exact hok hj
    · simp only [Sys.setOut, update_of_ne e] at hj ⊢
      exact h.ok j hj
  · by_cases e : j = q
    · simp only [e, Sys.setOut, update_self] at hj ⊢
      exact hun hj
    · simp only [Sys.setOut, update_of_ne e] at hj ⊢
      exact h.unused j hj

theorem count_slot_ne {j : Slot} (h : j ≠ q) : ({Token.slot q} : Ledger).count (.slot j) = 0 := by
  simp [h]

theorem Inv.take (h : Inv L m s (r + g) sh) (hq : s.out q = false) (hun : x.state ≠ .unused) :
    Inv L m (s.setOut q true x) (r + {.slot q} + recTok (s.proc q) + g) sh ∧
      stored (s.setOut q true x) + recTok (s.proc q) = stored s := by
  have hst : stored (s.setOut q true x) + recTok (s.proc q) = stored s := by
    have := stored_setOut (s := s) (q := q) (b := true) (x := x)
    rwa [if_pos rfl, add_zero, slotTok, hq] at this
  have e : r + {Token.slot q} + recTok (s.proc q) + g + stored (s.setOut q true x)
      = r + g + stored s + {.slot q} := by
    rw [← hst]
    abel
  refine ⟨⟨?_, h.slots.setOut ?_ (fun j hj => ?_) (fun h => by cases h) fun h => absurd h hun, ?_⟩, hst⟩
  · rw [e]
    exact h.kmem.same (samePages_slot _ q)
  · have hc := h.slots.out q
    rw [hq, Multiset.count_add] at hc
    simp only [Bool.false_eq_true, if_false] at hc
    show Multiset.count (Token.slot q) _ = 1
    simp only [Multiset.count_add, (plain_recTok _).slot, Multiset.count_singleton_self]
    omega
  · simp only [Multiset.count_add, (plain_recTok _).slot, count_slot_ne hj, Nat.add_zero]
  · rw [e]
    exact h.files.congr (refs_slot _ q) (ends_slot _ q) rfl rfl

theorem Inv.giveBack (h : Inv L m s (r + {.slot q} + recTok x + g) sh)
    (hok : RecOk L x sh) : Inv L m (s.setOut q false x) (r + g) sh ∧
      stored (s.setOut q false x) = stored s + recTok x := by
  have hmem : Token.slot q ∈ r + {Token.slot q} + recTok x + g := by simp
  have hout := slot_mem_out h.slots hmem
  have hst : stored (s.setOut q false x) = stored s + recTok x := by
    have := stored_setOut (s := s) (q := q) (b := false) (x := x)
    rw [slotTok, hout] at this
    simpa using this
  have e : r + {Token.slot q} + recTok x + g + stored s
      = r + g + stored (s.setOut q false x) + {.slot q} := by
    rw [hst]
    abel
  refine ⟨⟨?_, h.slots.setOut ?_ (fun j hj => ?_) (fun _ => hok) fun _ => rfl, ?_⟩, hst⟩
  · have hk := h.kmem
    rw [e] at hk
    exact hk.same (samePages_slot _ q).symm
  · have hc := h.slots.out q
    simp only [hout, if_true, Multiset.count_add, (plain_recTok _).slot,
      Multiset.count_singleton_self] at hc
    simp only [Multiset.count_add, Bool.false_eq_true, if_false]
    omega
  · simp only [Multiset.count_add, (plain_recTok _).slot, count_slot_ne hj, Nat.add_zero]
  · have hf := h.files
    rw [e] at hf
    exact hf.congr (refs_slot _ q).symm (ends_slot _ q).symm rfl rfl

theorem setOut_proc {j : Slot} : (s.setOut q b x).proc j = s.proc j ∨ (s.setOut q b x).proc j = x := by
  by_cases e : j = q
  · exact .inr (by simp only [e, Sys.setOut, update_self])
  · exact .inl (by simp only [Sys.setOut, update_of_ne e])

theorem machine_claim {Q : Bool → Ledger → Prop} (h1 : Q true (r + {.slot q}))
    (h0 : Q false r) : Acts (machine L m sh) B (.claim q) r Q := by
  refine acts_intro (fun _ _ => trivial) fun g s _ hs => ?_
  have hsem : sem L (.claim q) s = s.claim q := rfl
  rw [hsem]
  unfold Sys.claim
  cases hst : (s.proc q).state with
  | unused =>
    refine ⟨next_ne_panic, fun x s' hx => ?_⟩
    cases hx
    have hout := hs.slots.unused q hst
    have hz : recTok (s.proc q) = 0 := (hs.slots.ok q hout).empty (.inl hst)
    obtain ⟨hi, hstored⟩ := hs.take (x := Proc.locked) hout (by decide)
    rw [hz, add_zero] at hi hstored
    refine ⟨r + {.slot q}, h1, hi, fun _ => ⟨by rw [hstored], fun _ _ => rfl, fun j ho hj => ?_,
      fun j => ?_⟩, ?_⟩
    · have e : j ≠ q := fun e => hj (e ▸ hst)
      simp only [Sys.setOut, update_of_ne e]
      exact ⟨ho, trivial⟩
    · exact setOut_proc.imp_right .inl
    show pages (r + {.slot q}) + 0 = pages r + 0
    rw [(samePages_slot r q).pages]
  | used | runnable | zombie =>
    refine ⟨next_ne_panic, fun x s' hx => ?_⟩
    cases hx
    exact ⟨r, h0, hs, Keeps.rfl, rfl⟩

theorem does_zombie {Q : Option (Option (BitVec 32)) → Ledger → Prop}
    (h : ∀ x, Q x r) : Acts (machine L m sh) B (.zombie p q) r Q := by
  refine acts_intro (fun _ _ => trivial) fun g s _ hs => ⟨next_ne_panic, fun x s' hx => ?_⟩
  cases hx
  exact ⟨r, h _, hs, Keeps.rfl, rfl⟩

theorem does_reap {Q : Proc → Ledger → Prop} (hm : m.strict = false)
    (h : ∀ x, x.state = .zombie → RecOk L x sh → Q x (r + {.slot q} + recTok x)) :
    Acts (machine L m sh) B (.reap p q) r Q := by
  refine acts_intro (fun _ _ => trivial) fun g s _ hs => ?_
  have hsem : sem L (.reap p q) s = s.reap p q := rfl
  rw [hsem]
  unfold Sys.reap
  split
  · rename_i hc
    refine ⟨next_ne_panic, fun x s' hx => ?_⟩
    cases hx
    refine ⟨_, h _ hc.2.1 (hs.slots.ok q hc.2.2), (hs.take hc.2.2 (by decide)).1,
      fun hm' => absurd hm' (by rw [hm]; exact Bool.false_ne_true), ?_⟩
    show pages (r + {.slot q} + recTok (s.proc q)) + 0 = pages r + pages (recTok (s.proc q))
    rw [add_zero, map_add, (samePages_slot r q).pages]
  · exact ⟨blocked_ne_panic, fun x s' hx => absurd hx blocked_ne_next⟩

theorem machine_putback (hx : RecOk L x sh) (hm : m.strict = true → x = Proc.free) (h : Q () r) :
    Acts (machine L m sh) B (.putback q x) (r + {.slot q} + recTok x) Q := by
  refine acts_intro (fun _ _ => trivial) fun g s _ hs => ⟨next_ne_panic, fun u s' hu => ?_⟩
  cases hu
  obtain ⟨hi, hst⟩ := hs.giveBack hx
  have hout : s.out q = true := slot_mem_out hs.slots (by simp)
  refine ⟨r, h, hi, fun hs' => ⟨?_, fun _ _ => rfl, fun j ho _ => ?_, fun j => ?_⟩, ?_⟩
  · rw [hst, map_add]
    exact Multiset.le_add_right _ _
  · have e : j ≠ q := by
      rintro rfl
      rw [hout] at ho
      cases ho
    simp only [Sys.setOut, update_of_ne e]
    exact ⟨ho, trivial⟩
  · rw [← hm hs']
    exact setOut_proc.imp_right .inr
  · show pages r + pages (recTok x) = pages (r + {.slot q} + recTok x) + 0
    rw [add_zero, map_add, (samePages_slot r q).pages]

theorem Inv.set_parent (h : Inv L m s r sh) (f : Slot → Option Slot) : Inv L m { s with parent := f } r sh :=
  ⟨h.kmem, ⟨h.slots.out, h.slots.ok, h.slots.unused⟩, h.files.congr rfl rfl rfl rfl⟩

theorem machine_setParent (h : Q () r) : Acts (machine L m sh) B (.setParent q p) r Q := by
  refine acts_intro (fun _ _ => trivial) fun g s _ hs => ⟨next_ne_panic, fun x s' hx => ?_⟩
  cases hx
  exact ⟨r, h, hs.set_parent _, Keeps.of_stored le_rfl rfl rfl rfl, rfl⟩

theorem does_reparent (h : Q () r) : Acts (machine L m sh) B (.reparent p) r Q := by
  refine acts_intro (fun _ _ => trivial) fun g s _ hs => ⟨next_ne_panic, fun x s' hx => ?_⟩
  cases hx
  exact ⟨r, h, hs.set_parent _, Keeps.of_stored le_rfl rfl rfl rfl, rfl⟩

end

end Vm
