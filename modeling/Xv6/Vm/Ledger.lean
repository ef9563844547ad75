import Xv6.Lib.Own
import Xv6.Vm.Process
import Mathlib.Data.Multiset.Bind

/-!
# What kernel threads own

A token stands for a right on the shared state:

* `priv pa`      the page `pa` has this one owner;
* `user pa`      one of the references to the page `pa`;
* `slot q`       the slot `q` of the process table is out;
* `file f`       one of the references to the open file `f`;
* `pend pi w`    an end of the pipe `pi` that nobody has closed.

`stored s` are the tokens of what the tables of the kernel hold: the page tables, trapframes and open
files of the slots that are not out, the pages of the kernel and the pages of the pipes.  `Inv`
relates them, together with what the threads own, to the allocator (`KInv`), to the process table
(`SInv`) and to the file table (`FInv`).

`KInv` has two forms.  In both a page is on the free list only if no token names it, and its counter
is at least the number of tokens.  Without `leak` the counter is that number, and a page that no
token names is on the free list.

The main results are `KInv.kalloc` to `KInv.forget`: what the functions of `kalloc.c` do to it.
-/

namespace Vm
open Run Bytes Prog Own

inductive Token where
  | priv (pa : Nat)
  | user (pa : Nat)
  | slot (q : Slot)
  | file (f : FileNo)
  | newfile (f : FileNo)
  | pend (pi : Nat) (w : Bool)
  deriving DecidableEq

abbrev Ledger := Multiset Token

namespace Token

def pageOf : Token → Multiset Nat
  | .priv pa => {pa}
  | .user pa => {pa}
  | _ => 0

/-- the open file, and whether it is a new one -/
def fileOf : Token → Multiset (FileNo × Bool)
  | .file f => {(f, false)}
  | .newfile f => {(f, true)}
  | _ => 0

def endOf : Token → Multiset (Nat × Bool)
  | .pend pi w => {(pi, w)}
  | _ => 0

end Token

/-- the pages that tokens name, one for each token -/
def pages : Ledger →+ Multiset Nat where
  toFun r := r.bind Token.pageOf
  map_zero' := Multiset.zero_bind _
  map_add' r r' := Multiset.add_bind r r' _

/-- the references to open files -/
def refs : Ledger →+ Multiset (FileNo × Bool) where
  toFun r := r.bind Token.fileOf
  map_zero' := Multiset.zero_bind _
  map_add' r r' := Multiset.add_bind r r' _

/-- the open ends of pipes that tokens name -/
def ends : Ledger →+ Multiset (Nat × Bool) where
  toFun r := r.bind Token.endOf
  map_zero' := Multiset.zero_bind _
  map_add' r r' := Multiset.add_bind r r' _

theorem pages_singleton (t : Token) : pages {t} = t.pageOf := Multiset.singleton_bind _ _

theorem refs_singleton (t : Token) : refs {t} = t.fileOf := Multiset.singleton_bind _ _

theorem ends_singleton (t : Token) : ends {t} = t.endOf := Multiset.singleton_bind _ _

theorem pages_map_priv (m : Multiset Nat) : pages (m.map .priv) = m := by
  show (m.map Token.priv).bind Token.pageOf = m
  rw [Multiset.bind_map]
  exact Multiset.bind_singleton m id |>.trans (Multiset.map_id m)

theorem pages_map_user (m : Multiset Nat) : pages (m.map .user) = m := by
  show (m.map Token.user).bind Token.pageOf = m
  rw [Multiset.bind_map]
  exact Multiset.bind_singleton m id |>.trans (Multiset.map_id m)

theorem mem_pages_iff {r : Ledger} {pa : Nat} : pa ∈ pages r ↔ ∃ t ∈ r, pa ∈ t.pageOf :=
  Multiset.mem_bind

theorem mem_pages_of_mem {t : Token} {r : Ledger} {pa : Nat} (h : t ∈ r) (hp : pa ∈ t.pageOf) :
    pa ∈ pages r := mem_pages_iff.mpr ⟨t, h, hp⟩

/-! ## what the tables of the kernel hold -/

/-- the tokens of a page table; the token of a user page is `c` of it -/
def tableTok (T : Table 2) (c : Nat → Token := Token.user) : Ledger := T.sys.map .priv + T.users.map c

def fdTok : Option FileNo → Ledger
  | some f => {Token.file f}
  | none => 0

def fileTok (ofile : Fin NOFILE → Option FileNo) : Ledger := ∑ fd, fdTok (ofile fd)

def tableTokOpt : Option (Table 2) → Ledger
  | some T => tableTok T
  | none => 0

def frameTokOpt : Option Nat → Ledger
  | some tf => {Token.priv tf}
  | none => 0

def recTok (x : Proc) : Ledger :=
  tableTokOpt x.pagetable + frameTokOpt x.trapframe + fileTok x.ofile

def slotTok (s : Sys) (q : Slot) : Ledger := if s.out q then 0 else recTok (s.proc q)

def stored (s : Sys) : Ledger :=
  ∑ q, slotTok s q + (s.kernel : Multiset Nat).map .priv + (s.pipes : Multiset Pipe).map fun x => .priv x.pa

/-! ## invariants -/

/-- one page: whether it is on the free list, its counter, how many tokens name it, and whether one
of them is `priv` -/
structure PageOk (leak : Bool) (listed : Prop) (ref cnt : Nat) (sole : Prop) : Prop where
  free : listed → cnt = 0 ∧ ref = 0
  counted : cnt ≤ ref
  single : sole → cnt = 1
  exact : leak = false → ref = cnt ∧ (cnt = 0 → listed)

/-- **The allocator** against the tokens `R` of all threads and tables. -/
structure KInv (L : Layout) (leak : Bool) (k : Kmem) (R : Ledger) : Prop where
  nodup : k.freelist.Nodup
  range : ∀ pa ∈ k.freelist, L.Page pa
  owned : ∀ pa ∈ pages R, L.Page pa
  page : ∀ pa, L.Page pa →
    PageOk leak (pa ∈ k.freelist) (k.refOf L pa) ((pages R).count pa) (Token.priv pa ∈ R)

section
variable {L : Layout} {leak : Bool} {k k' : Kmem} {R R' : Ledger} {pa pb : Nat} {t : Token}

theorem count_add_token (R : Ledger) (t : Token) :
    (pages (R + {t})).count pb = (pages R).count pb + t.pageOf.count pb := by
  rw [map_add, pages_singleton, Multiset.count_add]

theorem count_pageOf_priv : (Token.priv pa).pageOf.count pb = if pb = pa then 1 else 0 :=
  Multiset.count_singleton _ _

theorem count_pageOf_user : (Token.user pa).pageOf.count pb = if pb = pa then 1 else 0 :=
  Multiset.count_singleton _ _

theorem priv_mem_add_priv : Token.priv pb ∈ R + {Token.priv pa} ↔ Token.priv pb ∈ R ∨ pb = pa := by
  simp

theorem priv_mem_add_user : Token.priv pb ∈ R + {Token.user pa} ↔ Token.priv pb ∈ R := by
  simp

namespace KInv

theorem change (h : KInv L leak k R) (hpa : L.Page pa) (hn : k'.freelist.Nodup)
    (hfree : ∀ pb, pb ≠ pa → (pb ∈ k'.freelist ↔ pb ∈ k.freelist))
    (href : ∀ pb, L.Page pb → pb ≠ pa → k'.refOf L pb = k.refOf L pb)
    (hcnt : ∀ pb, pb ≠ pa → (pages R').count pb = (pages R).count pb)
    (hpriv : ∀ pb, pb ≠ pa → (Token.priv pb ∈ R' ↔ Token.priv pb ∈ R))
    (hok : PageOk leak (pa ∈ k'.freelist) (k'.refOf L pa) ((pages R').count pa)
      (Token.priv pa ∈ R')) : KInv L leak k' R' := by
  refine ⟨hn, fun pb hb => ?_, fun pb hb => ?_, fun pb hb => ?_⟩
  · by_cases e : pb = pa
    · rwa [e]
    · exact h.range pb ((hfree pb e).mp hb)
  · by_cases e : pb = pa
    · rwa [e]
    · rw [← Multiset.count_pos, hcnt pb e, Multiset.count_pos] at hb
      exact h.owned pb hb
  · by_cases e : pb = pa
    · rwa [e]
    · rw [hfree pb e, href pb hb e, hcnt pb e, hpriv pb e]
      exact h.page pb hb

theorem count_pos (h : KInv L leak k (R + {t})) (ht : t.pageOf = {pa}) :
    L.Page pa ∧ 0 < (pages (R + {t})).count pa := by
  have hmem : pa ∈ pages (R + {t}) :=
    mem_pages_of_mem (Multiset.mem_add.mpr (.inr (Multiset.mem_singleton_self t))) (by rw [ht]; simp)
  exact ⟨h.owned pa hmem, Multiset.count_pos.mpr hmem⟩

theorem kalloc {rest : List Nat} (h : KInv L leak k R) (hk : k.freelist = pa :: rest) :
    KInv L leak (Vm.kalloc L k).2 (R + {.priv pa}) := by
  have hpa : pa ∈ k.freelist := by rw [hk]; exact List.mem_cons_self
  have hpage := h.range pa hpa
  obtain ⟨hzero, hz⟩ := (h.page pa hpage).free hpa
  obtain ⟨hnot, hnd⟩ : pa ∉ rest ∧ rest.Nodup := List.nodup_cons.mp (hk ▸ h.nodup)
  have hk' : (Vm.kalloc L k).2 = ({ k with freelist := rest }.setRef L pa (k.refOf L pa + 1)).memset
      pa PGSIZE 5 := by simp only [Vm.kalloc, hk]
  have hself : (Vm.kalloc L k).2.refOf L pa = 1 := by
    rw [hk']
    exact refOf_setRef.trans (by rw [hz])
  have hc : (pages (R + {.priv pa})).count pa = 1 := by
    rw [count_add_token, count_pageOf_priv, if_pos rfl, hzero]
  refine h.change hpage ?_ (fun pb e => ?_) (fun pb hb e => ?_) (fun pb e => ?_) (fun pb e => ?_) ?_
  · rwa [hk']
  · rw [hk', hk]
    exact ⟨List.mem_cons_of_mem _, fun hb => (List.mem_cons.mp hb).resolve_left e⟩
  · rw [hk']
    exact refOf_setRef_ne hpage hb e
  · rw [count_add_token, count_pageOf_priv, if_neg e, Nat.add_zero]
  · rw [priv_mem_add_priv, or_iff_left e]
  · rw [hself, hc]
    have hout : pa ∉ (Vm.kalloc L k).2.freelist := by
      rwa [hk']
    exact ⟨fun hin => absurd hin hout, le_rfl, fun _ => rfl, fun _ => ⟨rfl, fun h0 => by omega⟩⟩

/-- `kfree` gives a reference back, and the page with the last one -/
theorem kfree (h : KInv L leak k (R + {t})) (ht : t = .priv pa ∨ t = .user pa)
    (hk : Vm.kfree L k pa = .next k') : KInv L leak k' R := by
  have htp : t.pageOf = {pa} := by rcases ht with rfl | rfl <;> rfl
  obtain ⟨hpage, hpos⟩ := h.count_pos htp
  have hok := h.page pa hpage
  have hcnt : ∀ pb, (pages (R + {t})).count pb = (pages R).count pb + if pb = pa then 1 else 0 := by
    intro pb
    rw [count_add_token, htp, Multiset.count_singleton]
  have hself := hcnt pa
  rw [if_pos rfl] at hself
  have hle := hok.counted
  have hnotin : pa ∉ k.freelist := fun hin => by
    have := (hok.free hin).1
    omega
  have hsingle : Token.priv pa ∈ R → (pages R).count pa = 1 := by
    intro hp
    have h1 := hok.single (Multiset.mem_add.mpr (.inl hp))
    have h2 : 0 < (pages R).count pa :=
      Multiset.count_pos.mpr (mem_pages_of_mem hp (Multiset.mem_singleton_self pa))
    omega
  have hpriv : ∀ pb, pb ≠ pa → (Token.priv pb ∈ R ↔ Token.priv pb ∈ R + {t}) := by
    intro pb e
    rcases ht with rfl | rfl
    · rw [priv_mem_add_priv, or_iff_left e]
    · rw [priv_mem_add_user]
  have hcne : ∀ pb, pb ≠ pa → (pages R).count pb = (pages (R + {t})).count pb := by
    intro pb e
    rw [hcnt, if_neg e, Nat.add_zero]
  rw [kfree_page hpage] at hk
  split at hk
  · rename_i hgt
    cases hk
    refine h.change hpage h.nodup (fun _ _ => Iff.rfl) (fun pb hb e => refOf_setRef_ne hpage hb e)
      hcne hpriv ?_
    rw [refOf_setRef]
    refine ⟨fun hin => absurd hin hnotin, by omega, hsingle, fun hl => ?_⟩
    have := (hok.exact hl).1
    exact ⟨by omega, fun h0 => by omega⟩
  · rename_i hle1
    cases hk
    have hone : k.refOf L pa = 1 := by omega
    refine h.change hpage (List.nodup_cons.mpr ⟨hnotin, h.nodup⟩) (fun pb e => ?_)
      (fun pb hb e => refOf_setRef_ne hpage hb e) hcne hpriv ?_
    · exact ⟨fun hb => (List.mem_cons.mp hb).resolve_left e, List.mem_cons_of_mem _⟩
    have hz : (pages R).count pa = 0 := by omega
    have hr : (k.setRef L pa (dec64 (k.refOf L pa))).refOf L pa = 0 := by
      rw [refOf_setRef, hone]
      rfl
    refine ⟨fun _ => ⟨hz, hr⟩, by omega, hsingle, fun _ => ⟨?_, fun _ => List.mem_cons_self⟩⟩
    rwa [hz]

theorem not_priv (h : KInv L leak k R) (hu : Token.user pa ∈ R) : Token.priv pa ∉ R := by
  intro hp
  obtain ⟨R0, rfl⟩ := Multiset.exists_cons_of_mem hu
  have hp' : Token.priv pa ∈ R0 := by simpa using hp
  rw [← Multiset.singleton_add, add_comm] at h hp
  have hpage := (h.count_pos rfl).1
  have h1 := (h.page pa hpage).single hp
  have h2 : 0 < (pages R0).count pa :=
    Multiset.count_pos.mpr (mem_pages_of_mem hp' (Multiset.mem_singleton_self pa))
  rw [count_add_token, count_pageOf_user, if_pos rfl] at h1
  omega

theorem inckref (h : KInv L leak k R) (hu : Token.user pa ∈ R) :
    KInv L leak (Vm.inckref L k pa) (R + {.user pa}) := by
  have hmem : pa ∈ pages R := mem_pages_of_mem hu (Multiset.mem_singleton_self pa)
  have hpage := h.owned pa hmem
  have hok := h.page pa hpage
  have hpos : 0 < (pages R).count pa := Multiset.count_pos.mpr hmem
  refine h.change hpage h.nodup (fun _ _ => Iff.rfl) (fun pb hb e => refOf_setRef_ne hpage hb e)
    (fun pb e => ?_) (fun pb e => priv_mem_add_user) ?_
  · rw [count_add_token, count_pageOf_user, if_neg e, Nat.add_zero]
  have hr : (Vm.inckref L k pa).refOf L pa = k.refOf L pa + 1 := refOf_setRef
  rw [count_add_token, count_pageOf_user, if_pos rfl, hr, priv_mem_add_user]
  refine ⟨fun hin => ?_, by have := hok.counted; omega, fun hp => absurd hp (h.not_priv hu),
    fun hl => ⟨by have := (hok.exact hl).1; omega, fun h0 => by omega⟩⟩
  have := (hok.free hin).1
  omega

theorem deckref (h : KInv L true k (R + {.user pa})) : KInv L true (Vm.deckref L k pa) R := by
  obtain ⟨hpage, hpos⟩ := h.count_pos rfl
  have hok := h.page pa hpage
  have hmem : Token.user pa ∈ R + {.user pa} := by simp
  have hcnt : (pages (R + {.user pa})).count pa = _ := count_add_token R (.user pa)
  rw [count_pageOf_user, if_pos rfl] at hcnt
  have hle := hok.counted
  refine h.change hpage h.nodup (fun _ _ => Iff.rfl) (fun pb hb e => refOf_setRef_ne hpage hb e)
    (fun pb e => ?_) (fun pb e => priv_mem_add_user.symm) ?_
  · rw [count_add_token, count_pageOf_user, if_neg e, Nat.add_zero]
  have hr : (Vm.deckref L k pa).refOf L pa = k.refOf L pa - 1 := by
    refine refOf_setRef.trans ?_
    rw [dec64, if_neg (by omega)]
  rw [hr]
  refine ⟨fun hin => ?_, by omega, fun hp => ?_, fun hl => by cases hl⟩
  · have := (hok.free hin).1
    omega
  · exact absurd (priv_mem_add_user.mpr hp) (h.not_priv hmem)

theorem share (h : KInv L leak k (R + {.priv pa})) : KInv L leak k (R + {.user pa}) := by
  obtain ⟨hpage, -⟩ := h.count_pos rfl
  have hok := h.page pa hpage
  have hone := hok.single (priv_mem_add_priv.mpr (.inr rfl))
  have hc : ∀ pb, (pages (R + {.user pa})).count pb = (pages (R + {.priv pa})).count pb := by
    intro pb
    rw [count_add_token, count_add_token]
    rfl
  refine h.change hpage h.nodup (fun _ _ => Iff.rfl) (fun _ _ _ => rfl) (fun pb _ => hc pb)
    (fun pb e => ?_) ?_
  · rw [priv_mem_add_user, priv_mem_add_priv, or_iff_left e]
  · rw [hc]
    exact ⟨hok.free, hok.counted, fun _ => hone, hok.exact⟩

theorem forget (h : KInv L true k (R + {t})) : KInv L true k R := by
  refine ⟨h.nodup, h.range, fun pb hb => ?_, fun pb hb => ?_⟩
  · refine h.owned pb ?_
    rw [map_add]
    exact Multiset.mem_add.mpr (.inl hb)
  have hok := h.page pb hb
  have hcnt : (pages (R + {t})).count pb = _ := count_add_token R t
  refine ⟨fun hin => ?_, ?_, fun hp => ?_, fun hl => by cases hl⟩
  · have := hok.free hin
    omega
  · have := hok.counted
    omega
  · have h1 := hok.single (Multiset.mem_add.mpr (.inl hp))
    have h2 : 0 < (pages R).count pb :=
      Multiset.count_pos.mpr (mem_pages_of_mem hp (Multiset.mem_singleton_self pb))
    omega

end KInv

end

end Vm
