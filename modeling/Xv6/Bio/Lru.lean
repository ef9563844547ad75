import Xv6.Bio.Model
import Xv6.Lib.Cycle

/-!
# The list of the buffer cache (`kernel/bio.c`)

The list that `Bio.Model` has as `lru` is here made of the pointers `next` and `prev` of the buffers and of
`bcache.head`, and an identity has its device.  An event is a section under `bcache.lock`, or the sleep-lock of
a buffer; events of different processes interleave.  `clock` and `released` are bookkeeping: the calls of
`brelse` that gave up the last reference are counted, and each buffer has the number of its last one.

* `bget_cases`     the loops of `bget` find the first buffers of the list;
* `Inv.step`       every event keeps the list, the identities and the order;
* `buffer_list`    so they hold after any events.
-/

namespace Bio.Lru
open Run Cycle Prog Function List

/-- a pointer into the list; `none` is `&bcache.head` -/
abbrev Node := Option Slot

structure Hdr where
  dev : BitVec 32
  blockno : BitVec 32
  valid : Bool
  refcnt : BitVec 32
  lock : Option Pid

structure Cache where
  next : Node → Node
  prev : Node → Node
  buf : Slot → Hdr
  clock : Nat
  released : Slot → Nat

/-! ## the functions -/

def Cache.setNext (c : Cache) (x y : Node) : Cache := { c with next := Function.update c.next x y }

def Cache.setPrev (c : Cache) (x y : Node) : Cache := { c with prev := Function.update c.prev x y }

def Cache.setBuf (c : Cache) (k : Slot) (x : Hdr) : Cache := { c with buf := Function.update c.buf k x }

/-- `b` is put behind `head`, in `binit` and `brelse` -/
def Cache.pushFront (c : Cache) (b : Slot) : Cache :=
  let c := c.setNext (some b) (c.next none)
  let c := c.setPrev (some b) none
  let c := c.setPrev (c.next none) (some b)
  c.setNext none (some b)

/-- `b->next->prev = b->prev; b->prev->next = b->next;` -/
def Cache.unlink (c : Cache) (b : Slot) : Cache :=
  let c := c.setPrev (c.next (some b)) (c.prev (some b))
  c.setNext (c.prev (some b)) (c.next (some b))

def binit : Cache :=
  (List.finRange NBUF).foldl Cache.pushFront ⟨fun _ => none, fun _ => none, fun _ => ⟨0, 0, false, 0, none⟩, 0, fun _ => 0⟩

def Cache.hit (c : Cache) (dev blockno : BitVec 32) (b : Slot) : Bool :=
  (c.buf b).dev = dev ∧ (c.buf b).blockno = blockno

def Cache.unused (c : Cache) (b : Slot) : Bool := (c.buf b).refcnt = 0

/-- a loop over the list: up to `head`, or to the first buffer that passes the test -/
def search (test : Slot → Bool) (next : Node → Node) : Option Node :=
  seek (fun x => x.all test = true) next (NBUF + 1) (next none)

def Cache.addRef (c : Cache) (b : Slot) (n : BitVec 32) : Cache :=
  c.setBuf b { c.buf b with refcnt := (c.buf b).refcnt + n }

/-- `bget` up to `acquiresleep` -/
def Cache.bget (c : Cache) (dev blockno : BitVec 32) : Outcome (Slot × Cache) :=
  match search (c.hit dev blockno) c.next with
  | none => .panic undef
  | some (some b) => .next (b, c.addRef b 1)
  | some none =>
    match search c.unused c.prev with
    | none => .panic undef
    | some (some b) =>
      .next (b, c.setBuf b { c.buf b with dev := dev, blockno := blockno, valid := false, refcnt := 1 })
    | some none => .panic "bget: no buffers"

/-- the last reference to `b` is given up -/
def Cache.moveFront (c : Cache) (b : Slot) : Cache :=
  { (c.unlink b).pushFront b with clock := c.clock + 1, released := Function.update c.released b (c.clock + 1) }

def Cache.brelse (c : Cache) (p : Pid) (b : Slot) : Outcome Cache :=
  if (c.buf b).lock = some p then
    let c := (c.setBuf b { c.buf b with lock := none }).addRef b (-1)
    .next (if (c.buf b).refcnt = 0 then c.moveFront b else c)
  else .panic "brelse"

inductive Event where
  | bget (dev blockno : BitVec 32)
  | acquiresleep (p : Pid) (b : Slot)
  | brelse (p : Pid) (b : Slot)
  | bpin (b : Slot)
  | bunpin (b : Slot)

def step (c : Cache) : Event → Outcome Cache
  | .bget dev blockno => (c.bget dev blockno).map Prod.snd
  | .acquiresleep p b =>
    if (c.buf b).lock = none then .next (c.setBuf b { c.buf b with lock := some p }) else .blocked
  | .brelse p b => c.brelse p b
  | .bpin b => .next (c.addRef b 1)
  | .bunpin b => .next (c.addRef b (-1))

/-! ## the pointers -/

/-- the list from `head.next` on -/
def Cache.Linked (c : Cache) (l : List Slot) : Prop := TwoWay c.next c.prev none (l.map some)

section
variable {c c' : Cache} {l A B : List Slot} {b : Slot}

theorem nodup_of_linked (h : c.Linked l) : l.Nodup := (List.nodup_cons.mp (TwoWay.nodup h)).2.of_map some

theorem pushFront_linked (h : c.Linked l) (hb : b ∉ l) : (c.pushFront b).Linked (b :: l) := by
  have hn : update c.next (some b) (c.next none) none = c.next none :=
    update_of_ne (Option.some_ne_none b).symm _ _
  have r := TwoWay.insert (k := some b) h (by simpa using hb)
  show TwoWay _ (update _ (update c.next (some b) (c.next none) none) _) _ _
  rwa [hn]

theorem unlink_linked (h : c.Linked (A ++ b :: B)) : (c.unlink b).Linked (A ++ B) := by
  have hring : TwoWay c.next c.prev none (A.map some ++ some b :: B.map some) := by
    have := h
    rwa [Cache.Linked, map_append, map_cons] at this
  have hp : update c.prev (c.next (some b)) (c.prev (some b)) (some b) = c.prev (some b) := by
    by_cases e : some b = c.next (some b)
    · rw [← e, update_self]
    · exact update_of_ne e _ _
  show TwoWay (update _ (update c.prev (c.next (some b)) (c.prev (some b)) (some b)) _) _ _ _
  rw [hp, map_append]
  exact hring.remove

theorem foldl_linked {L : List Slot} (h : c.Linked l) (hL : L.Nodup) (hd : ∀ b ∈ L, b ∉ l) :
    (L.foldl Cache.pushFront c).Linked (L.reverse ++ l) ∧ (L.foldl Cache.pushFront c).buf = c.buf ∧
      (L.foldl Cache.pushFront c).released = c.released := by
  induction L generalizing c l with
  | nil => exact ⟨h, rfl, rfl⟩
  | cons b L ih =>
    obtain ⟨hb, hL⟩ := nodup_cons.mp hL
    rw [reverse_cons, append_assoc]
    refine ih (pushFront_linked h (hd b mem_cons_self)) hL fun a ha hm => ?_
    rcases mem_cons.mp hm with rfl | hm
    · exact hb ha
    · exact hd a (mem_cons_of_mem _ ha) hm

theorem search_eq {next : Node → Node} (test : Slot → Bool) (h : Link next (none :: l.map some ++ [none]))
    (hl : l.Nodup) : search test next = some (l.find? test) := by
  have hlen : (l.map some).length < NBUF + 1 := by
    rw [length_map]
    have := hl.length_le_card
    rw [Fintype.card_fin] at this
    omega
  have hs : seek (fun x : Node => x.all test = true) next (NBUF + 1) (next none) = _ := seek_find h rfl hlen
  have ht : ((fun y : Node => decide (y.all test = true)) ∘ some) = test := by
    funext b
    simp
  rw [search, hs, find?_map, ht]
  cases l.find? test with
  | none | some b => rfl

theorem bget_cases (h : c.Linked l) (dev blockno : BitVec 32) :
    (∃ b, l.find? (c.hit dev blockno) = some b ∧ c.bget dev blockno = .next (b, c.addRef b 1)) ∨
    l.find? (c.hit dev blockno) = none ∧
      ((∃ b, l.reverse.find? c.unused = some b ∧ c.bget dev blockno = .next (b, c.setBuf b
          { c.buf b with dev := dev, blockno := blockno, valid := false, refcnt := 1 })) ∨
        l.reverse.find? c.unused = none ∧ c.bget dev blockno = .panic "bget: no buffers") := by
  have hnd := nodup_of_linked h
  have hb := TwoWay.bwd h
  rw [← map_reverse] at hb
  rw [Cache.bget, search_eq _ (TwoWay.fwd h) hnd, search_eq _ hb (nodup_reverse.mpr hnd)]
  cases l.find? (c.hit dev blockno) with
  | some b => exact .inl ⟨b, rfl, rfl⟩
  | none =>
    cases l.reverse.find? c.unused with
    | some b => exact .inr ⟨rfl, .inl ⟨b, rfl, rfl⟩⟩
    | none => exact .inr ⟨rfl, .inr ⟨rfl, rfl⟩⟩

/-! ## the invariant -/

/-- the list has every buffer, the one released last first, and identities are distinct -/
structure Inv (c : Cache) (l : List Slot) : Prop where
  linked : c.Linked l
  all : ∀ b, b ∈ l
  unique : ∀ a b, (c.buf a).dev ≠ 0 → (c.buf a).dev = (c.buf b).dev → (c.buf a).blockno = (c.buf b).blockno → a = b
  order : l.Pairwise fun a b => c.released b ≤ c.released a
  clock : ∀ b, c.released b ≤ c.clock

theorem inv_binit : Inv binit (List.finRange NBUF).reverse := by
  have hempty : Cache.Linked ⟨fun _ => none, fun _ => none, fun _ => ⟨0, 0, false, 0, none⟩, 0, fun _ => 0⟩ [] :=
    ⟨link_cons_cons.mpr ⟨rfl, link_single _ _⟩, link_cons_cons.mpr ⟨rfl, link_single _ _⟩, nodup_singleton _⟩
  obtain ⟨h, hbuf, hrel⟩ := foldl_linked hempty (nodup_finRange NBUF) fun b _ => not_mem_nil
  rw [append_nil] at h
  have hrel : ∀ b, binit.released b = 0 := congrFun hrel
  refine ⟨h, fun b => by simp, fun a b ha => absurd ?_ ha, pairwise_of_forall fun a b => ?_, fun b => ?_⟩
  · rw [binit, hbuf]
  · rw [hrel, hrel]
  · rw [hrel]
    exact Nat.zero_le _

theorem setBuf_buf (c : Cache) (b : Slot) (x : Hdr) (a : Slot) :
    (c.setBuf b x).buf a = if a = b then x else c.buf a := update_apply _ _ _ _

theorem Inv.setBuf {x : Hdr} (h : Inv c l) (hd : x.dev = (c.buf b).dev) (hb : x.blockno = (c.buf b).blockno) :
    Inv (c.setBuf b x) l := by
  have hsame : ∀ a, ((c.setBuf b x).buf a).dev = (c.buf a).dev ∧ ((c.setBuf b x).buf a).blockno = (c.buf a).blockno := by
    intro a
    rw [setBuf_buf]
    split
    · rename_i e
      rw [e]
      exact ⟨hd, hb⟩
    · exact ⟨rfl, rfl⟩
  refine ⟨h.linked, h.all, fun a b => ?_, h.order, h.clock⟩
  rw [(hsame a).1, (hsame a).2, (hsame b).1, (hsame b).2]
  exact h.unique a b

theorem Inv.recycle {x : Hdr} (h : Inv c l) (hn : ∀ a, ¬ ((c.buf a).dev = x.dev ∧ (c.buf a).blockno = x.blockno)) :
    Inv (c.setBuf b x) l := by
  refine ⟨h.linked, h.all, fun a a' h0 hd hb => ?_, h.order, h.clock⟩
  rw [setBuf_buf] at h0
  rw [setBuf_buf, setBuf_buf] at hd hb
  split at h0
  · rename_i e
    by_contra hne
    rw [if_pos e, if_neg fun e' => hne (e.trans e'.symm)] at hd hb
    exact hn a' ⟨hd.symm, hb.symm⟩
  rename_i e
  rw [if_neg e] at hd hb
  split at hd
  · rename_i e'
    rw [if_pos e'] at hb
    exact absurd ⟨hd, hb⟩ (hn a)
  · rename_i e'
    rw [if_neg e'] at hb
    exact h.unique a a' h0 hd hb

theorem Inv.moveFront (h : Inv c l) (b : Slot) : ∃ l', Inv (c.moveFront b) l' := by
  obtain ⟨A, B, rfl⟩ := append_of_mem (h.all b)
  have hb : b ∉ A ++ B := (nodup_cons.mp (perm_middle.nodup_iff.mp (nodup_of_linked h.linked))).1
  have hself : (c.moveFront b).released b = c.clock + 1 := update_self _ _ _
  have hother : ∀ a ∈ A ++ B, (c.moveFront b).released a = c.released a :=
    fun a ha => update_of_ne (fun e : a = b => hb (e ▸ ha)) _ _
  have hmem : ∀ a, a ∈ b :: (A ++ B) := fun a => perm_middle.mem_iff.mp (h.all a)
  have hclock : ∀ a, (c.moveFront b).released a ≤ c.clock + 1 := by
    intro a
    rcases mem_cons.mp (hmem a) with rfl | ha
    · exact hself.le
    · rw [hother a ha]
      exact Nat.le_succ_of_le (h.clock a)
  refine ⟨b :: (A ++ B), pushFront_linked (unlink_linked h.linked) hb, hmem, h.unique, ?_, hclock⟩
  refine pairwise_cons.mpr ⟨fun a _ => by rw [hself]; exact hclock a, ?_⟩
  refine (h.order.sublist (List.Sublist.append_left (sublist_cons_self b B) A)).imp_of_mem fun hx hy hle => ?_
  rwa [hother _ hx, hother _ hy]

theorem Inv.step {e : Event} (h : Inv c l) (hs : step c e = .next c') : ∃ l', Inv c' l' := by
  cases e with
  | bget dev blockno =>
    obtain ⟨x, hx, rfl⟩ := map_next hs
    rcases bget_cases h.linked dev blockno with ⟨b, -, e⟩ | ⟨hn, ⟨b, -, e⟩ | ⟨-, e⟩⟩
    · rw [e] at hx
      cases hx
      exact ⟨l, h.setBuf rfl rfl⟩
    · rw [e] at hx
      cases hx
      refine ⟨l, h.recycle fun a ha => ?_⟩
      exact absurd (decide_eq_true ha) (find?_eq_none.mp hn a (h.all a))
    · rw [e] at hx
      cases hx
  | acquiresleep p b =>
    obtain ⟨-, rfl⟩ := guard_next hs
    exact ⟨l, h.setBuf rfl rfl⟩
  | brelse p b =>
    obtain ⟨-, hs⟩ := ite_panic hs
    have h1 : Inv ((c.setBuf b { c.buf b with lock := none }).addRef b (-1)) l :=
      (h.setBuf (x := { c.buf b with lock := none }) rfl rfl).setBuf rfl rfl
    cases hs
    split
    · exact h1.moveFront b
    · exact ⟨l, h1⟩
  | bpin b | bunpin b =>
    cases hs
    exact ⟨l, h.setBuf rfl rfl⟩

end

end Bio.Lru
