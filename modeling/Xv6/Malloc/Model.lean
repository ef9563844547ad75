import Mathlib.Algebra.Group.Nat.Defs
import Xv6.Lib.Cycle
import Xv6.Lib.Run

/-!
# The memory allocator of user programs

`malloc` and `free` over a memory of headers: the header at the address `a` is `mem a`.  Every
header that is read or written is `base` or stands at a multiple of the size of a header above the
first break.  `sbrk` fails or moves the break by what was asked for; the flag of an event says
which.  A loop takes the number of rounds it may go; without rounds left it gives `none`.
-/

namespace Malloc
open Cycle Run Function

/-- `union header` -/
structure Header where
  ptr : Nat
  size : Nat

def sizeofHeader : Nat := 16

/-- where the program's `base` stands, and its break before the first `malloc` -/
structure Image where
  base : Nat
  start : Nat
  base_pos : 0 < base
  base_lt : base < start

structure State where
  mem : Nat → Header
  freep : Nat
  brk : Nat

/-- `a->s.ptr` -/
def State.ptr (s : State) (a : Nat) : Nat := (s.mem a).ptr

/-- `a->s.size` -/
def State.size (s : State) (a : Nat) : Nat := (s.mem a).size

def State.setPtr (s : State) (a p : Nat) : State :=
  { s with mem := Function.update s.mem a ⟨p, (s.mem a).size⟩ }

/-- a `uint` -/
def State.setSize (s : State) (a n : Nat) : State :=
  { s with mem := Function.update s.mem a ⟨(s.mem a).ptr, n % 2 ^ 32⟩ }

/-- the address `n` headers above `p` -/
def above (p n : Nat) : Nat := p + sizeofHeader * n

section
variable (s : State) (a b p n : Nat)

@[simp] theorem setPtr_ptr : (s.setPtr a p).ptr b = if b = a then p else s.ptr b := by
  show (update s.mem a _ b).ptr = _
  by_cases h : b = a
  · rw [h, if_pos rfl, update_self]
  · rw [if_neg h, update_of_ne h]
    rfl

@[simp] theorem setPtr_size : (s.setPtr a p).size b = s.size b := by
  show (update s.mem a _ b).size = _
  by_cases h : b = a
  · rw [h, update_self]
    rfl
  · rw [update_of_ne h]
    rfl

@[simp] theorem setSize_size : (s.setSize a n).size b = if b = a then n % 2 ^ 32 else s.size b := by
  show (update s.mem a _ b).size = _
  by_cases h : b = a
  · rw [h, if_pos rfl, update_self]
  · rw [if_neg h, update_of_ne h]
    rfl

@[simp] theorem setSize_ptr : (s.setSize a n).ptr b = s.ptr b := by
  show (update s.mem a _ b).ptr = _
  by_cases h : b = a
  · rw [h, update_self]
    rfl
  · rw [update_of_ne h]
    rfl

end

/-! ## free -/

/-- one of the two conditions that end the loop of `free` at `p` -/
def stops (s : State) (bp p : Nat) : Prop :=
  (bp > p ∧ bp < s.ptr p) ∨
    (p ≥ s.ptr p ∧ (bp > p ∨ bp < s.ptr p))

instance (s : State) (bp : Nat) : DecidablePred (stops s bp) :=
  fun _ => inferInstanceAs (Decidable (_ ∨ _))

/-- the block at `bp` and the one behind it in the list -/
def joinNext (s : State) (bp p : Nat) : State :=
  if above bp (s.size bp) = s.ptr p then
    let s := s.setSize bp (s.size bp + s.size (s.ptr p))
    s.setPtr bp (s.ptr (s.ptr p))
  else s.setPtr bp (s.ptr p)

/-- the block at `p` and the one at `bp` -/
def joinPrev (s : State) (bp p : Nat) : State :=
  if above p (s.size p) = bp then
    let s := s.setSize p (s.size p + s.size bp)
    s.setPtr p (s.ptr bp)
  else s.setPtr p bp

def free (n : Nat) (s : State) (ap : Nat) : Option State :=
  let bp := ap - sizeofHeader
  match seek (stops s bp) s.ptr n s.freep with
  | none => none
  | some p => some { joinPrev (joinNext s bp p) bp p with freep := p }

/-! ## malloc -/

/-- the units `morecore` asks for -/
def coreUnits (nu : Nat) : Nat := if nu < 4096 then 4096 else nu

/-- the state and the result, 0 if `sbrk` fails -/
def morecore (n : Nat) (s : State) (nu : Nat) (sbrk : Bool) : Option (State × Nat) :=
  let nu := coreUnits nu
  if sbrk then
    let hp := s.brk
    let s := { s with brk := above s.brk nu }
    match free n (s.setSize hp nu) (hp + sizeofHeader) with
    | none => none
    | some s => some (s, s.freep)
  else some (s, 0)

/-- a block is taken whole, or from the end of `p` -/
def take (s : State) (nunits prevp p : Nat) : State × Nat :=
  if s.size p = nunits then
    ({ s.setPtr prevp (s.ptr p) with freep := prevp }, p + sizeofHeader)
  else
    let s := s.setSize p (s.size p - nunits)
    let p := above p (s.size p)
    ({ s.setSize p nunits with freep := prevp }, p + sizeofHeader)

def mallocLoop (nunits : Nat) (sbrk : Bool) : Nat → State → Nat → Nat → Option (State × Nat)
  | 0, _, _, _ => none
  | n + 1, s, prevp, p =>
    if nunits ≤ s.size p then some (take s nunits prevp p)
    else if p = s.freep then
      match morecore n s nunits sbrk with
      | none => none
      | some (s, p) => if p = 0 then some (s, 0) else mallocLoop nunits sbrk n s p (s.ptr p)
    else mallocLoop nunits sbrk n s p (s.ptr p)

def unitsFor (nbytes : Nat) : Nat :=
  ((nbytes + sizeofHeader - 1) / sizeofHeader + 1) % 2 ^ 32

/-- the list of one cell that `malloc` starts with -/
def initList (I : Image) (s : State) : State :=
  if s.freep = 0 then { (s.setPtr I.base I.base).setSize I.base 0 with freep := I.base } else s

def malloc (I : Image) (n : Nat) (s : State) (nbytes : Nat) (sbrk : Bool) : Option (State × Nat) :=
  let s := initList I s
  mallocLoop (unitsFor nbytes) sbrk n s s.freep (s.ptr s.freep)

/-! ## runs -/

/-- a state, and the results of `malloc` that are live, each with the bytes asked for -/
structure Config where
  state : State
  live : List (Nat × Nat)

inductive Event where
  | malloc (nbytes : Fin (2 ^ 27)) (sbrk : Bool) (n : Nat)
  | free (ap nbytes n : Nat)
  | store (a : Nat) (h : Header)

/-- the header-sized cell `a` lies in the block behind the result `ap` -/
def inBlock (s : State) (a : Nat) (ap : Nat × Nat) : Bool :=
  ap.1 ≤ a && a + sizeofHeader ≤ above (ap.1 - sizeofHeader) (s.size (ap.1 - sizeofHeader))

/-- the program calls `malloc`, frees a live block, or writes to one -/
def step (I : Image) (c : Config) : Event → Outcome Config
  | .malloc nbytes sbrk n =>
    match malloc I n c.state nbytes sbrk with
    | none => .blocked
    | some (s, ap) => .next ⟨s, if ap = 0 then c.live else (ap, nbytes) :: c.live⟩
  | .free ap nbytes n =>
    if (ap, nbytes) ∈ c.live then
      match free n c.state ap with
      | none => .blocked
      | some s => .next ⟨s, c.live.erase (ap, nbytes)⟩
    else .blocked
  | .store a h =>
    if c.live.any (inBlock c.state a) then
      .next ⟨{ c.state with mem := Function.update c.state.mem a h }, c.live⟩
    else .blocked

/-- the start of a program; what its memory holds is not known -/
def Config.init (I : Image) (mem : Nat → Header) : Config := ⟨⟨mem, 0, I.start⟩, []⟩

end Malloc
