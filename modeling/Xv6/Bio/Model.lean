import Xv6.Lib.Threads
import Xv6.Log.Model

/-!
# The buffer cache under the log

`bio.c` and the functions of `log.c` that use it, as programs of atomic actions: the sections under
`bcache.lock` and `log.lock`, the sleep-locks of the buffers, the transfers of the disk, and what a
process does with a buffer that it has locked.

* `bread`, `brelse`                        programs of a process;
* `write_log`, `install_trans`, `write_head`, `commit`, `end_op`   the same for the log;
* `Script`      what a process may do: calls of `bread` and `brelse`, and operations in which it changes
                buffers and calls `log_write`; what it does next may depend on what it has read;
* `Script.Ok`   it changes only buffers that it has locked, inside of operations and outside of the log
                area, and calls `log_write` for each of them before it calls `brelse` or `end_op`.

Some fields are bookkeeping that no action reads.  `trace` lists what the calls of `bread` have returned
and the changes of blocks, the last one first; `base` is what the disk had before.  The log changes its
own blocks only: what it copies to another block is no change of that block.  `pinlog` lists the calls of
`bpin` (with `true`) and `bunpin`, and `pins` are the blocks that are pinned and not unpinned yet.

`Store.Accepts` says what a plain block store does: a block that is read has the contents it was last
changed to.
-/

namespace Bio
open Run Bytes Prog Own

def NBUF : Nat := Log.MAXOPBLOCKS * 3

def NPROC : Nat := 64

abbrev Slot := Fin NBUF

abbrev Pid := Fin NPROC

/-- `struct buf`; `ident` is `none` before the first use.  There is one device. -/
structure BufHdr where
  ident : Option Nat
  valid : Bool
  refcnt : Nat
  lock : Option Pid
  data : Buf

inductive Access where
  | read (b : Nat) (x : Buf)
  | write (b : Nat) (x : Buf)

namespace Store

/-- the blocks after the accesses of a list, the last one first -/
def replay (base : Nat → Buf) : List Access → Nat → Buf
  | [] => base
  | .read _ _ :: l => replay base l
  | .write b x :: l => Function.update (replay base l) b x

def Accepts (base : Nat → Buf) : List Access → Prop
  | [] => True
  | .read b x :: l => x = replay base l b ∧ Accepts base l
  | .write _ _ :: l => Accepts base l

end Store

structure Sys where
  disk : Nat → Buf
  buf : Slot → BufHdr
  /-- from `head.next` on -/
  lru : List Slot
  lh : List Nat
  outstanding : Nat
  committing : Bool
  base : Nat → Buf
  trace : List Access
  pinlog : List (Nat × Bool)
  pins : List Nat

/-- the blocks as they have been changed -/
def Sys.store (s : Sys) : Nat → Buf := Store.replay s.base s.trace

/-! ## actions -/

inductive Op where
  /-- the section of `bget` -/
  | bget (b : Nat)
  | acquiresleep (p : Pid) (k : Slot)
  /-- `bread` of the block `b` after `bget` -/
  | load (b : Nat) (k : Slot)
  | bwrite (p : Pid) (k : Slot)
  /-- `brelse` up to `releasesleep` -/
  | releasesleep (p : Pid) (k : Slot)
  /-- the section of `brelse` -/
  | unref (k : Slot)
  | bunpin (k : Slot)
  /-- `memmove` and stores of the log to a buffer -/
  | copy (k : Slot) (d : Buf)
  /-- a process changes a buffer -/
  | modify (k : Slot) (d : Buf)
  | beginOp
  | logWrite (k : Slot)
  /-- the first section of `end_op`, with `do_commit` -/
  | endOp
  | endCommit
  /-- `log.lh` -/
  | header
  /-- `log.lh.n = 0` -/
  | clearHeader

def Op.Res : Op → Type
  | .bget _ => Slot
  | .load _ _ => Buf
  | .endOp => Bool
  | .header => List Nat
  | _ => Unit

def Sys.setBuf (s : Sys) (k : Slot) (x : BufHdr) : Sys := { s with buf := Function.update s.buf k x }

/-- a `uint` counts down -/
def dec32 (n : Nat) : Nat := if n = 0 then 2 ^ 32 - 1 else n - 1

def Sys.bget (s : Sys) (b : Nat) : Outcome (Slot × Sys) :=
  match s.lru.find? fun k => (s.buf k).ident = some b with
  | some k => .next (k, s.setBuf k { s.buf k with refcnt := (s.buf k).refcnt + 1 })
  | none =>
    match s.lru.reverse.find? fun k => (s.buf k).refcnt = 0 with
    | some k => .next (k, s.setBuf k { s.buf k with ident := some b, valid := false, refcnt := 1 })
    | none => .panic "bget: no buffers"

def Sys.fill (s : Sys) (k : Slot) : Sys :=
  if (s.buf k).valid then s
  else
    match (s.buf k).ident with
    | some b => s.setBuf k { s.buf k with data := s.disk b, valid := true }
    | none => s

def Sys.load (s : Sys) (b : Nat) (k : Slot) : Buf × Sys :=
  let s := s.fill k
  ((s.buf k).data, { s with trace := .read b (s.buf k).data :: s.trace })

def Sys.bwrite (s : Sys) (p : Pid) (k : Slot) : Outcome Sys :=
  if (s.buf k).lock = some p then
    match (s.buf k).ident with
    | some b => .next { s with disk := Function.update s.disk b (s.buf k).data }
    | none => .panic undef
  else .panic "bwrite"

def Sys.unref (s : Sys) (k : Slot) : Sys :=
  let n := dec32 (s.buf k).refcnt
  let s := s.setBuf k { s.buf k with refcnt := n }
  if n = 0 then { s with lru := k :: s.lru.erase k } else s

def Sys.bunpin (s : Sys) (k : Slot) : Sys :=
  let t := s.setBuf k { s.buf k with refcnt := dec32 (s.buf k).refcnt }
  match (s.buf k).ident with
  | some b => { t with pinlog := (b, false) :: s.pinlog, pins := s.pins.erase b }
  | none => t

def Sys.setData (s : Sys) (k : Slot) (d : Buf) : Sys := s.setBuf k { s.buf k with data := d }

def Sys.modify (s : Sys) (k : Slot) (d : Buf) : Sys :=
  match (s.buf k).ident with
  | some b => { s.setData k d with trace := .write b d :: s.trace }
  | none => s.setData k d

/-- `memmove` of the log -/
def Sys.copy (K : Log.Conf) (s : Sys) (k : Slot) (d : Buf) : Sys :=
  match (s.buf k).ident with
  | some b => if Log.Home K b then s.setData k d else s.modify k d
  | none => s.setData k d

def Sys.beginOp (s : Sys) : Outcome Sys :=
  if s.committing then .blocked
  else if s.lh.length + (s.outstanding + 1) * Log.MAXOPBLOCKS > Log.LOGSIZE then .blocked
  else .next { s with outstanding := s.outstanding + 1 }

/-- `log_write`; a block that is new in the header is pinned -/
def Sys.logWrite (K : Log.Conf) (s : Sys) (k : Slot) : Outcome Sys :=
  if s.lh.length ≥ Log.LOGSIZE ∨ s.lh.length ≥ K.size - 1 then .panic "too big a transaction"
  else if s.outstanding < 1 then .panic "log_write outside of trans"
  else
    match (s.buf k).ident with
    | none => .panic undef
    | some b =>
      if b ∈ s.lh then .next s
      else .next { s.setBuf k { s.buf k with refcnt := (s.buf k).refcnt + 1 } with
        lh := s.lh ++ [b], pinlog := (b, true) :: s.pinlog, pins := s.pins ++ [b] }

def Sys.endOp (s : Sys) : Outcome (Bool × Sys) :=
  if s.committing then .panic "log.committing"
  else if s.outstanding - 1 = 0 then .next (true, { s with outstanding := 0, committing := true })
  else .next (false, { s with outstanding := s.outstanding - 1 })

def sem (K : Log.Conf) : (o : Op) → Sys → Outcome (o.Res × Sys)
  | .bget b, s => s.bget b
  | .acquiresleep p k, s =>
    if (s.buf k).lock = none then .next ((), s.setBuf k { s.buf k with lock := some p }) else .blocked
  | .load b k, s => .next (s.load b k)
  | .bwrite p k, s => (s.bwrite p k).map fun s' => ((), s')
  | .releasesleep p k, s =>
    if (s.buf k).lock = some p then .next ((), s.setBuf k { s.buf k with lock := none })
    else .panic "brelse"
  | .unref k, s => .next ((), s.unref k)
  | .bunpin k, s => .next ((), s.bunpin k)
  | .copy k d, s => .next ((), s.copy K k d)
  | .modify k d, s => .next ((), s.modify k d)
  | .beginOp, s => s.beginOp.map fun s' => ((), s')
  | .logWrite k, s => (s.logWrite K k).map fun s' => ((), s')
  | .endOp, s => s.endOp
  | .endCommit, s => .next ((), { s with committing := false })
  | .header, s => .next (s.lh, s)
  | .clearHeader, s => .next ((), { s with lh := [] })

/-! ## programs -/

abbrev Kernel := Prog Op Op.Res

def bget (b : Nat) : Kernel Slot := Prog.perform (Op.bget b)

def acquiresleep (p : Pid) (k : Slot) : Kernel Unit := Prog.perform (Op.acquiresleep p k)

def load (b : Nat) (k : Slot) : Kernel Buf := Prog.perform (Op.load b k)

def bwrite (p : Pid) (k : Slot) : Kernel Unit := Prog.perform (Op.bwrite p k)

def releasesleep (p : Pid) (k : Slot) : Kernel Unit := Prog.perform (Op.releasesleep p k)

def unref (k : Slot) : Kernel Unit := Prog.perform (Op.unref k)

def bunpin (k : Slot) : Kernel Unit := Prog.perform (Op.bunpin k)

def memmove (k : Slot) (d : Buf) : Kernel Unit := Prog.perform (Op.copy k d)

def modify (k : Slot) (d : Buf) : Kernel Unit := Prog.perform (Op.modify k d)

def beginOp : Kernel Unit := Prog.perform Op.beginOp

def logWrite (k : Slot) : Kernel Unit := Prog.perform (Op.logWrite k)

def header : Kernel (List Nat) := Prog.perform Op.header

/-- a locked buffer, and its contents -/
def bread (p : Pid) (b : Nat) : Kernel (Slot × Buf) := do
  let k ← bget b
  acquiresleep p k
  let d ← load b k
  pure (k, d)

def brelse (p : Pid) (k : Slot) : Kernel Unit := do
  releasesleep p k
  unref k

section
variable (K : Log.Conf) (p : Pid)

/-- the loop of `write_log`; `log.lh` has room for `LOGSIZE` blocks -/
def writeLogFrom : (fuel tail : Nat) → Kernel Unit
  | 0, _ => .panic undef
  | fuel + 1, tail => do
    let l ← header
    match l[tail]? with
    | none => pure ()
    | some b => do
      let dst ← bread p (K.start + tail + 1)
      let src ← bread p b
      memmove dst.1 src.2
      bwrite p dst.1
      brelse p src.1
      brelse p dst.1
      writeLogFrom fuel (tail + 1)

/-- the loop of `install_trans` with `recovering == 0` -/
def installFrom : (fuel tail : Nat) → Kernel Unit
  | 0, _ => .panic undef
  | fuel + 1, tail => do
    let l ← header
    match l[tail]? with
    | none => pure ()
    | some b => do
      let lbuf ← bread p (K.start + tail + 1)
      let dbuf ← bread p b
      memmove dbuf.1 lbuf.2
      bwrite p dbuf.1
      bunpin dbuf.1
      brelse p lbuf.1
      brelse p dbuf.1
      installFrom fuel (tail + 1)

def writeHead : Kernel Unit := do
  let buf ← bread p K.start
  let l ← header
  memmove buf.1 (Log.headBuf buf.2 (l.map (BitVec.ofNat 32)))
  bwrite p buf.1
  brelse p buf.1

def commit : Kernel Unit := do
  let l ← header
  if 0 < l.length then do
    writeLogFrom K p (Log.LOGSIZE + 1) 0
    writeHead K p
    installFrom K p (Log.LOGSIZE + 1) 0
    Prog.perform Op.clearHeader
    writeHead K p
  else pure ()

def endOp : Kernel Unit := do
  let doCommit : Bool ← Prog.perform Op.endOp
  if doCommit then do
    commit K p
    Prog.perform Op.endCommit
  else pure ()

end

/-! ## processes -/

section
variable (K : Log.Conf)

/-- the calls of a process -/
inductive Script where
  | done
  | bread (b : Nat) (next : Slot → Buf → Script)
  | modify (k : Slot) (d : Buf) (next : Script)
  | logWrite (k : Slot) (next : Script)
  | brelse (k : Slot) (next : Script)
  | beginOp (next : Script)
  | endOp (next : Script)

def Script.run (p : Pid) : Script → Kernel PUnit
  | .done => pure PUnit.unit
  | .bread b next => (Bio.bread p b).bind fun x => (next x.1 x.2).run p
  | .modify k d next => (Bio.modify k d).bind fun _ => next.run p
  | .logWrite k next => (Bio.logWrite k).bind fun _ => next.run p
  | .brelse k next => (Bio.brelse p k).bind fun _ => next.run p
  | .beginOp next => Bio.beginOp.bind fun _ => next.run p
  | .endOp next => (Bio.endOp K p).bind fun _ => next.run p

/-- the block in a buffer that a process has locked, and whether `log_write` is due -/
abbrev Held := Slot → Option (Nat × Bool)

def Script.Ok : (inOp : Bool) → Held → Script → Prop
  | inOp, held, .done => inOp = false ∧ ∀ k, held k = none
  | inOp, held, .bread b next =>
    ∀ k d, held k = none → (next k d).Ok inOp (Function.update held k (some (b, false)))
  | inOp, held, .modify k _ next =>
    inOp = true ∧ ∃ b due, held k = some (b, due) ∧ Log.Home K b ∧
      next.Ok inOp (Function.update held k (some (b, true)))
  | inOp, held, .logWrite k next =>
    inOp = true ∧ ∃ b due, held k = some (b, due) ∧ Log.Home K b ∧
      next.Ok inOp (Function.update held k (some (b, false)))
  | inOp, held, .brelse k next =>
    ∃ b, held k = some (b, false) ∧ next.Ok inOp (Function.update held k none)
  | inOp, held, .beginOp next => inOp = false ∧ next.Ok true held
  | inOp, held, .endOp next => inOp = true ∧ (∀ k b, held k ≠ some (b, true)) ∧ next.Ok false held

/-! ## the system -/

abbrev Config := Own.Config Sys Pid Op Op.Res Empty

inductive Event where
  | start (p : Pid) (q : Script)
  | action (p : Pid)

def step (c : Config) : Event → Outcome Config
  | .start p q =>
    match c.thread p with
    | none => .next { c with thread := Function.update c.thread p (some ⟨q.run K p, 0⟩) }
    | some _ => .blocked
  | .action p => stepThread (sem K) (fun _ _ => 0) (fun _ _ => 0) c p

def Event.Ok : Event → Prop
  | .start _ q => q.Ok K false fun _ => none
  | .action _ => True

end

/-- after `initlog`: the log is empty, and what is in the cache is on the disk -/
structure Started (s : Sys) : Prop where
  lru : ∀ k, k ∈ s.lru
  refcnt : ∀ k, (s.buf k).refcnt = 0
  lock : ∀ k, (s.buf k).lock = none
  unique : ∀ k k' b, (s.buf k).ident = some b → (s.buf k').ident = some b → k = k'
  clean : ∀ k b, (s.buf k).ident = some b → (s.buf k).valid = true → (s.buf k).data = s.disk b
  header : s.lh = []
  outstanding : s.outstanding = 0
  committing : s.committing = false
  base : s.base = s.disk
  trace : s.trace = []
  pinlog : s.pinlog = []
  pins : s.pins = []

/-- after `binit` -/
def Sys.init (d : Nat → Buf) : Sys where
  disk := d
  buf := fun _ => ⟨none, false, 0, none, fun _ => 0⟩
  lru := (List.finRange NBUF).reverse
  lh := []
  outstanding := 0
  committing := false
  base := d
  trace := []
  pinlog := []
  pins := []

theorem started_init (d : Nat → Buf) : Started (Sys.init d) :=
  ⟨fun k => List.mem_reverse.mpr (List.mem_finRange k), fun _ => rfl, fun _ => rfl,
    fun _ _ _ h => (nomatch h), fun _ _ h => (nomatch h), rfl, rfl, rfl, rfl, rfl, rfl, rfl⟩

end Bio
