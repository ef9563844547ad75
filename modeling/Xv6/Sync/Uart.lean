import Xv6.Sync.SleepLock

/-!
# The transmit queue of the UART (`uart.c`)

`uartputc` and the sending half of `uartintr` as programs of a monitor with the lock `uart_tx_lock` and
the channel `&uart_tx_r`.  A handler is a call of its own, of a slot that is in no other one.  What
`ReadReg(LSR) & LSR_TX_IDLE` answers is given to each call as a list; a run in which a list or the bound of
the loop of `uartputc` is used up has no next state.  `accepted` and `sent` record the bytes that went into
the ring and into `THR`, and `c` is the byte that `uartstart` has read and not yet written.

* `Fifo`            sent, read and queued bytes are the accepted ones;
* `uart_queue`      in every run; and while the lock is free, who sleeps on `&uart_tx_r` finds the ring full.
-/

namespace Sync.Uart
open Run Prog Bytes List
open Sched (Slot NPROC ProcState slot0)

def UART_TX_BUF_SIZE : Nat := 32

structure Tx where
  uartTxBuf : Buf
  uartTxW : BitVec 64
  uartTxR : BitVec 64
  accepted : List Byte
  sent : List Byte
  c : Option Byte

def Tx.contents (d : Tx) : List Byte := Ring.contents UART_TX_BUF_SIZE d.uartTxBuf d.uartTxR d.uartTxW

def Tx.Full (d : Tx) : Prop := d.uartTxW = d.uartTxR + BitVec.ofNat 64 UART_TX_BUF_SIZE

inductive Act where
  /-- `uart_tx_w == uart_tx_r + UART_TX_BUF_SIZE` -/
  | isFull
  /-- `uart_tx_w == uart_tx_r` -/
  | isEmpty
  /-- `uart_tx_buf[uart_tx_w % UART_TX_BUF_SIZE] = c; uart_tx_w += 1` -/
  | put (c : Byte)
  /-- `c = uart_tx_buf[uart_tx_r % UART_TX_BUF_SIZE]; uart_tx_r += 1` -/
  | get
  /-- `WriteReg(THR, c)` -/
  | writeThr (c : Byte)

def Act.Ans : Act → Type
  | .isFull | .isEmpty => Bool
  | .get => Byte
  | _ => Unit

def Act.eff : (a : Act) → Tx → a.Ans × Tx
  | .isFull, d => (d.uartTxW == d.uartTxR + BitVec.ofNat 64 UART_TX_BUF_SIZE, d)
  | .isEmpty, d => (d.uartTxW == d.uartTxR, d)
  | .put c, d => ((), { d with
      uartTxBuf := Function.update d.uartTxBuf (d.uartTxW.toNat % UART_TX_BUF_SIZE) c
      uartTxW := d.uartTxW + 1
      accepted := d.accepted ++ [c] })
  | .get, d =>
    let c := d.uartTxBuf (d.uartTxR.toNat % UART_TX_BUF_SIZE)
    (c, { d with uartTxR := d.uartTxR + 1, c := some c })
  | .writeThr c, d => ((), { d with sent := d.sent ++ [c], c := none })

inductive Lk where
  | uartTxLock
deriving DecidableEq

inductive Chan where
  | uartTxR
deriving DecidableEq

def uart : Monitor where
  Lk := Lk
  Chan := Chan
  Data := fun _ => Tx
  Act := fun _ => Act
  Ans := Act.Ans
  eff := fun a _ _ d => a.eff d
  Intr := fun _ => Empty
  intr := fun a _ => a.elim

def txWork (a : Act) : Code uart a.Ans := work (M := uart) .uartTxLock a

def isFull : Code uart Bool := txWork .isFull

def isEmpty : Code uart Bool := txWork .isEmpty

def uartstart : (idle : List Bool) → Code uart Unit
  | [] => .panic outOfFuel
  | i :: idle => do
    if ← isEmpty then pure ()
    else if i then
      let c ← txWork .get
      wakeup (M := uart) .uartTxR
      txWork (.writeThr c)
      uartstart idle
    else pure ()

/-- `while (uart_tx_w == uart_tx_r + UART_TX_BUF_SIZE) sleep(&uart_tx_r, &uart_tx_lock)` -/
def uartputcLoop : (fuel : Nat) → Code uart Unit
  | 0 => .panic outOfFuel
  | fuel + 1 => do
    if ← isFull then
      sleep (M := uart) .uartTxR .uartTxLock
      uartputcLoop fuel
    else pure ()

def uartputc (c : Byte) (idle : List Bool) (fuel : Nat) : Code uart Unit := do
  acquire (M := uart) .uartTxLock
  uartputcLoop fuel
  txWork (.put c)
  uartstart idle
  release (M := uart) .uartTxLock

def uartintr (idle : List Bool) : Code uart Unit := do
  acquire (M := uart) .uartTxLock
  uartstart idle
  release (M := uart) .uartTxLock

inductive Call where
  | uartputc (c : Byte) (idle : List Bool) (fuel : Nat)
  | uartintr (idle : List Bool)
  | kill (pid : Int)

def Call.code : Slot → Call → Code uart Unit
  | _, .uartputc c idle fuel => Uart.uartputc c idle fuel
  | _, .uartintr idle => Uart.uartintr idle
  | _, .kill pid => do
    let _ ← Sync.kill pid

/-! ## the rules -/

def Fifo (d : Tx) : Prop :=
  Ring.count d.uartTxR d.uartTxW ≤ UART_TX_BUF_SIZE ∧ d.sent ++ (d.c.toList ++ d.contents) = d.accepted

def rules : Rules uart where
  J := fun _ => Fifo
  reason := fun _ _ => Tx.Full
  guard := fun _ _ _ _ => True
  rest := fun _ d => d.c = none

section
variable {p : Slot} {pid : Int} {d : Tx} {D : Set Chan}

theorem fifo_put (h : Fifo d) (hf : ¬ d.Full) (c : Byte) : Fifo (Act.eff (.put c) d).2 := by
  have hlt : Ring.count d.uartTxR d.uartTxW < UART_TX_BUF_SIZE := by
    refine lt_of_le_of_ne h.1 fun e => hf ?_
    rw [Tx.Full, ← e, Ring.add_count]
  refine ⟨?_, ?_⟩
  · show Ring.count d.uartTxR (d.uartTxW + 1) ≤ UART_TX_BUF_SIZE
    rwa [Ring.count_push (by rw [UART_TX_BUF_SIZE] at hlt; omega)]
  · show d.sent ++ (d.c.toList ++ Ring.contents UART_TX_BUF_SIZE (Function.update d.uartTxBuf _ c)
      d.uartTxR (d.uartTxW + 1)) = d.accepted ++ [c]
    rw [Ring.contents_push (by decide) hlt (by decide), ← append_assoc, ← append_assoc,
      append_assoc d.sent]
    exact congrArg (· ++ [c]) h.2

theorem fifo_get (h : Fifo d) (hc : d.c = none) (he : d.uartTxR ≠ d.uartTxW) :
    Fifo (Act.eff .get d).2 := by
  have hpop := Ring.count_pop he
  refine ⟨?_, ?_⟩
  · show Ring.count (d.uartTxR + 1) d.uartTxW ≤ UART_TX_BUF_SIZE
    have := h.1
    omega
  · have e := h.2
    rwa [hc, Tx.contents, Ring.contents_pop he] at e

theorem fifo_writeThr (h : Fifo d) {c : Byte} (hc : d.c = some c) : Fifo (Act.eff (.writeThr c) d).2 := by
  refine ⟨h.1, ?_⟩
  have e := h.2
  rw [hc] at e
  show (d.sent ++ [c]) ++ ([] ++ d.contents) = d.accepted
  rwa [append_assoc]

/-- the lock with its data -/
abbrev locked (d : Tx) (D : Set Chan) : Held uart := one (M := uart) .uartTxLock d D

theorem tx_ok {x : Act} {g : x.Ans → Code uart Unit} {D' : Set Chan} (hJ : Fifo (x.eff d).2)
    (hD : D ∪ rules.ended .uartTxLock d (x.eff d).2 = D')
    (h : Ok rules p pid (g (x.eff d).1) (locked (x.eff d).2 D')) :
    Ok rules p pid ((txWork x).bind g) (locked d D) := by
  subst hD
  exact ok_act (M := uart) fun _ => ⟨hJ, h⟩

theorem tx_read {x : Act} {g : x.Ans → Code uart Unit} (he : (x.eff d).2 = d) (hJ : Fifo d)
    (h : Ok rules p pid (g (x.eff d).1) (locked d D)) : Ok rules p pid ((txWork x).bind g) (locked d D) :=
  ok_read (M := uart) he hJ fun _ => h

variable {g : Unit → Code uart Unit}

theorem uartstart_ok (idle : List Bool) (hJ : Fifo d) (hc : d.c = none)
    (hg : ∀ d, d.c = none → Ok rules p pid (g ()) (locked d ∅)) :
    Ok rules p pid ((uartstart idle).bind g) (locked d ∅) := by
  induction idle generalizing d with
  | nil => exact trivial
  | cons i idle ih =>
    refine tx_read rfl hJ ?_
    show Ok _ _ _ (Prog.bind (if d.uartTxW == d.uartTxR then _ else _) g) _
    cases he : d.uartTxW == d.uartTxR with
    | true => exact hg d hc
    | false =>
      cases i with
      | false => exact hg d hc
      | true =>
        have hne : d.uartTxR ≠ d.uartTxW := fun e => absurd (beq_iff_eq.mpr e.symm) (by rw [he]; decide)
        have hget := fifo_get hJ hc hne
        have hput := fifo_writeThr hget rfl
        refine tx_ok hget rfl (ok_wakeup (tx_ok hput ?_ (ih hput rfl)))
        -- the only channel has just been woken, and `THR` is no reason to sleep
        refine Set.eq_empty_of_forall_notMem fun ch h => ?_
        rcases h with h | h
        · cases ch
          exact h.2 rfl
        · exact h.2 h.1

theorem uartputcLoop_ok (fuel : Nat) (hJ : Fifo d) (hc : d.c = none)
    (hg : ∀ d, Fifo d → d.c = none → ¬ d.Full → Ok rules p pid (g ()) (locked d ∅)) :
    Ok rules p pid ((uartputcLoop fuel).bind g) (locked d ∅) := by
  induction fuel generalizing d with
  | zero => exact trivial
  | succ fuel ih =>
    refine tx_read rfl hJ ?_
    show Ok _ _ _ (Prog.bind (if d.uartTxW == d.uartTxR + BitVec.ofNat 64 UART_TX_BUF_SIZE then _ else _) g) _
    cases hf : d.uartTxW == d.uartTxR + BitVec.ofNat 64 UART_TX_BUF_SIZE with
    | false => exact hg d hJ hc fun e => absurd (beq_iff_eq.mpr e) (by rw [hf]; decide)
    | true => exact ok_sleep rfl hc (beq_iff_eq.mp hf) fun d' hd' hc' => ih hd' hc'

theorem rules_sound : rules.Sound Call.code := by
  refine ⟨fun k p pid => ?_, fun l a => a.elim, fun l a => a.elim, fun l a => a.elim⟩
  have hend : ∀ d : Tx, d.c = none → Ok rules p pid ((release (M := uart) .uartTxLock).bind .ret) (locked d ∅) :=
    fun d hd => ok_release rfl hd fun _ => rfl
  cases k with
  | uartputc c idle fuel =>
    refine ok_acquire fun d hJ hc => uartputcLoop_ok fuel hJ hc fun d hJ hc hf => ?_
    have hput := fifo_put hJ hf c
    refine tx_ok hput ?_ (uartstart_ok idle hput hc hend)
    exact Set.eq_empty_of_forall_notMem fun ch h => h.elim id fun h => hf h.1
  | uartintr idle => exact ok_acquire fun d hJ hc => uartstart_ok idle hJ hc hend
  | kill v => exact ok_kill fun _ _ => rfl

end

/-! ## runs -/

def tx (c : Config uart) : Tx := c.sys.data .uartTxLock

/-- nobody is in a call; the ring may hold some bytes already, with its counters anywhere -/
structure Initial (c : Config uart) : Prop extends c.Fresh where
  fifo : Fifo (tx c)
  none : (tx c).c = none

/-- the ring is full -/
def full : Config uart where
  sys := {
    data := fun _ => ⟨fun _ => 7, 32, 0, List.replicate 32 7, [], none⟩
    lock := fun _ => none
    noff := fun _ => 0
    proc := fun p => ⟨.RUNNING, none, false, p.val + 1⟩ }
  thread := fun _ => none

/-- a process has to wait for room, and the handler sends a byte -/
def waitAndSend : List (Event uart Call) :=
  .start slot0 (.uartputc 9 [] 1) :: List.replicate 7 (.step slot0) ++
  .start slot1 (.uartintr [true, false]) :: List.replicate 199 (.step slot1)

end Sync.Uart
