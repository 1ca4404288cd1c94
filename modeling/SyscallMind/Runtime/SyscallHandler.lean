/-
# The syscall handler

`SyscallHandler` of `runtime/src/syscall_handler.rs`: every call becomes a trace event, is
counted twice, in total and by its id, and is answered by whether it may be optimised.

The last section is about the life of a handler whose receiver may die.  An event that is
emitted after that is neither received nor counted as dropped, so the total is accounted for
exactly as long as no call is handled without a receiver (`accounted_iff`).
-/
import SyscallMind.Lib.Run
import SyscallMind.Runtime.SyscallRegistry
import SyscallMind.Runtime.TraceEmitter

namespace SyscallMind

open Lib

/-- The arguments of a call, with the reading of the system clock. -/
structure Invocation where
  programId : Pubkey
  syscallId : SyscallId
  args : List UInt8
  txId : TransactionId
  depth : UInt8
  timestampNs : UInt64
deriving DecidableEq, Repr

/-- The trace event of a call in a slot. -/
def Invocation.event (inv : Invocation) (slot : UInt64) : SyscallTraceEvent where
  programId := inv.programId
  syscallId := inv.syscallId
  argsHash := fnvHash inv.args
  timestampNs := inv.timestampNs
  slot := slot
  transactionId := inv.txId
  depth := inv.depth

@[simp] lemma Invocation.syscallId_event (inv : Invocation) (slot : UInt64) :
    (inv.event slot).syscallId = inv.syscallId := rfl

structure SyscallHandler where
  registry : SyscallRegistry
  emitter : TraceEmitter
  currentSlot : UInt64
  callCounts : HashMap SyscallId ℕ
  totalCalls : ℕ

namespace SyscallHandler

def new (emitter : TraceEmitter) (slot : UInt64) : SyscallHandler :=
  ⟨SyscallRegistry.new, emitter, slot, ∅, 0⟩

variable (h : SyscallHandler)

/-- Emit the event of the call, count it, and say whether it is eligible. -/
def handle (inv : Invocation) : Bool × SyscallHandler :=
  let event := inv.event h.currentSlot
  (h.registry.isOptimizationEligible inv.syscallId,
    { h with
      emitter := h.emitter.emit event
      totalCalls := h.totalCalls + 1
      callCounts := HashMap.increment h.callCounts inv.syscallId })

def stats : HashMap SyscallId ℕ := h.callCounts

def advanceSlot : SyscallHandler := { h with currentSlot := h.currentSlot + 1 }

/-! ## When the receiver is gone -/

/-- What the receiver takes from the channel. -/
def receive : Option SyscallTraceEvent × SyscallHandler :=
  (h.emitter.channel.tryRecv.1,
    { h with emitter := { h.emitter with channel := h.emitter.channel.tryRecv.2 } })

def dropReceiver : SyscallHandler :=
  { h with emitter := { h.emitter with channel := h.emitter.channel.dropReceiver } }

/-- A handler with the events that its receiver has taken. -/
structure Session where
  handler : SyscallHandler
  received : List SyscallTraceEvent

def Session.init (slot : UInt64) : Session := ⟨new TraceEmitter.new slot, []⟩

inductive SessionOp
  | handle (inv : Invocation)
  | receive
  | dropReceiver
  | advanceSlot
deriving DecidableEq, Repr

namespace Session

/-- The receiver is alive. -/
def connected (s : Session) : Bool := s.handler.emitter.channel.connected

/-- A receiver that is gone takes nothing. -/
def step (s : Session) : SessionOp → Session
  | .handle inv => { s with handler := (s.handler.handle inv).2 }
  | .receive =>
      if s.connected then ⟨s.handler.receive.2, s.received ++ s.handler.receive.1.toList⟩ else s
  | .dropReceiver => { s with handler := s.handler.dropReceiver }
  | .advanceSlot => { s with handler := s.handler.advanceSlot }

/-- The events that were received, the events in the channel, and the events counted as
dropped.  A channel without receiver keeps the items it had when the receiver was dropped. -/
def accounted (s : Session) : ℕ :=
  s.received.length + s.handler.emitter.channel.items.length + s.handler.emitter.droppedCount

variable (s : Session)

lemma accounted_handle_of_connected (inv : Invocation) (hc : s.connected = true) :
    (s.step (.handle inv)).accounted = s.accounted + 1 ∧
      (s.step (.handle inv)).connected = true := by
  obtain ⟨hcount, hconn⟩ := s.handler.emitter.emit_of_connected (inv.event s.handler.currentSlot) hc
  refine ⟨?_, hconn⟩
  simp only [accounted, step, handle, TraceEmitter.droppedCount]
  omega

lemma accounted_handle_of_disconnected (inv : Invocation) (hc : s.connected = false) :
    (s.step (.handle inv)).accounted = s.accounted ∧
      (s.step (.handle inv)).connected = false := by
  have hemit := s.handler.emitter.emit_of_disconnected (inv.event s.handler.currentSlot) hc
  constructor
  · simp only [accounted, step, handle, hemit]
  · show (s.handler.emitter.emit (inv.event s.handler.currentSlot)).channel.connected = false
    rw [hemit]
    exact hc

lemma accounted_receive :
    (s.step .receive).accounted = s.accounted ∧
      (s.step .receive).connected = s.connected := by
  have hitems := congrArg List.length s.handler.emitter.channel.tryRecv_items
  have hconn := s.handler.emitter.channel.tryRecv_connected
  rw [List.length_append] at hitems
  rw [step]
  split
  · refine ⟨?_, hconn⟩
    simp only [accounted, receive, List.length_append, TraceEmitter.droppedCount]
    omega
  · exact ⟨rfl, rfl⟩

/-- Every call was received, or is in the channel, or is counted as dropped. -/
def Accounted : Prop := s.handler.totalCalls = s.accounted

/-- The receiver is not asked for, or it is alive. -/
def Heard (s : Session) : SessionOp → Prop
  | .handle _ => s.connected = true
  | _ => True

/-- Only a call without a receiver is lost from the account. -/
lemma accounted_step_iff (op : SessionOp) (hs : s.Accounted) :
    (s.step op).Accounted ↔ s.Heard op := by
  have heq : s.handler.totalCalls = s.accounted := hs
  cases op with
  | handle inv =>
    have htotal : (s.step (.handle inv)).handler.totalCalls = s.handler.totalCalls + 1 := rfl
    rw [Accounted, Heard, htotal, heq]
    cases hc : s.connected with
    | true => simp [(s.accounted_handle_of_connected inv hc).1]
    | false => simp [(s.accounted_handle_of_disconnected inv hc).1]
  | receive =>
    have htotal : (s.step .receive).handler.totalCalls = s.handler.totalCalls := by
      rw [step]
      split <;> rfl
    rw [Accounted, htotal, s.accounted_receive.1]
    exact iff_of_true heq trivial
  | dropReceiver => exact iff_of_true heq trivial
  | advanceSlot => exact iff_of_true heq trivial

lemma connected_step (op : SessionOp) :
    (s.step op).connected = true ↔ s.connected = true ∧ op ≠ .dropReceiver := by
  cases op with
  | handle inv =>
    cases hc : s.connected with
    | true => simp [(s.accounted_handle_of_connected inv hc).2]
    | false => simp [(s.accounted_handle_of_disconnected inv hc).2]
  | receive => simp [s.accounted_receive.2]
  | dropReceiver => simp [step, connected, SyscallHandler.dropReceiver, Channel.dropReceiver]
  | advanceSlot => simp [step, connected, SyscallHandler.advanceSlot]

lemma connected_after_iff (ops : List SessionOp) :
    (Run.after step s ops).connected = true ↔ s.connected = true ∧ .dropReceiver ∉ ops := by
  induction ops generalizing s with
  | nil => simp
  | cons op ops ih =>
    rw [Run.after_cons, ih, connected_step, List.mem_cons, not_or, and_assoc]
    simp only [ne_eq, eq_comm]

/-- **When no event disappears uncounted.**  The total is accounted for in every state of a
run exactly when the run handles no call after the receiver was dropped. -/
theorem accounted_iff (slot : UInt64) (ops : List SessionOp) :
    Run.EveryState step Accounted (init slot) ops ↔
      ∀ pre inv post, ops = pre ++ .handle inv :: post → .dropReceiver ∉ pre := by
  have hinit : (init slot).Accounted := rfl
  rw [Run.everyState_iff_everyStep_of_forall (fun s op => s.accounted_step_iff op) hinit]
  constructor
  · intro hheard pre inv post heq
    exact ((connected_after_iff _ pre).mp (hheard pre _ post heq)).2
  · intro hno pre op post heq
    cases op with
    | handle inv => exact (connected_after_iff _ pre).mpr ⟨rfl, hno pre inv post heq⟩
    | _ => trivial

/-- The receiver dies, and the next call is counted in the total only. -/
theorem call_after_drop_uncounted :
    ¬ (Run.after step (init 1)
      [.dropReceiver, .handle ⟨zeroPubkey, 1, [], zeroTxId, 0, 0⟩]).Accounted := by
  unfold Accounted
  decide

end Session

end SyscallHandler

end SyscallMind
