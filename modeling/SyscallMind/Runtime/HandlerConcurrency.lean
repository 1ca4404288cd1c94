/-
# Many threads in one handler

`handle` step by step: load the slot, send the event, count it as dropped if the channel was
full, increment the total, update the count of the id under the lock.  Any number of threads
take these steps in any order, while the receiver takes events and others advance the slot.
Only the threads that are inside a call have an entry in `threads`.

An event that has been sent or dropped is counted in the total one step later, and under its
id another step later.  So the three numbers differ by the threads that are between these
steps, each of which is inside a call, and at rest they are equal (`run_consistent`).
-/
import SyscallMind.Runtime.SyscallHandler

namespace SyscallMind

open Lib

namespace SyscallHandler

/-- Where a thread is inside `handle`. -/
inductive Pc
  /-- The slot is loaded and the event is built. -/
  | slotLoaded (event : SyscallTraceEvent)
  /-- `try_send` has failed because the channel was full. -/
  | channelFull (event : SyscallTraceEvent)
  /-- `emit` has returned. -/
  | emitted (event : SyscallTraceEvent)
  /-- The total is incremented. -/
  | counted (event : SyscallTraceEvent)
deriving DecidableEq, Repr

def Pc.event : Pc → SyscallTraceEvent
  | .slotLoaded event => event
  | .channelFull event => event
  | .emitted event => event
  | .counted event => event

structure State (T : Type*) [DecidableEq T] where
  handler : SyscallHandler
  /-- The threads that are inside a call. -/
  threads : HashMap T Pc
  /-- The calls made so far, with their events; no step looks at this list. -/
  calls : List (T × SyscallTraceEvent)
  /-- The events that the channel has accepted; no step looks at this list. -/
  accepted : List (T × SyscallTraceEvent)
  /-- The events that the receiver has taken. -/
  received : List SyscallTraceEvent

namespace State

variable {T : Type*} [DecidableEq T]

def init (slot : UInt64) : State T := ⟨.new TraceEmitter.new slot, ∅, [], [], []⟩

variable (s : State T)

/-- The next step of a thread; outside a call it begins the given one. -/
def stepThread (t : T) (inv : Invocation) : State T :=
  match s.threads.lookup t with
  | none =>
      let event := inv.event s.handler.currentSlot
      { s with
        threads := s.threads.insert t (.slotLoaded event)
        calls := s.calls ++ [(t, event)] }
  | some (.slotLoaded event) =>
      let (outcome, channel) := s.handler.emitter.channel.trySend event
      let handler := { s.handler with emitter := { s.handler.emitter with channel := channel } }
      match outcome with
      | .ok =>
          { s with
            handler := handler
            threads := s.threads.insert t (.emitted event)
            accepted := s.accepted ++ [(t, event)] }
      | .full => { s with handler := handler, threads := s.threads.insert t (.channelFull event) }
      | .disconnected =>
          { s with handler := handler, threads := s.threads.insert t (.emitted event) }
  | some (.channelFull event) =>
      let emitter := { s.handler.emitter with dropped := s.handler.emitter.dropped + 1 }
      { s with
        handler := { s.handler with emitter := emitter }
        threads := s.threads.insert t (.emitted event) }
  | some (.emitted event) =>
      { s with
        handler := { s.handler with totalCalls := s.handler.totalCalls + 1 }
        threads := s.threads.insert t (.counted event) }
  | some (.counted event) =>
      let callCounts := HashMap.increment s.handler.callCounts event.syscallId
      { s with
        handler := { s.handler with callCounts := callCounts }
        threads := s.threads.erase t }

/-- A choice of the scheduler. -/
inductive Action (T : Type*)
  | thread (t : T) (inv : Invocation)
  | receive
  | stats
  | totalCalls
  | advanceSlot

/-- The two reads change nothing. -/
def step : Action T → State T
  | .thread t inv => s.stepThread t inv
  | .receive =>
      { s with
        handler := s.handler.receive.2
        received := s.received ++ s.handler.receive.1.toList }
  | .stats => s
  | .totalCalls => s
  | .advanceSlot => { s with handler := s.handler.advanceSlot }

/-- The steps of one thread with no other steps in between are a call of `handle`: four of
them, or five if the channel is full. -/
lemma stepThread_handle (t : T) (inv : Invocation) (ht : s.threads.lookup t = none)
    (hconn : s.handler.emitter.channel.connected = true) :
    let next := fun s : State T => s.stepThread t inv
    let s' := if s.handler.emitter.channel.items.length = channelCapacity then
        next (next (next (next (next s)))) else next (next (next (next s)))
    s'.handler = (s.handler.handle inv).2 ∧ s'.threads.lookup t = none := by
  rcases s.handler.emitter.channel.trySend_cases (inv.event s.handler.currentSlot) hconn with
    ⟨hroom, c', hsend, -, -⟩ | ⟨hfull, hsend⟩
  · simp [stepThread, handle, TraceEmitter.emit, ht, hsend, hroom.ne]
  · simp [stepThread, handle, TraceEmitter.emit, ht, hsend, hfull]

/-! ## What is observed -/

/-- The number of calls in flight. -/
def inFlight : ℕ := s.threads.entries.length

/-- The sum of the counts of all ids. -/
def callSum (counts : HashMap SyscallId ℕ) : ℕ := HashMap.weight counts fun n => n

/-- The events of one thread. -/
def eventsOf (t : T) (l : List (T × SyscallTraceEvent)) : List SyscallTraceEvent :=
  (l.filter fun p => decide (p.1 = t)).map Prod.snd

/-- The received events with the threads that sent them. -/
def receivedFrom : List (T × SyscallTraceEvent) := s.accepted.take s.received.length

/-- The numbers that the three kinds of counters show. -/
structure Consistent : Prop where
  /-- Every counted call was emitted or dropped. -/
  total_le : s.handler.totalCalls ≤ s.accepted.length + s.handler.emitter.droppedCount
  total_gap : s.accepted.length + s.handler.emitter.droppedCount ≤
    s.handler.totalCalls + s.inFlight
  /-- Every call counted under its id is counted in the total. -/
  counts_le : callSum s.handler.stats ≤ s.handler.totalCalls
  counts_gap : s.handler.totalCalls ≤ callSum s.handler.stats + s.inFlight
  /-- The events of a thread are received in its call order. -/
  received : s.receivedFrom.map Prod.snd = s.received
  order : ∀ t, (eventsOf t s.receivedFrom).Sublist (eventsOf t s.calls)
  /-- At rest all numbers are equal. -/
  rest : s.inFlight = 0 →
    s.accepted.length + s.handler.emitter.droppedCount = s.handler.totalCalls ∧
      s.handler.totalCalls = callSum s.handler.stats ∧
      (∀ id, HashMap.count s.handler.stats id =
        s.calls.countP fun p => decide (p.2.syscallId = id)) ∧
      s.received.length + s.handler.emitter.channel.items.length +
        s.handler.emitter.droppedCount = s.handler.totalCalls

/-! ## The invariant -/

/-- Neither sent nor counted as dropped. -/
def unsent : Pc → ℕ
  | .slotLoaded _ | .channelFull _ => 1
  | .emitted _ | .counted _ => 0

/-- Sent or dropped, and not in the total. -/
def uncounted : Pc → ℕ
  | .emitted _ => 1
  | .slotLoaded _ | .channelFull _ | .counted _ => 0

/-- In the total, and not under its id. -/
def unlisted : Pc → ℕ
  | .counted _ => 1
  | .slotLoaded _ | .channelFull _ | .emitted _ => 0

/-- Inside a call with the id. -/
def ofId (id : SyscallId) (pc : Pc) : ℕ := if pc.event.syscallId = id then 1 else 0

/-- The event that a thread may still send. -/
def pending : Option Pc → List SyscallTraceEvent
  | some (.slotLoaded event) => [event]
  | _ => []

structure Inv : Prop where
  connected : s.handler.emitter.channel.connected = true
  started : s.calls.length =
    s.accepted.length + s.handler.emitter.dropped + HashMap.weight s.threads unsent
  emitted : s.accepted.length + s.handler.emitter.dropped =
    s.handler.totalCalls + HashMap.weight s.threads uncounted
  counted : s.handler.totalCalls =
    callSum s.handler.callCounts + HashMap.weight s.threads unlisted
  byId : ∀ id, s.calls.countP (fun p => decide (p.2.syscallId = id)) =
    HashMap.count s.handler.callCounts id + HashMap.weight s.threads (ofId id)
  fifo : s.received ++ s.handler.emitter.channel.items = s.accepted.map Prod.snd
  order : ∀ t, (eventsOf t s.accepted ++ pending (s.threads.lookup t)).Sublist
    (eventsOf t s.calls)

lemma eventsOf_concat (t t' : T) (l : List (T × SyscallTraceEvent)) (e : SyscallTraceEvent) :
    eventsOf t (l ++ [(t', e)]) = eventsOf t l ++ if t' = t then [e] else [] := by
  rw [eventsOf, List.filter_append, List.map_append, eventsOf]
  by_cases ht : t' = t <;> simp [ht]

lemma inv_init (slot : UInt64) : Inv (init slot : State T) where
  connected := rfl
  started := rfl
  emitted := rfl
  counted := rfl
  byId _ := rfl
  fifo := rfl
  order _ := List.Sublist.refl _

variable {s}

namespace Inv

/-- A thread begins a call. -/
lemma begin (h : Inv s) {t : T} (ht : s.threads.lookup t = none) (event : SyscallTraceEvent) :
    Inv { s with
      threads := s.threads.insert t (.slotLoaded event)
      calls := s.calls ++ [(t, event)] } := by
  have hw := fun f => HashMap.weight_insert_of_none s.threads f ht (.slotLoaded event)
  refine ⟨h.connected, ?_, ?_, ?_, fun id => ?_, h.fifo, fun t' => ?_⟩
  · have hstarted := h.started
    have hunsent : _ = _ + 1 := hw unsent
    simp only [List.length_append, List.length_singleton]
    omega
  · have hemitted := h.emitted
    have huncounted : _ = _ + 0 := hw uncounted
    simp only
    omega
  · have hcounted := h.counted
    have hunlisted : _ = _ + 0 := hw unlisted
    simp only
    omega
  · have hbyId := h.byId id
    have hofId : _ = _ + (if event.syscallId = id then 1 else 0) := hw (ofId id)
    simp only [List.countP_append, List.countP_singleton, decide_eq_true_eq]
    omega
  · have horder := h.order t'
    simp only [eventsOf_concat, HashMap.lookup_insert_eq]
    by_cases htt : t' = t
    · subst htt
      rw [ht] at horder
      simp only [pending, List.append_nil, if_true] at horder ⊢
      exact horder.append (List.Sublist.refl _)
    · rw [if_neg htt, if_neg (Ne.symm htt), List.append_nil]
      exact horder

/-- A thread that moves on inside its call stays in a call with its id. -/
lemma weight_ofId_insert {t : T} {pc : Pc} (ht : s.threads.lookup t = some pc) (pc' : Pc)
    (hevent : pc.event = pc'.event) (id : SyscallId) :
    HashMap.weight (s.threads.insert t pc') (ofId id) = HashMap.weight s.threads (ofId id) := by
  have hw := HashMap.weight_insert_of_lookup s.threads (ofId id) ht pc'
  have hsame : ofId id pc = ofId id pc' := by rw [ofId, ofId, hevent]
  omega

/-- A thread moves on inside its call; the event that it may still send is sent by this step
or dropped by it, or there is none. -/
lemma order_insert (h : Inv s) {t : T} {pc pc' : Pc} (ht : s.threads.lookup t = some pc)
    {accepted : List (T × SyscallTraceEvent)}
    (haccepted : ∀ t', t' ≠ t → eventsOf t' accepted = eventsOf t' s.accepted)
    (hself : (eventsOf t accepted ++ pending (some pc')).Sublist
      (eventsOf t s.accepted ++ pending (some pc))) (t' : T) :
    (eventsOf t' accepted ++ pending ((s.threads.insert t pc').lookup t')).Sublist
      (eventsOf t' s.calls) := by
  have horder := h.order t'
  rw [HashMap.lookup_insert_eq]
  by_cases htt : t' = t
  · subst htt
    rw [ht] at horder
    rw [if_pos rfl]
    exact hself.trans horder
  · rw [if_neg htt, haccepted t' htt]
    exact horder

/-- A thread moves on inside its call.  What it has sent or dropped, what it has counted and
what it still has to do add up to the same as before. -/
lemma move (h : Inv s) {s' : State T} {t : T} {pc pc' : Pc} (ht : s.threads.lookup t = some pc)
    (hthreads : s'.threads = s.threads.insert t pc') (hevent : pc.event = pc'.event)
    (hcalls : s'.calls = s.calls) (hcounts : s'.handler.callCounts = s.handler.callCounts)
    (hconn : s'.handler.emitter.channel.connected = true)
    (hsent : s'.accepted.length + s'.handler.emitter.dropped + unsent pc' =
      s.accepted.length + s.handler.emitter.dropped + unsent pc)
    (htotal : s'.handler.totalCalls + unsent pc' + uncounted pc' =
      s.handler.totalCalls + unsent pc + uncounted pc)
    (hlisted : s'.handler.totalCalls + unlisted pc = s.handler.totalCalls + unlisted pc')
    (hfifo : s'.received ++ s'.handler.emitter.channel.items = s'.accepted.map Prod.snd)
    (haccepted : ∀ t', t' ≠ t → eventsOf t' s'.accepted = eventsOf t' s.accepted)
    (hself : (eventsOf t s'.accepted ++ pending (some pc')).Sublist
      (eventsOf t s.accepted ++ pending (some pc))) : Inv s' := by
  have hw := fun f => HashMap.weight_insert_of_lookup s.threads f ht pc'
  have hunsent := hw unsent
  have huncounted := hw uncounted
  have hunlisted := hw unlisted
  have hstarted := h.started
  have hemitted := h.emitted
  have hcounted := h.counted
  refine ⟨hconn, ?_, ?_, ?_, fun id => ?_, hfifo, fun t' => ?_⟩
  · rw [hthreads, hcalls]
    omega
  · rw [hthreads]
    omega
  · rw [hthreads, hcounts]
    omega
  · rw [hthreads, hcalls, hcounts, weight_ofId_insert ht pc' hevent]
    exact h.byId id
  · rw [hthreads, hcalls]
    exact h.order_insert ht haccepted hself t'

/-- The event is sent. -/
lemma send (h : Inv s) {t : T} {event : SyscallTraceEvent}
    (ht : s.threads.lookup t = some (.slotLoaded event))
    {channel : Channel SyscallTraceEvent channelCapacity} (hconn : channel.connected = true)
    (hitems : channel.items = s.handler.emitter.channel.items ++ [event]) :
    Inv { s with
      handler := { s.handler with emitter := { s.handler.emitter with channel := channel } }
      threads := s.threads.insert t (.emitted event)
      accepted := s.accepted ++ [(t, event)] } := by
  refine h.move ht rfl rfl rfl rfl hconn ?_ rfl rfl ?_ (fun t' htt => ?_) ?_
  · show (s.accepted ++ [(t, event)]).length + s.handler.emitter.dropped + 0 =
      s.accepted.length + s.handler.emitter.dropped + 1
    rw [List.length_append, List.length_singleton]
    omega
  · show s.received ++ channel.items = (s.accepted ++ [(t, event)]).map Prod.snd
    rw [hitems, ← List.append_assoc, h.fifo, List.map_append]
    rfl
  · rw [eventsOf_concat, if_neg (Ne.symm htt), List.append_nil]
  · -- the event moves from the pending place to the end of the accepted ones
    rw [eventsOf_concat, if_pos rfl]
    simp only [pending, List.append_nil]
    exact List.Sublist.refl _

/-- The channel is full. -/
lemma full (h : Inv s) {t : T} {event : SyscallTraceEvent}
    (ht : s.threads.lookup t = some (.slotLoaded event)) :
    Inv { s with threads := s.threads.insert t (.channelFull event) } := by
  refine h.move ht rfl rfl rfl rfl h.connected rfl rfl rfl h.fifo (fun _ _ => rfl) ?_
  simp only [pending, List.append_nil]
  exact List.sublist_append_left _ _

/-- The dropped event is counted. -/
lemma drop (h : Inv s) {t : T} {event : SyscallTraceEvent}
    (ht : s.threads.lookup t = some (.channelFull event)) :
    Inv { s with
      handler := { s.handler with
        emitter := { s.handler.emitter with dropped := s.handler.emitter.dropped + 1 } }
      threads := s.threads.insert t (.emitted event) } :=
  h.move ht rfl rfl rfl rfl h.connected rfl rfl rfl h.fifo (fun _ _ => rfl) (List.Sublist.refl _)

/-- The total is incremented. -/
lemma total (h : Inv s) {t : T} {event : SyscallTraceEvent}
    (ht : s.threads.lookup t = some (.emitted event)) :
    Inv { s with
      handler := { s.handler with totalCalls := s.handler.totalCalls + 1 }
      threads := s.threads.insert t (.counted event) } :=
  h.move ht rfl rfl rfl rfl h.connected rfl rfl rfl h.fifo (fun _ _ => rfl) (List.Sublist.refl _)

/-- The count of the id is updated, and the call is over. -/
lemma count (h : Inv s) {t : T} {event : SyscallTraceEvent}
    (ht : s.threads.lookup t = some (.counted event)) :
    Inv { s with
      handler := { s.handler with
        callCounts := HashMap.increment s.handler.callCounts event.syscallId }
      threads := s.threads.erase t } := by
  have hw := fun f => HashMap.weight_erase_of_lookup s.threads f ht
  refine ⟨h.connected, ?_, ?_, ?_, fun id => ?_, h.fifo, fun t' => ?_⟩
  · have hstarted := h.started
    have hunsent : _ + 0 = _ := hw unsent
    simp only
    omega
  · have hemitted := h.emitted
    have huncounted : _ + 0 = _ := hw uncounted
    simp only
    omega
  · have hcounted := h.counted
    have hunlisted : _ + 1 = _ := hw unlisted
    simp only [callSum, HashMap.weight_increment] at hcounted ⊢
    omega
  · have hbyId := h.byId id
    have hofId : _ + (if event.syscallId = id then 1 else 0) = _ := hw (ofId id)
    simp only [HashMap.count_increment, eq_comm (a := id)]
    omega
  · have horder := h.order t'
    simp only [HashMap.lookup_erase_eq]
    by_cases htt : t' = t
    · subst htt
      rw [ht] at horder
      rw [if_pos rfl]
      exact horder
    · rw [if_neg htt]
      exact horder

lemma receive (h : Inv s) : Inv (s.step .receive) := by
  refine ⟨?_, h.started, h.emitted, h.counted, h.byId, ?_, h.order⟩
  · exact s.handler.emitter.channel.tryRecv_connected.trans h.connected
  · show (s.received ++ s.handler.emitter.channel.tryRecv.1.toList) ++
      s.handler.emitter.channel.tryRecv.2.items = _
    rw [List.append_assoc, Channel.tryRecv_items]
    exact h.fifo

lemma stepThread (h : Inv s) (t : T) (inv : Invocation) : Inv (s.stepThread t inv) := by
  unfold State.stepThread
  split
  · next ht => exact h.begin ht _
  · next event ht =>
    -- the receiver is alive, so the send succeeds or finds the channel full
    rcases s.handler.emitter.channel.trySend_cases event h.connected with
      ⟨-, c', hsend, hitems, hconn⟩ | ⟨-, hsend⟩
    · rw [hsend]
      exact h.send ht hconn hitems
    · rw [hsend]
      exact h.full ht
  · next event ht => exact h.drop ht
  · next event ht => exact h.total ht
  · next event ht => exact h.count ht

/-- Every step keeps the invariant. -/
lemma step (h : Inv s) (a : Action T) : Inv (s.step a) := by
  cases a with
  | thread t inv => exact h.stepThread t inv
  | receive => exact h.receive
  | stats => exact h
  | totalCalls => exact h
  | advanceSlot => exact ⟨h.connected, h.started, h.emitted, h.counted, h.byId, h.fifo, h.order⟩

/-- The threads between two of the counters are inside a call. -/
lemma weight_le_inFlight {f : Pc → ℕ} (hf : ∀ pc, f pc ≤ 1) :
    HashMap.weight s.threads f ≤ s.inFlight := HashMap.weight_le_length s.threads hf

lemma consistent (h : Inv s) : Consistent s := by
  have hemitted := h.emitted
  have hcounted := h.counted
  have huncounted : HashMap.weight s.threads uncounted ≤ s.inFlight :=
    weight_le_inFlight fun pc => by cases pc <;> simp [uncounted]
  have hunlisted : HashMap.weight s.threads unlisted ≤ s.inFlight :=
    weight_le_inFlight fun pc => by cases pc <;> simp [unlisted]
  have hfifo := congrArg List.length h.fifo
  have hreceived : s.receivedFrom.map Prod.snd = s.received := by
    rw [receivedFrom, List.map_take, ← h.fifo, List.take_left]
  rw [List.length_append, List.length_map] at hfifo
  refine ⟨?_, ?_, ?_, ?_, hreceived, fun t => ?_, fun hrest => ⟨?_, ?_, fun id => ?_, ?_⟩⟩
  · show _ ≤ s.accepted.length + s.handler.emitter.dropped
    omega
  · show s.accepted.length + s.handler.emitter.dropped ≤ _
    omega
  · show callSum s.handler.callCounts ≤ _
    omega
  · show _ ≤ callSum s.handler.callCounts + _
    omega
  · have htaken : (eventsOf t s.receivedFrom).Sublist (eventsOf t s.accepted) :=
      ((List.take_sublist _ _).filter _).map _
    exact (htaken.trans (List.sublist_append_left _ _)).trans (h.order t)
  · show s.accepted.length + s.handler.emitter.dropped = _
    omega
  · show _ = callSum s.handler.callCounts
    omega
  · have hid : HashMap.weight s.threads (ofId id) ≤ s.inFlight :=
      weight_le_inFlight fun pc => by unfold ofId; split <;> simp
    have hbyId := h.byId id
    show HashMap.count s.handler.callCounts id = _
    omega
  · show _ + s.handler.emitter.dropped = _
    omega

end Inv

/-- **The counters are consistent in every reachable state.** -/
theorem run_consistent (slot : UInt64) (actions : List (Action T)) :
    Consistent (Run.after step (init slot) actions) := by
  have hstep : ∀ (s : State T) a, Inv s → Inv (s.step a) := fun _ a h => h.step a
  exact (Run.invariant hstep (inv_init slot) actions).consistent

end State

end SyscallHandler

end SyscallMind
