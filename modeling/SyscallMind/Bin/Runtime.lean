/-
# The runtime binary

`syscallmind_runtime` handles one random call after the other and drops the handler at the
end.  A second thread takes the events from the channel until it is empty and has no sender,
and the main thread waits for it and prints how many it has taken.

The two threads meet in the channel only: the slot, the counters and the progress lines belong
to the main thread.  So a turn of its loop is one step, a `recv` is one step, and a thread that
waits has no step.  Every interleaving ends (`maximal_run_ends`): each step lowers the number
of steps that are left, and a state without a step is the one after the `join`.  The number
that is printed is then the number of events less those that found the channel full.
-/
import SyscallMind.Runtime.SyscallHandler

namespace SyscallMind

open Lib SyscallIds

namespace Runtime

def syscallPool : Vector SyscallId 10 :=
  #v[solGetClockSysvar, solGetRentSysvar, solSha256, solKeccak256, solLog, solInvokeSigned,
    solSetReturnData, solGetReturnData, solEd25519Verify, solLog64]

def totalEvents : ℕ := 100000

/-- What one turn of the loop draws, with the reading of the system clock. -/
structure Draw where
  pick : Fin 10
  args : Vector UInt8 8
  timestampNs : UInt64
deriving DecidableEq, Repr

def Draw.syscallId (d : Draw) : SyscallId := syscallPool[d.pick]

def txIdOf (i : ℕ) : TransactionId :=
  (zeroTxId.set 0 (UInt8.ofNat (i % 256))).set 1 (UInt8.ofNat (i / 256 % 256))

def invocation (i : ℕ) (d : Draw) : Invocation where
  programId := zeroPubkey
  syscallId := d.syscallId
  args := d.args.toList
  txId := txIdOf i
  depth := 0
  timestampNs := d.timestampNs

/-- A progress line, less the two numbers that depend on the time. -/
structure Progress where
  events : ℕ
  total : ℕ
  slot : UInt64
  /-- Printed as `dropped`: the number of different ids that were handled. -/
  dropped : ℕ
deriving DecidableEq, Repr

/-- Where the main thread is. -/
inductive Main
  | loop
  /-- The handler is dropped. -/
  | joining
  /-- The number that `join` has returned. -/
  | done (processed : ℕ)
deriving DecidableEq, Repr

/-- Where the thread is that drains the channel, and how many events it has counted. -/
inductive Drainer
  | receiving (count : ℕ)
  | exited (count : ℕ)
deriving DecidableEq, Repr

structure State where
  /-- The handler; when it is dropped, its channel is still there for the receiver. -/
  handler : SyscallHandler
  iteration : ℕ
  /-- The draws of the turns that are left. -/
  rest : List Draw
  main : Main
  drainer : Drainer
  reports : List Progress
  /-- The events that were received; no step looks at this list. -/
  received : List SyscallTraceEvent

inductive Thread
  | main
  | drainer
deriving DecidableEq, Repr

namespace State

def init (draws : List Draw) : State :=
  ⟨.new .new 280000000, 0, draws, .loop, .receiving 0, [], []⟩

variable (s : State)

/-- One turn of the loop. -/
def turn (d : Draw) (rest : List Draw) : State :=
  let i := s.iteration
  let handler := (s.handler.handle (invocation i d)).2
  -- Advance slot periodically
  let handler := if i % 432 = 0 then handler.advanceSlot else handler
  let reports := if (i + 1) % 10000 = 0 then
    s.reports ++ [⟨i + 1, totalEvents, handler.currentSlot, handler.stats.keys.length⟩]
    else s.reports
  { s with handler := handler, iteration := i + 1, rest := rest, reports := reports }

/-- The next step of the main thread; a `join` waits for the other thread to exit. -/
def stepMain : Option State :=
  match s.main with
  | .loop =>
      match s.rest with
      | d :: rest => some (s.turn d rest)
      | [] => some { s with main := .joining }
  | .joining =>
      match s.drainer with
      | .receiving _ => none
      | .exited count => some { s with main := .done count }
  | .done _ => none

/-- The next step of the drainer.  A `recv` takes the first event; on an empty channel it
waits while there is a sender and fails when there is none. -/
def stepDrainer : Option State :=
  match s.drainer with
  | .receiving count =>
      match s.handler.receive with
      | (some event, handler) =>
          some { s with
            handler := handler
            drainer := .receiving (count + 1)
            received := s.received ++ [event] }
      | (none, _) =>
          if s.main = .loop then none else some { s with drainer := .exited count }
  | .exited _ => none

def step : Thread → Option State
  | .main => s.stepMain
  | .drainer => s.stepDrainer

/-- The state after the steps of the listed threads, none of which had to wait. -/
def run (s : State) (threads : List Thread) : Option State := threads.foldlM step s

end State

/-! ## What the turns amount to -/

/-- The slot in the turn `i`: it is advanced in the turns `0`, `432`, `864` and so on. -/
def slotAt (i : ℕ) : UInt64 := 280000000 + UInt64.ofNat ((i + 431) / 432)

/-- The events of the turns. -/
def eventsOf (draws : List Draw) : List SyscallTraceEvent :=
  draws.mapIdx fun i d => (invocation i d).event (slotAt i)

/-- The progress lines of the turns. -/
def reportsOf (draws : List Draw) : List Progress :=
  (List.range (draws.length / 10000)).map fun k =>
    ⟨10000 * (k + 1), totalEvents, slotAt (10000 * (k + 1)),
      ((draws.take (10000 * (k + 1))).map Draw.syscallId).toFinset.card⟩

lemma slotAt_succ (i : ℕ) : slotAt (i + 1) = if i % 432 = 0 then slotAt i + 1 else slotAt i := by
  rw [slotAt, slotAt]
  split
  · rw [show (i + 1 + 431) / 432 = (i + 431) / 432 + 1 by omega, UInt64.ofNat_add,
      ← UInt64.add_assoc]
    rfl
  · rw [show (i + 1 + 431) / 432 = (i + 431) / 432 by omega]

lemma eventsOf_concat (draws : List Draw) (d : Draw) :
    eventsOf (draws ++ [d]) =
      eventsOf draws ++ [(invocation draws.length d).event (slotAt draws.length)] := by
  rw [eventsOf, List.mapIdx_concat]
  rfl

lemma reportsOf_concat (draws : List Draw) (d : Draw) :
    reportsOf (draws ++ [d]) = reportsOf draws ++
      if (draws.length + 1) % 10000 = 0 then
        [⟨draws.length + 1, totalEvents, slotAt (draws.length + 1),
          ((draws ++ [d]).map Draw.syscallId).toFinset.card⟩]
      else [] := by
  have hold : ((List.range (draws.length / 10000)).map fun k =>
      (⟨10000 * (k + 1), totalEvents, slotAt (10000 * (k + 1)),
        (((draws ++ [d]).take (10000 * (k + 1))).map Draw.syscallId).toFinset.card⟩ : Progress)) =
      reportsOf draws := by
    refine List.map_congr_left fun k hk => ?_
    rw [List.mem_range] at hk
    rw [List.take_append_of_le_length (by omega)]
  rw [← hold, reportsOf, List.length_append, List.length_singleton]
  split
  · next hmod =>
    have hdiv : (draws.length + 1) / 10000 = draws.length / 10000 + 1 := by omega
    have hlast : 10000 * (draws.length / 10000 + 1) = draws.length + 1 := by omega
    rw [hdiv, List.range_succ, List.map_append, List.map_singleton, hlast,
      List.take_of_length_le (by simp)]
  · next hmod =>
    rw [show (draws.length + 1) / 10000 = draws.length / 10000 by omega, List.append_nil]

/-- A map that counts a list has as many keys as the list has different elements. -/
lemma length_keys_countAll (ids : List SyscallId) :
    (HashMap.countAll ids).keys.length = ids.toFinset.card := by
  rw [← List.toFinset_card_of_nodup (HashMap.countAll ids).keys_nodup]
  congr 1
  ext id
  rw [List.mem_toFinset, List.mem_toFinset, ← AList.mem_keys, HashMap.countAll,
    HashMap.mem_foldl_increment]
  simp

/-! ## The invariant -/

namespace State

/-- The items that are still in the channel. -/
def queued (s : State) : List SyscallTraceEvent := s.handler.emitter.channel.items

/-- What the turns with the draws `taken` have done, wherever the two threads are. -/
structure Account (draws taken : List Draw) (s : State) : Prop where
  draws_eq : draws = taken ++ s.rest
  iteration : s.iteration = taken.length
  slot : s.handler.currentSlot = slotAt taken.length
  total : s.handler.totalCalls = taken.length
  counts : s.handler.callCounts = HashMap.countAll (taken.map Draw.syscallId)
  reports : s.reports = reportsOf taken
  connected : s.handler.emitter.channel.connected = true
  /-- Every event was received, or is in the channel, or was dropped. -/
  accounted : s.received.length + s.queued.length + s.handler.emitter.droppedCount = taken.length
  order : (s.received ++ s.queued).Sublist (eventsOf taken)
  /-- An event is dropped only when the channel is full. -/
  dropped : s.handler.emitter.droppedCount = 0 ∨
    channelCapacity ≤ s.received.length + s.queued.length

/-- The account, and what it means for a thread to be where it is. -/
structure Inv (draws taken : List Draw) (s : State) : Prop extends Account draws taken s where
  finished : s.main ≠ .loop → s.rest = []
  receiving : ∀ count, s.drainer = .receiving count → count = s.received.length
  exited : ∀ count, s.drainer = .exited count →
    count = s.received.length ∧ s.queued = [] ∧ s.main ≠ .loop
  joined : ∀ processed, s.main = .done processed → s.drainer = .exited processed

variable {draws taken : List Draw} {s s' : State}

lemma inv_init (draws : List Draw) : Inv draws [] (init draws) where
  draws_eq := rfl
  iteration := rfl
  slot := rfl
  total := rfl
  counts := rfl
  reports := rfl
  connected := rfl
  accounted := rfl
  order := List.Sublist.refl _
  dropped := Or.inl rfl
  finished h := absurd rfl h
  receiving count h := (Drainer.receiving.inj h).symm
  exited count h := by simp [init] at h
  joined processed h := by simp [init] at h

/-- The handler after a turn, field by field. -/
lemma turn_handler (s : State) (d : Draw) (rest : List Draw) :
    let event := (invocation s.iteration d).event s.handler.currentSlot
    let handler := (s.turn d rest).handler
    handler.emitter = s.handler.emitter.emit event ∧
      handler.totalCalls = s.handler.totalCalls + 1 ∧
      handler.callCounts = HashMap.increment s.handler.callCounts d.syscallId ∧
      handler.currentSlot =
        if s.iteration % 432 = 0 then s.handler.currentSlot + 1 else s.handler.currentSlot := by
  simp only [turn]
  split <;> exact ⟨rfl, rfl, rfl, rfl⟩

namespace Account

/-- The threads move on without a turn or an event. -/
lemma control (h : Account draws taken s) (main : Main) (drainer : Drainer) :
    Account draws taken { s with main := main, drainer := drainer } :=
  ⟨h.draws_eq, h.iteration, h.slot, h.total, h.counts, h.reports, h.connected, h.accounted,
    h.order, h.dropped⟩

lemma counts_turn (h : Account draws taken s) {d : Draw} {rest : List Draw} :
    (s.turn d rest).handler.callCounts = HashMap.countAll ((taken ++ [d]).map Draw.syscallId) := by
  rw [(s.turn_handler d rest).2.2.1, h.counts, List.map_append, HashMap.countAll,
    HashMap.countAll, List.foldl_append]
  rfl

lemma slot_turn (h : Account draws taken s) {d : Draw} {rest : List Draw} :
    (s.turn d rest).handler.currentSlot = slotAt (taken ++ [d]).length := by
  rw [(s.turn_handler d rest).2.2.2, h.iteration, h.slot, List.length_append,
    List.length_singleton, slotAt_succ]

lemma reports_turn (h : Account draws taken s) {d : Draw} {rest : List Draw} :
    (s.turn d rest).reports = reportsOf (taken ++ [d]) := by
  have hline : (s.turn d rest).reports = if (s.iteration + 1) % 10000 = 0 then
      s.reports ++ [⟨s.iteration + 1, totalEvents, (s.turn d rest).handler.currentSlot,
        (s.turn d rest).handler.callCounts.keys.length⟩] else s.reports := rfl
  have hlen : (taken ++ [d]).length = taken.length + 1 := List.length_append
  rw [hline, h.counts_turn, h.slot_turn, length_keys_countAll, reportsOf_concat, h.reports,
    h.iteration, hlen]
  split
  · rfl
  · rw [List.append_nil]

/-- What a turn does to the events: the new one is at the end of the channel, or dropped
because the channel is full. -/
lemma events_turn (h : Account draws taken s) (d : Draw) (rest : List Draw) :
    let s' := s.turn d rest
    s'.handler.emitter.channel.connected = true ∧
      ((s'.queued = s.queued ++ [(invocation taken.length d).event (slotAt taken.length)] ∧
          s'.handler.emitter.droppedCount = s.handler.emitter.droppedCount) ∨
        (s'.queued = s.queued ∧ s.queued.length = channelCapacity ∧
          s'.handler.emitter.droppedCount = s.handler.emitter.droppedCount + 1)) := by
  have hemitter := (s.turn_handler d rest).1
  rw [h.iteration, h.slot] at hemitter
  simp only [queued, hemitter, TraceEmitter.emit, TraceEmitter.droppedCount]
  rcases s.handler.emitter.channel.trySend_cases
    ((invocation taken.length d).event (slotAt taken.length)) h.connected with
    ⟨-, channel, hsend, hitems, hconn⟩ | ⟨hfull, hsend⟩
  · rw [hsend]
    exact ⟨hconn, Or.inl ⟨hitems, rfl⟩⟩
  · rw [hsend]
    exact ⟨h.connected, Or.inr ⟨rfl, hfull, rfl⟩⟩

lemma turn (h : Account draws taken s) {d : Draw} {rest : List Draw}
    (hrest : s.rest = d :: rest) : Account draws (taken ++ [d]) (s.turn d rest) := by
  have hlen : (taken ++ [d]).length = taken.length + 1 := List.length_append
  obtain ⟨hconn, hevents⟩ := h.events_turn d rest
  have hreceived : (s.turn d rest).received = s.received := rfl
  have haccounted := h.accounted
  have horder := h.order
  refine ⟨?_, ?_, h.slot_turn, ?_, h.counts_turn, h.reports_turn, hconn, ?_, ?_, ?_⟩
  · rw [List.append_assoc, h.draws_eq, hrest]
    rfl
  · rw [hlen, ← h.iteration]
    rfl
  · rw [(s.turn_handler d rest).2.1, h.total, hlen]
  · rw [hreceived, hlen]
    rcases hevents with ⟨hqueued, hdropped⟩ | ⟨hqueued, -, hdropped⟩
    · rw [hqueued, hdropped, List.length_append, List.length_singleton]
      omega
    · rw [hqueued, hdropped]
      omega
  · rw [hreceived, eventsOf_concat]
    rcases hevents with ⟨hqueued, -⟩ | ⟨hqueued, -, -⟩
    · rw [hqueued, ← List.append_assoc]
      exact horder.append (List.Sublist.refl _)
    · rw [hqueued]
      exact horder.trans (List.sublist_append_left _ _)
  · rw [hreceived]
    rcases hevents with ⟨hqueued, hdropped⟩ | ⟨hqueued, hfull, hdropped⟩
    · rw [hqueued, hdropped, List.length_append]
      have hold := h.dropped
      omega
    · rw [hqueued, hfull]
      exact Or.inr (Nat.le_add_left _ _)

/-- The drainer takes an event. -/
lemma receive (h : Account draws taken s) {event : SyscallTraceEvent}
    (hevent : s.handler.receive.1 = some event) (drainer : Drainer) :
    Account draws taken { s with
      handler := s.handler.receive.2
      drainer := drainer
      received := s.received ++ [event] } := by
  have hitems := s.handler.emitter.channel.tryRecv_items
  have hevent' : s.handler.emitter.channel.tryRecv.1 = some event := hevent
  rw [hevent', Option.toList_some] at hitems
  have hqueued : s.queued = event :: s.handler.emitter.channel.tryRecv.2.items := hitems.symm
  have haccounted := h.accounted
  have horder := h.order
  have hdropped := h.dropped
  rw [hqueued, List.length_cons] at haccounted hdropped
  rw [hqueued] at horder
  refine ⟨h.draws_eq, h.iteration, h.slot, h.total, h.counts, h.reports, ?_, ?_, ?_, ?_⟩
  · exact s.handler.emitter.channel.tryRecv_connected.trans h.connected
  · show (s.received ++ [event]).length + s.handler.emitter.channel.tryRecv.2.items.length +
      s.handler.emitter.droppedCount = _
    rw [List.length_append, List.length_singleton]
    omega
  · show ((s.received ++ [event]) ++ s.handler.emitter.channel.tryRecv.2.items).Sublist _
    rw [List.append_assoc]
    exact horder
  · show s.handler.emitter.droppedCount = 0 ∨ _ ≤ (s.received ++ [event]).length +
      s.handler.emitter.channel.tryRecv.2.items.length
    rw [List.length_append, List.length_singleton]
    omega

end Account

/-! ## What a step can do -/

lemma stepMain_cases (hstep : s.stepMain = some s') :
    (∃ d rest, s.main = .loop ∧ s.rest = d :: rest ∧ s' = s.turn d rest) ∨
      (s.main = .loop ∧ s.rest = [] ∧ s' = { s with main := .joining }) ∨
      ∃ count, s.main = .joining ∧ s.drainer = .exited count ∧
        s' = { s with main := .done count } := by
  unfold stepMain at hstep
  split at hstep
  · next hmain =>
    split at hstep
    · next d rest hrest => exact Or.inl ⟨d, rest, hmain, hrest, (Option.some.inj hstep).symm⟩
    · next hrest => exact Or.inr (Or.inl ⟨hmain, hrest, (Option.some.inj hstep).symm⟩)
  · next hmain =>
    split at hstep
    · exact absurd hstep (by simp)
    · next count hdrainer =>
      exact Or.inr (Or.inr ⟨count, hmain, hdrainer, (Option.some.inj hstep).symm⟩)
  · exact absurd hstep (by simp)

/-- A `recv` takes the first event, or finds the channel empty. -/
lemma receive_cases (s : State) :
    (∃ event handler, s.handler.receive = (some event, handler) ∧
        s.queued = event :: handler.emitter.channel.items ∧
        handler = { s.handler with emitter := { s.handler.emitter with
          channel := s.handler.emitter.channel.tryRecv.2 } }) ∨
      ∃ handler, s.handler.receive = (none, handler) ∧ s.queued = [] := by
  have hitems := s.handler.emitter.channel.tryRecv_items
  cases hevent : s.handler.emitter.channel.tryRecv.1 with
  | some event =>
    rw [hevent, Option.toList_some] at hitems
    exact Or.inl ⟨event, _, Prod.ext hevent rfl, hitems.symm, rfl⟩
  | none =>
    refine Or.inr ⟨_, Prod.ext hevent rfl, ?_⟩
    cases hq : s.handler.emitter.channel.queue.items with
    | nil => exact hq
    | cons event rest => simp [Channel.tryRecv, hq] at hevent

lemma stepDrainer_cases (hstep : s.stepDrainer = some s') :
    ∃ count, s.drainer = .receiving count ∧
      ((∃ event handler, s.handler.receive = (some event, handler) ∧
          s.queued = event :: handler.emitter.channel.items ∧
          s' = { s with
            handler := handler
            drainer := .receiving (count + 1)
            received := s.received ++ [event] }) ∨
        (s.queued = [] ∧ s.main ≠ .loop ∧ s' = { s with drainer := .exited count })) := by
  unfold stepDrainer at hstep
  split at hstep
  · next count hdrainer =>
    refine ⟨count, hdrainer, ?_⟩
    rcases s.receive_cases with
      ⟨event, handler, hreceive, hqueued, -⟩ | ⟨handler, hreceive, hqueued⟩
    · rw [hreceive] at hstep
      exact Or.inl ⟨event, handler, hreceive, hqueued, (Option.some.inj hstep).symm⟩
    · rw [hreceive] at hstep
      dsimp only at hstep
      split at hstep
      · exact absurd hstep (by simp)
      · next hloop => exact Or.inr ⟨hqueued, hloop, (Option.some.inj hstep).symm⟩
  · exact absurd hstep (by simp)

namespace Inv

/-- Every step of the main thread. -/
lemma stepMain (h : Inv draws taken s) (hstep : s.stepMain = some s') :
    ∃ taken', Inv draws taken' s' := by
  rcases stepMain_cases hstep with ⟨d, rest, hmain, hrest, rfl⟩ | ⟨hmain, hrest, rfl⟩ |
    ⟨count, hmain, hdrainer, rfl⟩
  · -- the drainer is still receiving
    refine ⟨taken ++ [d], h.toAccount.turn hrest, ?_, h.receiving, ?_, h.joined⟩
    · exact fun hloop => absurd hmain hloop
    · exact fun count hexited => absurd hmain (h.exited count hexited).2.2
  · refine ⟨taken, h.toAccount.control .joining s.drainer, fun _ => hrest, h.receiving, ?_, ?_⟩
    · exact fun count hexited => absurd hmain (h.exited count hexited).2.2
    · exact fun processed hdone => absurd hdone (by simp)
  · refine ⟨taken, h.toAccount.control (.done count) s.drainer, ?_, h.receiving, ?_, ?_⟩
    · exact fun _ => h.finished (by rw [hmain]; simp)
    · intro count' hexited
      obtain ⟨hcount, hqueued, -⟩ := h.exited count' hexited
      exact ⟨hcount, hqueued, by simp⟩
    · intro processed hdone
      rw [← Main.done.inj hdone]
      exact hdrainer

/-- Every step of the drainer. -/
lemma stepDrainer (h : Inv draws taken s) (hstep : s.stepDrainer = some s') :
    Inv draws taken s' := by
  obtain ⟨count, hdrainer, hcases⟩ := stepDrainer_cases hstep
  have hnotDone : ∀ processed, s.main ≠ .done processed := by
    intro processed hdone
    have hexited := h.joined processed hdone
    rw [hdrainer] at hexited
    exact absurd hexited (by simp)
  rcases hcases with ⟨event, handler, hreceive, -, rfl⟩ | ⟨hqueued, hloop, rfl⟩
  · obtain ⟨hevent, rfl⟩ := Prod.mk.inj hreceive
    refine ⟨h.toAccount.receive hevent _, h.finished, ?_, ?_, ?_⟩
    · intro count' hcount'
      rw [← Drainer.receiving.inj hcount', h.receiving count hdrainer, List.length_append,
        List.length_singleton]
    · exact fun count' hexited => absurd hexited (by simp)
    · exact fun processed hdone => absurd hdone (hnotDone processed)
  · refine ⟨h.toAccount.control s.main (.exited count), h.finished, ?_, ?_, ?_⟩
    · exact fun count' hcount' => absurd hcount' (by simp)
    · intro count' hexited
      rw [← Drainer.exited.inj hexited]
      exact ⟨h.receiving count hdrainer, hqueued, hloop⟩
    · exact fun processed hdone => absurd hdone (hnotDone processed)

lemma step (h : Inv draws taken s) {t : Thread} (hstep : s.step t = some s') :
    ∃ taken', Inv draws taken' s' := by
  cases t with
  | main => exact h.stepMain hstep
  | drainer => exact ⟨taken, h.stepDrainer hstep⟩

lemma run (h : Inv draws taken s) {threads : List Thread} (hrun : s.run threads = some s') :
    ∃ taken', Inv draws taken' s' := by
  induction threads generalizing s taken with
  | nil =>
    obtain rfl : s = s' := Option.some.inj hrun
    exact ⟨taken, h⟩
  | cons t threads ih =>
    obtain ⟨s₁, hstep, hrest⟩ := Option.bind_eq_some_iff.mp hrun
    obtain ⟨taken₁, h₁⟩ := h.step hstep
    exact ih h₁ hrest

end Inv

/-! ## Every run ends -/

/-- More steps are not left. -/
def stepsLeft (s : State) : ℕ :=
  2 * s.rest.length + s.queued.length +
    (match s.main with | .loop => 2 | .joining => 1 | .done _ => 0) +
    (match s.drainer with | .receiving _ => 1 | .exited _ => 0)

lemma stepsLeft_lt (h : Inv draws taken s) {t : Thread} (hstep : s.step t = some s') :
    s'.stepsLeft < s.stepsLeft := by
  cases t with
  | main =>
    rcases stepMain_cases hstep with ⟨d, rest, hmain, hrest, rfl⟩ | ⟨hmain, -, rfl⟩ |
      ⟨count, hmain, -, rfl⟩
    · -- a turn is used up, and at most one event is new
      have hqueued : (s.turn d rest).queued.length ≤ s.queued.length + 1 := by
        rcases (h.toAccount.events_turn d rest).2 with ⟨hq, -⟩ | ⟨hq, -, -⟩
        · rw [hq, List.length_append, List.length_singleton]
        · rw [hq]
          omega
      have hrest' : (s.turn d rest).rest = rest := rfl
      have hmain' : (s.turn d rest).main = s.main := rfl
      have hdrainer' : (s.turn d rest).drainer = s.drainer := rfl
      rw [stepsLeft, stepsLeft, hrest', hmain', hdrainer', hrest, List.length_cons]
      omega
    · simp only [stepsLeft, hmain, queued]
      omega
    · simp only [stepsLeft, hmain, queued]
      omega
  | drainer =>
    obtain ⟨count, hdrainer, hcases⟩ := stepDrainer_cases hstep
    rcases hcases with ⟨event, handler, -, hqueued, rfl⟩ | ⟨-, -, rfl⟩
    · have hlen := congrArg List.length hqueued
      simp only [stepsLeft, hdrainer, queued, List.length_cons] at hlen ⊢
      omega
    · simp only [stepsLeft, hdrainer, queued]
      omega

lemma length_add_stepsLeft_le (h : Inv draws taken s) {threads : List Thread}
    (hrun : s.run threads = some s') : threads.length + s'.stepsLeft ≤ s.stepsLeft := by
  induction threads generalizing s taken with
  | nil =>
    obtain rfl : s = s' := Option.some.inj hrun
    simp
  | cons t threads ih =>
    obtain ⟨s₁, hstep, hrest⟩ := Option.bind_eq_some_iff.mp hrun
    obtain ⟨taken₁, h₁⟩ := h.step hstep
    have hlt := stepsLeft_lt h hstep
    have hle := ih h₁ hrest
    rw [List.length_cons]
    omega

/-- The main thread waits for the drainer, the drainer for an event or for the end of the
loop; so one of them can go on until both are done. -/
lemma done_of_stuck (h : Inv draws taken s) (hstuck : ∀ t, s.step t = none) :
    s.main = .done s.received.length ∧ s.queued = [] ∧ s.rest = [] := by
  have hmainStuck : s.stepMain = none := hstuck .main
  have hdrainerStuck : s.stepDrainer = none := hstuck .drainer
  unfold stepMain at hmainStuck
  cases hmain : s.main with
  | loop =>
    rw [hmain] at hmainStuck
    cases hrest : s.rest <;> simp [hrest] at hmainStuck
  | joining =>
    -- the drainer has exited, or else it finds an event or no sender
    rw [hmain] at hmainStuck
    cases hdrainer : s.drainer with
    | exited count => simp [hdrainer] at hmainStuck
    | receiving count =>
      unfold stepDrainer at hdrainerStuck
      rw [hdrainer] at hdrainerStuck
      rcases s.receive_cases with ⟨event, handler, hreceive, -⟩ | ⟨handler, hreceive, -⟩
      · simp [hreceive] at hdrainerStuck
      · simp [hreceive, hmain] at hdrainerStuck
  | done processed =>
    obtain ⟨hcount, hqueued, -⟩ := h.exited processed (h.joined processed hmain)
    exact ⟨by rw [hcount], hqueued, h.finished (by rw [hmain]; simp)⟩

end State

open State

/-- **Every interleaving ends.**  A run has at most `2 n + 3` steps for `n` draws.  When no
thread has a step left, the main thread has printed how many events were received.  These are
events of the run in their order, all others were dropped, and the first ones that fit into
the channel are not among the dropped. -/
theorem maximal_run_ends (draws : List Draw) (threads : List Thread) (s : State)
    (hrun : (init draws).run threads = some s) :
    threads.length ≤ 2 * draws.length + 3 ∧
      ((∀ t, s.step t = none) →
        s.main = .done s.received.length ∧ s.received.Sublist (eventsOf draws) ∧
          s.received.length + s.handler.emitter.droppedCount = draws.length ∧
          min draws.length channelCapacity ≤ s.received.length ∧
          s.handler.totalCalls = draws.length) := by
  obtain ⟨taken, h⟩ := (inv_init draws).run hrun
  refine ⟨?_, fun hstuck => ?_⟩
  · have hle := length_add_stepsLeft_le (inv_init draws) hrun
    have hinit : (init draws).stepsLeft = 2 * draws.length + 3 := rfl
    omega
  · obtain ⟨hdone, hqueued, hrest⟩ := done_of_stuck h hstuck
    have hdraws := h.draws_eq
    rw [hrest, List.append_nil] at hdraws
    have haccounted := h.accounted
    have horder := h.order
    have hdropped := h.dropped
    rw [hqueued, List.length_nil, Nat.add_zero] at haccounted hdropped
    rw [hqueued, List.append_nil] at horder
    rw [hdraws]
    refine ⟨hdone, horder, haccounted, ?_, h.total⟩
    have hlen := congrArg List.length hdraws
    omega

/-- Two draws, the first of which is received before the second. -/
def twoDraws : List Draw :=
  [⟨2, Vector.replicate 8 1, 5⟩, ⟨7, Vector.replicate 8 2, 6⟩]

def twoTurns : List Thread := [.main, .drainer, .main, .main, .drainer, .drainer, .main]

theorem maximal_run_of_twoDraws :
    ∃ s, (init twoDraws).run twoTurns = some s ∧ s.main = .done 2 ∧
      s.handler.emitter.droppedCount = 0 ∧ twoTurns.length ≤ 7 := by
  obtain ⟨s, hs⟩ : ∃ s, (init twoDraws).run twoTurns = some s := ⟨_, rfl⟩
  have hends := maximal_run_ends twoDraws twoTurns s hs
  have hstuck : ∀ t, s.step t = none := by
    obtain rfl := Option.some.inj hs
    intro t
    cases t <;> rfl
  obtain ⟨hdone, -, hsum, hfit, -⟩ := hends.2 hstuck
  have hlen : twoDraws.length = 2 := rfl
  have hmin : min twoDraws.length channelCapacity = 2 := by decide
  rw [hlen] at hsum
  rw [hmin] at hfit
  refine ⟨s, hs, ?_, by omega, hends.1⟩
  rw [hdone, show s.received.length = 2 by omega]

/-- **In every state of every interleaving** the events that were handled are received, in the
channel or dropped; the received ones and those in the channel are in order, each with the
slot of its turn; the counts are those of the handled ids, and the progress lines say so. -/
theorem run_account (draws : List Draw) (threads : List Thread) (s : State)
    (hrun : (init draws).run threads = some s) :
    let handled := draws.take s.iteration
    s.iteration + s.rest.length = draws.length ∧
      (s.received ++ s.queued).Sublist (eventsOf handled) ∧
      s.received.length + s.queued.length + s.handler.emitter.droppedCount = s.iteration ∧
      s.handler.totalCalls = s.iteration ∧ s.handler.currentSlot = slotAt s.iteration ∧
      (∀ id, HashMap.count s.handler.stats id =
        handled.countP fun d => decide (d.syscallId = id)) ∧
      s.reports = reportsOf handled := by
  obtain ⟨taken, h⟩ := (inv_init draws).run hrun
  have hdraws := h.draws_eq
  have hhandled : draws.take s.iteration = taken := by
    rw [h.iteration, hdraws, List.take_left]
  have hlen := congrArg List.length hdraws
  have hiteration := h.iteration
  rw [List.length_append] at hlen
  dsimp only
  rw [hhandled]
  refine ⟨by omega, h.order, ?_, ?_, ?_, fun id => ?_, h.reports⟩
  · rw [h.accounted, h.iteration]
  · rw [h.total, h.iteration]
  · rw [h.slot, h.iteration]
  · rw [SyscallHandler.stats, h.counts, HashMap.countAll, HashMap.count_foldl_increment,
      List.count_eq_countP, List.countP_map]
    simp [HashMap.count, Function.comp_def, beq_eq_decide]

/-- After both turns, between which the first event is received. -/
theorem run_account_of_twoDraws :
    let threads : List Thread := [.main, .drainer, .main]
    ∃ s, (init twoDraws).run threads = some s ∧ s.handler.currentSlot = slotAt 2 ∧
      s.queued.length + s.handler.emitter.droppedCount = 1 ∧ s.handler.totalCalls = 2 ∧
      HashMap.count s.handler.stats solGetReturnData = 1 ∧ s.reports = reportsOf twoDraws := by
  intro threads
  obtain ⟨s, hs⟩ : ∃ s, (init twoDraws).run threads = some s := ⟨_, rfl⟩
  obtain ⟨-, -, hsum, htotal, hslot, hcounts, hreports⟩ := run_account twoDraws threads s hs
  have hreceived : s.received.length = 1 := by
    obtain rfl := Option.some.inj hs
    rfl
  have hiteration : s.iteration = 2 := by
    obtain rfl := Option.some.inj hs
    rfl
  rw [hiteration] at hslot hsum htotal hcounts hreports
  exact ⟨s, hs, hslot, by omega, htotal, (hcounts solGetReturnData).trans (by decide), hreports⟩

end Runtime

end SyscallMind
