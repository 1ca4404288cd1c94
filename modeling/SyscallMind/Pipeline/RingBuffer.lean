/-
# The ring buffer between two threads

`RingBuffer` of `pipeline/src/ring_buffer.rs`, first as the functions of the source and then
as one producer and one consumer that take the steps of these functions in any order.  A step
is one access to shared memory: a load or a store of an index, or the access to a slot.  A
thread between two steps is described by its program counter, with the values it has loaded.

The run keeps a log of the slot accesses and of the values that the calls returned.  The log
is what the theorems speak about; no step looks at it.
-/
import SyscallMind.Common

namespace SyscallMind

/-- The buffer always leaves one of its slots empty. -/
def ringBufferSize : ℕ := 1024

/-- The shared memory; a slot that was never written holds `none`. -/
structure RingBuffer where
  slots : ℕ → Option SyscallTraceEvent
  head : ℕ
  tail : ℕ

namespace RingBuffer

def new : RingBuffer := ⟨fun _ => none, 0, 0⟩

variable (b : RingBuffer)

/-- The buffer with an event written into one slot. -/
def write (slot : ℕ) (event : SyscallTraceEvent) : RingBuffer :=
  { b with slots := Function.update b.slots slot (some event) }

/-- Push an event; `false` if the buffer is full. -/
def push (event : SyscallTraceEvent) : Bool × RingBuffer :=
  let tail := b.tail
  let nextTail := (tail + 1) % ringBufferSize
  if nextTail = b.head then (false, b)
  else (true, { b.write tail event with tail := nextTail })

/-- Pop an event, `none` if the buffer is empty; it is undefined to read a slot that was never
written. -/
def pop : Option (Option SyscallTraceEvent × RingBuffer) :=
  let head := b.head
  if head = b.tail then some (none, b)
  else (b.slots head).map fun event =>
    (some event, { b with head := (head + 1) % ringBufferSize })

def len : ℕ := (b.tail + ringBufferSize - b.head) % ringBufferSize

/-! ## The threads -/

inductive ProducerCall
  | push (event : SyscallTraceEvent)
  | len
deriving DecidableEq, Repr

inductive ConsumerCall
  | pop
  | len
deriving DecidableEq, Repr

/-- Where the producer is, and what it has loaded. -/
inductive ProducerPc
  | idle
  /-- It is to load `head`. -/
  | loadedTail (event : SyscallTraceEvent) (tail : ℕ)
  /-- It is to write the slot `tail`. -/
  | checked (event : SyscallTraceEvent) (tail nextTail : ℕ)
  /-- It is to store `tail`. -/
  | written (event : SyscallTraceEvent) (nextTail : ℕ)
  /-- Inside `len`, it is to load `tail`. -/
  | lenLoadedHead (head : ℕ)
deriving DecidableEq, Repr

/-- Where the consumer is, and what it has loaded. -/
inductive ConsumerPc
  | idle
  /-- It is to load `tail`. -/
  | loadedHead (head : ℕ)
  /-- It is to read the slot `head`. -/
  | checked (head : ℕ)
  /-- It is to store `head`. -/
  | read (head : ℕ) (event : SyscallTraceEvent)
  /-- It has read a slot that was never written. -/
  | undefined
  /-- Inside `len`, it is to load `tail`. -/
  | lenLoadedHead (head : ℕ)
deriving DecidableEq, Repr

/-- What is logged: the accesses to the slots, and the values returned. -/
inductive Entry
  | wrote (slot : ℕ)
  | read (slot : ℕ)
  | push (event : SyscallTraceEvent) (ok : Bool)
  | pop (result : Option SyscallTraceEvent)
  | len (n : ℕ)
deriving DecidableEq, Repr

structure State where
  buffer : RingBuffer
  producer : ProducerPc
  consumer : ConsumerPc
  /-- What has happened so far; no step looks at it. -/
  log : List Entry

def State.init : State := ⟨new, .idle, .idle, []⟩

variable (s : State)

/-- The next step of the producer; between two calls it begins the given one. -/
def State.stepProducer (call : ProducerCall) : State :=
  match s.producer with
  | .idle =>
      match call with
      | .push event => { s with producer := .loadedTail event s.buffer.tail }
      | .len => { s with producer := .lenLoadedHead s.buffer.head }
  | .loadedTail event tail =>
      let nextTail := (tail + 1) % ringBufferSize
      if nextTail = s.buffer.head then
        { s with producer := .idle, log := s.log ++ [.push event false] }
      else { s with producer := .checked event tail nextTail }
  | .checked event tail nextTail =>
      { s with
        buffer := s.buffer.write tail event
        producer := .written event nextTail
        log := s.log ++ [.wrote tail] }
  | .written event nextTail =>
      { s with
        buffer := { s.buffer with tail := nextTail }
        producer := .idle
        log := s.log ++ [.push event true] }
  | .lenLoadedHead head =>
      { s with
        producer := .idle
        log := s.log ++ [.len ((s.buffer.tail + ringBufferSize - head) % ringBufferSize)] }

/-- The next step of the consumer; between two calls it begins the given one. -/
def State.stepConsumer (call : ConsumerCall) : State :=
  match s.consumer with
  | .idle =>
      match call with
      | .pop => { s with consumer := .loadedHead s.buffer.head }
      | .len => { s with consumer := .lenLoadedHead s.buffer.head }
  | .loadedHead head =>
      if head = s.buffer.tail then
        { s with consumer := .idle, log := s.log ++ [.pop none] }
      else { s with consumer := .checked head }
  | .checked head =>
      match s.buffer.slots head with
      | some event =>
          { s with consumer := .read head event, log := s.log ++ [.read head] }
      | none => { s with consumer := .undefined, log := s.log ++ [.read head] }
  | .read head event =>
      { s with
        buffer := { s.buffer with head := (head + 1) % ringBufferSize }
        consumer := .idle
        log := s.log ++ [.pop (some event)] }
  | .undefined => s
  | .lenLoadedHead head =>
      { s with
        consumer := .idle
        log := s.log ++ [.len ((s.buffer.tail + ringBufferSize - head) % ringBufferSize)] }

/-- A choice of the scheduler: the thread that takes its next step. -/
inductive Action
  | producer (call : ProducerCall)
  | consumer (call : ConsumerCall)
deriving DecidableEq, Repr

def State.step : Action → State
  | .producer call => s.stepProducer call
  | .consumer call => s.stepConsumer call

/-! ## What the log says -/

def Entry.pushed : Entry → Option SyscallTraceEvent
  | .push event true => some event
  | _ => none

def Entry.popped : Entry → Option SyscallTraceEvent
  | .pop result => result
  | _ => none

/-- The events whose push returned true. -/
def State.pushed : List SyscallTraceEvent := s.log.filterMap Entry.pushed

/-- The events that a pop has returned. -/
def State.popped : List SyscallTraceEvent := s.log.filterMap Entry.popped

/-- Whether a slot is unread after the entry, if `unread` says so before it. -/
def Entry.mark (slot : ℕ) (unread : Bool) : Entry → Bool
  | .wrote i => if i = slot then true else unread
  | .read i => if i = slot then false else unread
  | _ => unread

/-- Whether the slot was written since it was last read. -/
def State.unread (slot : ℕ) : Bool := s.log.foldl (Entry.mark slot) false

/-! ## One thread without the other -/

/-- Four steps of the producer with no step of the consumer in between are a `push`, or two if
the buffer is full. -/
lemma stepProducer_push (event : SyscallTraceEvent) (call : ProducerCall)
    (h : s.producer = .idle) :
    let s₂ := (s.stepProducer (.push event)).stepProducer call
    let s₄ := (s₂.stepProducer call).stepProducer call
    if (s.buffer.push event).1 then
      s₄.buffer = (s.buffer.push event).2 ∧ s₄.producer = .idle ∧
        s₄.pushed = s.pushed ++ [event]
    else s₂.buffer = s.buffer ∧ s₂.producer = .idle ∧ s₂.pushed = s.pushed := by
  by_cases hfull : (s.buffer.tail + 1) % ringBufferSize = s.buffer.head
  · simp [State.stepProducer, push, h, hfull, State.pushed, List.filterMap_cons, Entry.pushed]
  · simp [State.stepProducer, push, h, hfull, State.pushed, List.filterMap_cons, Entry.pushed,
      write]

/-- Four steps of the consumer with no step of the producer in between are a `pop`, or two if
the buffer is empty. -/
lemma stepConsumer_pop (call : ConsumerCall) {result : Option SyscallTraceEvent}
    {b : RingBuffer} (h : s.consumer = .idle) (hpop : s.buffer.pop = some (result, b)) :
    let s₂ := (s.stepConsumer .pop).stepConsumer call
    let s₄ := (s₂.stepConsumer call).stepConsumer call
    match result with
    | some event => s₄.buffer = b ∧ s₄.consumer = .idle ∧ s₄.popped = s.popped ++ [event]
    | none => s₂.buffer = b ∧ s₂.consumer = .idle ∧ s₂.popped = s.popped := by
  by_cases hempty : s.buffer.head = s.buffer.tail
  · rw [pop, if_pos hempty] at hpop
    obtain ⟨rfl, rfl⟩ := Prod.mk.inj (Option.some.inj hpop)
    simp [State.stepConsumer, h, hempty, State.popped, List.filterMap_cons, Entry.popped]
  · rw [pop, if_neg hempty, Option.map_eq_some_iff] at hpop
    obtain ⟨event, hslot, heq⟩ := hpop
    obtain ⟨rfl, rfl⟩ := Prod.mk.inj heq
    simp [State.stepConsumer, h, hempty, hslot, State.popped, List.filterMap_cons, Entry.popped]

/-- Two steps of a thread with no step of the other in between are a `len`. -/
lemma step_len (call : ProducerCall) (call' : ConsumerCall) :
    (s.producer = .idle → (s.stepProducer .len).stepProducer call =
      { s with log := s.log ++ [.len s.buffer.len] }) ∧
    (s.consumer = .idle → (s.stepConsumer .len).stepConsumer call' =
      { s with log := s.log ++ [.len s.buffer.len] }) := by
  refine ⟨fun h => ?_, fun h => ?_⟩
  · simp only [State.stepProducer, h, len]
  · simp only [State.stepConsumer, h, len]

end RingBuffer

end SyscallMind
