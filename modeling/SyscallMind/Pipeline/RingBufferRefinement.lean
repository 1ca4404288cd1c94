/-
# The ring buffer is a bounded queue

Whatever the order of the steps of the two threads, the buffer holds a queue of at most 1023
events: the item number `j` of the queue is in the slot `head + j`, modulo 1024, and `tail` is
the index behind the last one.  The relation `Refines` adds what each thread knows between
two of its steps.  The producer, once it has seen that the buffer is not full, has room until
it stores `tail`, because the consumer only makes more; and the consumer, once it has seen an
item, keeps it until it stores `head`.

Every step either leaves the queue alone or is one operation of it, so that the values
returned by the calls are a history of the queue.  That the events come out in the order in
which they went in is then a fact about queues.
-/
import SyscallMind.Lib.BoundedQueue
import SyscallMind.Lib.Run
import SyscallMind.Pipeline.RingBuffer

namespace SyscallMind

namespace RingBuffer

open Lib

abbrev EventQueue := BoundedQueue SyscallTraceEvent 1023

/-- The operation of the queue that takes place when a value is returned. -/
def Entry.toQueue : Entry → Option (BoundedQueue.Op SyscallTraceEvent)
  | .push event true => some (.enqueue event)
  | .push _ false => some .full
  | .pop (some event) => some (.dequeue event)
  | .pop none => some .empty
  | _ => none

def State.queueOps (s : State) : List (BoundedQueue.Op SyscallTraceEvent) :=
  s.log.filterMap Entry.toQueue

/-- How many items of the queue the consumer has read and not yet removed. -/
def ConsumerPc.taken : ConsumerPc → ℕ
  | .read _ _ => 1
  | _ => 0

/-- What the producer knows between two steps. -/
def ProducerKnows (s : State) (q : EventQueue) : ProducerPc → Prop
  | .idle => True
  | .loadedTail _ tail => tail = s.buffer.tail
  | .checked _ tail nextTail =>
      tail = s.buffer.tail ∧ nextTail = (s.buffer.tail + 1) % ringBufferSize ∧
        q.items.length < 1023
  | .written event nextTail =>
      nextTail = (s.buffer.tail + 1) % ringBufferSize ∧ q.items.length < 1023 ∧
        s.buffer.slots s.buffer.tail = some event ∧ s.unread s.buffer.tail = true
  | .lenLoadedHead _ => True

/-- What the consumer knows between two steps. -/
def ConsumerKnows (s : State) (q : EventQueue) : ConsumerPc → Prop
  | .idle => True
  | .loadedHead head => head = s.buffer.head
  | .checked head => head = s.buffer.head ∧ q.items ≠ []
  | .read head event => head = s.buffer.head ∧ q.items.head? = some event
  | .undefined => False
  | .lenLoadedHead _ => True

/-- The state holds the queue. -/
structure Refines (s : State) (q : EventQueue) : Prop where
  head_lt : s.buffer.head < ringBufferSize
  tail_eq : s.buffer.tail = (s.buffer.head + q.items.length) % ringBufferSize
  slots : ∀ j event, q.items[j]? = some event →
    s.buffer.slots ((s.buffer.head + j) % ringBufferSize) = some event
  unread : ∀ j, s.consumer.taken ≤ j → j < q.items.length →
    s.unread ((s.buffer.head + j) % ringBufferSize) = true
  producer : ProducerKnows s q s.producer
  consumer : ConsumerKnows s q s.consumer
  history : BoundedQueue.History s.queueOps q

lemma refines_init : Refines State.init BoundedQueue.new where
  head_lt := by decide
  tail_eq := rfl
  slots j event h := absurd h (by simp [BoundedQueue.new])
  unread j _ h := absurd h (by simp [BoundedQueue.new])
  producer := trivial
  consumer := trivial
  history := BoundedQueue.History.nil

section Log

variable {s s' : State} {x : Entry}

lemma unread_of_log (h : s'.log = s.log ++ [x]) (slot : ℕ) :
    s'.unread slot = x.mark slot (s.unread slot) := by
  simp [State.unread, h]

lemma queueOps_of_log (h : s'.log = s.log ++ [x]) :
    s'.queueOps = s.queueOps ++ x.toQueue.toList := by
  rw [State.queueOps, h, List.filterMap_append]
  cases hx : x.toQueue <;> simp [State.queueOps, hx]

end Log

variable {s : State} {q : EventQueue}

/-- What the producer knows stays true when the queue gets shorter. -/
lemma ProducerKnows.mono {s' : State} {q' : EventQueue} {pc : ProducerPc}
    (h : ProducerKnows s q pc) (htail : s'.buffer.tail = s.buffer.tail)
    (hslots : s'.buffer.slots = s.buffer.slots) (hlen : q'.items.length ≤ q.items.length)
    (hunread : q.items.length < 1023 → s.unread s.buffer.tail = true →
      s'.unread s.buffer.tail = true) : ProducerKnows s' q' pc := by
  cases pc with
  | idle => trivial
  | loadedTail event tail => exact h.trans htail.symm
  | checked event tail nextTail =>
    obtain ⟨ht, hnext, hroom⟩ := h
    refine ⟨ht.trans htail.symm, ?_, by omega⟩
    rw [htail]
    exact hnext
  | written event nextTail =>
    obtain ⟨hnext, hroom, hslot, hfresh⟩ := h
    refine ⟨?_, by omega, ?_, ?_⟩
    · rw [htail]
      exact hnext
    · rw [htail, hslots]
      exact hslot
    · rw [htail]
      exact hunread hroom hfresh
  | lenLoadedHead head => trivial

/-- What the consumer knows stays true when an item is added at the end. -/
lemma ConsumerKnows.enqueue {s' : State} {pc : ConsumerPc} {event : SyscallTraceEvent}
    (h : ConsumerKnows s q pc) (hhead : s'.buffer.head = s.buffer.head)
    (hroom : q.items.length < 1023) : ConsumerKnows s' (q.enqueue event hroom) pc := by
  cases pc with
  | idle => trivial
  | loadedHead head => exact h.trans hhead.symm
  | checked head => exact ⟨h.1.trans hhead.symm, by simp [BoundedQueue.enqueue]⟩
  | read head e => exact ⟨h.1.trans hhead.symm, by simp [BoundedQueue.enqueue, h.2]⟩
  | undefined => exact h
  | lenLoadedHead head => trivial

/-! ## Steps of the producer -/

/-- The slots of the items are not the slot behind the last one. -/
lemma Refines.slot_ne_tail (h : Refines s q) (hroom : q.items.length < 1023) {j : ℕ}
    (hj : j < q.items.length) : (s.buffer.head + j) % ringBufferSize ≠ s.buffer.tail := by
  have hlt := h.head_lt
  rw [h.tail_eq]
  simp only [ringBufferSize] at hlt ⊢
  omega

/-- A step that moves the producer and changes nothing else. -/
lemma Refines.setProducer (h : Refines s q) {pc : ProducerPc} (hpc : ProducerKnows s q pc) :
    Refines { s with producer := pc } q :=
  ⟨h.head_lt, h.tail_eq, h.slots, h.unread, hpc, h.consumer, h.history⟩

/-- A call of the producer returns without having changed the queue. -/
lemma Refines.returnProducer (h : Refines s q) {x : Entry} (hmark : ∀ i b, x.mark i b = b)
    (hq : BoundedQueue.History (s.queueOps ++ x.toQueue.toList) q) :
    Refines { s with producer := .idle, log := s.log ++ [x] } q := by
  have hunread : ∀ slot,
      State.unread { s with producer := .idle, log := s.log ++ [x] } slot = s.unread slot := by
    intro slot
    rw [unread_of_log rfl, hmark]
  refine ⟨h.head_lt, h.tail_eq, h.slots, ?_, trivial, h.consumer, ?_⟩
  · intro j hj hlt
    rw [hunread]
    exact h.unread j hj hlt
  · rw [queueOps_of_log rfl]
    exact hq

/-- The next index is `head` exactly when the queue is full. -/
lemma Refines.full_iff (h : Refines s q) :
    (s.buffer.tail + 1) % ringBufferSize = s.buffer.head ↔ q.items.length = 1023 := by
  have hlt := h.head_lt
  have hlen := q.length_le
  rw [h.tail_eq]
  simp only [ringBufferSize] at hlt ⊢
  omega

lemma Refines.writeSlot (h : Refines s q) {event : SyscallTraceEvent} {tail nextTail : ℕ}
    (hknows : ProducerKnows s q (.checked event tail nextTail)) :
    Refines { s with
      buffer := s.buffer.write tail event
      producer := .written event nextTail
      log := s.log ++ [.wrote tail] } q := by
  obtain ⟨rfl, hnext, hroom⟩ := hknows
  refine ⟨h.head_lt, h.tail_eq, ?_, ?_, ?_, h.consumer, ?_⟩
  · intro j e hj
    have hlt : j < q.items.length := (List.getElem?_eq_some_iff.mp hj).1
    exact (Function.update_of_ne (h.slot_ne_tail hroom hlt) _ _).trans (h.slots j e hj)
  · intro j hj hlt
    rw [unread_of_log rfl]
    exact (if_neg (h.slot_ne_tail hroom hlt).symm).trans (h.unread j hj hlt)
  · refine ⟨hnext, hroom, Function.update_self _ _ _, ?_⟩
    rw [unread_of_log rfl]
    exact if_pos rfl
  · rw [queueOps_of_log rfl]
    simpa [Entry.toQueue] using h.history

lemma Refines.storeTail (h : Refines s q) {event : SyscallTraceEvent} {nextTail : ℕ}
    (hknows : ProducerKnows s q (.written event nextTail)) :
    ∃ q', Refines { s with
      buffer := { s.buffer with tail := nextTail }
      producer := .idle
      log := s.log ++ [.push event true] } q' := by
  obtain ⟨rfl, hroom, hslot, hfresh⟩ := hknows
  have hlen : (q.enqueue event hroom).items.length = q.items.length + 1 := by
    simp [BoundedQueue.enqueue]
  have hget : ∀ j, j < q.items.length → (q.enqueue event hroom).items[j]? = q.items[j]? :=
    fun j hj => List.getElem?_append_left hj
  refine ⟨q.enqueue event hroom, h.head_lt, ?_, ?_, ?_, trivial, ?_, ?_⟩
  · rw [hlen, h.tail_eq]
    simp only [ringBufferSize]
    omega
  · intro j e hj
    have hlt : j < q.items.length + 1 := by
      rw [← hlen]
      exact (List.getElem?_eq_some_iff.mp hj).1
    by_cases hjlt : j < q.items.length
    · rw [hget j hjlt] at hj
      exact h.slots j e hj
    · -- the new item is in the slot that was written
      obtain rfl : j = q.items.length := by omega
      have he : event = e := by simpa [BoundedQueue.enqueue] using hj
      rw [← he]
      have hslot' := hslot
      rw [h.tail_eq] at hslot'
      exact hslot'
  · intro j hj hlt
    rw [hlen] at hlt
    rw [unread_of_log rfl]
    by_cases hjlt : j < q.items.length
    · exact h.unread j hj hjlt
    · obtain rfl : j = q.items.length := by omega
      have hfresh' := hfresh
      rw [h.tail_eq] at hfresh'
      exact hfresh'
  · exact h.consumer.enqueue rfl hroom
  · rw [queueOps_of_log rfl]
    exact h.history.snoc (BoundedQueue.Step.enqueue q event hroom)

/-- **A step of the producer** leaves the queue alone or is one operation of it. -/
lemma Refines.stepProducer (h : Refines s q) (call : ProducerCall) :
    ∃ q', Refines (s.stepProducer call) q' := by
  have hknows := h.producer
  cases hpc : s.producer with
  | idle =>
    cases call with
    | push event =>
      simp only [State.stepProducer, hpc]
      exact ⟨q, h.setProducer rfl⟩
    | len =>
      simp only [State.stepProducer, hpc]
      exact ⟨q, h.setProducer trivial⟩
  | loadedTail event tail =>
    rw [hpc] at hknows
    obtain rfl : tail = s.buffer.tail := hknows
    simp only [State.stepProducer, hpc]
    split
    · next hfull =>
      have hlen := h.full_iff.mp hfull
      exact ⟨q, h.returnProducer (fun _ _ => rfl)
        (h.history.snoc (BoundedQueue.Step.full q hlen))⟩
    · next hfull =>
      have hlen : q.items.length ≠ 1023 := fun hlen => hfull (h.full_iff.mpr hlen)
      have hle := q.length_le
      exact ⟨q, h.setProducer ⟨rfl, rfl, by omega⟩⟩
  | checked event tail nextTail =>
    rw [hpc] at hknows
    simp only [State.stepProducer, hpc]
    exact ⟨q, h.writeSlot hknows⟩
  | written event nextTail =>
    rw [hpc] at hknows
    simp only [State.stepProducer, hpc]
    exact h.storeTail hknows
  | lenLoadedHead head =>
    simp only [State.stepProducer, hpc]
    exact ⟨q, h.returnProducer (fun _ _ => rfl) (by simpa [Entry.toQueue] using h.history)⟩

/-! ## Steps of the consumer -/

lemma Refines.setConsumer (h : Refines s q) {pc : ConsumerPc}
    (htaken : s.consumer.taken ≤ pc.taken) (hpc : ConsumerKnows s q pc) :
    Refines { s with consumer := pc } q :=
  ⟨h.head_lt, h.tail_eq, h.slots, fun j hj hlt => h.unread j (Nat.le_trans htaken hj) hlt,
    h.producer, hpc, h.history⟩

/-- A call of the consumer returns without having changed the queue. -/
lemma Refines.returnConsumer (h : Refines s q) {x : Entry} (htaken : s.consumer.taken = 0)
    (hmark : ∀ i b, x.mark i b = b)
    (hq : BoundedQueue.History (s.queueOps ++ x.toQueue.toList) q) :
    Refines { s with consumer := .idle, log := s.log ++ [x] } q := by
  have hunread : ∀ slot,
      State.unread { s with consumer := .idle, log := s.log ++ [x] } slot = s.unread slot := by
    intro slot
    rw [unread_of_log rfl, hmark]
  refine ⟨h.head_lt, h.tail_eq, h.slots, ?_, ?_, trivial, ?_⟩
  · intro j _ hlt
    rw [hunread]
    exact h.unread j (by omega) hlt
  · exact h.producer.mono rfl rfl (Nat.le_refl _) fun _ hfresh => (hunread _).trans hfresh
  · rw [queueOps_of_log rfl]
    exact hq

/-- The indices are equal exactly when the queue is empty. -/
lemma Refines.empty_iff (h : Refines s q) : s.buffer.head = s.buffer.tail ↔ q.items = [] := by
  have hlt := h.head_lt
  have hlen := q.length_le
  rw [h.tail_eq, ← List.length_eq_zero_iff]
  simp only [ringBufferSize] at hlt ⊢
  omega

/-- The first item is in the slot `head`. -/
lemma Refines.slot_head (h : Refines s q) {event : SyscallTraceEvent}
    (hhead : q.items.head? = some event) : s.buffer.slots s.buffer.head = some event := by
  have hslot := h.slots 0 event (by rw [← List.head?_eq_getElem?, hhead])
  rwa [Nat.add_zero, Nat.mod_eq_of_lt h.head_lt] at hslot

lemma Refines.readSlot (h : Refines s q) {event : SyscallTraceEvent}
    (hhead : q.items.head? = some event) :
    Refines { s with
      consumer := .read s.buffer.head event
      log := s.log ++ [.read s.buffer.head] } q := by
  have hlt := h.head_lt
  have hlen := q.length_le
  have hpos : 0 < q.items.length := by
    rw [List.length_pos_iff]
    rintro hnil
    rw [hnil] at hhead
    exact absurd hhead (by simp)
  refine ⟨h.head_lt, h.tail_eq, h.slots, ?_, ?_, ⟨rfl, hhead⟩, ?_⟩
  · intro j hj hjlt
    have hne : s.buffer.head ≠ (s.buffer.head + j) % ringBufferSize := by
      have hj' : 1 ≤ j := hj
      simp only [ringBufferSize] at hlt ⊢
      omega
    rw [unread_of_log rfl]
    refine (if_neg hne).trans (h.unread j (Nat.le_trans ?_ hj) hjlt)
    cases s.consumer <;> simp [ConsumerPc.taken]
  · refine h.producer.mono rfl rfl (Nat.le_refl _) fun hroom hfresh => ?_
    -- the slot that is read is not the one behind the last item
    have hne : s.buffer.head ≠ s.buffer.tail := by
      rw [h.tail_eq]
      simp only [ringBufferSize] at hlt ⊢
      omega
    rw [unread_of_log rfl]
    exact (if_neg hne).trans hfresh
  · rw [queueOps_of_log rfl]
    simpa [Entry.toQueue] using h.history

lemma Refines.storeHead (h : Refines s q) {event : SyscallTraceEvent} {head : ℕ}
    (hpc : s.consumer = .read head event) :
    ∃ q', Refines { s with
      buffer := { s.buffer with head := (head + 1) % ringBufferSize }
      consumer := .idle
      log := s.log ++ [.pop (some event)] } q' := by
  have hknows := h.consumer
  rw [hpc] at hknows
  obtain ⟨rfl, hhead⟩ := hknows
  obtain ⟨rest, hitems⟩ := List.head?_eq_some_iff.mp hhead
  have hdeq : q.dequeue.items = rest := by simp [BoundedQueue.dequeue, hitems]
  have hlen : q.items.length = rest.length + 1 := by simp [hitems]
  -- the slot of an item is the same from the new head
  have hshift : ∀ j, ((s.buffer.head + 1) % ringBufferSize + j) % ringBufferSize =
      (s.buffer.head + (j + 1)) % ringBufferSize := by
    intro j
    simp only [ringBufferSize]
    omega
  have hunread : ∀ slot, State.unread { s with
      buffer := { s.buffer with head := (s.buffer.head + 1) % ringBufferSize }
      consumer := .idle
      log := s.log ++ [.pop (some event)] } slot = s.unread slot := by
    intro slot
    rw [unread_of_log (s := s) (x := .pop (some event)) rfl]
    rfl
  refine ⟨q.dequeue, Nat.mod_lt _ (by decide), ?_, ?_, ?_, ?_, trivial, ?_⟩
  · rw [hdeq, hshift, ← hlen]
    exact h.tail_eq
  · intro j e hj
    rw [hdeq] at hj
    rw [hshift]
    exact h.slots (j + 1) e (by rw [hitems]; exact hj)
  · intro j _ hjlt
    rw [hdeq] at hjlt
    rw [hunread, hshift]
    refine h.unread (j + 1) ?_ (by omega)
    rw [hpc]
    exact Nat.le_add_left 1 j
  · refine h.producer.mono rfl rfl ?_ fun _ hfresh => (hunread _).trans hfresh
    rw [hdeq]
    omega
  · rw [queueOps_of_log rfl]
    exact h.history.snoc (BoundedQueue.Step.dequeue q event hhead)

/-- **A step of the consumer** leaves the queue alone or is one operation of it. -/
lemma Refines.stepConsumer (h : Refines s q) (call : ConsumerCall) :
    ∃ q', Refines (s.stepConsumer call) q' := by
  have hknows := h.consumer
  cases hpc : s.consumer with
  | idle =>
    have htaken : s.consumer.taken ≤ 0 := by rw [hpc]; exact Nat.le_refl 0
    cases call with
    | pop =>
      simp only [State.stepConsumer, hpc]
      exact ⟨q, h.setConsumer htaken rfl⟩
    | len =>
      simp only [State.stepConsumer, hpc]
      exact ⟨q, h.setConsumer htaken trivial⟩
  | loadedHead head =>
    have htaken : s.consumer.taken = 0 := by rw [hpc]; rfl
    rw [hpc] at hknows
    obtain rfl : head = s.buffer.head := hknows
    simp only [State.stepConsumer, hpc]
    split
    · next hempty =>
      exact ⟨q, h.returnConsumer htaken (fun _ _ => rfl)
        (h.history.snoc (BoundedQueue.Step.empty q (h.empty_iff.mp hempty)))⟩
    · next hempty =>
      exact ⟨q, h.setConsumer (Nat.le_of_eq htaken)
        ⟨rfl, fun hnil => hempty (h.empty_iff.mpr hnil)⟩⟩
  | checked head =>
    rw [hpc] at hknows
    obtain ⟨rfl, hne⟩ := hknows
    obtain ⟨event, rest, hcons⟩ := List.exists_cons_of_ne_nil hne
    have hhead : q.items.head? = some event := by
      rw [hcons]
      rfl
    simp only [State.stepConsumer, hpc, h.slot_head hhead]
    exact ⟨q, h.readSlot hhead⟩
  | read head event =>
    have hstore := h.storeHead hpc
    simp only [State.stepConsumer, hpc]
    exact hstore
  | undefined =>
    rw [hpc] at hknows
    exact absurd hknows id
  | lenLoadedHead head =>
    have htaken : s.consumer.taken = 0 := by rw [hpc]; rfl
    simp only [State.stepConsumer, hpc]
    exact ⟨q, h.returnConsumer htaken (fun _ _ => rfl)
      (by simpa [Entry.toQueue] using h.history)⟩

/-- Every reachable state holds a queue. -/
lemma exists_refines (acts : List Action) :
    ∃ q, Refines (Run.after State.step State.init acts) q := by
  refine Run.invariant (P := fun s => ∃ q, Refines s q) ?_ ⟨_, refines_init⟩ acts
  rintro s (call | call) ⟨q, h⟩
  · exact h.stepProducer call
  · exact h.stepConsumer call

/-! ## What the calls return -/

/-- The values returned are a history of the queue. -/
lemma Refines.pushed_eq (h : Refines s q) : s.pushed = s.popped ++ q.items := by
  have hfifo := h.history.fifo
  have hpush : (fun x : Entry => x.toQueue.bind BoundedQueue.Op.enqueued) = Entry.pushed := by
    funext x
    rcases x with _ | _ | ⟨event, _ | _⟩ | ⟨_ | event⟩ | _ <;> rfl
  have hpop : (fun x : Entry => x.toQueue.bind BoundedQueue.Op.dequeued) = Entry.popped := by
    funext x
    rcases x with _ | _ | ⟨event, _ | _⟩ | ⟨_ | event⟩ | _ <;> rfl
  rw [State.queueOps, List.filterMap_filterMap, List.filterMap_filterMap, hpush, hpop] at hfifo
  exact hfifo

/-- A push returns false at its load of `head`. -/
lemma stepProducer_false {call : ProducerCall} {event : SyscallTraceEvent}
    (h : (s.stepProducer call).log = s.log ++ [.push event false]) :
    ∃ tail, s.producer = .loadedTail event tail ∧
      (tail + 1) % ringBufferSize = s.buffer.head ∧ (s.stepProducer call).buffer = s.buffer := by
  cases hpc : s.producer with
  | idle => cases call <;> simp [State.stepProducer, hpc] at h
  | loadedTail e tail =>
    by_cases hfull : (tail + 1) % ringBufferSize = s.buffer.head
    · simp only [State.stepProducer, hpc, hfull, if_true, List.append_cancel_left_eq] at h
      obtain ⟨rfl, -⟩ : e = event ∧ false = false := by simpa using h
      exact ⟨tail, rfl, hfull, by simp [State.stepProducer, hpc, hfull]⟩
    · simp [State.stepProducer, hpc, hfull] at h
  | checked e tail nextTail => simp [State.stepProducer, hpc] at h
  | written e nextTail => simp [State.stepProducer, hpc] at h
  | lenLoadedHead head => simp [State.stepProducer, hpc] at h

/-- A pop returns nothing at its load of `tail`. -/
lemma stepConsumer_none {call : ConsumerCall}
    (h : (s.stepConsumer call).log = s.log ++ [.pop none]) :
    ∃ head, s.consumer = .loadedHead head ∧ head = s.buffer.tail ∧
      (s.stepConsumer call).buffer = s.buffer := by
  cases hpc : s.consumer with
  | idle => cases call <;> simp [State.stepConsumer, hpc] at h
  | loadedHead head =>
    by_cases hempty : head = s.buffer.tail
    · exact ⟨head, rfl, hempty, by simp [State.stepConsumer, hpc, hempty]⟩
    · simp [State.stepConsumer, hpc, hempty] at h
  | checked head => cases hl : s.buffer.slots head <;> simp [State.stepConsumer, hpc, hl] at h
  | read head e => simp [State.stepConsumer, hpc] at h
  | undefined => simp [State.stepConsumer, hpc] at h
  | lenLoadedHead head => simp [State.stepConsumer, hpc] at h

lemma Refines.pushed_length (h : Refines s q) :
    s.pushed.length = s.popped.length + q.items.length := by
  rw [h.pushed_eq, List.length_append]

/-- The slot that the consumer is about to read holds the first item, which is unread. -/
lemma Refines.unread_head (h : Refines s q) {head : ℕ} (hpc : s.consumer = .checked head) :
    head = s.buffer.head ∧ q.items ≠ [] ∧ s.unread head = true := by
  have hknows := h.consumer
  rw [hpc] at hknows
  obtain ⟨rfl, hne⟩ := hknows
  have htaken : s.consumer.taken ≤ 0 := by rw [hpc]; exact Nat.le_refl 0
  have hunread := h.unread 0 htaken (List.length_pos_iff.mpr hne)
  rw [Nat.add_zero, Nat.mod_eq_of_lt h.head_lt] at hunread
  exact ⟨rfl, hne, hunread⟩

/-- The two threads are never about to access the same slot. -/
lemma Refines.access_ne (h : Refines s q) {event : SyscallTraceEvent} {tail nextTail head : ℕ}
    (hprod : s.producer = .checked event tail nextTail) (hcons : s.consumer = .checked head) :
    tail ≠ head := by
  rintro rfl
  obtain ⟨hhead, hne, -⟩ := h.unread_head hcons
  have hknows := h.producer
  rw [hprod] at hknows
  obtain ⟨htail, -, hroom⟩ := hknows
  have hslot := h.slot_ne_tail hroom (List.length_pos_iff.mpr hne)
  rw [Nat.add_zero, Nat.mod_eq_of_lt h.head_lt] at hslot
  exact hslot (hhead.symm.trans htail)

/-- A push that returns false finds the queue full and changes nothing. -/
lemma Refines.push_false (h : Refines s q) {call : ProducerCall} {event : SyscallTraceEvent}
    (hlog : (s.stepProducer call).log = s.log ++ [.push event false]) :
    q.items.length = 1023 ∧ (s.stepProducer call).buffer = s.buffer := by
  obtain ⟨tail, hprod, hfull, hbuffer⟩ := stepProducer_false hlog
  have hknows := h.producer
  rw [hprod] at hknows
  obtain rfl : tail = s.buffer.tail := hknows
  exact ⟨h.full_iff.mp hfull, hbuffer⟩

/-- A pop that returns nothing finds the queue empty and changes nothing. -/
lemma Refines.pop_none (h : Refines s q) {call : ConsumerCall}
    (hlog : (s.stepConsumer call).log = s.log ++ [.pop none]) :
    q.items = [] ∧ (s.stepConsumer call).buffer = s.buffer := by
  obtain ⟨head, hcons, hempty, hbuffer⟩ := stepConsumer_none hlog
  have hknows := h.consumer
  rw [hcons] at hknows
  obtain rfl : head = s.buffer.head := hknows
  exact ⟨h.empty_iff.mp hempty, hbuffer⟩

/-- **The ring buffer is a bounded first-in first-out queue under every interleaving.**  After
any sequence of steps of the two threads

* the values returned are a history of a queue, whose items are the events that were pushed
  and not yet popped, and which the slots from `head` on hold;
* the events popped are the first ones of those pushed, and at most 1023 are outstanding;
* both indices are below 1024;
* the slot that the consumer is about to read was written since it was last read, and the
  producer is not about to write it;
* a push that returns false finds 1023 events outstanding, a pop that returns nothing finds
  none, and both leave the buffer unchanged, as does the first step of every call. -/
theorem ringBuffer_refines_queue (acts : List Action) :
    let s := Run.after State.step State.init acts
    (∃ q : EventQueue, BoundedQueue.History s.queueOps q ∧ s.pushed = s.popped ++ q.items ∧
      ∀ j event, q.items[j]? = some event →
        s.buffer.slots ((s.buffer.head + j) % 1024) = some event) ∧
    s.popped <+: s.pushed ∧
    s.pushed.length ≤ s.popped.length + 1023 ∧
    s.buffer.head < 1024 ∧ s.buffer.tail < 1024 ∧
    (∀ head, s.consumer = .checked head → s.unread head = true) ∧
    s.consumer ≠ .undefined ∧
    (∀ event tail nextTail head, s.producer = .checked event tail nextTail →
      s.consumer = .checked head → tail ≠ head) ∧
    (∀ call event, (s.stepProducer call).log = s.log ++ [.push event false] →
      s.pushed.length = s.popped.length + 1023 ∧ (s.stepProducer call).buffer = s.buffer) ∧
    (∀ call, (s.stepConsumer call).log = s.log ++ [.pop none] →
      s.pushed.length = s.popped.length ∧ (s.stepConsumer call).buffer = s.buffer) ∧
    (∀ call, s.producer = .idle → (s.stepProducer call).buffer = s.buffer) ∧
    (∀ call, s.consumer = .idle → (s.stepConsumer call).buffer = s.buffer) := by
  intro s
  obtain ⟨q, h⟩ : ∃ q, Refines s q := exists_refines acts
  have hlength := h.pushed_length
  have hcap := q.length_le
  refine ⟨⟨q, h.history, h.pushed_eq, h.slots⟩, ⟨q.items, h.pushed_eq.symm⟩, by omega,
    h.head_lt, ?_, fun head hpc => (h.unread_head hpc).2.2, ?_,
    fun event tail nextTail head hprod hcons => h.access_ne hprod hcons, ?_, ?_, ?_, ?_⟩
  · rw [h.tail_eq]
    exact Nat.mod_lt _ (by decide)
  · intro hpc
    have hknows := h.consumer
    rw [hpc] at hknows
    exact hknows
  · intro call event hlog
    obtain ⟨hfull, hbuffer⟩ := h.push_false hlog
    exact ⟨by omega, hbuffer⟩
  · intro call hlog
    obtain ⟨hempty, hbuffer⟩ := h.pop_none hlog
    have hzero := List.length_eq_zero_iff.mpr hempty
    exact ⟨by omega, hbuffer⟩
  · intro call hpc
    cases call <;> simp [State.stepProducer, hpc]
  · intro call hpc
    cases call <;> simp [State.stepConsumer, hpc]

end RingBuffer

end SyscallMind
