/-
# What `len` promises to the two threads

`len` loads `head` and then `tail`, and the other thread may do anything in between.  The
thread that calls it however owns one of the two indices, which stands still.  So the value is
the number of outstanding events at the moment of the load of the other index, and from then on
the other thread can only move in the caller's favour: for the producer the consumer makes room,
for the consumer the producer adds events.

A push fails only when 1023 events are outstanding and a pop only when none is.  With `n` of
them outstanding, the first `1023 - n` pushes and the first `n` pops therefore succeed
(`promised`).
-/
import SyscallMind.Pipeline.RingBufferRefinement

namespace SyscallMind

namespace RingBuffer

open Lib

/-! ## Pushes and pops since a state -/

/-- Whether a push was successful. -/
def Entry.pushOk : Entry → Option Bool
  | .push _ ok => some ok
  | _ => none

/-- Whether a pop returned an event. -/
def Entry.popOk : Entry → Option Bool
  | .pop result => some result.isSome
  | _ => none

/-- What was logged between two states of a run. -/
def State.logSince (s t : State) : List Entry := t.log.drop s.log.length

/-- How the pushes between two states of a run ended. -/
def State.pushesSince (s t : State) : List Bool := (s.logSince t).filterMap Entry.pushOk

/-- How the pops between two states of a run ended. -/
def State.popsSince (s t : State) : List Bool := (s.logSince t).filterMap Entry.popOk

/-! ## One step of each thread -/

section Step

variable (s : State)

/-- A step of the producer moves neither `head` nor the consumer, and logs no pop. -/
lemma stepProducer_frame (call : ProducerCall) :
    (s.stepProducer call).buffer.head = s.buffer.head ∧
      (s.stepProducer call).consumer = s.consumer ∧
      ((s.stepProducer call).log = s.log ∨
        ∃ x, (s.stepProducer call).log = s.log ++ [x] ∧ x.popOk = none) := by
  cases hpc : s.producer with
  | idle => cases call <;> simp [State.stepProducer, hpc]
  | loadedTail event tail =>
    by_cases hfull : (tail + 1) % ringBufferSize = s.buffer.head
    · simp [State.stepProducer, hpc, hfull, Entry.popOk]
    · simp [State.stepProducer, hpc, hfull]
  | checked event tail nextTail => simp [State.stepProducer, hpc, Entry.popOk, write]
  | written event nextTail => simp [State.stepProducer, hpc, Entry.popOk]
  | lenLoadedHead head => simp [State.stepProducer, hpc, Entry.popOk]

/-- A step of the consumer moves neither `tail` nor the producer, and logs no push. -/
lemma stepConsumer_frame (call : ConsumerCall) :
    (s.stepConsumer call).buffer.tail = s.buffer.tail ∧
      (s.stepConsumer call).producer = s.producer ∧
      ((s.stepConsumer call).log = s.log ∨
        ∃ x, (s.stepConsumer call).log = s.log ++ [x] ∧ x.pushOk = none) := by
  cases hpc : s.consumer with
  | idle => cases call <;> simp [State.stepConsumer, hpc]
  | loadedHead head =>
    by_cases hempty : head = s.buffer.tail
    · simp [State.stepConsumer, hpc, hempty, Entry.pushOk]
    · simp [State.stepConsumer, hpc, hempty]
  | checked head =>
    cases hslot : s.buffer.slots head <;> simp [State.stepConsumer, hpc, hslot, Entry.pushOk]
  | read head event => simp [State.stepConsumer, hpc, Entry.pushOk]
  | undefined => simp [State.stepConsumer, hpc]
  | lenLoadedHead head => simp [State.stepConsumer, hpc, Entry.pushOk]

lemma step_log (a : Action) : (s.step a).log = s.log ∨ ∃ x, (s.step a).log = s.log ++ [x] := by
  cases a with
  | producer call =>
    exact (stepProducer_frame s call).2.2.imp_right fun ⟨x, hx, _⟩ => ⟨x, hx⟩
  | consumer call =>
    exact (stepConsumer_frame s call).2.2.imp_right fun ⟨x, hx, _⟩ => ⟨x, hx⟩

end Step

/-! ## Counting -/

lemma length_filterMap_pushed (log : List Entry) :
    (log.filterMap Entry.pushed).length = (log.filterMap Entry.pushOk).count true := by
  induction log with
  | nil => rfl
  | cons x log ih =>
    rcases x with _ | _ | ⟨event, _ | _⟩ | ⟨_ | event⟩ | _ <;>
      simp [List.filterMap_cons, Entry.pushed, Entry.pushOk, ih]

lemma length_filterMap_popped (log : List Entry) :
    (log.filterMap Entry.popped).length = (log.filterMap Entry.popOk).count true := by
  induction log with
  | nil => rfl
  | cons x log ih =>
    rcases x with _ | _ | ⟨event, _ | _⟩ | ⟨_ | event⟩ | _ <;>
      simp [List.filterMap_cons, Entry.popped, Entry.popOk, ih]

/-- The log of a run grows at its end. -/
lemma log_after (s : State) (acts : List Action) :
    (Run.after State.step s acts).log = s.log ++ s.logSince (Run.after State.step s acts) := by
  have hprefix : s.log <+: (Run.after State.step s acts).log := by
    induction acts using List.reverseRecOn with
    | nil => exact List.prefix_refl _
    | append_singleton acts a ih =>
      rw [Run.after_append]
      rcases step_log (Run.after State.step s acts) a with hlog | ⟨x, hlog⟩
      · exact hlog ▸ ih
      · exact ih.trans (hlog ▸ List.prefix_append _ _)
  obtain ⟨rest, hrest⟩ := hprefix
  rw [State.logSince, ← hrest, List.drop_left]

lemma pushed_after (s : State) (acts : List Action) :
    (Run.after State.step s acts).pushed.length =
      s.pushed.length + (s.pushesSince (Run.after State.step s acts)).count true := by
  rw [State.pushed, log_after, List.filterMap_append, List.length_append,
    length_filterMap_pushed (s.logSince _)]
  rfl

lemma popped_after (s : State) (acts : List Action) :
    (Run.after State.step s acts).popped.length =
      s.popped.length + (s.popsSince (Run.after State.step s acts)).count true := by
  rw [State.popped, log_after, List.filterMap_append, List.length_append,
    length_filterMap_popped (s.logSince _)]
  rfl

/-! ## The promise -/

/-- If an attempt fails only after `m` successes, then the first `m` attempts succeed. -/
lemma promised {attempt : Entry → Option Bool} {m : ℕ} {s : State}
    (hfail : ∀ acts a x, (State.step (Run.after State.step s acts) a).log =
        (Run.after State.step s acts).log ++ [x] → attempt x = some false →
      m ≤ ((s.logSince (Run.after State.step s acts)).filterMap attempt).count true)
    (acts : List Action) :
    ∀ ok ∈ ((s.logSince (Run.after State.step s acts)).filterMap attempt).take m, ok = true := by
  induction acts using List.reverseRecOn with
  | nil => simp [State.logSince]
  | append_singleton acts a ih =>
    rw [Run.after_append]
    have hbefore := log_after s acts
    have hfail := hfail acts a
    generalize Run.after State.step s acts = t at ih hbefore hfail
    rw [Run.after_cons, Run.after_nil]
    rcases step_log t a with hlog | ⟨x, hlog⟩
    · rw [State.logSince, hlog]
      exact ih
    · have hmore : s.logSince (t.step a) = s.logSince t ++ [x] := by
        rw [State.logSince, hlog, hbefore, List.append_assoc, List.drop_left]
      rw [hmore, List.filterMap_append]
      intro ok hok
      rw [List.take_append] at hok
      rcases List.mem_append.mp hok with hok | hok
      · exact ih ok hok
      · -- a new attempt among the first `m` is not a failure
        cases ok with
        | true => rfl
        | false =>
          have hx : attempt x = some false := by
            have hmem := List.mem_of_mem_take hok
            simpa using hmem
          have hmany := hfail x hlog hx
          have hcount := List.count_le_length (a := true) (l := (s.logSince t).filterMap attempt)
          rw [Nat.sub_eq_zero_of_le (Nat.le_trans hmany hcount), List.take_zero] at hok
          exact absurd hok (by simp)

/-! ## While one thread waits -/

/-- Steps of the consumer only. -/
def State.consumerRun (s : State) (calls : List ConsumerCall) : State :=
  Run.after State.step s (calls.map Action.consumer)

/-- Steps of the producer only. -/
def State.producerRun (s : State) (calls : List ProducerCall) : State :=
  Run.after State.step s (calls.map Action.producer)

lemma consumerRun_frame (s : State) (calls : List ConsumerCall) :
    (s.consumerRun calls).buffer.tail = s.buffer.tail ∧
      (s.consumerRun calls).producer = s.producer ∧
      (s.consumerRun calls).log.filterMap Entry.pushOk = s.log.filterMap Entry.pushOk := by
  induction calls generalizing s with
  | nil => exact ⟨rfl, rfl, rfl⟩
  | cons call calls ih =>
    obtain ⟨htail, hproducer, hlog⟩ := stepConsumer_frame s call
    obtain ⟨htail', hproducer', hpushes⟩ := ih (s.stepConsumer call)
    refine ⟨htail'.trans htail, hproducer'.trans hproducer, hpushes.trans ?_⟩
    rcases hlog with hlog | ⟨x, hlog, hx⟩
    · rw [hlog]
    · simp [hlog, hx]

lemma producerRun_frame (s : State) (calls : List ProducerCall) :
    (s.producerRun calls).buffer.head = s.buffer.head ∧
      (s.producerRun calls).consumer = s.consumer ∧
      (s.producerRun calls).log.filterMap Entry.popOk = s.log.filterMap Entry.popOk := by
  induction calls generalizing s with
  | nil => exact ⟨rfl, rfl, rfl⟩
  | cons call calls ih =>
    obtain ⟨hhead, hconsumer, hlog⟩ := stepProducer_frame s call
    obtain ⟨hhead', hconsumer', hpops⟩ := ih (s.stepProducer call)
    refine ⟨hhead'.trans hhead, hconsumer'.trans hconsumer, hpops.trans ?_⟩
    rcases hlog with hlog | ⟨x, hlog, hx⟩
    · rw [hlog]
    · simp [hlog, hx]

/-! ## The value of `len` -/

variable {s : State} {q : EventQueue}

/-- The two indices of one moment give the number of items. -/
lemma Refines.len_eq (h : Refines s q) :
    (s.buffer.tail + ringBufferSize - s.buffer.head) % ringBufferSize = q.items.length := by
  have hlt := h.head_lt
  have hlen := q.length_le
  rw [h.tail_eq]
  simp only [ringBufferSize] at hlt ⊢
  omega

/-! ## The two callers -/

/-- The events pushed and not yet popped. -/
def State.outstanding (s : State) : ℕ := s.pushed.length - s.popped.length

lemma Refines.outstanding_eq (h : Refines s q) : s.outstanding = q.items.length := by
  rw [State.outstanding, h.pushed_length]
  omega

/-- The run of the system that leads through a state. -/
def Reachable (s : State) : Prop := ∃ acts, s = Run.after State.step State.init acts

lemma Reachable.exists_refines (h : Reachable s) : ∃ q, Refines s q := by
  obtain ⟨acts, rfl⟩ := h
  exact RingBuffer.exists_refines acts

lemma Reachable.after (h : Reachable s) (acts : List Action) :
    Reachable (Run.after State.step s acts) := by
  obtain ⟨acts₀, rfl⟩ := h
  exact ⟨acts₀ ++ acts, (Run.after_append _ _ _ _).symm⟩

lemma Reachable.step (h : Reachable s) (a : Action) : Reachable (s.step a) := h.after [a]

lemma lenLoadedHead_of_stepProducer {call : ProducerCall} {head : ℕ}
    (h : (s.stepProducer call).producer = .lenLoadedHead head) : head = s.buffer.head := by
  cases hpc : s.producer with
  | idle =>
    cases call with
    | push event => simp [State.stepProducer, hpc] at h
    | len =>
      simp only [State.stepProducer, hpc, ProducerPc.lenLoadedHead.injEq] at h
      exact h.symm
  | loadedTail event tail =>
    by_cases hfull : (tail + 1) % ringBufferSize = s.buffer.head <;>
      simp [State.stepProducer, hpc, hfull] at h
  | checked event tail nextTail => simp [State.stepProducer, hpc] at h
  | written event nextTail => simp [State.stepProducer, hpc] at h
  | lenLoadedHead head' => simp [State.stepProducer, hpc] at h

lemma lenLoadedHead_of_stepConsumer {call : ConsumerCall} {head : ℕ}
    (h : (s.stepConsumer call).consumer = .lenLoadedHead head) : head = s.buffer.head := by
  cases hpc : s.consumer with
  | idle =>
    cases call with
    | pop => simp [State.stepConsumer, hpc] at h
    | len =>
      simp only [State.stepConsumer, hpc, ConsumerPc.lenLoadedHead.injEq] at h
      exact h.symm
  | loadedHead head' =>
    by_cases hempty : head' = s.buffer.tail <;> simp [State.stepConsumer, hpc, hempty] at h
  | checked head' =>
    cases hslot : s.buffer.slots head' <;> simp [State.stepConsumer, hpc, hslot] at h
  | read head' event => simp [State.stepConsumer, hpc] at h
  | undefined => simp [State.stepConsumer, hpc] at h
  | lenLoadedHead head' => simp [State.stepConsumer, hpc] at h

/-- The head that a call of `len` has loaded is an index, whatever has happened since. -/
lemma Reachable.loadedHead_lt (h : Reachable s) :
    (∀ head, s.producer = .lenLoadedHead head → head < ringBufferSize) ∧
      ∀ head, s.consumer = .lenLoadedHead head → head < ringBufferSize := by
  obtain ⟨acts, rfl⟩ := h
  induction acts using List.reverseRecOn with
  | nil => exact ⟨fun _ h => absurd h (by simp [State.init]),
      fun _ h => absurd h (by simp [State.init])⟩
  | append_singleton acts a ih =>
    obtain ⟨q, hq⟩ := RingBuffer.exists_refines acts
    rw [Run.after_append]
    generalize Run.after State.step State.init acts = t at ih hq
    cases a with
    | producer call =>
      refine ⟨fun head hpc => ?_, fun head hpc => ?_⟩
      · rw [lenLoadedHead_of_stepProducer hpc]
        exact hq.head_lt
      · exact ih.2 head ((stepProducer_frame t call).2.1.symm.trans hpc)
    | consumer call =>
      refine ⟨fun head hpc => ?_, fun head hpc => ?_⟩
      · exact ih.1 head ((stepConsumer_frame t call).2.1.symm.trans hpc)
      · rw [lenLoadedHead_of_stepConsumer hpc]
        exact hq.head_lt

/-- A step that logs a failed push is one of the producer, and finds the buffer full. -/
lemma Reachable.full_of_pushOk (h : Reachable s) {a : Action} {x : Entry}
    (hlog : (s.step a).log = s.log ++ [x]) (hx : x.pushOk = some false) :
    s.pushed.length = s.popped.length + 1023 := by
  obtain ⟨q, hq⟩ := h.exists_refines
  have hlen := hq.pushed_length
  obtain ⟨event, rfl⟩ : ∃ event, x = .push event false := by
    rcases x with _ | _ | ⟨event, _ | _⟩ | _ | _ <;> simp_all [Entry.pushOk]
  cases a with
  | producer call =>
    rw [hlen, (hq.push_false hlog).1]
  | consumer call =>
    rcases (stepConsumer_frame s call).2.2 with hsame | ⟨y, hy, hnone⟩
    · exact absurd (hsame.symm.trans hlog) (by simp)
    · obtain rfl : y = .push event false := by
        have heq := hy.symm.trans hlog
        simpa using heq
      exact absurd hnone (by simp [Entry.pushOk])

/-- A step that logs a pop without an event is one of the consumer, and finds the buffer
empty. -/
lemma Reachable.empty_of_popOk (h : Reachable s) {a : Action} {x : Entry}
    (hlog : (s.step a).log = s.log ++ [x]) (hx : x.popOk = some false) :
    s.pushed.length = s.popped.length := by
  obtain ⟨q, hq⟩ := h.exists_refines
  have hlen := hq.pushed_length
  obtain rfl : x = .pop none := by
    rcases x with _ | _ | _ | ⟨_ | event⟩ | _ <;> simp_all [Entry.popOk]
  cases a with
  | producer call =>
    rcases (stepProducer_frame s call).2.2 with hsame | ⟨y, hy, hnone⟩
    · exact absurd (hsame.symm.trans hlog) (by simp)
    · obtain rfl : y = .pop none := by
        have heq := hy.symm.trans hlog
        simpa using heq
      exact absurd hnone (by simp [Entry.popOk])
  | consumer call =>
    rw [hlen, (hq.pop_none hlog).1, List.length_nil, Nat.add_zero]

/-- What `len` gives the producer: `s` is the state in which it loads `head`, and it loads `tail`
after the consumer has made the given calls. -/
lemma Reachable.producer_len (h : Reachable s) (hidle : s.producer = .idle)
    (calls : List ConsumerCall) (call : ProducerCall) :
    let waiting := (s.stepProducer .len).consumerRun calls
    let returned := waiting.stepProducer call
    s.outstanding ≤ 1023 ∧ returned.log = waiting.log ++ [.len s.outstanding] ∧
      ∀ acts, ∀ ok ∈ (returned.pushesSince (Run.after State.step returned acts)).take
        (1023 - s.outstanding), ok = true := by
  intro waiting returned
  obtain ⟨q, hq⟩ := h.exists_refines
  have hpushed := hq.pushed_length
  have hbegin : s.stepProducer .len = { s with producer := .lenLoadedHead s.buffer.head } := by
    simp only [State.stepProducer, hidle]
  obtain ⟨htail, hproducer, hpushes⟩ := consumerRun_frame (s.stepProducer .len) calls
  have hwaiting : waiting.producer = .lenLoadedHead s.buffer.head := by
    rw [hproducer, hbegin]
  have hwtail : waiting.buffer.tail = s.buffer.tail := by rw [htail, hbegin]
  have hreturned : returned = { waiting with
      producer := .idle, log := waiting.log ++ [.len s.outstanding] } := by
    rw [hq.outstanding_eq, ← hq.len_eq, ← hwtail]
    simp only [returned, State.stepProducer, hwaiting]
  refine ⟨?_, by rw [hreturned], promised fun acts a x hlog hx => ?_⟩
  · rw [hq.outstanding_eq]
    exact q.length_le
  · have hreach : Reachable returned := ((h.step (.producer .len)).after _).step (.producer call)
    have hfull := (hreach.after acts).full_of_pushOk hlog hx
    have hafter := pushed_after returned acts
    have hpopped := popped_after returned acts
    -- the consumer may have popped while the producer waited, but nobody has pushed
    have hsame : returned.pushed.length = s.pushed.length := by
      have hnone : [Entry.len s.outstanding].filterMap Entry.pushOk = [] := rfl
      rw [hreturned, State.pushed, length_filterMap_pushed, State.pushed, length_filterMap_pushed,
        List.filterMap_append, hpushes, hbegin, hnone, List.append_nil]
    have hmore : s.popped.length ≤ returned.popped.length := by
      have hrun : returned = Run.after State.step s
          (.producer .len :: (calls.map Action.consumer ++ [.producer call])) := by
        rw [Run.after_cons, Run.after_append]
        rfl
      rw [hrun, popped_after]
      omega
    rw [State.pushesSince] at hafter
    rw [hq.outstanding_eq]
    omega

/-- What `len` gives the consumer, which loads `tail` in the state `waiting`. -/
lemma Reachable.consumer_len (h : Reachable s) (hidle : s.consumer = .idle)
    (calls : List ProducerCall) (call : ConsumerCall) :
    let waiting := (s.stepConsumer .len).producerRun calls
    let returned := waiting.stepConsumer call
    returned.log = waiting.log ++ [.len waiting.outstanding] ∧
      ∀ acts, ∀ ok ∈ (returned.popsSince (Run.after State.step returned acts)).take
        waiting.outstanding, ok = true := by
  intro waiting returned
  have hbegin : s.stepConsumer .len = { s with consumer := .lenLoadedHead s.buffer.head } := by
    simp only [State.stepConsumer, hidle]
  have hreachw : Reachable waiting := (h.step (.consumer .len)).after _
  obtain ⟨q, hq⟩ := hreachw.exists_refines
  have hlength := hq.pushed_length
  obtain ⟨hhead, hconsumer, -⟩ := producerRun_frame (s.stepConsumer .len) calls
  have hwaiting : waiting.consumer = .lenLoadedHead waiting.buffer.head := by
    rw [hconsumer, hhead, hbegin]
  have hreturned : returned = { waiting with
      consumer := .idle, log := waiting.log ++ [.len waiting.outstanding] } := by
    rw [hq.outstanding_eq, ← hq.len_eq]
    simp only [returned, State.stepConsumer, hwaiting]
  refine ⟨by rw [hreturned], promised fun acts a x hlog hx => ?_⟩
  have hempty := ((hreachw.step (.consumer call)).after acts).empty_of_popOk hlog hx
  have hafter := pushed_after returned acts
  have hpopped := popped_after returned acts
  -- the return of `len` is neither a push nor a pop
  have hpushed : returned.pushed = waiting.pushed := by
    rw [hreturned, State.pushed, List.filterMap_append]
    exact List.append_nil _
  have hsame : returned.popped = waiting.popped := by
    rw [hreturned, State.popped, List.filterMap_append]
    exact List.append_nil _
  change (Run.after State.step returned acts).pushed.length =
    (Run.after State.step returned acts).popped.length at hempty
  rw [State.popsSince] at hpopped
  rw [hpushed] at hafter
  rw [hsame] at hpopped
  rw [hq.outstanding_eq]
  omega

/-- **`len` is a safe guide for both threads.**  In every state of every run

* to the producer `len` returns the number of outstanding events at the moment of its load of
  `head`, at most 1023, and the next `1023 - len` pushes succeed;
* to the consumer it returns their number at the moment of its load of `tail`, and the next
  `len` pops return an event;
* the difference of the indices that it computes does not underflow. -/
theorem len_is_safe_guide (acts : List Action) :
    let s := Run.after State.step State.init acts
    (s.producer = .idle → ∀ calls call,
      let waiting := (s.stepProducer .len).consumerRun calls
      let returned := waiting.stepProducer call
      s.outstanding ≤ 1023 ∧ returned.log = waiting.log ++ [.len s.outstanding] ∧
        ∀ later, ∀ ok ∈ (returned.pushesSince (Run.after State.step returned later)).take
          (1023 - s.outstanding), ok = true) ∧
    (s.consumer = .idle → ∀ calls call,
      let waiting := (s.stepConsumer .len).producerRun calls
      let returned := waiting.stepConsumer call
      returned.log = waiting.log ++ [.len waiting.outstanding] ∧
        ∀ later, ∀ ok ∈ (returned.popsSince (Run.after State.step returned later)).take
          waiting.outstanding, ok = true) ∧
    s.popped.length ≤ s.pushed.length ∧
    (∀ head, s.producer = .lenLoadedHead head → head ≤ s.buffer.tail + 1024) ∧
    (∀ head, s.consumer = .lenLoadedHead head → head ≤ s.buffer.tail + 1024) := by
  intro s
  have hreach : Reachable s := ⟨acts, rfl⟩
  obtain ⟨q, hq⟩ := hreach.exists_refines
  have hlength := hq.pushed_length
  obtain ⟨hproducer, hconsumer⟩ := hreach.loadedHead_lt
  simp only [ringBufferSize] at hproducer hconsumer
  refine ⟨fun hidle => hreach.producer_len hidle, fun hidle => hreach.consumer_len hidle,
    by omega, fun head hpc => ?_, fun head hpc => ?_⟩
  · have hlt := hproducer head hpc
    omega
  · have hlt := hconsumer head hpc
    omega

/-- The producer asks for the length of a buffer with one event, pops of which begin while it
waits; the consumer asks when the event has been pushed. -/
theorem len_is_safe_guide_one :
    let push := List.replicate 4 (Action.producer (.push ⟨zeroPubkey, 1, 0, 0, 0, zeroTxId, 0⟩))
    let s := Run.after State.step State.init push
    (s.outstanding ≤ 1023 ∧
      ((s.stepProducer .len).consumerRun [.pop, .pop, .pop, .pop]).log ++ [Entry.len 1] =
        (((s.stepProducer .len).consumerRun [.pop, .pop, .pop, .pop]).stepProducer .len).log) ∧
    ((s.stepConsumer .len).producerRun []).log ++ [Entry.len 1] =
      (((s.stepConsumer .len).producerRun []).stepConsumer .pop).log := by
  intro push s
  obtain ⟨hproducer, hconsumer, -⟩ := len_is_safe_guide push
  obtain ⟨hle, hlog, -⟩ := hproducer rfl [.pop, .pop, .pop, .pop] .len
  exact ⟨⟨hle, hlog.symm⟩, (hconsumer rfl [] .pop).1.symm⟩

end RingBuffer

end SyscallMind
