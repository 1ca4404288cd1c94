/-
# Many threads in one prefetcher

`trigger` and `consume` step by step.  For each prediction `trigger` asks under the read lock
whether the key is in the buffer, and inserts the entry under the write lock; between the two
steps other threads may insert or remove the same key.  `consume` removes the entry under the
write lock and then increments a counter.  Only the threads that are inside a call have an
entry in `threads`.

An insertion that comes too late overwrites an entry that is equal to it, and one that follows
a removal fills the place again, but each insertion belongs to a prediction of its own.  So no
prediction is delivered twice (`run_atMostOnce`).
-/
import SyscallMind.Optimizer.Prefetcher

namespace SyscallMind

open Lib

namespace SpeculativePrefetcher

abbrev Key := SyscallId × ArgsHash

def keyOf (p : Prediction) : Key := (p.1, p.2.1)

/-- The entry that `trigger` inserts under the key. -/
def fresh (k : Key) : PrefetchEntry := ⟨k.1, k.2, simulateFetch k.1, true⟩

/-- Where a thread is inside `trigger` or `consume`. -/
inductive Pc
  /-- At the head of the loop, with the predictions that are left. -/
  | triggering (rest : List Prediction)
  /-- `contains_key` has found no entry for the prediction. -/
  | inserting (p : Prediction) (rest : List Prediction)
  /-- Before the `remove`. -/
  | consuming (k : Key)
  /-- `remove` has returned the entry. -/
  | removed (k : Key) (entry : PrefetchEntry)
  /-- About to return. -/
  | returning (k : Key) (result : Option (List UInt8))
deriving DecidableEq, Repr

structure State (T : Type*) [DecidableEq T] where
  prefetcher : SpeculativePrefetcher
  /-- The threads that are inside a call. -/
  threads : HashMap T Pc
  /-- The predictions whose turn in the loop is over; no step looks at this list. -/
  handled : List Prediction
  /-- The keys whose entry was removed by a `consume`; no step looks at this list. -/
  removed : List Key
  /-- The results that were returned; no step looks at this list. -/
  results : List (Key × Option (List UInt8))

namespace State

variable {T : Type*} [DecidableEq T]

def init (threshold : F32) : State T := ⟨.new threshold, ∅, [], [], []⟩

variable (s : State T)

/-- The next step of a thread; outside a call it begins the given one. -/
def stepThread (t : T) (call : Op) : State T :=
  match s.threads.lookup t with
  | none =>
      match call with
      | .trigger predictions =>
          { s with threads := s.threads.insert t (.triggering predictions) }
      | .consume syscallId argsHash =>
          { s with threads := s.threads.insert t (.consuming (syscallId, argsHash)) }
  | some (.triggering []) => { s with threads := s.threads.erase t }
  | some (.triggering (p :: rest)) =>
      if p.2.2.lt s.prefetcher.confidenceThreshold then
        { s with
          threads := s.threads.insert t (.triggering rest)
          handled := s.handled ++ [p] }
      else if (s.prefetcher.buffer.lookup (keyOf p)).isSome then
        { s with
          threads := s.threads.insert t (.triggering rest)
          handled := s.handled ++ [p] }
      else { s with threads := s.threads.insert t (.inserting p rest) }
  | some (.inserting p rest) =>
      let buffer := s.prefetcher.buffer.insert (keyOf p) (fresh (keyOf p))
      { s with
        prefetcher := { s.prefetcher with buffer := buffer }
        threads := s.threads.insert t (.triggering rest)
        handled := s.handled ++ [p] }
  | some (.consuming k) =>
      match s.prefetcher.buffer.lookup k with
      | none => { s with threads := s.threads.insert t (.returning k none) }
      | some entry =>
          { s with
            prefetcher := { s.prefetcher with buffer := s.prefetcher.buffer.erase k }
            threads := s.threads.insert t (.removed k entry)
            removed := s.removed ++ [k] }
  | some (.removed k entry) =>
      if entry.isReady then
        { s with
          prefetcher := { s.prefetcher with hits := s.prefetcher.hits + 1 }
          threads := s.threads.insert t (.returning k (some entry.result)) }
      else
        { s with
          prefetcher := { s.prefetcher with misses := s.prefetcher.misses + 1 }
          threads := s.threads.insert t (.returning k none) }
  | some (.returning k result) =>
      { s with
        threads := s.threads.erase t
        results := s.results ++ [(k, result)] }

/-- The scheduler lets a thread take a step. -/
def step (action : T × Op) : State T := s.stepThread action.1 action.2

/-- A `consume` with no other steps in between: it begins, removes, and returns, with one more
step for the counter if there is an entry. -/
lemma stepThread_consume (t : T) (syscallId : SyscallId) (argsHash : ArgsHash)
    (ht : s.threads.lookup t = none) :
    let next := fun s : State T => s.stepThread t (.consume syscallId argsHash)
    let s' := if (s.prefetcher.buffer.lookup (syscallId, argsHash)).isSome then
        next (next (next (next s))) else next (next (next s))
    s'.prefetcher = (s.prefetcher.consume syscallId argsHash).2 ∧
      s'.results =
        s.results ++ [((syscallId, argsHash), (s.prefetcher.consume syscallId argsHash).1)] ∧
      s'.threads.lookup t = none := by
  cases hl : s.prefetcher.buffer.lookup (syscallId, argsHash) with
  | none => simp [stepThread, consume, ht, hl]
  | some entry => cases hr : entry.isReady <;> simp [stepThread, consume, ht, hl, hr]

/-- A `trigger` with no other steps in between: it begins, and then takes some number of
steps. -/
lemma stepThread_trigger (t : T) (call : Op) (predictions : List Prediction)
    (ht : s.threads.lookup t = some (.triggering predictions)) :
    ∃ n, ((fun s : State T => s.stepThread t call)^[n] s).prefetcher =
        s.prefetcher.trigger predictions ∧
      ((fun s : State T => s.stepThread t call)^[n] s).threads.lookup t = none := by
  induction predictions generalizing s with
  | nil => exact ⟨1, by simp [stepThread, ht, trigger], by simp [stepThread, ht]⟩
  | cons p ps ih =>
    -- one step if the prediction is dropped, two steps if its entry is inserted
    have hone : ∃ m, ((fun s : State T => s.stepThread t call)^[m] s).prefetcher =
          s.prefetcher.triggerOne p ∧
        ((fun s : State T => s.stepThread t call)^[m] s).threads.lookup t =
          some (.triggering ps) := by
      obtain ⟨id, h, c⟩ := p
      cases hc : c.lt s.prefetcher.confidenceThreshold with
      | true => exact ⟨1, by simp [stepThread, ht, hc, triggerOne]⟩
      | false =>
        cases hl : s.prefetcher.buffer.lookup (id, h) with
        | none => exact ⟨2, by simp [stepThread, ht, hc, hl, triggerOne, keyOf, fresh]⟩
        | some entry => exact ⟨1, by simp [stepThread, ht, hc, hl, triggerOne, keyOf]⟩
    obtain ⟨m, hm, htm⟩ := hone
    obtain ⟨n, hn, htn⟩ := ih _ htm
    refine ⟨n + m, ?_, ?_⟩
    · rw [Function.iterate_add_apply, hn, hm]
      rfl
    · rw [Function.iterate_add_apply, htn]

/-! ## What is observed -/

/-- How many entries the buffer has for the key. -/
def entriesFor (k : Key) : ℕ := s.prefetcher.buffer.keys.count k

/-- How many of the handled predictions are for the key and pass the threshold. -/
def passed (threshold : F32) (k : Key) : ℕ :=
  s.handled.countP fun p => decide (keyOf p = k ∧ p.2.2.lt threshold = false)

/-- How many results were returned for the key. -/
def delivered (k : Key) : ℕ := s.results.countP fun x => decide (x.1 = k ∧ x.2.isSome = true)

/-- The thread is inside `consume`. -/
def inConsume : Pc → Bool
  | .triggering _ | .inserting _ _ => false
  | .consuming _ | .removed _ _ | .returning _ _ => true

/-- Entries are delivered at most once. -/
structure AtMostOnce (threshold : F32) : Prop where
  single : ∀ k, s.entriesFor k ≤ 1
  ready : ∀ k entry, s.prefetcher.buffer.lookup k = some entry →
    entry.isReady = true ∧ entry.syscallId = k.1 ∧ entry.argsHash = k.2 ∧
      entry.result = simulateFetch entry.syscallId
  /-- What was removed and what is there does not exceed what was predicted. -/
  removed_le : ∀ k, s.removed.count k + s.entriesFor k ≤ s.passed threshold k
  result : ∀ k r, (k, some r) ∈ s.results → r = simulateFetch k.1
  /-- A key with no confident prediction is not delivered. -/
  below : ∀ k, (∀ p ∈ s.handled, keyOf p = k → p.2.2.lt threshold = true) →
    s.removed.count k = 0 ∧ s.delivered k = 0
  hits : (∀ t pc, s.threads.lookup t = some pc → inConsume pc = false) →
    s.prefetcher.hits = s.results.countP fun x => x.2.isSome

/-! ## The invariant -/

/-- The thread has removed the entry of the key and not returned it yet. -/
def holding (k : Key) : Pc → ℕ
  | .removed k' _ => if k' = k then 1 else 0
  | .returning k' (some _) => if k' = k then 1 else 0
  | .returning _ none | .triggering _ | .inserting _ _ | .consuming _ => 0

/-- The thread has counted a hit and not returned it yet. -/
def hitting : Pc → ℕ
  | .returning _ (some _) => 1
  | .returning _ none | .triggering _ | .inserting _ _ | .consuming _ | .removed _ _ => 0

/-- What a thread knows at its place. -/
def Knows (threshold : F32) : Pc → Prop
  | .inserting p _ => p.2.2.lt threshold = false
  | .removed k entry => entry = fresh k
  | .returning k (some r) => r = simulateFetch k.1
  | .returning _ none | .triggering _ | .consuming _ => True

structure Inv (threshold : F32) : Prop where
  threshold_eq : s.prefetcher.confidenceThreshold = threshold
  ready : ∀ k entry, s.prefetcher.buffer.lookup k = some entry → entry = fresh k
  knows : ∀ t pc, s.threads.lookup t = some pc → Knows threshold pc
  removed_le : ∀ k, s.removed.count k + s.entriesFor k ≤ s.passed threshold k
  removed_eq : ∀ k, s.removed.count k = s.delivered k + HashMap.weight s.threads (holding k)
  hits : s.prefetcher.hits =
    (s.results.countP fun x => x.2.isSome) + HashMap.weight s.threads hitting
  result : ∀ k r, (k, some r) ∈ s.results → r = simulateFetch k.1

lemma entriesFor_eq (k : Key) :
    s.entriesFor k = if (s.prefetcher.buffer.lookup k).isSome = true then 1 else 0 := by
  rw [entriesFor, List.Nodup.count (AList.keys_nodup _)]
  refine if_congr ?_ rfl rfl
  rw [HashMap.mem_keys_iff, Option.isSome_iff_exists]

lemma passed_concat (threshold : F32) (k : Key) (p : Prediction) :
    ({ s with handled := s.handled ++ [p] } : State T).passed threshold k =
      s.passed threshold k +
        if keyOf p = k ∧ p.2.2.lt threshold = false then 1 else 0 := by
  simp [passed, List.countP_append, List.countP_singleton]

lemma inv_init (threshold : F32) : Inv (init threshold : State T) threshold where
  threshold_eq := rfl
  ready k entry h := absurd (h.symm.trans (AList.lookup_empty k)) (by simp)
  knows t pc h := absurd (h.symm.trans (AList.lookup_empty t)) (by simp)
  removed_le _ := le_refl _
  removed_eq _ := rfl
  hits := rfl
  result _ _ h := absurd h (by simp [init])

variable {s} {threshold : F32}

namespace Inv

/-- A thread begins a call. -/
lemma begin (h : Inv s threshold) {t : T} (ht : s.threads.lookup t = none) {pc : Pc}
    (hknows : Knows threshold pc) (hholding : ∀ k, holding k pc = 0) (hhitting : hitting pc = 0) :
    Inv { s with threads := s.threads.insert t pc } threshold := by
  have hw := fun f => HashMap.weight_insert_of_none s.threads f ht pc
  refine ⟨h.threshold_eq, h.ready, HashMap.forall_lookup_insert _ h.knows hknows, h.removed_le,
    fun k => ?_, ?_, h.result⟩
  · have hremoved := h.removed_eq k
    have hk := hw (holding k)
    have hzero := hholding k
    show s.removed.count k = s.delivered k + HashMap.weight (s.threads.insert t pc) (holding k)
    omega
  · have hhits := h.hits
    have hk := hw hitting
    simp only
    omega

/-- A thread moves on inside its call.  It holds an entry from the removal to the return, and
its hit is counted in between. -/
lemma move (h : Inv s threshold) {s' : State T} {t : T} {pc pc' : Pc}
    (ht : s.threads.lookup t = some pc) (hthreads : s'.threads = s.threads.insert t pc')
    (hknows : Knows threshold pc')
    (hthreshold : s'.prefetcher.confidenceThreshold = s.prefetcher.confidenceThreshold)
    (hresults : s'.results = s.results)
    (hready : ∀ k entry, s'.prefetcher.buffer.lookup k = some entry → entry = fresh k)
    (hle : ∀ k, s'.removed.count k + s'.entriesFor k ≤ s'.passed threshold k)
    (hholding : ∀ k, s'.removed.count k + holding k pc = s.removed.count k + holding k pc')
    (hhitting : s'.prefetcher.hits + hitting pc = s.prefetcher.hits + hitting pc') :
    Inv s' threshold := by
  have hw := fun f => HashMap.weight_insert_of_lookup s.threads f ht pc'
  refine ⟨hthreshold.trans h.threshold_eq, hready, ?_, hle, fun k => ?_, ?_, ?_⟩
  · rw [hthreads]
    exact HashMap.forall_lookup_insert _ h.knows hknows
  · have hremoved := h.removed_eq k
    have hk := hw (holding k)
    have hmoved := hholding k
    have hdelivered : s'.delivered k = s.delivered k := by rw [delivered, delivered, hresults]
    rw [hthreads, hdelivered]
    omega
  · have hhits := h.hits
    have hk := hw hitting
    rw [hthreads, hresults]
    omega
  · rw [hresults]
    exact h.result

/-- The turn of a prediction ends without an insertion. -/
lemma skip (h : Inv s threshold) {t : T} {p : Prediction} {rest : List Prediction}
    (ht : s.threads.lookup t = some (.triggering (p :: rest))) :
    Inv { s with
      threads := s.threads.insert t (.triggering rest)
      handled := s.handled ++ [p] } threshold := by
  refine h.move ht rfl trivial rfl rfl h.ready (fun k => ?_) (fun _ => rfl) rfl
  have hle := h.removed_le k
  have hpassed := s.passed_concat threshold k p
  show s.removed.count k + s.entriesFor k ≤
    ({ s with handled := s.handled ++ [p] } : State T).passed threshold k
  omega

/-- The entry of a prediction is inserted, in an empty place or over an equal entry. -/
lemma insert (h : Inv s threshold) {t : T} {p : Prediction} {rest : List Prediction}
    (ht : s.threads.lookup t = some (.inserting p rest)) :
    Inv { s with
      prefetcher := { s.prefetcher with
        buffer := s.prefetcher.buffer.insert (keyOf p) (fresh (keyOf p)) }
      threads := s.threads.insert t (.triggering rest)
      handled := s.handled ++ [p] } threshold := by
  have hpass : p.2.2.lt threshold = false := h.knows t _ ht
  refine h.move ht rfl trivial rfl rfl ?_ (fun k => ?_) (fun _ => rfl) rfl
  · exact HashMap.forall_lookup_insert _ h.ready rfl
  · have hle := h.removed_le k
    have hpassed := s.passed_concat threshold k p
    have hentries := s.entriesFor_eq k
    rw [entriesFor_eq]
    simp only [HashMap.lookup_insert_eq]
    show s.removed.count k + _ ≤
      ({ s with handled := s.handled ++ [p] } : State T).passed threshold k
    by_cases hk : k = keyOf p
    · rw [if_pos ⟨hk.symm, hpass⟩] at hpassed
      rw [if_pos hk, Option.isSome_some, if_pos rfl]
      omega
    · rw [if_neg hk]
      omega

/-- The entry of a key is removed. -/
lemma remove (h : Inv s threshold) {t : T} {k : Key} {entry : PrefetchEntry}
    (ht : s.threads.lookup t = some (.consuming k))
    (hl : s.prefetcher.buffer.lookup k = some entry) :
    Inv { s with
      prefetcher := { s.prefetcher with buffer := s.prefetcher.buffer.erase k }
      threads := s.threads.insert t (.removed k entry)
      removed := s.removed ++ [k] } threshold := by
  refine h.move ht rfl (h.ready k entry hl) rfl rfl (fun k' entry' hk' => ?_) (fun k' => ?_)
    (fun k' => ?_) rfl
  · exact h.ready k' entry' (HashMap.lookup_of_lookup_erase _ hk')
  · have hle := h.removed_le k'
    have hentries := s.entriesFor_eq k'
    rw [entriesFor_eq]
    simp only [HashMap.lookup_erase_eq, List.count_append, List.count_singleton, beq_iff_eq]
    show _ ≤ s.passed threshold k'
    by_cases hk : k' = k
    · -- the entry that is counted as removed was there before
      subst hk
      rw [hl, Option.isSome_some, if_pos rfl] at hentries
      simp only [if_true, Option.isSome_none, Bool.false_eq_true, if_false]
      omega
    · rw [if_neg hk, if_neg (Ne.symm hk)]
      omega
  · simp only [List.count_append, List.count_singleton, beq_iff_eq, holding]
    omega

/-- A removed entry counts as a hit: it is ready. -/
lemma hit (h : Inv s threshold) {t : T} {k : Key} {entry : PrefetchEntry}
    (ht : s.threads.lookup t = some (.removed k entry)) :
    Inv { s with
      prefetcher := { s.prefetcher with hits := s.prefetcher.hits + 1 }
      threads := s.threads.insert t (.returning k (some entry.result)) } threshold := by
  have hfresh : entry = fresh k := h.knows t _ ht
  have hresult : entry.result = simulateFetch k.1 := by rw [hfresh, fresh]
  exact h.move ht rfl hresult rfl rfl h.ready h.removed_le (fun _ => rfl) rfl

/-- A thread ends its call. -/
lemma finish (h : Inv s threshold) {t : T} {pc : Pc} (ht : s.threads.lookup t = some pc)
    {results : List (Key × Option (List UInt8))}
    (hholding : ∀ k, (results.countP fun x => decide (x.1 = k ∧ x.2.isSome = true)) = holding k pc)
    (hhitting : (results.countP fun x => x.2.isSome) = hitting pc)
    (hresults : ∀ k r, (k, some r) ∈ results → r = simulateFetch k.1) :
    Inv { s with threads := s.threads.erase t, results := s.results ++ results } threshold := by
  have hw := fun f => HashMap.weight_erase_of_lookup s.threads f ht
  refine ⟨h.threshold_eq, h.ready, fun t' pc' h' => ?_, h.removed_le, fun k => ?_, ?_,
    fun k r hr => ?_⟩
  · exact h.knows t' pc' (HashMap.lookup_of_lookup_erase _ h')
  · have hremoved := h.removed_eq k
    have hk := hw (holding k)
    have hreturned := hholding k
    simp only [delivered, List.countP_append] at hremoved ⊢
    omega
  · have hhits := h.hits
    have hk := hw hitting
    simp only [List.countP_append]
    omega
  · rcases List.mem_append.mp hr with hr | hr
    · exact h.result k r hr
    · exact hresults k r hr

lemma stepThread (h : Inv s threshold) (t : T) (call : Op) :
    Inv (s.stepThread t call) threshold := by
  unfold State.stepThread
  split
  · next ht =>
    cases call with
    | trigger ps => exact h.begin ht trivial (fun _ => rfl) rfl
    | consume id hash => exact h.begin ht trivial (fun _ => rfl) rfl
  · next ht =>
    have hend := h.finish ht (fun _ => rfl) rfl fun _ _ hr => absurd hr List.not_mem_nil
    rwa [List.append_nil] at hend
  · next p rest ht =>
    split
    · exact h.skip ht
    · next hpass =>
      split
      · exact h.skip ht
      · refine h.move ht rfl ?_ rfl rfl h.ready h.removed_le (fun _ => rfl) rfl
        rw [h.threshold_eq] at hpass
        exact Bool.eq_false_iff.mpr hpass
  · next p rest ht => exact h.insert ht
  · next k ht =>
    split
    · exact h.move ht rfl trivial rfl rfl h.ready h.removed_le (fun _ => rfl) rfl
    · next entry hl => exact h.remove ht hl
  · next k entry ht =>
    -- the other branch would need an entry that is not ready
    have hready : entry.isReady = true := by rw [show entry = fresh k from h.knows t _ ht, fresh]
    rw [if_pos hready]
    exact h.hit ht
  · next k result ht =>
    have hknows := h.knows t _ ht
    cases result with
    | none =>
      refine h.finish ht (fun k' => by simp [holding]) rfl fun k' r hr => ?_
      exact absurd (List.mem_singleton.mp hr) (by simp)
    | some r =>
      refine h.finish ht (fun k' => ?_) rfl fun k' r' hr => ?_
      · simp [holding, List.countP_singleton]
      · obtain ⟨rfl, rfl⟩ : k' = k ∧ r' = r := by simpa using hr
        exact hknows

lemma atMostOnce (h : Inv s threshold) : AtMostOnce s threshold := by
  refine ⟨fun k => ?_, fun k entry hk => ?_, h.removed_le, h.result, fun k hbelow => ?_,
    fun hrest => ?_⟩
  · exact List.nodup_iff_count_le_one.mp (AList.keys_nodup _) k
  · rw [h.ready k entry hk]
    exact ⟨rfl, rfl, rfl, rfl⟩
  · have hpassed : s.passed threshold k = 0 := by
      refine List.countP_eq_zero.mpr fun p hp hpass => ?_
      obtain ⟨hkey, hlt⟩ := of_decide_eq_true hpass
      rw [hbelow p hp hkey] at hlt
      exact absurd hlt (by simp)
    have hle := h.removed_le k
    have heq := h.removed_eq k
    exact ⟨by omega, by omega⟩
  · have hzero : HashMap.weight s.threads hitting = 0 := by
      refine List.sum_eq_zero fun n hn => ?_
      obtain ⟨⟨t, pc⟩, he, rfl⟩ := List.mem_map.mp hn
      have hout := hrest t pc ((HashMap.mem_entries_iff _).mp he)
      cases pc <;> first | rfl | exact absurd hout (by simp [inConsume])
    have hhits := h.hits
    omega

end Inv

/-- **In every reachable state entries are delivered at most once.** -/
theorem run_atMostOnce (threshold : F32) (actions : List (T × Op)) :
    AtMostOnce (Run.after step (init threshold : State T) actions) threshold := by
  have hstep : ∀ (s : State T) a, Inv s threshold → Inv (s.step a) threshold :=
    fun _ a h => h.stepThread a.1 a.2
  exact (Run.invariant hstep (inv_init threshold) actions).atMostOnce

end State

end SpeculativePrefetcher

end SyscallMind
