/-
# The speculative prefetcher

`SpeculativePrefetcher` of `optimizer/src/prefetcher.rs`, called by one thread.  A prediction
whose confidence is not below the threshold puts a result into the buffer, under its id and
its argument hash; a `consume` takes it out again.

Nothing between the prediction and the buffer asks for the class of the id.  So a run never
answers a call that may not be optimised exactly when no prediction for such a call passes
the threshold (`onlyEligible_iff`).
-/
import SyscallMind.Lib.Run
import SyscallMind.Safety.Classifier

namespace SyscallMind

open Lib SyscallIds

/-! ## Confidences -/

/-- A single-precision number by its IEEE 754 bit pattern. -/
structure F32 where
  bits : UInt32
deriving DecidableEq, Repr

namespace F32

/-- The bits below the sign. -/
def magnitude (x : F32) : UInt32 := x.bits &&& 0x7fffffff

def isNaN (x : F32) : Bool := decide (0x7f800000 < x.magnitude)

/-- The position among the numbers that are not NaN; both zeros are at zero. -/
def position (x : F32) : ℤ :=
  if x.bits &&& 0x80000000 = 0 then x.magnitude.toNat else -x.magnitude.toNat

/-- The comparison `<`, which is false if one side is NaN. -/
def lt (x y : F32) : Bool := !x.isNaN && !y.isNaN && decide (x.position < y.position)

end F32

/-! ## The prefetcher -/

/-- The stand-in for the result of a prefetched syscall. -/
def simulateFetch (syscallId : SyscallId) : List UInt8 :=
  if syscallId = solGetClockSysvar ∨ syscallId = solGetRentSysvar ∨
      syscallId = solGetEpochScheduleSysvar then List.replicate 64 0
  else if syscallId = solSha256 ∨ syscallId = solKeccak256 then List.replicate 32 0
  else if syscallId = solSecp256k1Recover then List.replicate 64 0
  else if syscallId = solEd25519Verify then [1]
  else []

structure PrefetchEntry where
  syscallId : SyscallId
  argsHash : ArgsHash
  result : List UInt8
  isReady : Bool
deriving DecidableEq, Repr

/-- An id, a predicted argument hash and a confidence. -/
abbrev Prediction := SyscallId × ArgsHash × F32

structure SpeculativePrefetcher where
  buffer : HashMap (SyscallId × ArgsHash) PrefetchEntry
  confidenceThreshold : F32
  hits : ℕ
  misses : ℕ

namespace SpeculativePrefetcher

def new (confidenceThreshold : F32) : SpeculativePrefetcher := ⟨∅, confidenceThreshold, 0, 0⟩

variable (s : SpeculativePrefetcher)

/-- The body of the loop of `trigger`. -/
def triggerOne (p : Prediction) : SpeculativePrefetcher :=
  let (syscallId, argsHash, confidence) := p
  if confidence.lt s.confidenceThreshold then s
  -- already in flight
  else if (s.buffer.lookup (syscallId, argsHash)).isSome then s
  else
    let result := simulateFetch syscallId
    let entry : PrefetchEntry := ⟨syscallId, argsHash, result, true⟩
    { s with buffer := s.buffer.insert (syscallId, argsHash) entry }

def trigger (predictions : List Prediction) : SpeculativePrefetcher :=
  predictions.foldl triggerOne s

/-- An absent entry returns before either counter is touched. -/
def consume (syscallId : SyscallId) (argsHash : ArgsHash) :
    Option (List UInt8) × SpeculativePrefetcher :=
  match s.buffer.lookup (syscallId, argsHash) with
  | none => (none, s)
  | some entry =>
      let s := { s with buffer := s.buffer.erase (syscallId, argsHash) }
      if entry.isReady then (some entry.result, { s with hits := s.hits + 1 })
      else (none, { s with misses := s.misses + 1 })

def stats : ℕ × ℕ := (s.hits, s.misses)

/-- The prediction is not dropped by the threshold. -/
def passes (threshold : F32) (p : Prediction) : Bool := !p.2.2.lt threshold

variable {s}

/-! ## What the buffer holds -/

/-- What a prediction can do: fill its key, or nothing. -/
lemma triggerOne_cases (p : Prediction) :
    (passes s.confidenceThreshold p = true ∧ s.buffer.lookup (p.1, p.2.1) = none ∧
      s.triggerOne p =
        { s with
          buffer := s.buffer.insert (p.1, p.2.1) ⟨p.1, p.2.1, simulateFetch p.1, true⟩ }) ∨
    ((passes s.confidenceThreshold p = false ∨
        (s.buffer.lookup (p.1, p.2.1)).isSome = true) ∧ s.triggerOne p = s) := by
  obtain ⟨id, h, c⟩ := p
  cases hc : c.lt s.confidenceThreshold with
  | true => exact Or.inr ⟨Or.inl (by simp [passes, hc]), by simp [triggerOne, hc]⟩
  | false =>
    cases hl : s.buffer.lookup (id, h) with
    | none => exact Or.inl ⟨by simp [passes, hc], rfl, by simp [triggerOne, hc, hl]⟩
    | some entry => exact Or.inr ⟨Or.inr rfl, by simp [triggerOne, hc, hl]⟩

@[simp] lemma triggerOne_threshold (p : Prediction) :
    (s.triggerOne p).confidenceThreshold = s.confidenceThreshold := by
  rcases s.triggerOne_cases p with ⟨-, -, h⟩ | ⟨-, h⟩ <;> rw [h]

/-- Every entry is ready. -/
def AllReady (s : SpeculativePrefetcher) : Prop :=
  ∀ k entry, s.buffer.lookup k = some entry → entry.isReady = true

lemma allReady_new (threshold : F32) : AllReady (new threshold) :=
  fun k entry hk => absurd (hk.symm.trans (AList.lookup_empty k)) (by simp)

lemma AllReady.triggerOne (hs : AllReady s) (p : Prediction) : AllReady (s.triggerOne p) := by
  rcases s.triggerOne_cases p with ⟨-, -, h⟩ | ⟨-, h⟩
  · rw [h]
    exact HashMap.forall_lookup_insert (P := fun _ entry => entry.isReady = true) s.buffer hs rfl
  · rw [h]
    exact hs

lemma AllReady.trigger (h : AllReady s) (ps : List Prediction) : AllReady (s.trigger ps) := by
  induction ps generalizing s with
  | nil => exact h
  | cons p ps ih => exact ih (h.triggerOne p)

lemma isSome_triggerOne_iff {p : Prediction} {k : SyscallId × ArgsHash} :
    ((s.triggerOne p).buffer.lookup k).isSome = true ↔
      (s.buffer.lookup k).isSome = true ∨
        (k = (p.1, p.2.1) ∧ passes s.confidenceThreshold p = true) := by
  rcases s.triggerOne_cases p with ⟨hp, -, h⟩ | ⟨hdrop, h⟩
  · rw [h, HashMap.lookup_insert_eq]
    by_cases hk : k = (p.1, p.2.1)
    · simp [hk, hp]
    · simp [hk]
  · rw [h]
    refine ⟨Or.inl, ?_⟩
    rintro (hk | ⟨rfl, hp⟩)
    · exact hk
    · rcases hdrop with hp' | hfull
      · exact absurd hp (by simp [hp'])
      · exact hfull

/-- A key is in the buffer after a `trigger` if it was there before or if some prediction for
it passes. -/
lemma isSome_trigger_iff {ps : List Prediction} {k : SyscallId × ArgsHash} :
    ((s.trigger ps).buffer.lookup k).isSome = true ↔
      (s.buffer.lookup k).isSome = true ∨
        ∃ p ∈ ps, k = (p.1, p.2.1) ∧ passes s.confidenceThreshold p = true := by
  induction ps generalizing s with
  | nil => simp [trigger]
  | cons p ps ih =>
    have h : s.trigger (p :: ps) = (s.triggerOne p).trigger ps := rfl
    rw [h, ih, isSome_triggerOne_iff, triggerOne_threshold, or_assoc]
    simp

@[simp] lemma trigger_threshold (ps : List Prediction) :
    (s.trigger ps).confidenceThreshold = s.confidenceThreshold := by
  induction ps generalizing s with
  | nil => rfl
  | cons p ps ih => exact ih.trans (triggerOne_threshold p)

lemma consume_threshold (id : SyscallId) (h : ArgsHash) :
    (s.consume id h).2.confidenceThreshold = s.confidenceThreshold := by
  unfold consume
  split
  · rfl
  · split <;> rfl

/-- A `consume` leaves the other entries as they are. -/
lemma lookup_of_consume {id : SyscallId} {h : ArgsHash} {k : SyscallId × ArgsHash}
    {entry : PrefetchEntry} (hk : (s.consume id h).2.buffer.lookup k = some entry) :
    s.buffer.lookup k = some entry := by
  unfold consume at hk
  split at hk
  · exact hk
  · have hk' : (s.buffer.erase (id, h)).lookup k = some entry := by
      split at hk <;> exact hk
    exact HashMap.lookup_of_lookup_erase _ hk'

/-- A ready entry is delivered. -/
lemma isSome_consume_iff (hs : AllReady s) {id : SyscallId} {h : ArgsHash} :
    (s.consume id h).1.isSome = true ↔ (s.buffer.lookup (id, h)).isSome = true := by
  cases hl : s.buffer.lookup (id, h) with
  | none => simp [consume, hl]
  | some entry => simp [consume, hl, hs _ entry hl]

/-! ## Runs -/

inductive Op
  | trigger (predictions : List Prediction)
  | consume (syscallId : SyscallId) (argsHash : ArgsHash)
deriving DecidableEq, Repr

def step (s : SpeculativePrefetcher) : Op → SpeculativePrefetcher
  | .trigger predictions => s.trigger predictions
  | .consume syscallId argsHash => (s.consume syscallId argsHash).2

lemma AllReady.step (h : AllReady s) (op : Op) : AllReady (s.step op) := by
  cases op with
  | trigger ps => exact h.trigger ps
  | consume id hash => exact fun k entry hk => h k entry (lookup_of_consume hk)

lemma step_threshold (op : Op) :
    (s.step op).confidenceThreshold = s.confidenceThreshold := by
  cases op with
  | trigger ps => exact trigger_threshold ps
  | consume id h => exact consume_threshold id h

/-- A `consume` returns a result only for an id that may be optimised. -/
def OnlyEligible (s : SpeculativePrefetcher) : Prop :=
  ∀ id h, (s.consume id h).1.isSome = true →
    SyscallClassifier.new.isOptimizationEligible id = true

/-- Every prediction of the operation that passes is for an id that may be optimised. -/
def PredictsEligible (threshold : F32) (op : Op) : Prop :=
  ∀ ps, op = .trigger ps → ∀ p ∈ ps, passes threshold p = true →
    SyscallClassifier.new.isOptimizationEligible p.1 = true

lemma onlyEligible_step_iff {op : Op} (hI : AllReady s) (h : OnlyEligible s) :
    OnlyEligible (s.step op) ↔ PredictsEligible s.confidenceThreshold op := by
  have hbuffer : ∀ k, (s.buffer.lookup k).isSome = true →
      SyscallClassifier.new.isOptimizationEligible k.1 = true :=
    fun k hk => h k.1 k.2 ((isSome_consume_iff hI).mpr hk)
  cases op with
  | trigger ps =>
    constructor
    · rintro h' ps' heq p hp hpass
      obtain rfl : ps = ps' := Op.trigger.inj heq
      refine h' p.1 p.2.1 ((isSome_consume_iff (hI.trigger ps)).mpr ?_)
      exact isSome_trigger_iff.mpr (Or.inr ⟨p, hp, rfl, hpass⟩)
    · intro hpred id hash hsome
      rcases isSome_trigger_iff.mp ((isSome_consume_iff (hI.trigger ps)).mp hsome) with
        hold | ⟨p, hp, hk, hpass⟩
      · exact hbuffer (id, hash) hold
      · obtain ⟨rfl, -⟩ := Prod.mk.inj hk
        exact hpred ps rfl p hp hpass
  | consume id hash =>
    refine iff_of_true ?_ fun ps heq => by simp at heq
    intro id' hash' hsome
    rw [isSome_consume_iff (hI.step (.consume id hash))] at hsome
    obtain ⟨entry, hentry⟩ := Option.isSome_iff_exists.mp hsome
    exact hbuffer (id', hash') (Option.isSome_iff_exists.mpr ⟨entry, lookup_of_consume hentry⟩)

lemma everyStep_predictsEligible_iff (ops : List Op) :
    Run.EveryStep step (fun s op => PredictsEligible s.confidenceThreshold op) s ops ↔
      ∀ op ∈ ops, PredictsEligible s.confidenceThreshold op := by
  induction ops generalizing s with
  | nil => exact ⟨fun _ op hop => absurd hop (by simp), fun _ => Run.everyStep_nil⟩
  | cons op ops ih => rw [Run.everyStep_cons, ih, step_threshold, List.forall_mem_cons]

/-- **A run never answers a call that may not be optimised exactly when no prediction for
such a call passes the threshold.** -/
theorem onlyEligible_iff (threshold : F32) (ops : List Op) :
    Run.EveryState step OnlyEligible (new threshold) ops ↔
      ∀ ps, .trigger ps ∈ ops → ∀ p ∈ ps, p.2.2.lt threshold = false →
        SyscallClassifier.new.isOptimizationEligible p.1 = true := by
  have hinit : OnlyEligible (new threshold) := by
    intro id h hsome
    rw [isSome_consume_iff (allReady_new threshold)] at hsome
    exact absurd hsome (by simp [new])
  have hI : ∀ s a, AllReady s → True → AllReady (s.step a) := fun s a hs _ => hs.step a
  have hP : ∀ s a, AllReady s → OnlyEligible s → True →
      (OnlyEligible (s.step a) ↔ PredictsEligible s.confidenceThreshold a) :=
    fun s a hs hPs _ => onlyEligible_step_iff hs hPs
  have hthreshold : (new threshold).confidenceThreshold = threshold := rfl
  rw [Run.everyState_iff_everyStep hI hP (allReady_new threshold) hinit fun _ _ _ _ => trivial,
    everyStep_predictsEligible_iff, hthreshold]
  constructor
  · intro h ps hps p hp hlt
    exact h _ hps ps rfl p hp (by simp [passes, hlt])
  · rintro h _ hop ps rfl p hp hpass
    exact h ps hop p hp (by simpa [passes] using hpass)

/-- A prediction of `sol_invoke_signed` with confidence 0.9 against the threshold 0.8. -/
theorem invokeSigned_consumed :
    (((new ⟨0x3f4ccccd⟩).trigger [(solInvokeSigned, 0, ⟨0x3f666666⟩)]).consume
        solInvokeSigned 0).1 = some [] ∧
      SyscallClassifier.new.isOptimizationEligible solInvokeSigned = false := by
  decide

end SpeculativePrefetcher

end SyscallMind
