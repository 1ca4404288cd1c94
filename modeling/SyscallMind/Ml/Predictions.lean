/-
# Predictions and prefetches

`predict_next` of `ml/inference/src/predictor.rs` is a Markov table: the row of the last id of
the history, or a default row.  Its predictions are what the prefetcher is triggered with, after
the caller has added an argument hash to each.

The confidences are constants, so the threshold decides once and for all what can be prefetched:
in the runs of predictor and prefetcher together, an id can be delivered exactly when the table
has a confidence for it that passes (`deliverable_iff`).  The largest confidence of the table is
0.40, and the largest one for an id that may not be optimised is 0.30.  So above a threshold of
0.40, as in both configuration files, nothing is ever prefetched, and above 0.30 nothing that may
not be (`neverPrefetches_iff`, `neverUnsafe_iff`).
-/
import SyscallMind.Ml.Predictor
import SyscallMind.Optimizer.Prefetcher

namespace SyscallMind

open Lib SyscallIds

namespace TransformerPredictor

/-! ## The table -/

/-- Simple Markov-style transition table for common syscall pairs. -/
def buildTransitionTable : HashMap SyscallId (List (SyscallId × F32)) :=
  let t : HashMap SyscallId (List (SyscallId × F32)) := ∅
  -- After the clock sysvar, commonly rent or a cryptographic call
  let t := t.insert solGetClockSysvar [
    (solGetRentSysvar, ⟨0x3ecccccd⟩),  -- 0.40
    (solSha256, ⟨0x3e800000⟩),         -- 0.25
    (solInvokeSigned, ⟨0x3e4ccccd⟩),   -- 0.20
    (solLog, ⟨0x3dcccccd⟩),            -- 0.10
    (solKeccak256, ⟨0x3d4ccccd⟩)]      -- 0.05
  -- After a hash, often another cryptographic call or an invocation
  let t := t.insert solSha256 [
    (solSecp256k1Recover, ⟨0x3eb33333⟩),  -- 0.35
    (solSha256, ⟨0x3e800000⟩),            -- 0.25
    (solInvokeSigned, ⟨0x3e4ccccd⟩),      -- 0.20
    (solLog, ⟨0x3df5c28f⟩),               -- 0.12
    (solKeccak256, ⟨0x3da3d70a⟩)]         -- 0.08
  let t := t.insert solGetRentSysvar [
    (solGetClockSysvar, ⟨0x3e99999a⟩),  -- 0.30
    (solInvokeSigned, ⟨0x3e99999a⟩),    -- 0.30
    (solSha256, ⟨0x3e4ccccd⟩),          -- 0.20
    (solLog, ⟨0x3e19999a⟩),             -- 0.15
    (solSetReturnData, ⟨0x3d4ccccd⟩)]   -- 0.05
  t.insert solInvokeSigned [
    (solGetClockSysvar, ⟨0x3eb33333⟩),  -- 0.35
    (solSha256, ⟨0x3e800000⟩),          -- 0.25
    (solLog, ⟨0x3e4ccccd⟩),             -- 0.20
    (solGetRentSysvar, ⟨0x3e19999a⟩),   -- 0.15
    (solSetReturnData, ⟨0x3d4ccccd⟩)]   -- 0.05

/-- The default ids, in the order of their confidences. -/
def defaults : List SyscallId :=
  [solGetClockSysvar, solSha256, solLog, solGetRentSysvar, solInvokeSigned]

/-- Default distribution returned when no transition is known.  The confidence `i` is the
rounded product of 0.30 and the power `i` of 0.7, whose precision is left to the platform. -/
def defaultDistribution (confidence : ℕ → F32) (topK : ℕ) : List (SyscallId × F32) :=
  (defaults.take topK).mapIdx fun i id => (id, confidence i)

/-- The table of a predictor never changes. -/
def predictNext (_p : TransformerPredictor) (confidence : ℕ → F32) (history : List SyscallId)
    (_programId : Pubkey) (topK : ℕ) : List (SyscallId × F32) :=
  let last := history.getLast?
  let candidates := (last.bind buildTransitionTable.lookup).getD []
  if candidates.isEmpty then defaultDistribution confidence topK
  else candidates.take topK

end TransformerPredictor

def HotReloadablePredictor.predictNext (p : HotReloadablePredictor) (confidence : ℕ → F32)
    (history : List SyscallId) (programId : Pubkey) (topK : ℕ) : List (SyscallId × F32) :=
  p.inner.predictNext confidence history programId topK

namespace Predictions

open TransformerPredictor SpeculativePrefetcher

/-! ## Predictor and prefetcher together -/

structure State where
  predictor : HotReloadablePredictor
  prefetcher : SpeculativePrefetcher

inductive Op
  | reload (now : ℕ)
  /-- The hash of a prediction comes from the context of the transaction. -/
  | predict (history : List SyscallId) (programId : Pubkey) (topK : ℕ)
      (hashOf : SyscallId → ArgsHash)
  | consume (syscallId : SyscallId) (argsHash : ArgsHash)

def new (modelPath : String) (reloadIntervalSecs now : ℕ) (threshold : F32) : State :=
  ⟨.new modelPath reloadIntervalSecs now, .new threshold⟩

section Runs

variable (confidence : ℕ → F32)

def step (s : State) : Op → State
  | .reload now => { s with predictor := s.predictor.maybeReload now }
  | .predict history programId topK hashOf =>
      let predictions := s.predictor.predictNext confidence history programId topK
      { s with prefetcher :=
          s.prefetcher.trigger (predictions.map fun p => (p.1, hashOf p.1, p.2)) }
  | .consume syscallId argsHash =>
      { s with prefetcher := (s.prefetcher.consume syscallId argsHash).2 }

/-- What the predictor can ever predict. -/
def predicted : List (SyscallId × F32) :=
  (buildTransitionTable.entries.flatMap (·.2)) ++ defaultDistribution confidence 5

/-- Some run delivers a result for the id. -/
def Deliverable (threshold : F32) (id : SyscallId) : Prop :=
  ∃ modelPath reloadIntervalSecs now ops h,
    ((Run.after (step confidence) (new modelPath reloadIntervalSecs now threshold)
      ops).prefetcher.consume id h).1.isSome = true

variable {confidence}

/-! ## What can be predicted -/

lemma mem_defaultDistribution_iff {topK : ℕ} {p : SyscallId × F32} :
    p ∈ defaultDistribution confidence topK ↔
      ∃ i, i < topK ∧ defaults[i]? = some p.1 ∧ p.2 = confidence i := by
  rw [defaultDistribution, List.mem_iff_getElem?]
  constructor
  · rintro ⟨i, hi⟩
    rw [List.getElem?_mapIdx, Option.map_eq_some_iff] at hi
    obtain ⟨id, hid, rfl⟩ := hi
    by_cases hlt : i < topK
    · rw [List.getElem?_take_of_lt hlt] at hid
      exact ⟨i, hlt, hid, rfl⟩
    · rw [List.getElem?_take, if_neg hlt] at hid
      exact absurd hid (by simp)
  · rintro ⟨i, hlt, hid, hc⟩
    refine ⟨i, ?_⟩
    rw [List.getElem?_mapIdx, List.getElem?_take_of_lt hlt, hid, Option.map_some, ← hc]

lemma mem_defaultDistribution {topK : ℕ} {p : SyscallId × F32}
    (h : p ∈ defaultDistribution confidence topK) : p ∈ defaultDistribution confidence 5 := by
  obtain ⟨i, -, hid, hc⟩ := mem_defaultDistribution_iff.mp h
  obtain ⟨hlt, -⟩ := List.getElem?_eq_some_iff.mp hid
  exact mem_defaultDistribution_iff.mpr ⟨i, hlt, hid, hc⟩

lemma length_of_mem_entries {e : Sigma fun _ : SyscallId => List (SyscallId × F32)}
    (h : e ∈ buildTransitionTable.entries) : e.2.length = 5 := by
  revert h
  revert e
  decide

lemma mem_predicted_of_predictNext {t : TransformerPredictor} {history : List SyscallId}
    {programId : Pubkey} {topK : ℕ} {p : SyscallId × F32}
    (h : p ∈ t.predictNext confidence history programId topK) : p ∈ predicted confidence := by
  rw [TransformerPredictor.predictNext] at h
  split at h
  · exact List.mem_append_right _ (mem_defaultDistribution h)
  · have hmem := List.mem_of_mem_take h
    cases hrow : history.getLast?.bind buildTransitionTable.lookup with
    | none =>
      rw [hrow] at hmem
      exact absurd hmem (by simp)
    | some row =>
      rw [hrow, Option.getD_some] at hmem
      obtain ⟨last, -, hlookup⟩ := Option.bind_eq_some_iff.mp hrow
      refine List.mem_append_left _ (List.mem_flatMap.mpr ⟨⟨last, row⟩, ?_, hmem⟩)
      exact (HashMap.mem_entries_iff _).mpr hlookup

/-- Whatever can be predicted is predicted from a history of at most one id. -/
lemma exists_history {p : SyscallId × F32} (h : p ∈ predicted confidence)
    (t : TransformerPredictor) (programId : Pubkey) :
    ∃ history, p ∈ t.predictNext confidence history programId 5 := by
  rcases List.mem_append.mp h with h | h
  · obtain ⟨⟨last, row⟩, hentry, hp⟩ := List.mem_flatMap.mp h
    have hlookup := (HashMap.mem_entries_iff _).mp hentry
    have hfive : row.length = 5 := length_of_mem_entries hentry
    have hne : row.isEmpty = false := by
      rw [List.isEmpty_eq_false_iff]
      exact List.ne_nil_of_length_pos (by omega)
    refine ⟨[last], ?_⟩
    rw [TransformerPredictor.predictNext]
    simp only [List.getLast?_singleton, Option.bind_some, hlookup, Option.getD_some, hne]
    rwa [if_neg (by simp), List.take_of_length_le (by omega)]
  · exact ⟨[], h⟩

/-! ## What can be delivered -/

/-- The buffer holds ready results of predictions that passed. -/
structure Good (confidence : ℕ → F32) (threshold : F32) (s : State) : Prop where
  threshold_eq : s.prefetcher.confidenceThreshold = threshold
  allReady : AllReady s.prefetcher
  predicted : ∀ k, (s.prefetcher.buffer.lookup k).isSome = true →
    ∃ c, (k.1, c) ∈ predicted confidence ∧ c.lt threshold = false

lemma Good.new (modelPath : String) (reloadIntervalSecs now : ℕ) (threshold : F32) :
    Good confidence threshold (new modelPath reloadIntervalSecs now threshold) where
  threshold_eq := rfl
  allReady := allReady_new threshold
  predicted := fun k hk => absurd hk (by
    simp [Predictions.new, SpeculativePrefetcher.new])

lemma Good.step {threshold : F32} {s : State} (h : Good confidence threshold s) (op : Op) :
    Good confidence threshold (step confidence s op) := by
  cases op with
  | reload now => exact ⟨h.threshold_eq, h.allReady, h.predicted⟩
  | predict history programId topK hashOf =>
    refine ⟨(trigger_threshold _).trans h.threshold_eq, h.allReady.trigger _, ?_⟩
    intro k hk
    rcases isSome_trigger_iff.mp hk with hold | ⟨q, hq, rfl, hpass⟩
    · exact h.predicted k hold
    · obtain ⟨p, hp, rfl⟩ := List.mem_map.mp hq
      refine ⟨p.2, mem_predicted_of_predictNext hp, ?_⟩
      rw [h.threshold_eq] at hpass
      simpa [passes] using hpass
  | consume id hash =>
    refine ⟨(consume_threshold id hash).trans h.threshold_eq, ?_, ?_⟩
    · exact h.allReady.step (.consume id hash)
    · intro k hk
      obtain ⟨entry, hentry⟩ := Option.isSome_iff_exists.mp hk
      exact h.predicted k (Option.isSome_iff_exists.mpr ⟨entry, lookup_of_consume hentry⟩)

/-- **An id can be delivered exactly when some prediction for it passes.** -/
theorem deliverable_iff (threshold : F32) (id : SyscallId) :
    Deliverable confidence threshold id ↔
      ∃ c, (id, c) ∈ predicted confidence ∧ c.lt threshold = false := by
  constructor
  · rintro ⟨modelPath, reloadIntervalSecs, now, ops, hash, hsome⟩
    have hgood : Good confidence threshold (Run.after (step confidence)
        (new modelPath reloadIntervalSecs now threshold) ops) :=
      Run.invariant (fun s op hs => hs.step op) (Good.new _ _ _ _) ops
    exact hgood.predicted (id, hash) ((isSome_consume_iff hgood.allReady).mp hsome)
  · rintro ⟨c, hmem, hc⟩
    obtain ⟨history, hp⟩ := exists_history hmem (TransformerPredictor.new "") zeroPubkey
    refine ⟨"", 0, 0, [.predict history zeroPubkey 5 fun _ => 0], 0, ?_⟩
    have hnew : Good confidence threshold (new "" 0 0 threshold) := Good.new _ _ _ _
    have hgood := hnew.step (.predict history zeroPubkey 5 fun _ => 0)
    refine (isSome_consume_iff hgood.allReady).mpr (isSome_trigger_iff.mpr (Or.inr ?_))
    refine ⟨(id, 0, c), List.mem_map.mpr ⟨(id, c), hp, rfl⟩, rfl, ?_⟩
    have hthreshold : (SpeculativePrefetcher.new threshold).confidenceThreshold = threshold := rfl
    simp [passes, Predictions.new, hthreshold, hc]

/-! ## Which thresholds let something through -/

lemma lt_of_position_le {x y threshold : F32} (hx : x.isNaN = false)
    (hle : x.position ≤ y.position) (h : y.lt threshold = true) : x.lt threshold = true := by
  simp only [F32.lt, Bool.and_eq_true, Bool.not_eq_true', decide_eq_true_eq] at h ⊢
  obtain ⟨⟨-, ht⟩, hlt⟩ := h
  exact ⟨⟨hx, ht⟩, by omega⟩

/-- No prediction for an id of the kind is above the bound. -/
def BoundedBy (confidence : ℕ → F32) (kind : SyscallId → Prop) (bound : F32) : Prop :=
  ∀ p ∈ predicted confidence, kind p.1 →
    p.2.isNaN = false ∧ p.2.position ≤ bound.position

/-- If the bound is reached by an id of the kind, it is what the threshold has to be above. -/
lemma forall_not_deliverable_iff {kind : SyscallId → Prop} {bound threshold : F32}
    {id : SyscallId} (hbound : BoundedBy confidence kind bound) (hid : kind id)
    (hmem : (id, bound) ∈ predicted confidence) :
    (∀ id, kind id → ¬ Deliverable confidence threshold id) ↔ bound.lt threshold = true := by
  constructor
  · intro h
    by_contra hlt
    refine h id hid ((deliverable_iff threshold id).mpr ⟨bound, hmem, ?_⟩)
    exact Bool.eq_false_iff.mpr hlt
  · intro hlt id' hid' hdel
    obtain ⟨c, hc, hpass⟩ := (deliverable_iff threshold id').mp hdel
    obtain ⟨hnan, hle⟩ := hbound _ hc hid'
    exact absurd (lt_of_position_le hnan hle hlt) (by simp [hpass])

/-- The default row is the rounded product of 0.30 and powers of a number below one. -/
def AtMostThirty (confidence : ℕ → F32) : Prop :=
  ∀ i, (confidence i).isNaN = false ∧
    (confidence i).position ≤ (⟨0x3e99999a⟩ : F32).position

lemma boundedBy_table {kind : SyscallId → Prop} {bound : F32}
    (hconfidence : AtMostThirty confidence)
    (hthirty : (⟨0x3e99999a⟩ : F32).position ≤ bound.position)
    (htable : ∀ e ∈ buildTransitionTable.entries, ∀ p ∈ e.2, kind p.1 →
      p.2.isNaN = false ∧ p.2.position ≤ bound.position) :
    BoundedBy confidence kind bound := by
  intro p hp hkind
  rcases List.mem_append.mp hp with hp | hp
  · obtain ⟨e, he, hp⟩ := List.mem_flatMap.mp hp
    exact htable e he p hp hkind
  · obtain ⟨i, -, -, hc⟩ := mem_defaultDistribution_iff.mp hp
    obtain ⟨hnan, hle⟩ := hconfidence i
    rw [hc]
    exact ⟨hnan, hle.trans hthirty⟩

/-- **Nothing is ever prefetched exactly when the threshold is above 0.40.** -/
theorem neverPrefetches_iff (hconfidence : AtMostThirty confidence) (threshold : F32) :
    (∀ id, ¬ Deliverable confidence threshold id) ↔
      (⟨0x3ecccccd⟩ : F32).lt threshold = true := by
  have hbound : BoundedBy confidence (fun _ => True) ⟨0x3ecccccd⟩ :=
    boundedBy_table hconfidence (by decide) (by decide)
  have hmem : (solGetRentSysvar, ⟨0x3ecccccd⟩) ∈ predicted confidence :=
    List.mem_append_left _ (by decide)
  rw [← forall_not_deliverable_iff hbound trivial hmem]
  exact ⟨fun h id _ => h id, fun h id => h id trivial⟩

/-- **Nothing that may not be optimised is ever prefetched exactly when the threshold is above
0.30.** -/
theorem neverUnsafe_iff (hconfidence : AtMostThirty confidence) (threshold : F32) :
    (∀ id, Deliverable confidence threshold id →
      SyscallClassifier.new.isOptimizationEligible id = true) ↔
      (⟨0x3e99999a⟩ : F32).lt threshold = true := by
  have hbound : BoundedBy confidence
      (fun id => SyscallClassifier.new.isOptimizationEligible id = false) ⟨0x3e99999a⟩ :=
    boundedBy_table hconfidence le_rfl (by decide)
  have hmem : (solInvokeSigned, ⟨0x3e99999a⟩) ∈ predicted confidence :=
    List.mem_append_left _ (by decide)
  rw [← forall_not_deliverable_iff hbound (by decide) hmem]
  constructor
  · intro h id hid hdel
    exact absurd (h id hdel) (by simp [hid])
  · intro h id hdel
    by_contra hid
    exact h id (Bool.eq_false_iff.mpr hid) hdel

end Runs

/-- The products 0.30, 0.21, 0.147, 0.1029 and 0.07203. -/
def confidences (i : ℕ) : F32 :=
  ⟨([0x3e99999a, 0x3e570a3e, 0x3e16872b, 0x3dd2bd3d] : List UInt32).getD i 0x3d938477⟩

lemma confidences_atMostThirty : AtMostThirty confidences := by
  have hrest : ∀ i, confidences (i + 4) = ⟨0x3d938477⟩ := fun i => rfl
  rintro (_ | _ | _ | _ | i)
  · decide
  · decide
  · decide
  · decide
  · rw [hrest]
    decide

/-- The thresholds 0.80 and 0.90 of the configuration files. -/
theorem neverPrefetches_configured :
    (∀ id, ¬ Deliverable confidences ⟨0x3f4ccccd⟩ id) ∧
      ∀ id, ¬ Deliverable confidences ⟨0x3f666666⟩ id :=
  ⟨(neverPrefetches_iff confidences_atMostThirty _).mpr (by decide),
    (neverPrefetches_iff confidences_atMostThirty _).mpr (by decide)⟩

/-- At 0.25 an invocation is delivered. -/
theorem unsafe_at_quarter :
    ¬ ∀ id, Deliverable confidences ⟨0x3e800000⟩ id →
      SyscallClassifier.new.isOptimizationEligible id = true :=
  fun h => absurd ((neverUnsafe_iff confidences_atMostThirty _).mp h) (by decide)

end Predictions

end SyscallMind
