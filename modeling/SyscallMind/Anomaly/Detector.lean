/-
# The anomaly detector

`AnomalyDetector` of `anomaly/src/detector.rs` with the policy of `anomaly/src/policy.rs`, over
the real numbers.  A list of events is compared with the baseline of its program: the
divergence of the observed frequencies from the stored ones and the norm of the feature vector
of the baseline give a score, and an event if the policy is triggered.

The divergence that the code computes is the divergence of the relative frequencies from the
stored frequencies, each raised to a floor (`klDivergence_observedFreqs`).
-/
import Mathlib.Analysis.Real.Sqrt
import SyscallMind.Anomaly.Baseline
import SyscallMind.Lib.Divergence
import SyscallMind.Lib.Run

namespace SyscallMind

open Lib

/-! ## The policy -/

inductive AnomalyAction
  | log
  | throttle
  | halt
deriving DecidableEq, Repr

structure AnomalyEvent where
  programId : Pubkey
  riskScore : ℝ
  klDivergence : ℝ
  isolationScore : ℝ
  timestampNs : UInt64
  actionTaken : AnomalyAction

structure AnomalyPolicy where
  action : AnomalyAction
  klThreshold : ℝ
  isolationThreshold : ℝ

/-- An event if either score exceeds its threshold. -/
noncomputable def AnomalyPolicy.evaluate (policy : AnomalyPolicy) (programId : Pubkey)
    (klDiv isolationScore : ℝ) (timestampNs : UInt64) : Option AnomalyEvent :=
  if ¬ policy.klThreshold < klDiv ∧ ¬ policy.isolationThreshold < isolationScore then none
  else
    some
      { programId := programId
        riskScore := min (klDiv / (policy.klThreshold + 1) * 0.5 + isolationScore * 0.5) 1
        klDivergence := klDiv
        isolationScore := isolationScore
        timestampNs := timestampNs
        actionTaken := policy.action }

namespace AnomalyPolicy

variable {policy : AnomalyPolicy} {programId : Pubkey} {kl iso : ℝ} {timestampNs : UInt64}

/-- Whatever the policy, a risk score is at most one. -/
lemma evaluate_eq_some {event : AnomalyEvent}
    (h : policy.evaluate programId kl iso timestampNs = some event) :
    event.riskScore = min (kl / (policy.klThreshold + 1) * 0.5 + iso * 0.5) 1 := by
  rw [evaluate] at h
  split at h
  · exact absurd h (by simp)
  · rw [← Option.some.inj h]

lemma evaluate_isSome_iff :
    (policy.evaluate programId kl iso timestampNs).isSome = true ↔
      policy.klThreshold < kl ∨ policy.isolationThreshold < iso := by
  rw [evaluate]
  split
  · next h => exact iff_of_false (by simp) (not_or.mpr h)
  · next h => exact iff_of_true rfl (or_iff_not_and_not.mpr h)

end AnomalyPolicy

/-! ## The scores of a baseline -/

namespace ProgramBaseline

/-- The floor of the stored frequencies. -/
noncomputable def epsilon : ℝ := 1e-10

/-- The divergence of the observed frequencies from the baseline. -/
noncomputable def klDivergence (b : ProgramBaseline ℝ) (observedFreqs : HashMap SyscallId ℝ) :
    ℝ :=
  (observedFreqs.entries.map fun e =>
    let p := e.2
    let q := (b.syscallFrequencies.lookup e.1).getD epsilon
    if 0 < p then p * Real.log (p / max q epsilon) else 0).sum

/-- The norm of the feature vector, normalised and capped. -/
noncomputable def isolationScore (b : ProgramBaseline ℝ) : ℝ :=
  let l2 := √((b.featureVector.map fun x => x * x).sum)
  min (l2 / 3) 1

/-- The observed frequencies of a list of events. -/
noncomputable def observedFreqs (events : List SyscallTraceEvent) : HashMap SyscallId ℝ :=
  HashMap.mapValues (HashMap.countAll (ids events)) fun count => (count : ℝ) / (events.length : ℝ)

/-- The stored frequency of an id, or the floor if that is larger. -/
noncomputable def floored (b : ProgramBaseline ℝ) (x : SyscallId) : ℝ := max (b.freq x) epsilon

lemma epsilon_pos : 0 < epsilon := by
  rw [epsilon]
  norm_num

lemma floored_pos (b : ProgramBaseline ℝ) (x : SyscallId) : 0 < b.floored x :=
  lt_max_of_lt_right epsilon_pos

lemma isolationScore_nonneg (b : ProgramBaseline ℝ) : 0 ≤ b.isolationScore :=
  le_min (div_nonneg (Real.sqrt_nonneg _) (by norm_num)) zero_le_one

lemma lookup_observedFreqs {events : List SyscallTraceEvent} {x : SyscallId} {p : ℝ}
    (h : (observedFreqs events).lookup x = some p) : x ∈ ids events ∧ p = relFreq events x := by
  rw [observedFreqs, HashMap.lookup_mapValues, HashMap.lookup_countAll] at h
  split at h
  · next hx => exact ⟨hx, (Option.some.inj h).symm⟩
  · exact absurd h (by simp)

lemma keys_observedFreqs (events : List SyscallTraceEvent) :
    (observedFreqs events).keys.toFinset = (ids events).toFinset := by
  ext x
  rw [List.mem_toFinset, List.mem_toFinset, observedFreqs, HashMap.keys_mapValues,
    HashMap.mem_keys_iff]
  simp only [HashMap.lookup_countAll]
  by_cases hx : x ∈ ids events <;> simp [hx]

/-- **What the code computes as the divergence.** -/
theorem klDivergence_observedFreqs (b : ProgramBaseline ℝ) (events : List SyscallTraceEvent) :
    b.klDivergence (observedFreqs events) =
      Divergence.divergence (ids events).toFinset (relFreq events) b.floored := by
  rw [klDivergence, Divergence.divergence, ← keys_observedFreqs]
  refine HashMap.sum_entries _ (fun x p =>
    if 0 < p then p * Real.log (p / max ((b.syscallFrequencies.lookup x).getD epsilon) epsilon)
    else 0) _ fun x p hp => ?_
  obtain ⟨hx, rfl⟩ := lookup_observedFreqs hp
  rw [if_pos (relFreq_pos hx), Divergence.term, floored, freq]
  cases b.syscallFrequencies.lookup x with
  | none => simp [max_eq_right epsilon_pos.le]
  | some q => rfl

end ProgramBaseline

/-! ## The detector -/

structure AnomalyDetector where
  baselineStore : BaselineStore ℝ
  policy : AnomalyPolicy
  contaminationThreshold : ℝ
  eventsLog : List AnomalyEvent

namespace AnomalyDetector

open ProgramBaseline

noncomputable def new (policy : AnomalyPolicy) (contaminationThreshold : ℝ) : AnomalyDetector :=
  ⟨BaselineStore.new, policy, contaminationThreshold, []⟩

variable (d : AnomalyDetector)

noncomputable def ingestWindow (programId : Pubkey) (events : List SyscallTraceEvent) :
    AnomalyDetector :=
  { d with baselineStore := d.baselineStore.updateProgram programId events }

/-- The risk score of a program given a fresh list of events. -/
noncomputable def scoreProgram (programId : Pubkey) (events : List SyscallTraceEvent) : ℝ :=
  match d.baselineStore.get programId with
  | none => 0
  | some baseline =>
      if events.isEmpty then 0
      else
        let klDiv := baseline.klDivergence (observedFreqs events)
        let klComponent := min (klDiv / 5) 1
        min (0.6 * klComponent + 0.4 * baseline.isolationScore) 1

/-- Check for an anomaly, and log the event if there is one. -/
noncomputable def checkAnomaly (programId : Pubkey) (events : List SyscallTraceEvent)
    (timestampNs : UInt64) : Option AnomalyEvent × AnomalyDetector :=
  match d.baselineStore.get programId with
  | none => (none, d)
  | some baseline =>
      if events.isEmpty then (none, d)
      else
        let klDiv := baseline.klDivergence (observedFreqs events)
        let result := d.policy.evaluate programId klDiv baseline.isolationScore timestampNs
        (result, { d with eventsLog := d.eventsLog ++ result.toList })

noncomputable def defaultPolicy : AnomalyPolicy := ⟨.log, 2.5, 0.7⟩

section Known

variable {d} {programId : Pubkey} {b : ProgramBaseline ℝ}
  (hget : d.baselineStore.get programId = some b)
include hget

/-- The score of a program with a baseline. -/
lemma scoreProgram_of_get {events : List SyscallTraceEvent} (hne : events ≠ []) :
    d.scoreProgram programId events =
      min (0.6 * min (b.klDivergence (observedFreqs events) / 5) 1 + 0.4 * b.isolationScore)
        1 := by
  have hempty : events.isEmpty = false := by simpa using hne
  simp only [scoreProgram, hget, hempty, Bool.false_eq_true, if_false]

/-- With a baseline, the policy decides. -/
lemma checkAnomaly_of_get {events : List SyscallTraceEvent} (hne : events ≠ [])
    (timestampNs : UInt64) :
    (d.checkAnomaly programId events timestampNs).1 =
      d.policy.evaluate programId (b.klDivergence (observedFreqs events)) b.isolationScore
        timestampNs := by
  have hempty : events.isEmpty = false := by simpa using hne
  simp only [checkAnomaly, hget, hempty, Bool.false_eq_true, if_false]

end Known

/-- Without events there is nothing to check. -/
lemma checkAnomaly_nil (programId : Pubkey) (timestampNs : UInt64) :
    (d.checkAnomaly programId [] timestampNs).1 = none := by
  rw [checkAnomaly]
  split <;> rfl

/-- What a check can do: log the event that it returns, or nothing. -/
lemma checkAnomaly_snd {programId : Pubkey} {events : List SyscallTraceEvent}
    {timestampNs : UInt64} :
    (d.checkAnomaly programId events timestampNs).2 =
      { d with
        eventsLog := d.eventsLog ++ (d.checkAnomaly programId events timestampNs).1.toList } := by
  rw [checkAnomaly]
  split
  · simp
  · split
    · simp
    · rfl

/-! ## Runs -/

inductive Op
  | ingestWindow (programId : Pubkey) (events : List SyscallTraceEvent)
  | scoreProgram (programId : Pubkey) (events : List SyscallTraceEvent)
  | checkAnomaly (programId : Pubkey) (events : List SyscallTraceEvent)
deriving DecidableEq, Repr

/-- The program that an operation is about. -/
def Op.programId : Op → Pubkey
  | .ingestWindow programId _ => programId
  | .scoreProgram programId _ => programId
  | .checkAnomaly programId _ => programId

def Op.events : Op → List SyscallTraceEvent
  | .ingestWindow _ events => events
  | .scoreProgram _ events => events
  | .checkAnomaly _ events => events

def Op.isIngest : Op → Bool
  | .ingestWindow _ _ => true
  | .scoreProgram _ _ => false
  | .checkAnomaly _ _ => false

/-- What an operation returns. -/
inductive Answer
  | unit
  | score (score : ℝ)
  | check (event : Option AnomalyEvent)

/-- An operation, with the reading of the clock when it is taken. -/
abbrev Action := Op × UInt64

noncomputable def step : Action → Answer × AnomalyDetector
  | (.ingestWindow programId events, _) => (.unit, d.ingestWindow programId events)
  | (.scoreProgram programId events, _) => (.score (d.scoreProgram programId events), d)
  | (.checkAnomaly programId events, timestampNs) =>
      (.check (d.checkAnomaly programId events timestampNs).1,
        (d.checkAnomaly programId events timestampNs).2)

/-- The detector after a run. -/
noncomputable def afterActions (run : List Action) : AnomalyDetector :=
  Run.after (fun d a => (step d a).2) d run

end AnomalyDetector

end SyscallMind
