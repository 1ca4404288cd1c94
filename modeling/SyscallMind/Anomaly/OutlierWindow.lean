/-
# Outlier windows and outlier baselines

The documentation maps each window to a feature vector, and a window whose vector is long is an
outlier.  `check_anomaly` however takes the vector of the stored baseline, and the checked
window enters through its frequencies only.  Two windows with the same ids are therefore
treated alike, whatever their depth and their timing.

A deeper call than any before makes every window an outlier and changes none of its
frequencies.  So the detector flags all outlier windows only if no window is above the
threshold, or if it flags all windows anyway (`flagsOutliers_iff`).  The arithmetic is over the
real numbers.
-/
import SyscallMind.Anomaly.DivergenceBounds
import SyscallMind.Anomaly.RiskRange

namespace SyscallMind

open Lib

namespace AnomalyDetector

open ProgramBaseline

/-! ## The score of a window -/

/-- The statistics of a window by itself, without a history. -/
noncomputable def windowBaseline (events : List SyscallTraceEvent) : ProgramBaseline ℝ where
  programId := zeroPubkey
  syscallFrequencies := observedFreqs events
  meanInterCallDelayNs := meanDelay events
  maxCpiDepth := maxDepth events
  cryptoRatio := cryptoCount events / events.length
  totalObservations := events.length

/-- The normalised and capped norm of the feature vector of a window. -/
noncomputable def windowScore (events : List SyscallTraceEvent) : ℝ :=
  (windowBaseline events).isolationScore

/-- Every window of the program whose score is above the threshold is flagged. -/
def FlagsOutliers (d : AnomalyDetector) (programId : Pubkey) : Prop :=
  ∀ events, events ≠ [] → d.policy.isolationThreshold < windowScore events →
    ∀ timestampNs, (d.checkAnomaly programId events timestampNs).1.isSome = true

/-! ## When a window is flagged -/

/-- The window matters through its frequencies only. -/
lemma checkAnomaly_isSome_iff {d : AnomalyDetector} {programId : Pubkey} {b : ProgramBaseline ℝ}
    (hget : d.baselineStore.get programId = some b) {events : List SyscallTraceEvent}
    (hne : events ≠ []) (timestampNs : UInt64) :
    (d.checkAnomaly programId events timestampNs).1.isSome = true ↔
      d.policy.klThreshold < b.klDivergence (observedFreqs events) ∨
        d.policy.isolationThreshold < b.isolationScore := by
  rw [checkAnomaly_of_get hget hne]
  exact AnomalyPolicy.evaluate_isSome_iff

/-! ## A window at the largest depth -/

/-- The same calls, all at the largest depth. -/
def deepen (events : List SyscallTraceEvent) : List SyscallTraceEvent :=
  events.map fun e => { e with depth := 255 }

lemma deepen_ne_nil {events : List SyscallTraceEvent} (hne : events ≠ []) : deepen events ≠ [] :=
  fun h => hne (List.map_eq_nil_iff.mp h)

lemma ids_deepen (events : List SyscallTraceEvent) : ids (deepen events) = ids events := by
  rw [ids, deepen, List.map_map]
  rfl

lemma observedFreqs_deepen (events : List SyscallTraceEvent) :
    observedFreqs (deepen events) = observedFreqs events := by
  rw [observedFreqs, observedFreqs, ids_deepen, deepen, List.length_map]

lemma maxDepth_deepen {events : List SyscallTraceEvent} (hne : events ≠ []) :
    maxDepth (deepen events) = 255 := by
  have hstay : ∀ l : List SyscallTraceEvent,
      (deepen l).foldl (fun m e => if m < e.depth then e.depth else m) 255 = (255 : UInt8) := by
    intro l
    induction l with
    | nil => rfl
    | cons e l ih => exact ih
  obtain ⟨e, l, rfl⟩ := List.exists_cons_of_ne_nil hne
  exact hstay l

/-- The depth alone is enough for the largest score. -/
lemma isolationScore_of_depth {b : ProgramBaseline ℝ} (h : b.maxCpiDepth = 255) :
    b.isolationScore = 1 := by
  have hmem : (25.5 : ℝ) * 25.5 ∈ b.featureVector.map fun x => x * x := by
    have hbyte : (255 : UInt8).toNat = 255 := rfl
    have hdepth : (25.5 : ℝ) = (b.maxCpiDepth.toNat : ℝ) / 10 := by
      rw [h, hbyte]
      norm_num
    rw [hdepth]
    exact List.mem_map_of_mem (by simp [featureVector])
  have hnonneg : ∀ y ∈ b.featureVector.map fun x => x * x, 0 ≤ y := by
    intro y hy
    obtain ⟨x, -, rfl⟩ := List.mem_map.mp hy
    exact mul_self_nonneg x
  have hsum := List.single_le_sum hnonneg _ hmem
  have hnorm : 3 ≤ √((b.featureVector.map fun x => x * x).sum) :=
    Real.le_sqrt_of_sq_le (by linarith)
  exact min_eq_right (by linarith)

lemma windowScore_deepen {events : List SyscallTraceEvent} (hne : events ≠ []) :
    windowScore (deepen events) = 1 :=
  isolationScore_of_depth (maxDepth_deepen hne)

lemma windowScore_le_one (events : List SyscallTraceEvent) : windowScore events ≤ 1 :=
  min_le_right _ _

/-! ## The detector -/

/-- **When the detector reacts to outlier windows.**  It does if the threshold is one or more,
so that there are none, if the baseline is an outlier itself, or if every window diverges from
the baseline by more than the other threshold. -/
theorem flagsOutliers_iff (d : AnomalyDetector) {programId : Pubkey} {b : ProgramBaseline ℝ}
    (hget : d.baselineStore.get programId = some b) :
    FlagsOutliers d programId ↔
      1 ≤ d.policy.isolationThreshold ∨ d.policy.isolationThreshold < b.isolationScore ∨
        ∀ events, events ≠ [] → d.policy.klThreshold < b.klDivergence (observedFreqs events) := by
  constructor
  · intro h
    rcases le_or_gt 1 d.policy.isolationThreshold with hone | hlt
    · exact Or.inl hone
    · by_cases hiso : d.policy.isolationThreshold < b.isolationScore
      · exact Or.inr (Or.inl hiso)
      · refine Or.inr (Or.inr fun events hne => ?_)
        -- the window at the largest depth is an outlier, and it has the same frequencies
        have hflag := h (deepen events) (deepen_ne_nil hne)
          (by rw [windowScore_deepen hne]; exact hlt) 0
        rw [checkAnomaly_isSome_iff hget (deepen_ne_nil hne), observedFreqs_deepen] at hflag
        exact hflag.resolve_right hiso
  · rintro (hone | hiso | hkl) events hne houtlier timestampNs
    · exact absurd (houtlier.trans_le (windowScore_le_one events)) (not_lt.mpr hone)
    · exact (checkAnomaly_isSome_iff hget hne timestampNs).mpr (Or.inr hiso)
    · exact (checkAnomaly_isSome_iff hget hne timestampNs).mpr (Or.inl (hkl events hne))

/-- The default policy, after a window whose calls are all at the largest depth. -/
theorem flagsOutliers_deepened :
    FlagsOutliers ((new defaultPolicy 0.05).ingestWindow zeroPubkey
      (deepen (makeEvents [1, 20]))) zeroPubkey := by
  have hdepth : ((ProgramBaseline.new zeroPubkey : ProgramBaseline ℝ).update
      (deepen (makeEvents [1, 20]))).maxCpiDepth = 255 := rfl
  have hthreshold : defaultPolicy.isolationThreshold = 0.7 := rfl
  refine (flagsOutliers_iff _ rfl).mpr (Or.inr (Or.inl ?_))
  show defaultPolicy.isolationThreshold < _
  rw [hthreshold]
  refine lt_of_lt_of_eq ?_ (isolationScore_of_depth hdepth).symm
  norm_num

/-- The one call of the baseline at the largest depth passes as normal. -/
theorem deep_call_not_flagged : ¬ FlagsOutliers (oneCallDetector defaultPolicy) zeroPubkey := by
  have hne : makeEvents [1] ≠ [] := by decide
  have hrepeated : oneCallBaseline = repeated zeroPubkey (makeEvents [1]) 1 := rfl
  have hkl : oneCallBaseline.klDivergence (observedFreqs (makeEvents [1])) ≤ Real.log 10 := by
    rw [hrepeated]
    exact repeatedDivergence_le_log_ten zeroPubkey hne (le_refl 1)
  have hlog := log_ten_lt
  have hiso := isolationScore_oneCallBaseline
  have hklThreshold : defaultPolicy.klThreshold = 2.5 := rfl
  have hisolationThreshold : defaultPolicy.isolationThreshold = 0.7 := rfl
  have houtlier : defaultPolicy.isolationThreshold < windowScore (deepen (makeEvents [1])) := by
    rw [windowScore_deepen hne, hisolationThreshold]
    norm_num
  intro h
  have hflag := h (deepen (makeEvents [1])) (deepen_ne_nil hne) houtlier 0
  rw [checkAnomaly_isSome_iff (get_oneCallDetector _) (deepen_ne_nil hne), observedFreqs_deepen,
    policy_oneCallDetector, hklThreshold, hisolationThreshold] at hflag
  rcases hflag with hover | hover <;> linarith

end AnomalyDetector

end SyscallMind
