/-
# Two formulas for one risk

`score_program` weights the divergence, normalised by five, with 0.6 and the isolation score
with 0.4.  The risk score of an anomaly event weights both with one half and normalises the
divergence by the threshold of the policy.  The documentation gives one formula, which clamps
the normalised divergence on both sides.

So the three values are equal only in exceptional cases: for a given divergence and isolation
score, at one value of the threshold, or below a bound if both formulas are capped
(`risk_formulas_agree_iff`).
-/
import SyscallMind.Anomaly.RiskRange

namespace SyscallMind

open Lib

namespace AnomalyDetector

open ProgramBaseline Divergence

/-- The combined risk score of the documentation. -/
noncomputable def documentedRisk (kl iso : ℝ) : ℝ := 0.6 * max 0 (min (kl / 5.0) 1) + 0.4 * iso

/-- The thresholds at which the formulas meet. -/
def MeetsAt (kl iso threshold : ℝ) : Prop :=
  (kl = 0 ∧ iso = 0) ∨
    (0 < kl ∧ kl ≤ 5.0 ∧ threshold + 1 = kl / (0.24 * kl - 0.2 * iso)) ∨
    (5.0 < kl ∧ threshold + 1 = kl / (1.2 - 0.2 * iso)) ∨
    -- both formulas are capped
    (5.0 ≤ kl ∧ iso = 1 ∧ 0 < threshold + 1 ∧ threshold + 1 ≤ kl)

/-! ## The arithmetic -/

section Arithmetic

variable {kl iso t : ℝ}

lemma five_eq : (5.0 : ℝ) = 5 := by norm_num

lemma min_one_eq_iff {a c : ℝ} (hc : c ≤ 1) :
    min a 1 = c ↔ (c < 1 ∧ a = c) ∨ (c = 1 ∧ 1 ≤ a) := by
  constructor
  · rintro rfl
    rcases le_total 1 a with h | h
    · exact Or.inr ⟨min_eq_right h, h⟩
    · rcases h.eq_or_lt with rfl | hlt
      · exact Or.inr ⟨min_self 1, le_refl 1⟩
      · exact Or.inl ⟨min_lt_of_left_lt hlt, (min_eq_left h).symm⟩
  · rintro (⟨hlt, rfl⟩ | ⟨rfl, h⟩)
    · exact min_eq_left hlt.le
    · exact min_eq_right h

/-- A quotient with a given value determines its divisor. -/
lemma div_eq_iff_eq_div {c : ℝ} (hkl : kl ≠ 0) : kl / t = c ↔ t = kl / c := by
  constructor
  · rintro rfl
    exact (div_div_cancel₀ hkl).symm
  · rintro rfl
    exact div_div_cancel₀ hkl

lemma one_le_div_iff_mem (hkl : 0 < kl) : 1 ≤ kl / t ↔ 0 < t ∧ t ≤ kl := by
  constructor
  · intro h
    have ht : 0 < t := by
      by_contra hno
      have := div_nonpos_of_nonneg_of_nonpos hkl.le (not_lt.mp hno)
      linarith
    exact ⟨ht, (one_le_div ht).mp h⟩
  · rintro ⟨ht, hle⟩
    exact (one_le_div ht).mpr hle

/-- The score agrees with the documentation unless the divergence is negative. -/
lemma score_eq_documentedRisk_iff (hiso : iso ≤ 1) :
    min (0.6 * min (kl / 5) 1 + 0.4 * iso) 1 = documentedRisk kl iso ↔ 0 ≤ kl := by
  have hcap : 0.6 * min (kl / 5) 1 + 0.4 * iso ≤ 1 := by
    have := min_le_right (kl / 5) 1
    linarith
  rw [min_eq_left hcap, documentedRisk, five_eq]
  constructor
  · intro h
    have hmin : 0 ≤ min (kl / 5) 1 := by
      have := le_max_left 0 (min (kl / 5) 1)
      linarith
    have := hmin.trans (min_le_left _ _)
    linarith
  · intro h
    rw [max_eq_right (le_min (by linarith) zero_le_one)]

/-- Where the risk of an event is the score. -/
lemma risk_eq_score_iff (hiso : 0 ≤ iso ∧ iso ≤ 1) :
    min (kl / t * 0.5 + iso * 0.5) 1 = min (0.6 * min (kl / 5) 1 + 0.4 * iso) 1 ↔
      (kl ≤ 5 ∧ kl / t = 0.24 * kl - 0.2 * iso) ∨ (5 < kl ∧ kl / t = 1.2 - 0.2 * iso) ∨
        (5 ≤ kl ∧ iso = 1 ∧ 1 ≤ kl / t) := by
  generalize kl / t = r
  rcases le_or_gt kl 5 with h5 | h5
  · have hscore : min (0.6 * min (kl / 5) 1 + 0.4 * iso) 1 = 0.12 * kl + 0.4 * iso := by
      rw [min_eq_left (by linarith : kl / 5 ≤ 1), min_eq_left (by linarith)]
      ring
    rw [hscore, min_one_eq_iff (by linarith)]
    constructor
    · rintro (⟨-, h⟩ | ⟨hone, h⟩)
      · exact Or.inl ⟨h5, by linarith⟩
      · exact Or.inr (Or.inr ⟨by linarith, by linarith, by linarith⟩)
    · rintro (⟨-, h⟩ | ⟨h, -⟩ | ⟨hge, rfl, h⟩)
      · by_cases hlt : 0.12 * kl + 0.4 * iso < 1
        · exact Or.inl ⟨hlt, by linarith⟩
        · exact Or.inr ⟨by linarith, by linarith⟩
      · exact absurd h (not_lt.mpr h5)
      · exact Or.inr ⟨by linarith, by linarith⟩
  · have hscore : min (0.6 * min (kl / 5) 1 + 0.4 * iso) 1 = 0.6 + 0.4 * iso := by
      rw [min_eq_right (by linarith : 1 ≤ kl / 5), min_eq_left (by linarith)]
      ring
    rw [hscore, min_one_eq_iff (by linarith)]
    constructor
    · rintro (⟨-, h⟩ | ⟨hone, h⟩)
      · exact Or.inr (Or.inl ⟨h5, by linarith⟩)
      · exact Or.inr (Or.inr ⟨h5.le, by linarith, by linarith⟩)
    · rintro (⟨h, -⟩ | ⟨-, h⟩ | ⟨-, rfl, h⟩)
      · exact absurd h (not_le.mpr h5)
      · by_cases hlt : 0.6 + 0.4 * iso < 1
        · exact Or.inl ⟨hlt, by linarith⟩
        · exact Or.inr ⟨by linarith, by linarith⟩
      · exact Or.inr ⟨by norm_num, by linarith⟩

lemma formulas_agree_iff {threshold : ℝ} (hiso : 0 ≤ iso ∧ iso ≤ 1) :
    (min (kl / (threshold + 1) * 0.5 + iso * 0.5) 1 =
        min (0.6 * min (kl / 5) 1 + 0.4 * iso) 1 ∧
      min (0.6 * min (kl / 5) 1 + 0.4 * iso) 1 = documentedRisk kl iso) ↔
      MeetsAt kl iso threshold := by
  rw [score_eq_documentedRisk_iff hiso.2]
  rcases lt_trichotomy kl 0 with hneg | rfl | hpos
  · refine iff_of_false (fun h => absurd h.2 (not_le.mpr hneg)) ?_
    rintro (h | h | h | h) <;> linarith [h.1]
  · -- both sides vanish with the isolation score
    have hscore : min (0.6 * min ((0 : ℝ) / 5) 1 + 0.4 * iso) 1 = 0.4 * iso := by
      rw [zero_div, min_eq_left zero_le_one, mul_zero, zero_add, min_eq_left (by linarith)]
    rw [hscore, zero_div, zero_mul, zero_add, min_eq_left (by linarith)]
    constructor
    · exact fun h => Or.inl ⟨rfl, by linarith [h.1]⟩
    · rintro (⟨-, rfl⟩ | h | h | h)
      · norm_num
      · exact absurd h.1 (lt_irrefl 0)
      · linarith [h.1]
      · linarith [h.1]
  · have hzero : ¬ (kl = 0 ∧ iso = 0) := fun h => hpos.ne' h.1
    rw [risk_eq_score_iff hiso, div_eq_iff_eq_div hpos.ne', div_eq_iff_eq_div hpos.ne',
      one_le_div_iff_mem hpos, and_iff_left hpos.le, MeetsAt, five_eq, or_iff_right hzero]
    simp only [hpos, true_and]

end Arithmetic

/-! ## The detector -/

/-- What `score_program` and `check_anomaly` compute from a baseline. -/
lemma scores_of_event {d : AnomalyDetector} {programId : Pubkey} {b : ProgramBaseline ℝ}
    (hget : d.baselineStore.get programId = some b) {events : List SyscallTraceEvent}
    {timestampNs : UInt64} {event : AnomalyEvent}
    (hevent : (d.checkAnomaly programId events timestampNs).1 = some event) :
    event.riskScore = min (b.klDivergence (observedFreqs events) / (d.policy.klThreshold + 1) *
        0.5 + b.isolationScore * 0.5) 1 ∧
      d.scoreProgram programId events =
        min (0.6 * min (b.klDivergence (observedFreqs events) / 5) 1 + 0.4 * b.isolationScore)
          1 := by
  have hne : events ≠ [] := by
    rintro rfl
    rw [checkAnomaly_nil] at hevent
    exact absurd hevent (by simp)
  rw [checkAnomaly_of_get hget hne] at hevent
  exact ⟨AnomalyPolicy.evaluate_eq_some hevent, scoreProgram_of_get hget hne⟩

/-- **When there is one risk formula.**  The risk score of a returned event is the score of the
program and the documented risk exactly if the threshold of the policy is one at which the
formulas meet. -/
theorem risk_formulas_agree_iff (d : AnomalyDetector) {programId : Pubkey}
    {b : ProgramBaseline ℝ} (hget : d.baselineStore.get programId = some b)
    {events : List SyscallTraceEvent} {timestampNs : UInt64} {event : AnomalyEvent}
    (hevent : (d.checkAnomaly programId events timestampNs).1 = some event) :
    let kl := b.klDivergence (observedFreqs events)
    (event.riskScore = d.scoreProgram programId events ∧
        d.scoreProgram programId events = documentedRisk kl b.isolationScore) ↔
      MeetsAt kl b.isolationScore d.policy.klThreshold := by
  intro kl
  obtain ⟨hrisk, hscore⟩ := scores_of_event hget hevent
  rw [hrisk, hscore]
  exact formulas_agree_iff ⟨b.isolationScore_nonneg, min_le_right _ _⟩

/-! ## A program with one call -/

/-- The divergence of a call that the baseline has never seen. -/
lemma klDivergence_unseen {b : ProgramBaseline ℝ} {x : SyscallId} (h : b.freq x = 0) :
    b.klDivergence (observedFreqs (makeEvents [x])) = Real.log 1e10 := by
  have hfloor : b.floored x = epsilon := by rw [floored, h, max_eq_right epsilon_pos.le]
  rw [klDivergence_observedFreqs, ids_makeEvents, divergence, List.toFinset_cons,
    List.toFinset_nil, insert_empty_eq, Finset.sum_singleton, relFreq_makeEvents_self, hfloor,
    term, one_mul, epsilon]
  congr 1
  norm_num

lemma twentyTwo_lt_log : 22 < Real.log 1e10 := by
  have hlog : Real.log (2 ^ 33) ≤ Real.log 1e10 := Real.log_le_log (by norm_num) (by norm_num)
  rw [Real.log_pow] at hlog
  have htwo := Real.log_two_gt_d9
  push_cast at hlog
  linarith

lemma klDivergence_oneCallBaseline :
    oneCallBaseline.klDivergence (observedFreqs (makeEvents [2])) = Real.log 1e10 := by
  refine klDivergence_unseen ?_
  rw [freq_oneCallBaseline, if_neg (by decide)]

/-- A policy whose threshold the divergence exceeds returns an event. -/
lemma exists_event (policy : AnomalyPolicy) (h : policy.klThreshold < Real.log 1e10) :
    ∃ event, ((oneCallDetector policy).checkAnomaly zeroPubkey (makeEvents [2]) 0).1 =
      some event := by
  have hne : makeEvents [2] ≠ [] := by simp [makeEvents]
  rw [← Option.isSome_iff_exists, checkAnomaly_of_get (get_oneCallDetector policy) hne,
    AnomalyPolicy.evaluate_isSome_iff, klDivergence_oneCallBaseline]
  exact Or.inl h

/-- A call that was never seen before has the risk score one, and a lower score. -/
theorem unseen_call_two_risks :
    ∃ event, ((oneCallDetector defaultPolicy).checkAnomaly zeroPubkey (makeEvents [2]) 0).1 =
        some event ∧ event.riskScore = 1 ∧
      (oneCallDetector defaultPolicy).scoreProgram zeroPubkey (makeEvents [2]) < 1 := by
  have hlog := twentyTwo_lt_log
  have hiso := isolationScore_oneCallBaseline
  have hnonneg := oneCallBaseline.isolationScore_nonneg
  have hthreshold : defaultPolicy.klThreshold = 2.5 := rfl
  obtain ⟨event, hevent⟩ : ∃ event, ((oneCallDetector defaultPolicy).checkAnomaly zeroPubkey
      (makeEvents [2]) 0).1 = some event := by
    refine exists_event _ ?_
    rw [hthreshold]
    linarith
  obtain ⟨hrisk, hscore⟩ := scores_of_event (get_oneCallDetector _) hevent
  refine ⟨event, hevent, ?_, ?_⟩
  · rw [hrisk, klDivergence_oneCallBaseline, policy_oneCallDetector, hthreshold]
    have hweight : Real.log 1e10 / (2.5 + 1) * 0.5 = Real.log 1e10 / 7 := by ring
    rw [hweight]
    exact min_eq_right (by linarith)
  · rw [hscore, klDivergence_oneCallBaseline, min_eq_right (by linarith : 1 ≤ Real.log 1e10 / 5)]
    exact (min_le_left _ _).trans_lt (by linarith)

/-- The formulas meet if the threshold is chosen for the call. -/
theorem risk_formulas_agree_unseen :
    let threshold := Real.log 1e10 / (1.2 - 0.2 * oneCallBaseline.isolationScore) - 1
    let d := oneCallDetector ⟨.log, threshold, 0.7⟩
    ∃ event, (d.checkAnomaly zeroPubkey (makeEvents [2]) 0).1 = some event ∧
      event.riskScore = d.scoreProgram zeroPubkey (makeEvents [2]) := by
  intro threshold d
  have hlog := twentyTwo_lt_log
  have hiso := isolationScore_oneCallBaseline
  have hdivisor : 1 ≤ 1.2 - 0.2 * oneCallBaseline.isolationScore := by linarith
  have hlt : threshold < Real.log 1e10 := by
    have := div_le_self (by linarith : 0 ≤ Real.log 1e10) hdivisor
    show _ - 1 < _
    linarith
  obtain ⟨event, hevent⟩ := exists_event ⟨.log, threshold, 0.7⟩ hlt
  refine ⟨event, hevent, ((risk_formulas_agree_iff d (get_oneCallDetector _) hevent).mpr ?_).1⟩
  rw [klDivergence_oneCallBaseline]
  refine Or.inr (Or.inr (Or.inl ⟨by linarith, ?_⟩))
  show threshold + 1 = _
  exact sub_add_cancel _ 1

end AnomalyDetector

end SyscallMind
