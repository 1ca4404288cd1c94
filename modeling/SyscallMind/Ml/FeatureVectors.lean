/-
# Three feature vectors

The anomaly model is trained on the features of `extract_features` in
`ml/training/anomaly/isolation_forest.py`, the detector computes `feature_vector` of a baseline,
and `docs/ml_design.md` has a table of eight features.  The table and the detector agree on the
first four; then the table has `log(1 + total calls)` where the detector already starts with the
frequencies (`featureVector_eq`).  A frequency is never the logarithm in its place, so the
detector's vector is never the documented one, nor the one of the trainer
(`features_never_agree`).

The trainer has the documented order, but takes the depth as it is, does not cap the delay and
has the entropy in the place of the number of ids (`extractFeatures_eq_documented_iff`).
-/
import Mathlib.Analysis.Complex.ExponentialBounds
import Mathlib.Analysis.SpecialFunctions.Log.Base
import Mathlib.Data.List.GetD
import SyscallMind.Anomaly.Detector
import SyscallMind.Anomaly.InterCallDelay
import SyscallMind.Pipeline.WindowBuilder

namespace SyscallMind

open Lib ProgramBaseline

/-! ## The statistics of a window -/

/-- The mean time between consecutive events, exactly. -/
noncomputable def meanDistance (events : List SyscallTraceEvent) : ℝ :=
  ((events.zipWith distance events.tail).sum : ℝ) /
    ((events.zipWith distance events.tail).length : ℝ)

/-- The same in milliseconds. -/
noncomputable def meanDistanceMs (events : List SyscallTraceEvent) : ℝ :=
  meanDistance events / (1000000 : ℕ)

/-- The frequencies in a window, the largest one first. -/
noncomputable def sortedFrequencies (events : List SyscallTraceEvent) : List ℝ :=
  ((observedFreqs events).entries.map (·.2)).insertionSort (· ≥ ·)

/-- The baseline has the statistics of the window. -/
structure HasStatistics (w : ExecutionWindow) (b : ProgramBaseline ℝ) : Prop where
  frequencies : b.syscallFrequencies.entries.Perm (observedFreqs w.events).entries
  cryptoRatio : b.cryptoRatio = (cryptoCount w.events : ℝ) / w.events.length
  meanDelay : b.meanInterCallDelayNs = meanDistance w.events
  maxDepth : b.maxCpiDepth = ProgramBaseline.maxDepth w.events
  total : b.totalObservations = w.events.length

/-! ## The vectors -/

/-- One row of the matrix that the trainer fits, `extract_features`. -/
noncomputable def extractFeatures (w : ExecutionWindow) : List ℝ :=
  let events := w.events
  if events.isEmpty then List.replicate 8 0
  else
    let total : ℝ := (ids events).length
    let cryptoRatio := (cryptoCount events : ℝ) / total
    let maxCpiDepth : ℝ := (maxDepth events).toNat
    let meanDelay :=
      if 1 < events.length then
        let delays := events.zipWith distance events.tail
        (delays.sum : ℝ) / (delays.length : ℝ) / (1000000 : ℕ)
      else 0
    let freq := (HashMap.countAll (ids events)).entries.map (·.2)
    let entropy := -((freq.filter fun c => 0 < c).map fun c : ℕ =>
      (c : ℝ) / total * Real.logb (2 : ℕ) ((c : ℝ) / total)).sum
    let logCalls := Real.log (1 + total)
    let sortedFreqs := (freq.map fun c : ℕ => (c : ℝ) / total).insertionSort (· ≥ ·)
    let sortedFreqs := sortedFreqs ++ List.replicate 3 0
    [cryptoRatio, maxCpiDepth, meanDelay, entropy, logCalls, sortedFreqs.getD 0 0,
      sortedFreqs.getD 1 0, sortedFreqs.getD 2 0]

/-- The Shannon entropy of the frequencies in a window, in bits. -/
noncomputable def entropy (events : List SyscallTraceEvent) : ℝ :=
  -((sortedFrequencies events).map fun p => p * Real.logb (2 : ℕ) p).sum

/-- The number of different ids in a window, over thirty. -/
noncomputable def diversity (events : List SyscallTraceEvent) : ℝ :=
  ((observedFreqs events).entries.length : ℝ) / (30 : ℕ)

/-- The table of the documentation. -/
noncomputable def documentedFeatures (w : ExecutionWindow) : List ℝ :=
  [(cryptoCount w.events : ℝ) / w.events.length,
    ((maxDepth w.events).toNat : ℝ) / (10 : ℕ),
    min (meanDistanceMs w.events) (100 : ℕ),
    diversity w.events,
    Real.log (1 + w.events.length),
    (sortedFrequencies w.events).getD 0 0,
    (sortedFrequencies w.events).getD 1 0,
    (sortedFrequencies w.events).getD 2 0]

/-- Trainer, documentation and detector have the same vector of a window. -/
def FeaturesAgree (w : ExecutionWindow) : Prop :=
  extractFeatures w = documentedFeatures w ∧
    ∀ b, HasStatistics w b → b.featureVector = documentedFeatures w

/-- The baseline of one window by itself. -/
noncomputable def statistics (programId : Pubkey) (w : ExecutionWindow) : ProgramBaseline ℝ where
  programId := programId
  syscallFrequencies := observedFreqs w.events
  meanInterCallDelayNs := meanDistance w.events
  maxCpiDepth := maxDepth w.events
  cryptoRatio := (cryptoCount w.events : ℝ) / w.events.length
  totalObservations := w.events.length

lemma hasStatistics_statistics (programId : Pubkey) (w : ExecutionWindow) :
    HasStatistics w (statistics programId w) :=
  ⟨List.Perm.refl _, rfl, rfl, rfl, rfl⟩

/-! ## The detector -/

lemma getD_append_zeros (l : List ℝ) (k i : ℕ) :
    (l ++ List.replicate k 0).getD i 0 = l.getD i 0 := by
  rcases lt_or_ge i l.length with hi | hi
  · exact List.getD_append _ _ _ _ hi
  · rw [List.getD_append_right _ _ _ _ hi, List.getD_eq_default _ _ hi,
      List.getD_eq_getElem?_getD, List.getElem?_getD_replicate_default_eq]

lemma getD_take (l : List ℝ) {k i : ℕ} (hi : i < k) : (l.take k).getD i 0 = l.getD i 0 := by
  rw [List.getD_eq_getElem?_getD, List.getElem?_take, if_pos hi, ← List.getD_eq_getElem?_getD]

lemma sortedFrequencies_eq {w : ExecutionWindow} {b : ProgramBaseline ℝ}
    (hb : HasStatistics w b) :
    (b.syscallFrequencies.entries.map (·.2)).insertionSort (· ≥ ·) =
      sortedFrequencies w.events := by
  have hperm := (hb.frequencies.map (·.2)).trans (List.perm_insertionSort (· ≥ ·) _).symm
  exact ((List.perm_insertionSort (· ≥ ·) _).trans hperm).eq_of_pairwise'
    (List.pairwise_insertionSort _ _) (List.pairwise_insertionSort _ _)

/-- The detector's vector: the first four features of the table, then the frequencies. -/
theorem featureVector_eq {w : ExecutionWindow} {b : ProgramBaseline ℝ} (hb : HasStatistics w b) :
    b.featureVector = (documentedFeatures w).take 4 ++
      [(sortedFrequencies w.events).getD 0 0, (sortedFrequencies w.events).getD 1 0,
        (sortedFrequencies w.events).getD 2 0, (sortedFrequencies w.events).getD 3 0] := by
  have hfreq : ∀ i, i < 5 →
      (((b.syscallFrequencies.entries.map (·.2)).insertionSort (· ≥ ·) ++
        List.replicate 5 (0 : ℝ)).take 5).getD i 0 = (sortedFrequencies w.events).getD i 0 := by
    intro i hi
    rw [getD_take _ hi, getD_append_zeros, sortedFrequencies_eq hb]
  simp only [featureVector, hfreq 0 (by omega), hfreq 1 (by omega), hfreq 2 (by omega),
    hfreq 3 (by omega), hb.cryptoRatio, hb.maxDepth, hb.meanDelay, hb.frequencies.length_eq]
  rfl

/-! ## The logarithm is not a frequency -/

lemma sortedFrequencies_ne_nil {events : List SyscallTraceEvent} (hne : events ≠ []) :
    sortedFrequencies events ≠ [] := by
  obtain ⟨e, he⟩ := List.exists_mem_of_ne_nil events hne
  have hmem : e.syscallId ∈ (observedFreqs events).keys := by
    rw [← List.mem_toFinset, keys_observedFreqs, List.mem_toFinset]
    exact List.mem_map_of_mem he
  intro h
  have hempty : (observedFreqs events).entries = [] := by
    have hlen := congrArg List.length h
    rw [sortedFrequencies, List.length_insertionSort, List.length_map] at hlen
    exact List.length_eq_zero_iff.mp hlen
  rw [AList.keys, hempty] at hmem
  exact absurd hmem (by simp [List.keys])

/-- The largest frequency is the one of an id of the window. -/
lemma exists_largest_eq {events : List SyscallTraceEvent} (hne : events ≠ []) :
    ∃ x ∈ ids events, (sortedFrequencies events).getD 0 0 = relFreq events x := by
  have hlen := List.length_pos_iff.mpr (sortedFrequencies_ne_nil hne)
  have hmem : (sortedFrequencies events).getD 0 0 ∈ sortedFrequencies events := by
    rw [List.getD_eq_getElem _ _ hlen]
    exact List.getElem_mem hlen
  obtain ⟨⟨x, p⟩, he, hp⟩ := List.mem_map.mp ((List.mem_insertionSort _).mp hmem)
  obtain ⟨hx, hfreq⟩ := lookup_observedFreqs ((HashMap.mem_entries_iff _).mp he)
  exact ⟨x, hx, hp.symm.trans hfreq⟩

lemma one_lt_log_three : 1 < Real.log 3 := by
  rw [Real.lt_log_iff_exp_lt (by norm_num)]
  have := Real.exp_one_lt_d9
  linarith

/-- A frequency is a fraction `c / n` with `1 ≤ c ≤ n`, and the logarithm is none. -/
lemma relFreq_ne_log {events : List SyscallTraceEvent} {x : SyscallId} (hx : x ∈ ids events) :
    (relFreq events x : ℝ) ≠ Real.log (1 + events.length) := by
  have hpos : 0 < (ids events).count x := List.count_pos_iff.mpr hx
  have hle : (ids events).count x ≤ events.length := by
    have hcount := List.count_le_length (a := x) (l := ids events)
    rwa [ids, List.length_map] at hcount
  rcases (show events.length = 1 ∨ 2 ≤ events.length by omega) with hone | htwo
  · have hcount : (ids events).count x = 1 := by omega
    have hlog := Real.log_two_lt_d9
    rw [relFreq, hcount, hone, Nat.cast_one, div_one, one_add_one_eq_two]
    linarith
  · have hcast : (3 : ℝ) ≤ 1 + events.length := by
      have : (2 : ℝ) ≤ events.length := by exact_mod_cast htwo
      linarith
    have hmono := Real.log_le_log (by norm_num) hcast
    have hlog := one_lt_log_three
    have hone := (relFreq_mem (K := ℝ) events x).2
    linarith

/-- The fifth number of the detector is a frequency. -/
lemma featureVector_getD_four {w : ExecutionWindow} {b : ProgramBaseline ℝ}
    (hb : HasStatistics w b) :
    b.featureVector.getD 4 0 = (sortedFrequencies w.events).getD 0 0 := by
  rw [featureVector_eq hb]
  rfl

lemma largest_ne_log {w : ExecutionWindow} (hne : w.events ≠ []) :
    (sortedFrequencies w.events).getD 0 0 ≠ Real.log (1 + w.events.length) := by
  obtain ⟨x, hx, hlargest⟩ := exists_largest_eq hne
  rw [hlargest]
  exact relFreq_ne_log hx

/-! ## The trainer -/

lemma length_ids (events : List SyscallTraceEvent) : (ids events).length = events.length :=
  List.length_map _

/-- The counts over the total are the observed frequencies. -/
lemma counts_div_total (events : List SyscallTraceEvent) :
    ((HashMap.countAll (ids events)).entries.map (·.2)).map
        (fun c : ℕ => (c : ℝ) / (ids events).length) =
      (observedFreqs events).entries.map (·.2) := by
  rw [length_ids, List.map_map, observedFreqs, HashMap.mapValues, List.map_map]
  rfl

/-- No count is zero, so the guard of the logarithm drops nothing. -/
lemma filter_counts (events : List SyscallTraceEvent) :
    ((HashMap.countAll (ids events)).entries.map (·.2)).filter (fun c => 0 < c) =
      (HashMap.countAll (ids events)).entries.map (·.2) := by
  refine List.filter_eq_self.mpr fun c hc => decide_eq_true ?_
  obtain ⟨⟨x, c⟩, he, rfl⟩ := List.mem_map.mp hc
  have hlookup := (HashMap.mem_entries_iff _).mp he
  rw [HashMap.lookup_countAll] at hlookup
  split at hlookup
  · next hx =>
    show 0 < c
    rw [← Option.some.inj hlookup]
    exact List.count_pos_iff.mpr hx
  · exact absurd hlookup (by simp)

lemma entropy_eq (events : List SyscallTraceEvent) :
    -((((HashMap.countAll (ids events)).entries.map (·.2)).filter fun c => 0 < c).map
        fun c : ℕ => (c : ℝ) / (ids events).length *
          Real.logb (2 : ℕ) ((c : ℝ) / (ids events).length)).sum = entropy events := by
  have hsplit : (fun c : ℕ => (c : ℝ) / (ids events).length *
      Real.logb (2 : ℕ) ((c : ℝ) / (ids events).length)) =
      (fun p : ℝ => p * Real.logb (2 : ℕ) p) ∘ fun c : ℕ => (c : ℝ) / (ids events).length := rfl
  rw [filter_counts, hsplit, ← List.map_map, counts_div_total, entropy, sortedFrequencies]
  exact congrArg Neg.neg ((List.perm_insertionSort _ _).symm.map _).sum_eq

/-- The trainer's vector in the words of the table. -/
theorem extractFeatures_eq {w : ExecutionWindow} (hne : w.events ≠ []) :
    extractFeatures w =
      [(cryptoCount w.events : ℝ) / w.events.length, ((maxDepth w.events).toNat : ℝ),
        meanDistanceMs w.events, entropy w.events, Real.log (1 + w.events.length),
        (sortedFrequencies w.events).getD 0 0, (sortedFrequencies w.events).getD 1 0,
        (sortedFrequencies w.events).getD 2 0] := by
  have hempty : w.events.isEmpty = false := by simpa using hne
  have hdelay : (if 1 < w.events.length then meanDistanceMs w.events else 0) =
      meanDistanceMs w.events := by
    split
    · rfl
    · next hlen =>
      -- a single event has no delays, and the mean of none is zero
      have hnil : w.events.zipWith distance w.events.tail = [] := by
        rw [← List.length_eq_zero_iff, List.length_zipWith, List.length_tail]
        omega
      rw [meanDistanceMs, meanDistance, hnil]
      simp
  simp only [extractFeatures, hempty, Bool.false_eq_true, if_false, getD_append_zeros,
    counts_div_total, entropy_eq]
  rw [← hdelay, length_ids]
  rfl

/-- When the trainer follows the table. -/
theorem extractFeatures_eq_documented_iff {w : ExecutionWindow} (hne : w.events ≠ []) :
    extractFeatures w = documentedFeatures w ↔
      maxDepth w.events = 0 ∧ meanDistanceMs w.events ≤ (100 : ℕ) ∧
        entropy w.events = diversity w.events := by
  have hdepth : ((maxDepth w.events).toNat : ℝ) =
      ((maxDepth w.events).toNat : ℝ) / (10 : ℕ) ↔
      maxDepth w.events = 0 := by
    rw [← UInt8.toNat_inj, UInt8.toNat_zero]
    constructor
    · intro h
      have : ((maxDepth w.events).toNat : ℝ) = 0 := by
        rw [Nat.cast_ofNat] at h
        linarith
      exact_mod_cast this
    · intro h
      rw [h]
      simp
  rw [extractFeatures_eq hne, documentedFeatures]
  simp only [List.cons.injEq, true_and, and_true, hdepth, eq_comm (b := min _ _), min_eq_left_iff]

/-! ## The three together -/

/-- **The detector's vector is never the documented one**, nor the one that the model is
trained on. -/
theorem features_never_agree (w : ExecutionWindow) (hne : w.events ≠ []) : ¬ FeaturesAgree w := by
  intro h
  have hstats := hasStatistics_statistics zeroPubkey w
  have hfour := congrArg (fun l => l.getD 4 0) (h.2 _ hstats)
  simp only [featureVector_getD_four hstats] at hfour
  exact largest_ne_log hne hfour

/-- A window with one sysvar read at the given depth. -/
def oneCallWindow (depth : UInt8) : ExecutionWindow :=
  ⟨zeroTxId, 0, [⟨zeroPubkey, 1, 0, 0, 0, zeroTxId, depth⟩], 0, 0⟩

/-- A read at the top level. -/
theorem features_never_agree_one_call :
    (oneCallWindow 0).events ≠ [] ∧ ¬ FeaturesAgree (oneCallWindow 0) :=
  ⟨by decide, features_never_agree (oneCallWindow 0) (by decide)⟩

/-- A read at depth three: the trainer has three where the table has `3 / 10`, and the detector
has the frequency one where the table has `log 2`. -/
theorem features_disagree_at_depth :
    extractFeatures (oneCallWindow 3) ≠ documentedFeatures (oneCallWindow 3) ∧
      (statistics zeroPubkey (oneCallWindow 3)).featureVector ≠
        documentedFeatures (oneCallWindow 3) ∧
      ¬ FeaturesAgree (oneCallWindow 3) := by
  have hne : (oneCallWindow 3).events ≠ [] := by decide
  have htrainer : extractFeatures (oneCallWindow 3) ≠ documentedFeatures (oneCallWindow 3) := by
    rw [Ne, extractFeatures_eq_documented_iff hne]
    rintro ⟨hdepth, -⟩
    exact absurd hdepth (by decide)
  refine ⟨htrainer, fun h => ?_, fun h => htrainer h.1⟩
  have hfour := congrArg (fun l => l.getD 4 0) h
  simp only [featureVector_getD_four (hasStatistics_statistics _ _)] at hfour
  exact largest_ne_log hne hfour

end SyscallMind
