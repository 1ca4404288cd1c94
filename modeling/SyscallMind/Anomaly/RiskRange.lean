/-
# The range of the risk scores

The scores are capped from above.  From below they are bounded by the divergence, which is
negative when the stored frequencies add up to more than one, and only the isolation score of
the baseline can make up for that.  So all scores of a state lie between zero and one exactly
when the stored frequencies of every program, each raised to the floor, add up to at most
`exp (isolationScore / 0.3)` over every set of ids (`inRange_iff`).

The stored frequency of an id that is missing from a window does not decay.  A program that
repeats one call at a time, one id after the other, therefore collects frequencies with a sum
far above one, and a list of events with all these ids then has a negative score
(`uniform_after_training_negative`).
-/
import Mathlib.Analysis.Complex.ExponentialBounds
import Mathlib.Data.Bool.AllAny
import SyscallMind.Anomaly.BaselineHistory
import SyscallMind.Anomaly.Detector

namespace SyscallMind

open Lib

namespace AnomalyDetector

open ProgramBaseline Divergence

/-- Every score of the state is in its range, and so is the risk score of every event under
the default thresholds. -/
def InRange (d : AnomalyDetector) : Prop :=
  ∀ programId events,
    (0 ≤ d.scoreProgram programId events ∧ d.scoreProgram programId events ≤ 1) ∧
      (d.policy.klThreshold = 2.5 → d.policy.isolationThreshold = 0.7 →
        ∀ timestampNs event, (d.checkAnomaly programId events timestampNs).1 = some event →
          0 ≤ event.riskScore ∧ event.riskScore ≤ 1)

/-- The stored frequencies, raised to the floor, do not outweigh the isolation score. -/
def Bounded (b : ProgramBaseline ℝ) : Prop :=
  ∀ s : Finset SyscallId,
    ∑ x ∈ s, max (b.freq x) epsilon ≤ Real.exp (b.isolationScore / 0.3)

/-! ## A bounded baseline -/

lemma klDivergence_ge {b : ProgramBaseline ℝ} (hb : Bounded b) {events : List SyscallTraceEvent}
    (hne : events ≠ []) :
    -(b.isolationScore / 0.3) ≤ b.klDivergence (observedFreqs events) := by
  have hids : (ids events).toFinset.Nonempty := by
    obtain ⟨e, he⟩ := List.exists_mem_of_ne_nil events hne
    exact ⟨e.syscallId, List.mem_toFinset.mpr (List.mem_map_of_mem he)⟩
  have hpos : 0 < ∑ x ∈ (ids events).toFinset, b.floored x :=
    Finset.sum_pos (fun x _ => b.floored_pos x) hids
  have hlog : Real.log (∑ x ∈ (ids events).toFinset, b.floored x) ≤ b.isolationScore / 0.3 :=
    (Real.log_le_iff_le_exp hpos).mpr (hb _)
  have hgibbs := neg_log_sum_le_divergence
    (fun x _ => (relFreq_mem events x).1)
    (fun x _ => b.floored_pos x) (sum_relFreq_of_subset hne fun x hx => List.mem_toFinset.mpr hx)
  rw [klDivergence_observedFreqs]
  linarith

lemma div_three_tenths (x : ℝ) : x / 0.3 = 10 / 3 * x := by
  norm_num
  ring

lemma score_nonneg {kl iso : ℝ} (hiso : 0 ≤ iso) (hkl : -(iso / 0.3) ≤ kl) :
    0 ≤ min (0.6 * min (kl / 5) 1 + 0.4 * iso) 1 := by
  rw [div_three_tenths] at hkl
  refine le_min ?_ zero_le_one
  rcases le_total (kl / 5) 1 with h | h
  · rw [min_eq_left h]
    linarith
  · rw [min_eq_right h]
    linarith

lemma risk_nonneg {kl iso : ℝ} (hiso : 0 ≤ iso) (hkl : -(iso / 0.3) ≤ kl) :
    0 ≤ min (kl / (2.5 + 1) * 0.5 + iso * 0.5) 1 := by
  rw [div_three_tenths] at hkl
  have hweight : kl / (2.5 + 1) * 0.5 = kl / 7 := by ring
  refine le_min ?_ zero_le_one
  rw [hweight]
  linarith

lemma inRange_of_bounded {d : AnomalyDetector}
    (hd : ∀ programId b, d.baselineStore.get programId = some b → Bounded b) : InRange d := by
  intro programId events
  cases hget : d.baselineStore.get programId with
  | none => simp [scoreProgram, checkAnomaly, hget]
  | some b =>
    by_cases hne : events = []
    · subst hne
      simp [scoreProgram, checkAnomaly, hget]
    · have hkl := klDivergence_ge (hd programId b hget) hne
      have hiso := b.isolationScore_nonneg
      refine ⟨?_, fun hthreshold _ t event hevent => ?_⟩
      · rw [scoreProgram_of_get hget hne]
        exact ⟨score_nonneg hiso hkl, min_le_right _ _⟩
      · rw [checkAnomaly_of_get hget hne] at hevent
        rw [AnomalyPolicy.evaluate_eq_some hevent, hthreshold]
        exact ⟨risk_nonneg hiso hkl, min_le_right _ _⟩

/-! ## A baseline that is not bounded -/

/-- Events in which every id of the set occurs as often as counted. -/
noncomputable def eventsOf (s : Finset SyscallId) (counts : SyscallId → ℕ) :
    List SyscallTraceEvent :=
  makeEvents (s.toList.flatMap fun x => List.replicate (counts x) x)

lemma count_eventsOf (s : Finset SyscallId) (counts : SyscallId → ℕ) (x : SyscallId) :
    (ids (eventsOf s counts)).count x = if x ∈ s then counts x else 0 := by
  rw [eventsOf, ids_makeEvents, List.count_flatMap]
  have hcount : (List.count x ∘ fun y => List.replicate (counts y) y) =
      fun y => if y = x then counts y else 0 := by
    ext y
    simp [List.count_replicate]
  rw [hcount, Finset.sum_map_toList, Finset.sum_ite_eq']

lemma length_eventsOf (s : Finset SyscallId) (counts : SyscallId → ℕ) :
    (eventsOf s counts).length = ∑ x ∈ s, counts x := by
  rw [eventsOf, makeEvents, List.length_map, List.length_flatMap]
  simp only [List.length_replicate]
  exact Finset.sum_map_toList s counts

/-- Some list of events has a negative score. -/
lemma exists_score_neg {b : ProgramBaseline ℝ} (hb : ¬ Bounded b) :
    ∃ events, events ≠ [] ∧
      0.6 * min (b.klDivergence (observedFreqs events) / 5) 1 + 0.4 * b.isolationScore < 0 := by
  rw [Bounded, not_forall] at hb
  obtain ⟨s, hs⟩ := hb
  have hexp : Real.exp (b.isolationScore / 0.3) < ∑ x ∈ s, b.floored x := lt_of_not_ge hs
  have hne : s.Nonempty := by
    refine Finset.nonempty_of_sum_ne_zero (f := b.floored) ?_
    exact ((Real.exp_pos _).trans hexp).ne'
  have hlog : -Real.log (∑ x ∈ s, b.floored x) < -(b.isolationScore / 0.3) :=
    neg_lt_neg ((Real.lt_log_iff_exp_lt ((Real.exp_pos _).trans hexp)).mpr hexp)
  obtain ⟨counts, hcounts, hlt⟩ :=
    exists_counts_divergence_lt hne (fun x _ => b.floored_pos x) hlog
  have hset : (ids (eventsOf s counts)).toFinset = s := by
    ext x
    rw [List.mem_toFinset, ← List.count_pos_iff, count_eventsOf]
    by_cases hx : x ∈ s
    · simp [hx, hcounts x hx]
    · simp [hx]
  have hkl : b.klDivergence (observedFreqs (eventsOf s counts)) =
      divergence s (relative s counts) b.floored := by
    rw [klDivergence_observedFreqs, hset]
    refine Finset.sum_congr rfl fun x hx => ?_
    rw [relFreq, count_eventsOf, if_pos hx, length_eventsOf, relative]
  refine ⟨eventsOf s counts, ?_, ?_⟩
  · intro hnil
    rw [hnil] at hset
    exact hne.ne_empty hset.symm
  · have hiso := b.isolationScore_nonneg
    rw [div_three_tenths] at hlt
    rw [hkl, min_eq_left (by linarith)]
    linarith

lemma bounded_of_inRange {d : AnomalyDetector} (hd : InRange d) {programId : Pubkey}
    {b : ProgramBaseline ℝ} (hget : d.baselineStore.get programId = some b) : Bounded b := by
  by_contra hb
  obtain ⟨events, hne, hneg⟩ := exists_score_neg hb
  have hscore := (hd programId events).1.1
  rw [scoreProgram_of_get hget hne] at hscore
  exact absurd ((le_min_iff.mp hscore).1) (not_le.mpr hneg)

/-! ## Runs -/

/-- A run of `ingest_window`. -/
noncomputable def afterRun (policy : AnomalyPolicy) (contaminationThreshold : ℝ)
    (run : List (Pubkey × List SyscallTraceEvent)) : AnomalyDetector :=
  Run.after (fun d step => d.ingestWindow step.1 step.2) (new policy contaminationThreshold) run

/-- **When all risk scores stay in their range.** -/
theorem inRange_iff (policy : AnomalyPolicy) (contaminationThreshold : ℝ)
    (run : List (Pubkey × List SyscallTraceEvent)) :
    InRange (afterRun policy contaminationThreshold run) ↔
      ∀ programId b,
        (afterRun policy contaminationThreshold run).baselineStore.get programId = some b →
          Bounded b :=
  ⟨fun h _ _ hget => bounded_of_inRange h hget, inRange_of_bounded⟩

/-- After windows of one program only, the program has the baseline of its windows. -/
lemma get_afterRun (policy : AnomalyPolicy) (contaminationThreshold : ℝ) (programId : Pubkey)
    (windows : List (List SyscallTraceEvent)) :
    (afterRun policy contaminationThreshold
        (windows.map fun w => (programId, w))).baselineStore.get programId =
      if windows = [] then none else some (afterWindows programId windows) := by
  induction windows using List.reverseRecOn with
  | nil => rfl
  | append_singleton ws w ih =>
    have hstep : afterRun policy contaminationThreshold
        ((ws ++ [w]).map fun w => (programId, w)) =
          (afterRun policy contaminationThreshold
            (ws.map fun w => (programId, w))).ingestWindow programId w := by
      rw [List.map_append]
      exact Run.after_append _ _ _ _
    have hne : ws ++ [w] ≠ [] := by simp
    rw [hstep, ingestWindow, BaselineStore.get_updateProgram, if_pos rfl, ih, if_neg hne,
      afterWindows_concat]
    by_cases hws : ws = []
    · subst hws
      rfl
    · rw [if_neg hws]
      rfl

/-! ## A program that repeats one call at a time -/

/-- Windows of one call each. -/
def singleWindows (l : List SyscallId) : List (List SyscallTraceEvent) :=
  l.map fun x => makeEvents [x]

lemma singleWindows_ne_nil (l : List SyscallId) : ∀ w ∈ singleWindows l, w ≠ [] := by
  intro w hw
  obtain ⟨x, -, rfl⟩ := List.mem_map.mp hw
  simp [makeEvents]

lemma relFreq_makeEvents_self (x : SyscallId) : (relFreq (makeEvents [x]) x : ℝ) = 1 := by
  rw [relFreq, ids_makeEvents]
  simp [makeEvents]

/-- The features that do not come from the frequencies stay zero. -/
lemma features_singleWindows (programId : Pubkey) {l : List SyscallId}
    (hl : ∀ x ∈ l, x ∉ cryptoIds) :
    let b : ProgramBaseline ℝ := afterWindows programId (singleWindows l)
    b.cryptoRatio = 0 ∧ b.meanInterCallDelayNs = 0 ∧ b.maxCpiDepth = 0 := by
  induction l using List.reverseRecOn with
  | nil => exact ⟨rfl, rfl, rfl⟩
  | append_singleton l x ih =>
    obtain ⟨hcrypto, hdelay, hdepth⟩ := ih fun y hy => hl y (by simp [hy])
    have hx : x ∉ cryptoIds := hl x (by simp)
    have hconcat : singleWindows (l ++ [x]) = singleWindows l ++ [makeEvents [x]] := by
      simp [singleWindows]
    intro b
    have hb : b = (afterWindows programId (singleWindows l)).update (makeEvents [x]) := by
      rw [← afterWindows_concat, ← hconcat]
    have hne : makeEvents [x] ≠ [] := by simp [makeEvents]
    refine ⟨?_, ?_, ?_⟩
    · rw [hb, cryptoRatio_update _ hne, hcrypto]
      simp [blend, cryptoCount, makeEvents, hx]
    · rw [hb]
      simpa [update, makeEvents] using hdelay
    · rw [hb]
      simp [update, makeEvents, maxDepth, hdepth]

/-- The frequency of an id grows with each of its windows. -/
lemma freq_singleWindows (programId : Pubkey) (l : List SyscallId) (x : SyscallId) :
    (afterWindows programId (singleWindows l) : ProgramBaseline ℝ).freq x =
      1 - (1 - alpha) ^ l.count x := by
  induction l using List.reverseRecOn with
  | nil => simp [singleWindows, afterWindows]
  | append_singleton l y ih =>
    have hconcat : singleWindows (l ++ [y]) = singleWindows l ++ [makeEvents [y]] := by
      simp [singleWindows]
    have hne : makeEvents [y] ≠ [] := by simp [makeEvents]
    rw [hconcat, afterWindows_concat, freq_update _ hne, ih, ids_makeEvents, List.count_append]
    by_cases hxy : x = y
    · subst hxy
      rw [if_pos (by simp), relFreq_makeEvents_self, List.count_singleton_self, pow_succ, blend]
      ring
    · rw [if_neg (by simpa using hxy), List.count_singleton, if_neg (by simpa using Ne.symm hxy),
        Nat.add_zero]

lemma length_frequencies_singleWindows (programId : Pubkey) (l : List SyscallId) :
    (afterWindows programId (singleWindows l) :
      ProgramBaseline ℝ).syscallFrequencies.entries.length = l.toFinset.card := by
  rw [← HashMap.length_keys, ← List.toFinset_card_of_nodup (AList.keys_nodup _)]
  congr 1
  ext x
  rw [List.mem_toFinset, List.mem_toFinset, ← AList.mem_keys,
    mem_frequencies_afterWindows programId (singleWindows_ne_nil l)]
  simp [singleWindows, ids_makeEvents]

/-- The stored frequencies. -/
def values (b : ProgramBaseline ℝ) : List ℝ := b.syscallFrequencies.entries.map (·.2)

/-- The last four features are stored frequencies, or zeros where there are not enough. -/
lemma exists_largest {b : ProgramBaseline ℝ} {m : ℝ} (hm : 0 ≤ m)
    (hvalues : ∀ f ∈ values b, 0 ≤ f ∧ f ≤ m) :
    ∃ largest : ℕ → ℝ, (∀ i, 0 ≤ largest i ∧ largest i ≤ m) ∧
      b.featureVector = [b.cryptoRatio, (b.maxCpiDepth.toNat : ℝ) / 10,
        min (b.meanInterCallDelayNs / 1000000) 100,
        (b.syscallFrequencies.entries.length : ℝ) / 30, largest 0, largest 1, largest 2,
        largest 3] := by
  refine ⟨fun i => (((values b).insertionSort (· ≥ ·) ++ List.replicate 5 0).take 5).getD i 0,
    fun i => ?_, rfl⟩
  simp only [List.getD_eq_getElem?_getD]
  cases hi : (((values b).insertionSort (· ≥ ·) ++ List.replicate 5 0).take 5)[i]? with
  | none => exact ⟨le_refl _, hm⟩
  | some x =>
    rcases List.mem_append.mp (List.mem_of_mem_take (List.mem_of_getElem? hi)) with hx | hx
    · exact hvalues x ((List.mem_insertionSort _).mp hx)
    · rw [(List.mem_replicate.mp hx).2]
      exact ⟨le_refl _, hm⟩

lemma mem_values_of_freq {b : ProgramBaseline ℝ} {m : ℝ}
    (h : ∀ x, 0 ≤ b.freq x ∧ b.freq x ≤ m) : ∀ f ∈ values b, 0 ≤ f ∧ f ≤ m := by
  intro f hf
  obtain ⟨⟨x, f⟩, he, rfl⟩ := List.mem_map.mp hf
  have hfreq : b.freq x = f := by
    rw [freq, (HashMap.mem_entries_iff _).mp he]
    rfl
  show 0 ≤ f ∧ f ≤ m
  rw [← hfreq]
  exact h x

/-- The isolation score of a program that repeats one call at a time comes from the number of
its ids and from their frequencies. -/
lemma isolationScore_singleWindows_le (programId : Pubkey) {l : List SyscallId}
    (hl : ∀ x ∈ l, x ∉ cryptoIds) {m c : ℝ} (hm : 0 ≤ m) (hc : 0 ≤ c)
    (hfreq : ∀ x, (afterWindows programId (singleWindows l) : ProgramBaseline ℝ).freq x ≤ m)
    (hbound : (l.toFinset.card / 30) ^ 2 + 4 * m ^ 2 ≤ (3 * c) ^ 2) :
    (afterWindows programId (singleWindows l) : ProgramBaseline ℝ).isolationScore ≤ c := by
  obtain ⟨hratio, hdelay, hdepth⟩ := features_singleWindows programId hl
  have hlen := length_frequencies_singleWindows programId l
  have hnonneg : ∀ x, 0 ≤ (afterWindows programId (singleWindows l) :
      ProgramBaseline ℝ).freq x := by
    intro x
    have hpow : (1 - alpha : ℝ) ^ l.count x ≤ 1 :=
      pow_le_one₀ (by rw [alpha]; norm_num) (by rw [alpha]; norm_num)
    rw [freq_singleWindows]
    linarith
  obtain ⟨largest, hlargest, hfeatures⟩ :=
    exists_largest hm (mem_values_of_freq fun x => ⟨hnonneg x, hfreq x⟩)
  have hsquare : ∀ i, largest i * largest i ≤ m * m := fun i =>
    mul_self_le_mul_self (hlargest i).1 (hlargest i).2
  have hsum : ((afterWindows programId (singleWindows l) :
      ProgramBaseline ℝ).featureVector.map fun x => x * x).sum ≤ (3 * c) ^ 2 := by
    have h0 := hsquare 0
    have h1 := hsquare 1
    have h2 := hsquare 2
    have h3 := hsquare 3
    rw [hfeatures, hratio, hdelay, hdepth, hlen]
    simp only [List.map_cons, List.map_nil, List.sum_cons, List.sum_nil, zero_div, mul_zero,
      UInt8.toNat_zero, Nat.cast_zero, min_eq_left (by norm_num : (0 : ℝ) ≤ 100)]
    linarith
  refine (min_le_left _ _).trans ?_
  have hsqrt := Real.sqrt_le_iff.mpr ⟨by linarith, hsum⟩
  linarith

/-- The baseline after one window with one call. -/
noncomputable def oneCallBaseline : ProgramBaseline ℝ :=
  afterWindows zeroPubkey (singleWindows [1])

/-- The detector that has seen this window. -/
noncomputable def oneCallDetector (policy : AnomalyPolicy) : AnomalyDetector :=
  afterRun policy 0.05 [(zeroPubkey, makeEvents [1])]

lemma get_oneCallDetector (policy : AnomalyPolicy) :
    (oneCallDetector policy).baselineStore.get zeroPubkey = some oneCallBaseline :=
  get_afterRun policy 0.05 zeroPubkey (singleWindows [1])

lemma policy_oneCallDetector (policy : AnomalyPolicy) : (oneCallDetector policy).policy = policy :=
  rfl

lemma freq_oneCallBaseline (x : SyscallId) :
    oneCallBaseline.freq x = if x = 1 then 0.1 else 0 := by
  rw [oneCallBaseline, freq_singleWindows, List.count_singleton, alpha]
  by_cases hx : x = 1
  · subst hx
    norm_num
  · rw [if_neg hx, if_neg (by simpa using Ne.symm hx), pow_zero, sub_self]

lemma isolationScore_oneCallBaseline : oneCallBaseline.isolationScore ≤ 0.1 := by
  have hcrypto : ∀ x ∈ ([1] : List SyscallId), x ∉ cryptoIds :=
    List.all_iff_forall_prop.mp (by decide)
  refine isolationScore_singleWindows_le zeroPubkey hcrypto (by norm_num : (0 : ℝ) ≤ 0.1)
    (by norm_num) (fun x => ?_) ?_
  · show oneCallBaseline.freq x ≤ 0.1
    rw [freq_oneCallBaseline]
    split <;> norm_num
  · norm_num

/-- The ids 1 to 16, none of which is cryptographic. -/
def observedIds : List SyscallId := (List.range 16).map fun n => UInt32.ofNat (n + 1)

/-- Each of the ids twice in a row. -/
def trainingIds : List SyscallId := observedIds.flatMap fun x => [x, x]

/-- The baseline of a program that has called each of the ids in two windows. -/
noncomputable def trainedBaseline : ProgramBaseline ℝ :=
  afterWindows zeroPubkey (singleWindows trainingIds)

lemma freq_trainedBaseline {x : SyscallId} :
    trainedBaseline.freq x = if x ∈ observedIds then 0.19 else 0 := by
  rw [trainedBaseline, freq_singleWindows]
  by_cases hx : x ∈ observedIds
  · have hcount : ∀ x ∈ observedIds, trainingIds.count x = 2 :=
      List.all_iff_forall_prop.mp (by decide)
    rw [if_pos hx, hcount x hx, alpha]
    norm_num
  · have hcount : trainingIds.count x = 0 := by
      refine List.count_eq_zero_of_not_mem fun hmem => hx ?_
      obtain ⟨y, hy, hxy⟩ := List.mem_flatMap.mp hmem
      rcases (by simpa using hxy : x = y) with rfl
      exact hy
    rw [if_neg hx, hcount]
    norm_num

lemma isolationScore_trainedBaseline : trainedBaseline.isolationScore ≤ 0.22 := by
  have hcrypto : ∀ x ∈ trainingIds, x ∉ cryptoIds :=
    List.all_iff_forall_prop.mp (by decide)
  have hcard : trainingIds.toFinset.card = 16 := by decide
  refine isolationScore_singleWindows_le zeroPubkey hcrypto (by norm_num : (0 : ℝ) ≤ 0.19)
    (by norm_num) (fun x => ?_) ?_
  · show trainedBaseline.freq x ≤ 0.19
    rw [freq_trainedBaseline]
    split <;> norm_num
  · rw [hcard]
    norm_num

/-- The observed frequencies are all 1/16, the stored ones 0.19. -/
lemma klDivergence_trainedBaseline :
    trainedBaseline.klDivergence (observedFreqs (makeEvents observedIds)) =
      -Real.log 3.04 := by
  have hterm : ∀ x ∈ (ids (makeEvents observedIds)).toFinset,
      term (relFreq (makeEvents observedIds) x) (trainedBaseline.floored x) =
        1 / 16 * -Real.log 3.04 := by
    intro x hx
    rw [ids_makeEvents, List.mem_toFinset] at hx
    have hcount : ∀ x ∈ observedIds, observedIds.count x = 1 :=
      List.all_iff_forall_prop.mp (by decide)
    have hlen : (makeEvents observedIds).length = 16 := by decide
    have hfloor : max (0.19 : ℝ) epsilon = 0.19 := by
      rw [epsilon]
      norm_num
    rw [relFreq, ids_makeEvents, hcount x hx, hlen, floored, freq_trainedBaseline, if_pos hx,
      hfloor, term, ← Real.log_inv]
    norm_num
  have hcard : (ids (makeEvents observedIds)).toFinset.card = 16 := by
    rw [ids_makeEvents]
    decide
  rw [klDivergence_observedFreqs, divergence, Finset.sum_congr rfl hterm, Finset.sum_const, hcard,
    nsmul_eq_mul]
  push_cast
  ring

/-- A program calls each of 16 ids in two windows of its own; then a list of events with all
16 ids has a negative score. -/
theorem uniform_after_training_negative :
    (afterRun defaultPolicy 0.05
      ((singleWindows trainingIds).map fun w => (zeroPubkey, w))).scoreProgram zeroPubkey
        (makeEvents observedIds) < 0 := by
  have hne : singleWindows trainingIds ≠ [] := by decide
  have hempty : (makeEvents observedIds).isEmpty = false := by decide
  have hget := get_afterRun defaultPolicy 0.05 zeroPubkey (singleWindows trainingIds)
  rw [if_neg hne] at hget
  have hlog : 1 < Real.log 3.04 := by
    rw [Real.lt_log_iff_exp_lt (by norm_num)]
    exact Real.exp_one_lt_d9.trans (by norm_num)
  have hiso := isolationScore_trainedBaseline
  have hkl := klDivergence_trainedBaseline
  have hscore : 0.6 * min (trainedBaseline.klDivergence (observedFreqs (makeEvents observedIds)) /
      5) 1 + 0.4 * trainedBaseline.isolationScore < 0 := by
    rw [hkl, min_eq_left (by linarith)]
    linarith
  simp only [scoreProgram, hget, hempty, Bool.false_eq_true, if_false]
  exact (min_le_left _ _).trans_lt hscore

end AnomalyDetector

end SyscallMind
