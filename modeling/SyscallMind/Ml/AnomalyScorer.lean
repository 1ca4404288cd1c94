/-
# The anomaly scorer

`ml/inference/src/anomaly_inference.rs` stands for the exported isolation forest: it takes the
vectors on which `isolation_forest.py` trains, and scores each by its norm.  A vector is
anomalous if the score is above one minus the contamination.

The norm of a vector of the trainer grows with the number of calls, and the entropy and the
largest frequency are never both small.  So with the contamination of the default configuration
every window of 14 calls or more is anomalous, whatever the calls are, and with the one of the
production configuration every window of 15 or more; shorter windows need not be
(`flags_all_iff`).

The calls of a generated transaction are mostly different while they are few, so all
transactions of a generated workload are anomalous too, in both configurations
(`flags_workload`).
-/
import SyscallMind.Lib.Entropy
import SyscallMind.Ml.WorkloadTraining

namespace SyscallMind

open Lib SyscallIds ProgramBaseline WorkloadGenerator Training

/-- The contamination is clamped when the scorer is built. -/
structure OnnxAnomalyScorer where
  modelPath : String
  contamination : ℝ
  contamination_mem : contamination ∈ Set.Icc (0.0 : ℝ) 0.5

namespace OnnxAnomalyScorer

noncomputable def new (modelPath : String) (contamination : ℝ) : OnnxAnomalyScorer where
  modelPath := modelPath
  contamination := max 0.0 (min contamination 0.5)
  contamination_mem := ⟨le_max_left _ _, max_le (by norm_num) (min_le_right _ _)⟩

/-- The norm of the vector, normalised and capped. -/
noncomputable def score (_s : OnnxAnomalyScorer) (featureVector : List ℝ) : ℝ :=
  if featureVector.isEmpty then 0
  else
    let l2 := √((featureVector.map fun x => x * x).sum)
    min (l2 / 3.0) 1.0

def IsAnomalous (s : OnnxAnomalyScorer) (featureVector : List ℝ) : Prop :=
  1.0 - s.contamination < s.score featureVector

/-- The detector scores the vector of a baseline in the same way. -/
lemma score_featureVector (s : OnnxAnomalyScorer) (b : ProgramBaseline ℝ) :
    s.score b.featureVector = b.isolationScore := by
  have hne : b.featureVector.isEmpty = false := by
    rw [featureVector]
    rfl
  rw [score, isolationScore, hne]
  norm_num

/-! ## What is anomalous -/

variable (s : OnnxAnomalyScorer)

/-- The square of the norm that must be exceeded. -/
noncomputable def threshold : ℝ := (3.0 * (1.0 - s.contamination)) ^ 2

lemma contamination_new {c : ℝ} (hc : 0 ≤ c) (hmax : c ≤ 0.5) (modelPath : String) :
    (new modelPath c).contamination = c := by
  show max 0.0 (min c 0.5) = c
  rw [min_eq_left hmax]
  norm_num [hc]

lemma isAnomalous_iff (hc : 0 < s.contamination) {v : List ℝ} (hv : v ≠ []) :
    s.IsAnomalous v ↔ s.threshold < (v.map fun x => x * x).sum := by
  have hempty : v.isEmpty = false := by simpa using hv
  obtain ⟨-, hmax⟩ := s.contamination_mem
  have hnonneg : 0 ≤ 3.0 * (1.0 - s.contamination) := by linarith
  simp only [IsAnomalous, score, hempty, Bool.false_eq_true, if_false, lt_min_iff]
  rw [threshold, ← Real.lt_sqrt hnonneg, lt_div_iff₀ (by norm_num)]
  constructor
  · rintro ⟨hlt, -⟩
    linarith
  · intro hlt
    -- the cap is not in the way, as the contamination is positive
    exact ⟨by linarith, by linarith⟩

/-! ## The vectors of the trainer -/

lemma relFreq_eq_proportion (events : List SyscallTraceEvent) (x : SyscallId) :
    (relFreq events x : ℝ) = Entropy.proportion (ids events) x := by
  rw [relFreq, Entropy.proportion, length_ids]

lemma entropy_eq_entropy_ids (events : List SyscallTraceEvent) :
    entropy events = Entropy.entropy (ids events) := by
  rw [entropy, Entropy.entropy_eq_sum, sortedFrequencies,
    ((List.perm_insertionSort _ _).map _).sum_eq, List.map_map, ← keys_observedFreqs]
  refine congrArg Neg.neg (HashMap.sum_entries _ (fun _ p => p * Real.logb (2 : ℕ) p) _
    fun x p hp => ?_)
  obtain ⟨-, rfl⟩ := lookup_observedFreqs hp
  rw [relFreq_eq_proportion]

/-- The largest frequency is the largest. -/
lemma relFreq_le_largest {events : List SyscallTraceEvent} {x : SyscallId} (hx : x ∈ ids events) :
    (relFreq events x : ℝ) ≤ (sortedFrequencies events).getD 0 0 := by
  have hmem : (relFreq events x : ℝ) ∈ sortedFrequencies events := by
    have hkey : x ∈ (observedFreqs events).keys := by
      rw [← List.mem_toFinset, keys_observedFreqs, List.mem_toFinset]
      exact hx
    obtain ⟨p, hp⟩ := AList.lookup_isSome.mpr hkey |> Option.isSome_iff_exists.mp
    obtain ⟨-, rfl⟩ := lookup_observedFreqs hp
    rw [sortedFrequencies, List.mem_insertionSort]
    exact List.mem_map.mpr ⟨⟨x, _⟩, (HashMap.mem_entries_iff _).mpr hp, rfl⟩
  have hsorted := List.pairwise_insertionSort (· ≥ ·)
    ((observedFreqs events).entries.map fun e => e.2)
  rw [← sortedFrequencies] at hsorted
  cases hl : sortedFrequencies events with
  | nil =>
    rw [hl] at hmem
    exact absurd hmem List.not_mem_nil
  | cons p l =>
    rw [hl] at hmem hsorted
    rcases List.mem_cons.mp hmem with heq | hmem
    · exact heq.le
    · exact List.rel_of_pairwise_cons hsorted hmem

/-- The squares of the features of a window. -/
lemma sum_squares_extractFeatures {w : ExecutionWindow} (hne : w.events ≠ []) :
    ((extractFeatures w).map fun x => x * x).sum =
      ((cryptoCount w.events : ℝ) / w.events.length) ^ 2 + ((maxDepth w.events).toNat : ℝ) ^ 2 +
        meanDistanceMs w.events ^ 2 + Entropy.entropy (ids w.events) ^ 2 +
        Real.log (1 + w.events.length) ^ 2 + ((sortedFrequencies w.events).getD 0 0 ^ 2 +
        (sortedFrequencies w.events).getD 1 0 ^ 2 + (sortedFrequencies w.events).getD 2 0 ^ 2) := by
  rw [extractFeatures_eq hne, entropy_eq_entropy_ids]
  simp only [List.map_cons, List.map_nil, List.sum_cons, List.sum_nil]
  ring

lemma isAnomalous_extractFeatures_iff (hc : 0 < s.contamination) {w : ExecutionWindow}
    (hne : w.events ≠ []) : s.IsAnomalous (extractFeatures w) ↔
      s.threshold < ((extractFeatures w).map fun x => x * x).sum := by
  refine isAnomalous_iff s hc ?_
  rw [extractFeatures_eq hne]
  exact List.cons_ne_nil _ _

/-- Four of the features by themselves. -/
lemma le_sum_squares {w : ExecutionWindow} (hne : w.events ≠ []) :
    meanDistanceMs w.events ^ 2 + Entropy.entropy (ids w.events) ^ 2 +
      Real.log (1 + w.events.length) ^ 2 + (sortedFrequencies w.events).getD 0 0 ^ 2 ≤
        ((extractFeatures w).map fun x => x * x).sum := by
  rw [sum_squares_extractFeatures hne]
  have hcrypto := sq_nonneg ((cryptoCount w.events : ℝ) / w.events.length)
  have hdepth := sq_nonneg ((maxDepth w.events).toNat : ℝ)
  have hsecond := sq_nonneg ((sortedFrequencies w.events).getD 1 0)
  have hthird := sq_nonneg ((sortedFrequencies w.events).getD 2 0)
  linarith

/-- The number of calls, and the entropy with the largest frequency. -/
lemma exists_le_sum_squares {w : ExecutionWindow} (hne : w.events ≠ []) :
    ∃ x ∈ ids w.events,
      (∀ y ∈ ids w.events, Entropy.proportion (ids w.events) y ≤
        Entropy.proportion (ids w.events) x) ∧
      Real.log (1 + w.events.length) ^ 2 + (Entropy.entropy (ids w.events) ^ 2 +
        Entropy.proportion (ids w.events) x ^ 2) ≤
          ((extractFeatures w).map fun x => x * x).sum := by
  obtain ⟨x, hx, hlargest⟩ := exists_largest_eq hne
  refine ⟨x, hx, fun y hy => ?_, ?_⟩
  · have hle := relFreq_le_largest hy
    rwa [hlargest, relFreq_eq_proportion, relFreq_eq_proportion] at hle
  · have hle := le_sum_squares hne
    rw [hlargest, relFreq_eq_proportion] at hle
    have hdelay := sq_nonneg (meanDistanceMs w.events)
    linarith

/-! ## One call over and over -/

/-- A window of log messages, all at the same time and at the top level. -/
def logMessages (n : ℕ) : ExecutionWindow :=
  ⟨zeroTxId, 0, List.replicate n ⟨zeroPubkey, solLog, 0, 0, 0, zeroTxId, 0⟩, 0, 0⟩

lemma ids_logMessages (n : ℕ) :
    ids (logMessages n).events = List.replicate n solLog := List.map_replicate

/-- Only the number of calls and one frequency are left. -/
lemma sum_squares_logMessages {n : ℕ} (hn : 0 < n) :
    ((extractFeatures (logMessages n)).map fun x => x * x).sum = Real.log (1 + n) ^ 2 + 1 := by
  have hlen : (logMessages n).events.length = n := List.length_replicate
  have hne : (logMessages n).events ≠ [] := List.ne_nil_of_length_pos (by omega)
  have hcrypto : cryptoCount (logMessages n).events = 0 := by
    rw [cryptoCount, List.countP_eq_zero]
    intro e he
    rw [(List.mem_replicate.mp he).2]
    decide
  have hdepth : maxDepth (logMessages n).events = 0 :=
    maxDepth_of_forall fun e he => by rw [(List.mem_replicate.mp he).2]
  have hdelay : meanDistanceMs (logMessages n).events = 0 := by
    have hzero : ((logMessages n).events.zipWith distance (logMessages n).events.tail).sum = 0 := by
      rw [logMessages, List.tail_replicate, List.zipWith_replicate, List.sum_replicate]
      exact Nat.mul_zero _
    rw [meanDistanceMs, meanDistance, hzero, Nat.cast_zero, zero_div, zero_div]
  have hentropy : Entropy.entropy (ids (logMessages n).events) = 0 := by
    rw [ids_logMessages, Entropy.entropy_replicate]
  -- one id, so one frequency, and it is the largest one
  have hfrequencies : sortedFrequencies (logMessages n).events = [1] := by
    have hkeys : (observedFreqs (logMessages n).events).keys.length = 1 := by
      rw [← List.toFinset_card_of_nodup (AList.keys_nodup _), keys_observedFreqs, ids_logMessages,
        List.toFinset_replicate_of_ne_zero hn.ne', Finset.card_singleton]
    obtain ⟨x, hx, hlargest⟩ := exists_largest_eq hne
    rw [ids_logMessages] at hx
    rw [(List.mem_replicate.mp hx).2, relFreq_eq_proportion, ids_logMessages, Entropy.proportion,
      List.count_replicate_self, List.length_replicate,
      div_self (Nat.cast_ne_zero.mpr hn.ne')] at hlargest
    have hlength : (sortedFrequencies (logMessages n).events).length = 1 := by
      rw [sortedFrequencies, List.length_insertionSort, List.length_map, ← hkeys, AList.keys,
        List.keys, List.length_map]
    obtain ⟨p, hp⟩ := List.length_eq_one_iff.mp hlength
    rw [hp] at hlargest ⊢
    exact congrArg (fun q => [q]) hlargest
  rw [sum_squares_extractFeatures hne, hcrypto, hdepth, hdelay, hentropy, hfrequencies, hlen]
  norm_num

/-- Too few calls are not anomalous by their number alone. -/
lemma exists_not_isAnomalous (hc : 0 < s.contamination) {n : ℕ}
    (hn : Real.log (1 + n) ^ 2 + 1 ≤ s.threshold) :
    ∃ w : ExecutionWindow, w.events.length = n ∧ ¬ s.IsAnomalous (extractFeatures w) := by
  refine ⟨logMessages n, List.length_replicate, ?_⟩
  rcases Nat.eq_zero_or_pos n with rfl | hpos
  · -- a window without calls has a row of zeros
    rw [isAnomalous_iff s hc (by simp [extractFeatures, logMessages])]
    have hzero : ((extractFeatures (logMessages 0)).map fun x => x * x).sum = 0 := by
      simp [extractFeatures, logMessages]
    rw [hzero]
    exact not_lt.mpr (sq_nonneg _)
  · have hne : (logMessages n).events ≠ [] :=
      List.ne_nil_of_length_pos (by simpa [logMessages] using hpos)
    rw [isAnomalous_extractFeatures_iff s hc hne, sum_squares_logMessages hpos]
    exact not_lt.mpr hn

/-- Enough calls are anomalous whatever they are. -/
lemma isAnomalous_of_lt (hc : 0 < s.contamination) {w : ExecutionWindow} (hne : w.events ≠ [])
    (hlt : s.threshold < Real.log (1 + w.events.length) ^ 2 + 4 / 5) :
    s.IsAnomalous (extractFeatures w) := by
  obtain ⟨x, hx, hmax, hle⟩ := exists_le_sum_squares hne
  have hfour := Entropy.four_fifths_le hx hmax
  rw [isAnomalous_extractFeatures_iff s hc hne]
  linarith

/-! ## The logarithm of the number of calls -/

lemma le_log_sq {a b n : ℕ} (hb : 0 < b) (h : 2 ^ a ≤ n ^ b) :
    ((a : ℝ) / b * 0.6931) ^ 2 ≤ Real.log n ^ 2 := by
  have hpow : (2 : ℝ) ^ a ≤ (n : ℝ) ^ b := by exact_mod_cast h
  have hlog := Real.log_le_log (by positivity) hpow
  rw [Real.log_pow, Real.log_pow] at hlog
  have htwo := Real.log_two_gt_d9
  have hmul : (a : ℝ) * 0.6931 ≤ a * Real.log 2 :=
    mul_le_mul_of_nonneg_left (by linarith) (Nat.cast_nonneg a)
  refine pow_le_pow_left₀ (by positivity) ?_ 2
  rw [div_mul_eq_mul_div, div_le_iff₀ (Nat.cast_pos.mpr hb)]
  linarith

lemma log_sq_le {a b n : ℕ} (hb : 0 < b) (hn : 0 < n) (h : n ^ b ≤ 2 ^ a) :
    Real.log n ^ 2 ≤ ((a : ℝ) / b * 0.6932) ^ 2 := by
  have hpos : (0 : ℝ) < n := Nat.cast_pos.mpr hn
  have hpow : (n : ℝ) ^ b ≤ (2 : ℝ) ^ a := by exact_mod_cast h
  have hlog := Real.log_le_log (by positivity) hpow
  rw [Real.log_pow, Real.log_pow] at hlog
  have htwo := Real.log_two_lt_d9
  have hmul : (a : ℝ) * Real.log 2 ≤ a * 0.6932 :=
    mul_le_mul_of_nonneg_left (by linarith) (Nat.cast_nonneg a)
  refine pow_le_pow_left₀ (Real.log_natCast_nonneg n) ?_ 2
  rw [div_mul_eq_mul_div, le_div_iff₀ (Nat.cast_pos.mpr hb)]
  linarith

lemma log_one_add_sq_mono {m n : ℕ} (hmn : m ≤ n) :
    Real.log (1 + m) ^ 2 ≤ Real.log (1 + n) ^ 2 := by
  have hcast : (m : ℝ) ≤ n := Nat.cast_le.mpr hmn
  have hone : (1 : ℝ) ≤ 1 + m := le_add_of_nonneg_right (Nat.cast_nonneg m)
  exact pow_le_pow_left₀ (Real.log_nonneg hone)
    (Real.log_le_log (by linarith) (by linarith)) 2

/-- From `m` calls on. -/
lemma le_log_one_add_sq {a b m n : ℕ} (hb : 0 < b) (h : 2 ^ a ≤ (m + 1) ^ b) (hmn : m ≤ n) :
    ((a : ℝ) / b * 0.6931) ^ 2 ≤ Real.log (1 + n) ^ 2 := by
  refine (le_log_sq hb h).trans ?_
  rw [Nat.cast_add, Nat.cast_one, add_comm]
  exact log_one_add_sq_mono hmn

/-- Up to `m` calls. -/
lemma log_one_add_sq_le {a b m n : ℕ} (hb : 0 < b) (h : (m + 1) ^ b ≤ 2 ^ a) (hmn : n ≤ m) :
    Real.log (1 + n) ^ 2 ≤ ((a : ℝ) / b * 0.6932) ^ 2 := by
  refine le_trans ?_ (log_sq_le hb m.succ_pos h)
  rw [Nat.cast_succ, add_comm (m : ℝ) 1]
  exact log_one_add_sq_mono hmn

/-! ## How many calls are enough -/

/-- Among fifteen calls, entropy and largest frequency are further from being both small. -/
lemma fifteen_le {xs : List SyscallId} (hlen : xs.length = 15) {x : SyscallId} (hx : x ∈ xs)
    (hmax : ∀ y ∈ xs, Entropy.proportion xs y ≤ Entropy.proportion xs x) :
    0.97 ≤ Entropy.entropy xs ^ 2 + Entropy.proportion xs x ^ 2 := by
  have hpos : 0 < xs.count x := List.count_pos_iff.mpr hx
  have hcount : xs.count x ≤ 15 := hlen ▸ List.count_le_length
  obtain ⟨m, hm⟩ := Nat.exists_eq_add_of_le hcount
  -- the entropy of one value against all others, from a comparison of powers
  have hbinary : ∀ a b : ℕ, 0 < b → 0 < m →
      2 ^ (a * 15) * (xs.count x) ^ (xs.count x * b) * m ^ (m * b) ≤ 15 ^ (15 * b) →
        ((a : ℝ) / b) ^ 2 ≤ Entropy.entropy xs ^ 2 := by
    intro a b hb hmpos h
    refine pow_le_pow_left₀ (by positivity) ?_ 2
    have hle := Entropy.binary_counts_le_entropy hx (hlen.trans hm)
    rw [hlen] at hle
    exact (Entropy.div_le_mean_logb hb hpos hmpos hm (by norm_num) h).trans hle
  have hnonneg := sq_nonneg (Entropy.entropy xs)
  have hprop : Entropy.proportion xs x = (xs.count x : ℝ) / 15 := by
    rw [Entropy.proportion, hlen]
    norm_num
  rw [hprop]
  rcases Nat.lt_or_ge (xs.count x) 8 with hsmall | hlarge
  · have hone : 1 ≤ Entropy.entropy xs := by
      refine Entropy.one_le_entropy (List.ne_nil_of_mem hx) fun y hy => (hmax y hy).trans ?_
      have hcast : (xs.count x : ℝ) ≤ 7 := by exact_mod_cast Nat.le_of_lt_succ hsmall
      rw [hprop]
      linarith
    have hsq := one_le_pow₀ hone (n := 2)
    have := sq_nonneg ((xs.count x : ℝ) / 15)
    linarith
  · generalize xs.count x = c at *
    obtain rfl : m = 15 - c := by omega
    have hcases : c = 8 ∨ c = 9 ∨ c = 10 ∨ c = 11 ∨ c = 12 ∨ c = 13 ∨ c = 14 ∨
        c = 15 := by omega
    rcases hcases with rfl | rfl | rfl | rfl | rfl | rfl | rfl | rfl
    · have hentropy := hbinary 5 6 (by norm_num) (by norm_num) (by norm_num)
      norm_num at hentropy ⊢
      linarith
    · have hentropy := hbinary 4 5 (by norm_num) (by norm_num) (by norm_num)
      norm_num at hentropy ⊢
      linarith
    · have hentropy := hbinary 4 5 (by norm_num) (by norm_num) (by norm_num)
      norm_num at hentropy ⊢
      linarith
    · have hentropy := hbinary 3 4 (by norm_num) (by norm_num) (by norm_num)
      norm_num at hentropy ⊢
      linarith
    · have hentropy := hbinary 2 3 (by norm_num) (by norm_num) (by norm_num)
      norm_num at hentropy ⊢
      linarith
    · have hentropy := hbinary 1 2 (by norm_num) (by norm_num) (by norm_num)
      norm_num at hentropy ⊢
      linarith
    · have hentropy := hbinary 1 3 (by norm_num) (by norm_num) (by norm_num)
      norm_num at hentropy ⊢
      linarith
    · norm_num at hnonneg ⊢
      linarith

/-- Where the windows of all lengths from a number of calls on are anomalous, and one shorter
window of each length is not. -/
lemma forall_iff (hc : 0 < s.contamination) {m : ℕ}
    (hfew : ∀ n < m, Real.log (1 + n) ^ 2 + 1 ≤ s.threshold)
    (hmany : ∀ w : ExecutionWindow, m ≤ w.events.length → s.IsAnomalous (extractFeatures w))
    (n : ℕ) :
    (∀ w : ExecutionWindow, w.events.length = n → s.IsAnomalous (extractFeatures w)) ↔
      m ≤ n := by
  constructor
  · intro h
    by_contra hlt
    obtain ⟨w, hw, hnot⟩ := exists_not_isAnomalous s hc (hfew n (by omega))
    exact hnot (h w hw)
  · intro hn w hw
    exact hmany w (by omega)

/-- **How many calls are always anomalous.**  With the contamination of the default
configuration all windows of some length are anomalous if the length is 14 or more, whatever the
calls are, and only then; with the one of the production configuration from 15 calls on. -/
theorem flags_all_iff (modelPath : String) (n : ℕ) :
    ((∀ w : ExecutionWindow, w.events.length = n →
        (new modelPath 0.05).IsAnomalous (extractFeatures w)) ↔ 14 ≤ n) ∧
      ((∀ w : ExecutionWindow, w.events.length = n →
        (new modelPath 0.02).IsAnomalous (extractFeatures w)) ↔ 15 ≤ n) := by
  constructor
  · have hcontamination : (new modelPath 0.05).contamination = 0.05 :=
      contamination_new (by norm_num) (by norm_num) modelPath
    have hthreshold : (new modelPath 0.05).threshold = 8.1225 := by
      rw [threshold, hcontamination]
      norm_num
    have hc : 0 < (new modelPath 0.05).contamination := by
      rw [hcontamination]
      norm_num
    refine forall_iff _ hc (fun k hk => ?_) (fun w hw => ?_) n
    · have hlog := log_one_add_sq_le (a := 23) (b := 6) (m := 13) (n := k) (by norm_num)
        (by norm_num) (by omega)
      rw [hthreshold]
      norm_num at hlog ⊢
      linarith
    · have hlog := le_log_one_add_sq (a := 82) (b := 21) (by norm_num) (by norm_num) hw
      refine isAnomalous_of_lt _ hc (List.ne_nil_of_length_pos (by omega)) ?_
      rw [hthreshold]
      norm_num at hlog ⊢
      linarith
  · have hcontamination : (new modelPath 0.02).contamination = 0.02 :=
      contamination_new (by norm_num) (by norm_num) modelPath
    have hthreshold : (new modelPath 0.02).threshold = 8.6436 := by
      rw [threshold, hcontamination]
      norm_num
    have hc : 0 < (new modelPath 0.02).contamination := by
      rw [hcontamination]
      norm_num
    refine forall_iff _ hc (fun k hk => ?_) (fun w hw => ?_) n
    · have hlog := log_one_add_sq_le (a := 43) (b := 11) (m := 14) (n := k) (by norm_num)
        (by norm_num) (by omega)
      rw [hthreshold]
      norm_num at hlog ⊢
      linarith
    · have hne : w.events ≠ [] := List.ne_nil_of_length_pos (by omega)
      rcases hw.eq_or_lt with hfifteen | hmore
      · -- four fifths are not enough for fifteen calls
        obtain ⟨x, hx, hmax, hle⟩ := exists_le_sum_squares hne
        have hentropy := fifteen_le (by rw [length_ids, hfifteen]) hx hmax
        have hlog := le_log_one_add_sq (a := 4) (b := 1) (by norm_num) (by norm_num) hw
        rw [isAnomalous_extractFeatures_iff _ hc hne, hthreshold]
        norm_num at hlog hentropy ⊢
        linarith
      · have hlog := le_log_one_add_sq (a := 49) (b := 12) (m := 16) (by norm_num) (by norm_num)
          hmore
        refine isAnomalous_of_lt _ hc hne ?_
        rw [hthreshold]
        norm_num at hlog ⊢
        linarith

/-- Fourteen calls: always anomalous in the one configuration, not in the other. -/
theorem flags_all_iff_fourteen :
    (∀ w : ExecutionWindow, w.events.length = 14 →
        (new "anomaly.onnx" 0.05).IsAnomalous (extractFeatures w)) ∧
      ¬ ∀ w : ExecutionWindow, w.events.length = 14 →
        (new "anomaly.onnx" 0.02).IsAnomalous (extractFeatures w) :=
  ⟨(flags_all_iff "anomaly.onnx" 14).1.mpr (by omega),
    fun h => absurd ((flags_all_iff "anomaly.onnx" 14).2.mp h) (by omega)⟩

/-! ## Generated workloads -/

/-- Single calls before and after the others. -/
lemma singles_of_nodup {before calls after : List SyscallId} (hnodup : (before ++ after).Nodup)
    (hapart : ∀ x ∈ calls, x ∉ before ++ after) :
    (before ++ calls ++ after).Perm (before ++ after ++ calls) ∧
      ∀ y ∈ before ++ after, (before ++ calls ++ after).count y ≤ 1 := by
  have hperm : (before ++ calls ++ after).Perm (before ++ after ++ calls) := by
    rw [List.append_assoc, List.append_assoc]
    exact List.perm_append_comm.append_left before
  refine ⟨hperm, fun y hy => ?_⟩
  have hnone : calls.count y = 0 := List.count_eq_zero.mpr fun hcalls => hapart y hcalls hy
  rw [hperm.count_eq, List.count_append, hnone]
  exact List.nodup_iff_count_le_one.mp hnodup y

/-- A transaction has four ids once each, and at most nine other calls. -/
lemma exists_singles (d : Draws) : ∃ singles rest : List SyscallId,
    (generateSyscallSequence (pickProfile d) d).Perm (singles ++ rest) ∧ singles.length = 4 ∧
      0 < rest.length ∧ rest.length ≤ 9 ∧
      ∀ y ∈ singles, (generateSyscallSequence (pickProfile d) d).count y ≤ 1 := by
  have hpool : ∀ i : Fin 3,
      cryptoPool[i] ∉ [solGetClockSysvar, solGetRentSysvar] ++ [solInvokeSigned, solLog] := by
    decide
  have hcrypto := d.crypto_length
  have hreads := d.nReads_range
  cases pickProfile d with
  | deFi =>
    have hapart : ∀ x ∈ d.crypto.map (fun i => cryptoPool[i]),
        x ∉ [solGetClockSysvar, solGetRentSysvar] ++ [solInvokeSigned, solLog] := by
      intro x hx
      obtain ⟨i, -, rfl⟩ := List.mem_map.mp hx
      exact hpool i
    obtain ⟨hperm, hsingle⟩ := singles_of_nodup (by decide) hapart
    refine ⟨_, _, hperm, rfl, ?_, ?_, hsingle⟩
    · rw [List.length_map]
      omega
    · rw [List.length_map]
      omega
  | nft =>
    have hapart : ∀ x ∈ List.replicate d.nReads solLog,
        x ∉ [solGetClockSysvar] ++ [solSha256, solInvokeSigned, solSetReturnData] := by
      intro x hx
      rw [(List.mem_replicate.mp hx).2]
      decide
    obtain ⟨hperm, hsingle⟩ := singles_of_nodup (by decide) hapart
    refine ⟨_, _, hperm, rfl, ?_, ?_, hsingle⟩
    · rw [List.length_replicate]
      omega
    · rw [List.length_replicate]
      omega
  | tokenTransfer =>
    have hapart : ∀ x ∈ [solSetReturnData],
        x ∉ [solGetClockSysvar, solGetRentSysvar, solLog, solInvokeSigned] ++ [] := by
      intro x hx
      rw [List.mem_singleton.mp hx]
      decide
    obtain ⟨hperm, hsingle⟩ := singles_of_nodup (by decide) hapart
    exact ⟨_, _, hperm, rfl, by simp, by simp, hsingle⟩

/-- Entropy and number of calls, if besides the single ones there are `k` others. -/
lemma bounds_of_powers {xs singles rest : List SyscallId} (hperm : xs.Perm (singles ++ rest))
    (hfour : singles.length = 4) (hsingle : ∀ y ∈ singles, xs.count y ≤ 1) {k : ℕ}
    (hrest : rest.length = k) (hk : 0 < k) (a b c : ℕ) (hb : 0 < b)
    (hentropy : 2 ^ (a * (4 + k)) * 1 ^ (4 * b) * k ^ (k * b) ≤ (4 + k) ^ ((4 + k) * b))
    (hlog : 2 ^ c ≤ (4 + k + 1) ^ b) :
    ((a : ℝ) / b) ^ 2 + ((c : ℝ) / b * 0.6931) ^ 2 ≤
      Entropy.entropy xs ^ 2 + Real.log (1 + xs.length) ^ 2 := by
  have hlen : xs.length = 4 + k := by
    rw [hperm.length_eq, List.length_append, hfour, hrest]
  have hsingles := Entropy.singles_le_entropy hperm hsingle
  have hmean := Entropy.div_le_mean_logb hb one_pos hk rfl (by omega) hentropy
  rw [Nat.cast_one, div_one] at hmean
  rw [hfour, hrest, hlen] at hsingles
  exact add_le_add (pow_le_pow_left₀ (by positivity) (hmean.trans hsingles) 2)
    (le_log_one_add_sq hb hlog hlen.ge)

/-- Few calls have a large entropy, and many calls are many. -/
lemma lt_entropy_add_log (d : Draws) :
    8.4837 < Entropy.entropy (generateSyscallSequence (pickProfile d) d) ^ 2 +
      Real.log (1 + (generateSyscallSequence (pickProfile d) d).length) ^ 2 := by
  obtain ⟨singles, rest, hperm, hfour, hpos, hle, hsingle⟩ := exists_singles d
  have hbounds : ∀ k a b c : ℕ, rest.length = k → 0 < k → 0 < b → _ → _ → _ :=
    fun k a b c hk hpos hb hentropy hlog =>
      bounds_of_powers hperm hfour hsingle (k := k) hk hpos a b c hb hentropy hlog
  have hcases : rest.length = 1 ∨ rest.length = 2 ∨ rest.length = 3 ∨ rest.length = 4 ∨
      rest.length = 5 ∨ rest.length = 6 ∨ rest.length = 7 ∨ rest.length = 8 ∨
      rest.length = 9 := by omega
  -- a case for each number of other calls, with rational bounds close enough for it
  rcases hcases with hk | hk | hk | hk | hk | hk | hk | hk | hk
  · exact lt_of_lt_of_le (by norm_num) (hbounds 1 37 16 41 hk (by norm_num) (by norm_num)
      (by norm_num) (by norm_num))
  · exact lt_of_lt_of_le (by norm_num) (hbounds 2 9 4 11 hk (by norm_num) (by norm_num)
      (by norm_num) (by norm_num))
  · exact lt_of_lt_of_le (by norm_num) (hbounds 3 17 8 24 hk (by norm_num) (by norm_num)
      (by norm_num) (by norm_num))
  · exact lt_of_lt_of_le (by norm_num) (hbounds 4 12 6 19 hk (by norm_num) (by norm_num)
      (by norm_num) (by norm_num))
  · exact lt_of_lt_of_le (by norm_num) (hbounds 5 13 7 23 hk (by norm_num) (by norm_num)
      (by norm_num) (by norm_num))
  · exact lt_of_lt_of_le (by norm_num) (hbounds 6 12 7 24 hk (by norm_num) (by norm_num)
      (by norm_num) (by norm_num))
  · exact lt_of_lt_of_le (by norm_num) (hbounds 7 10 6 21 hk (by norm_num) (by norm_num)
      (by norm_num) (by norm_num))
  · exact lt_of_lt_of_le (by norm_num) (hbounds 8 9 6 22 hk (by norm_num) (by norm_num)
      (by norm_num) (by norm_num))
  · exact lt_of_lt_of_le (by norm_num) (hbounds 9 6 4 15 hk (by norm_num) (by norm_num)
      (by norm_num) (by norm_num))

lemma ids_workloadWindow (slot ts : UInt64) (d : Draws) :
    ids (workloadWindow slot ts d).events = generateSyscallSequence (pickProfile d) d := by
  ext k id
  rw [ids, workloadWindow, ReplayHarness.spanWindow, List.getElem?_map, List.getElem?_mapIdx]
  cases (generateSyscallSequence (pickProfile d) d)[k]? <;> rfl

/-- **Every generated transaction is anomalous.**  For up to three trillion transactions and all
draws, a scorer whose contamination is the one of the production configuration or more takes
every row of the matrix of a generated workload for anomalous. -/
theorem flags_workload {toValueString : Json → Option ByteArray}
    {loads : List Char → Except PyError Json} (hToValueString : EmitsText toValueString)
    (hLoads : LoadsJson loads) (draws : List Draws) (hlen : draws.length ≤ maxTransactions)
    (s : OnnxAnomalyScorer) (hs : 0.02 ≤ s.contamination) :
    ∃ rows, featureMatrix loads (workload toValueString draws) = .ok rows ∧
      rows.length = draws.length ∧ ∀ row ∈ rows, s.IsAnomalous row := by
  have hbound : draws.length < 2 ^ 64 := Nat.lt_of_le_of_lt hlen (by decide)
  refine ⟨_, (readers_workload hToValueString hLoads hbound).2, ?_, fun row hrow => ?_⟩
  · rw [List.length_map]
    exact List.length_mapIdx
  · obtain ⟨w, hw, rfl⟩ := List.mem_map.mp hrow
    obtain ⟨k, hk, rfl⟩ := List.mem_mapIdx.mp hw
    have hne := events_workloadWindow_ne_nil (slotOf k) (startOf draws k) draws[k]
    have hc : 0 < s.contamination := by linarith
    have hthreshold : s.threshold ≤ 8.6436 := by
      obtain ⟨-, hmax⟩ := s.contamination_mem
      have hsq : s.threshold ≤ (3 * 0.98) ^ 2 :=
        pow_le_pow_left₀ (by linarith) (by linarith) 2
      norm_num at hsq ⊢
      linarith
    have hbounds := lt_entropy_add_log draws[k]
    have hsquares := le_sum_squares hne
    rw [meanDistanceMs_workloadWindow hlen hk, ids_workloadWindow,
      length_workloadWindow] at hsquares
    rw [← callsOf] at hbounds
    have hlargest := sq_nonneg ((sortedFrequencies (workloadWindow (slotOf k) (startOf draws k)
      draws[k]).events).getD 0 0)
    rw [isAnomalous_extractFeatures_iff s hc hne]
    -- with five calls the delay has to make up for the rest
    have hdelay : (0.4 : ℝ) ^ 2 = 0.16 := by norm_num
    linarith

/-- A token transfer and a mint, and the contamination of the tests. -/
theorem flags_workload_two :
    ∃ rows, featureMatrix parseLoads (workload (fun j => some j.compact.utf8Encode)
      [transferDraws, mintDraws]) = .ok rows ∧ rows.length = 2 ∧
        ∀ row ∈ rows, (new "anomaly.onnx" 0.05).IsAnomalous row :=
  flags_workload (fun _ => rfl : EmitsText fun j => some j.compact.utf8Encode)
    loadsJson_parseLoads [transferDraws, mintDraws] (by decide) (new "anomaly.onnx" 0.05)
    (by rw [contamination_new (by norm_num) (by norm_num)]; norm_num)

end OnnxAnomalyScorer

end SyscallMind
