/-
# Bounds on the divergence from a baseline

Whatever windows a baseline has seen, its frequencies and its crypto ratio are averages of
fractions and its delay is an average of absolute values.  Together with the floor under the
frequencies this bounds the divergence of any list of events on both sides
(`divergence_bounded`).

A program that repeats one window raises the frequencies of the window towards its histogram,
and the factor `1 - 0.9 ^ n` that is still missing bounds the divergence of the window from its
own baseline (`divergence_of_repetition`).
-/
import Mathlib.Analysis.Complex.ExponentialBounds
import SyscallMind.Anomaly.BaselineHistory
import SyscallMind.Anomaly.Detector

namespace SyscallMind

open Lib

namespace ProgramBaseline

/-! ## Every history -/

variable {b : ProgramBaseline ℝ} {events : List SyscallTraceEvent}

/-- The stored values are fractions, and the delay is not negative. -/
structure Normalized (b : ProgramBaseline ℝ) : Prop where
  freq : ∀ x, 0 ≤ b.freq x ∧ b.freq x ≤ 1
  cryptoRatio : 0 ≤ b.cryptoRatio ∧ b.cryptoRatio ≤ 1
  delay : 0 ≤ b.meanInterCallDelayNs

lemma normalized_new (programId : Pubkey) : Normalized (new programId) where
  freq _ := ⟨le_refl _, zero_le_one⟩
  cryptoRatio := ⟨le_refl _, zero_le_one⟩
  delay := le_refl _

lemma Normalized.update (h : Normalized b) (events : List SyscallTraceEvent) :
    Normalized (b.update events) := by
  by_cases hne : events = []
  · rw [hne, update_nil]
    exact h
  refine ⟨fun x => ?_, ?_, ?_⟩
  · have hrel := relFreq_mem (K := ℝ) events x
    rw [freq_update b hne]
    split
    · exact ⟨blend_nonneg (h.freq x).1 hrel.1, blend_le_one (h.freq x).2 hrel.2⟩
    · exact h.freq x
  · have hratio : 0 ≤ (cryptoCount events : ℝ) / events.length ∧
        (cryptoCount events : ℝ) / events.length ≤ 1 := fraction_mem List.countP_le_length
    rw [cryptoRatio_update b hne]
    exact ⟨blend_nonneg h.cryptoRatio.1 hratio.1, blend_le_one h.cryptoRatio.2 hratio.2⟩
  · rw [meanInterCallDelayNs_update b hne]
    split
    · exact blend_nonneg h.delay (meanDelay_nonneg events)
    · exact h.delay

lemma normalized_afterWindows (programId : Pubkey) (windows : List (List SyscallTraceEvent)) :
    Normalized (afterWindows programId windows) :=
  Run.invariant (fun _ events h => h.update events) (normalized_new programId) windows

lemma epsilon_le_one : epsilon ≤ 1 := by
  rw [epsilon]
  norm_num

lemma Normalized.floored_le_one (h : Normalized b) (x : SyscallId) : b.floored x ≤ 1 :=
  max_le (h.freq x).2 epsilon_le_one

section Histogram

variable (hne : events ≠ [])
include hne

lemma sum_relFreq_ids : ∑ x ∈ (ids events).toFinset, (relFreq events x : ℝ) = 1 :=
  sum_relFreq_of_subset hne fun _ hx => List.mem_toFinset.mpr hx

lemma Normalized.klDivergence_ge (h : Normalized b) :
    -Real.log (ids events).toFinset.card ≤ b.klDivergence (observedFreqs events) := by
  rw [klDivergence_observedFreqs]
  exact Divergence.neg_log_card_le_divergence (fun x _ => (relFreq_mem events x).1)
    (fun x _ => b.floored_pos x) (sum_relFreq_ids hne) fun x _ => h.floored_le_one x

/-- The floor bounds the divergence from any baseline. -/
lemma klDivergence_le_log (b : ProgramBaseline ℝ) :
    b.klDivergence (observedFreqs events) ≤ Real.log 1e10 := by
  rw [klDivergence_observedFreqs]
  refine Divergence.divergence_le_log (fun x _ => (relFreq_mem events x).1)
    (fun x _ => b.floored_pos x) (sum_relFreq_ids hne) fun x _ => ?_
  calc (relFreq events x : ℝ) ≤ 1 := (relFreq_mem events x).2
    _ = 1e10 * epsilon := by rw [epsilon]; norm_num
    _ ≤ 1e10 * b.floored x := by
      refine mul_le_mul_of_nonneg_left (le_max_right _ _) ?_
      norm_num

end Histogram

/-- **The divergence is bounded for every history.** -/
theorem divergence_bounded (programId : Pubkey) (windows : List (List SyscallTraceEvent)) :
    let b : ProgramBaseline ℝ := afterWindows programId windows
    (∀ x f, b.syscallFrequencies.lookup x = some f → 0 ≤ f ∧ f ≤ 1) ∧
      (0 ≤ b.cryptoRatio ∧ b.cryptoRatio ≤ 1) ∧ 0 ≤ b.meanInterCallDelayNs ∧
      ∀ events, events ≠ [] →
        -Real.log (ids events).toFinset.card ≤ b.klDivergence (observedFreqs events) ∧
          b.klDivergence (observedFreqs events) ≤ Real.log (10 ^ 10) := by
  intro b
  have h := normalized_afterWindows programId windows
  refine ⟨fun x f hf => ?_, h.cryptoRatio, h.delay, fun events hne => ⟨h.klDivergence_ge hne, ?_⟩⟩
  · have hfreq : b.freq x = f := by rw [freq, hf, Option.getD_some]
    rw [← hfreq]
    exact h.freq x
  · have hpow : (10 : ℝ) ^ 10 = 1e10 := by norm_num
    rw [hpow]
    exact klDivergence_le_log hne b

/-! ## A program that repeats itself -/

section Repetition

variable {K : Type*} [Field K] (programId : Pubkey)

/-- The baseline after the same window a number of times. -/
def repeated (events : List SyscallTraceEvent) (n : ℕ) : ProgramBaseline K :=
  afterWindows programId (List.replicate n events)

lemma repeated_succ (events : List SyscallTraceEvent) (n : ℕ) :
    (repeated programId events (n + 1) : ProgramBaseline K) =
      (repeated programId events n).update events := by
  rw [repeated, List.replicate_succ', afterWindows_concat]
  rfl

/-- The frequencies of a repeated window, up to the factor of the warm-up. -/
lemma freq_repeated {events : List SyscallTraceEvent} (hne : events ≠ []) (n : ℕ)
    (x : SyscallId) :
    (repeated programId events n : ProgramBaseline K).freq x =
      (1 - (1 - alpha) ^ n) * relFreq events x := by
  induction n with
  | zero => simp [repeated, afterWindows]
  | succ n ih =>
    rw [repeated_succ, freq_update _ hne, ih]
    split
    · rw [blend, pow_succ]
      ring
    · next hx => rw [relFreq_of_not_mem hx, mul_zero, mul_zero]

end Repetition

variable (programId : Pubkey)

lemma one_sub_alpha : (1 : ℝ) - alpha = 0.9 := by
  rw [alpha]
  norm_num

/-- The divergence of a window from the baseline of its repetitions. -/
noncomputable def repeatedDivergence (events : List SyscallTraceEvent) (n : ℕ) : ℝ :=
  (repeated programId events n).klDivergence (observedFreqs events)

section Divergence

variable (hne : events ≠ [])
include hne

/-- With every repetition the frequencies grow, and the divergence falls. -/
lemma repeatedDivergence_succ_le (n : ℕ) :
    repeatedDivergence programId events (n + 1) ≤ repeatedDivergence programId events n := by
  rw [repeatedDivergence, repeatedDivergence, klDivergence_observedFreqs,
    klDivergence_observedFreqs]
  refine Divergence.divergence_anti (fun x _ => (relFreq_mem events x).1)
    (fun x _ => floored_pos _ x) fun x _ => max_le_max ?_ (le_refl _)
  have hpow : (0.9 : ℝ) ^ (n + 1) ≤ 0.9 ^ n :=
    pow_le_pow_of_le_one (by norm_num) (by norm_num) n.le_succ
  rw [freq_repeated programId hne, freq_repeated programId hne, one_sub_alpha]
  exact mul_le_mul_of_nonneg_right (by linarith) (relFreq_mem events x).1

lemma repeatedDivergence_le {n : ℕ} (hn : 1 ≤ n) :
    repeatedDivergence programId events n ≤ -Real.log (1 - 0.9 ^ n) := by
  have hfactor : (0 : ℝ) < 1 - 0.9 ^ n := by
    have hpow : (0.9 : ℝ) ^ n < 1 := pow_lt_one₀ (by norm_num) (by norm_num) (by omega)
    linarith
  rw [repeatedDivergence, klDivergence_observedFreqs, ← Real.log_inv]
  refine Divergence.divergence_le_log (fun x _ => (relFreq_mem events x).1)
    (fun x _ => floored_pos _ x) (sum_relFreq_ids hne) fun x _ => ?_
  calc (relFreq events x : ℝ)
      = (1 - 0.9 ^ n)⁻¹ * (repeated programId events n).freq x := by
        rw [freq_repeated programId hne, one_sub_alpha, inv_mul_cancel_left₀ hfactor.ne']
    _ ≤ (1 - 0.9 ^ n)⁻¹ * (repeated programId events n).floored x :=
        mul_le_mul_of_nonneg_left (le_max_left _ _) (inv_nonneg.mpr hfactor.le)

/-- The first window leaves a tenth of its frequencies. -/
lemma repeatedDivergence_le_log_ten {n : ℕ} (hn : 1 ≤ n) :
    repeatedDivergence programId events n ≤ Real.log 10 := by
  have hone : repeatedDivergence programId events 1 ≤ Real.log 10 := by
    have hten : (1 - 0.9 ^ 1 : ℝ) = 10⁻¹ := by norm_num
    have hle := repeatedDivergence_le programId hne (le_refl 1)
    rwa [hten, Real.log_inv, neg_neg] at hle
  induction n, hn using Nat.le_induction with
  | base => exact hone
  | succ n _ ih => exact (repeatedDivergence_succ_le programId hne n).trans ih

end Divergence

lemma log_ten_lt : Real.log 10 < 2.5 := by
  have hlog : Real.log (10 ^ 2) ≤ Real.log (2 ^ 7) := Real.log_le_log (by norm_num) (by norm_num)
  rw [Real.log_pow, Real.log_pow] at hlog
  have htwo := Real.log_two_lt_d9
  push_cast at hlog
  linarith

/-- **A program that repeats itself is not flagged by divergence**, and the more often it has
repeated its window, the smaller the divergence. -/
theorem divergence_of_repetition {events : List SyscallTraceEvent} (hne : events ≠ []) {n : ℕ}
    (hn : 1 ≤ n) :
    let kl := fun k => (afterWindows programId (List.replicate k events)
      : ProgramBaseline ℝ).klDivergence (observedFreqs events)
    kl n ≤ -Real.log (1 - 0.9 ^ n) ∧ (∀ m, n ≤ m → kl m ≤ kl n) ∧ kl n ≤ Real.log 10 ∧
      kl n < AnomalyDetector.defaultPolicy.klThreshold := by
  have hten : repeatedDivergence programId events n ≤ Real.log 10 :=
    repeatedDivergence_le_log_ten programId hne hn
  have hanti : Antitone (repeatedDivergence programId events) :=
    antitone_nat_of_succ_le (repeatedDivergence_succ_le programId hne)
  exact ⟨repeatedDivergence_le programId hne hn, fun m hm => hanti hm, hten,
    hten.trans_lt log_ten_lt⟩

/-- A sysvar read and a hash, three times. -/
theorem divergence_of_repetition_pair :
    let events := makeEvents [1, 20]
    let kl := fun k => (afterWindows zeroPubkey (List.replicate k events)
      : ProgramBaseline ℝ).klDivergence (observedFreqs events)
    kl 3 ≤ -Real.log (1 - 0.9 ^ 3) ∧ (∀ m, 3 ≤ m → kl m ≤ kl 3) ∧ kl 3 ≤ Real.log 10 ∧
      kl 3 < AnomalyDetector.defaultPolicy.klThreshold := by
  intro events
  have hne : events ≠ [] := by decide
  exact divergence_of_repetition zeroPubkey hne (by omega)

end ProgramBaseline

end SyscallMind
