/-
# The stored frequencies and the moving average

The exponential moving average of the windows' histograms decays the frequency of every id
with every window.  The baseline decays only the ids that occur in the window, so a stored
frequency is never below the average, and it stays equal to it exactly as long as no window
leaves out an id that has occurred before.  This decides whether the stored frequencies are a
histogram (`baseline_is_average_iff`).
-/
import Mathlib.Algebra.BigOperators.Field
import Mathlib.Algebra.Order.BigOperators.Group.Finset
import Mathlib.Algebra.Order.Ring.Rat
import Mathlib.Data.List.GetD
import Mathlib.Tactic.Linarith
import Mathlib.Tactic.Ring
import SyscallMind.Anomaly.Baseline
import SyscallMind.Lib.Run

namespace SyscallMind

open Lib

namespace ProgramBaseline

/-- The baseline of a program after its windows. -/
def afterWindows {K : Type*} [Field K] (programId : Pubkey)
    (windows : List (List SyscallTraceEvent)) : ProgramBaseline K :=
  Run.after update (new programId) windows

/-- The exponential moving average of the relative frequencies of an id. -/
def average (windows : List (List SyscallTraceEvent)) (x : SyscallId) : ℚ :=
  ∑ i ∈ Finset.range windows.length,
    alpha * (1 - alpha) ^ (windows.length - (i + 1)) * relFreq (windows.getD i []) x

/-- The sum of the stored frequencies. -/
def freqSum {K : Type*} [Field K] (b : ProgramBaseline K) : K :=
  (b.syscallFrequencies.entries.map (·.2)).sum

/-! ## One more window -/

variable (programId : Pubkey) (windows : List (List SyscallTraceEvent))
  (w : List SyscallTraceEvent)

lemma afterWindows_concat {K : Type*} [Field K] :
    (afterWindows programId (windows ++ [w]) : ProgramBaseline K) =
      (afterWindows programId windows).update w :=
  Run.after_append _ _ windows [w]

lemma average_nil (x : SyscallId) : average [] x = 0 := rfl

lemma average_concat (x : SyscallId) :
    average (windows ++ [w]) x = blend (average windows x) (relFreq w x) := by
  rw [average, List.length_append, List.length_singleton, Finset.sum_range_succ, blend, average,
    Finset.mul_sum]
  congr 1
  · refine Finset.sum_congr rfl fun i hi => ?_
    have hlt : i < windows.length := Finset.mem_range.mp hi
    rw [List.getD_append _ _ _ _ hlt,
      show windows.length + 1 - (i + 1) = windows.length - (i + 1) + 1 by omega, pow_succ]
    ring
  · simp

lemma average_nonneg (x : SyscallId) : 0 ≤ average windows x := by
  induction windows using List.reverseRecOn with
  | nil => exact le_refl _
  | append_singleton ws w ih =>
    rw [average_concat]
    exact blend_nonneg ih (relFreq_mem w x).1

/-- An id has a positive average as soon as it has occurred. -/
lemma average_pos_iff (x : SyscallId) : 0 < average windows x ↔ ∃ w ∈ windows, x ∈ ids w := by
  induction windows using List.reverseRecOn with
  | nil => simp [average_nil]
  | append_singleton ws w ih =>
    have hnonneg := average_nonneg ws x
    rw [average_concat, blend_eq]
    by_cases hx : x ∈ ids w
    · have hrel : (0 : ℚ) < relFreq w x := relFreq_pos hx
      exact iff_of_true (by linarith) ⟨w, by simp, hx⟩
    · have hzero : (relFreq w x : ℚ) = 0 := relFreq_of_not_mem hx
      have hpos : 0 < 9 / 10 * average ws x + 1 / 10 * relFreq w x ↔
          0 < average ws x := by
        rw [hzero]
        constructor <;> intro h <;> linarith
      rw [hpos, ih]
      simp [or_and_right, exists_or, hx]

/-! ## The stored frequencies -/

/-- Every window that comes after an occurrence of the id contains it. -/
def Kept (x : SyscallId) : Prop := windows.Pairwise fun w w' => x ∈ ids w → x ∈ ids w'

lemma kept_concat (x : SyscallId) :
    Kept (windows ++ [w]) x ↔
      Kept windows x ∧ ((∃ w' ∈ windows, x ∈ ids w') → x ∈ ids w) := by
  rw [Kept, List.pairwise_append]
  simp [Kept]

variable {windows} in
/-- A stored frequency is not below the average, and equal to it exactly if the id was never
left out. -/
lemma average_le_freq (hne : ∀ w ∈ windows, w ≠ []) (x : SyscallId) :
    average windows x ≤ (afterWindows programId windows).freq x ∧
      ((afterWindows programId windows).freq x = average windows x ↔ Kept windows x) := by
  induction windows using List.reverseRecOn with
  | nil => exact ⟨le_refl _, iff_of_true rfl List.Pairwise.nil⟩
  | append_singleton ws w ih =>
    obtain ⟨hle, heq⟩ := ih fun w' hw' => hne w' (by simp [hw'])
    have hpos := average_pos_iff ws x
    have hnonneg := average_nonneg ws x
    rw [afterWindows_concat, freq_update _ (hne w (by simp)), average_concat, kept_concat, ← heq,
      ← hpos, blend_eq, blend_eq]
    by_cases hx : x ∈ ids w
    · rw [if_pos hx]
      refine ⟨by linarith, ⟨fun h => ⟨by linarith, fun _ => hx⟩, fun h => by rw [h.1]⟩⟩
    · have hzero : (relFreq w x : ℚ) = 0 := relFreq_of_not_mem hx
      rw [if_neg hx, hzero]
      refine ⟨by linarith, ⟨fun h => ⟨by linarith, fun hp => ?_⟩, fun h => ?_⟩⟩
      · -- the average decays, and the frequency does not
        exfalso
        linarith
      · have havg : average ws x = 0 :=
          le_antisymm (le_of_not_gt fun hp => hx (h.2 hp)) hnonneg
        rw [h.1, havg]
        ring

/-! ## Sums -/

lemma sum_relFreq_cryptoIds :
    ∑ x ∈ cryptoIds.toFinset, (relFreq w x : ℚ) = (cryptoCount w : ℚ) / (w.length : ℚ) := by
  rw [sum_relFreq, ids, List.countP_map, cryptoCount]
  simp only [List.mem_toFinset]
  rfl

variable {windows} in
lemma sum_average_of_subset (hne : ∀ w ∈ windows, w ≠ []) {s : Finset SyscallId}
    (hs : ∀ w ∈ windows, ∀ x ∈ ids w, x ∈ s) :
    ∑ x ∈ s, average windows x = 1 - (1 - alpha) ^ windows.length := by
  induction windows using List.reverseRecOn with
  | nil => simp [average_nil]
  | append_singleton ws w ih =>
    have hws := ih (fun w' hw' => hne w' (by simp [hw'])) fun w' hw' => hs w' (by simp [hw'])
    simp only [average_concat, blend]
    rw [Finset.sum_add_distrib, ← Finset.mul_sum, ← Finset.mul_sum, hws,
      sum_relFreq_of_subset (hne w (by simp)) (hs w (by simp)), List.length_append,
      List.length_singleton, pow_succ]
    ring

variable {windows} in
lemma sum_average_cryptoIds (hne : ∀ w ∈ windows, w ≠ []) :
    ∑ x ∈ cryptoIds.toFinset, average windows x =
      (afterWindows programId windows).cryptoRatio := by
  induction windows using List.reverseRecOn with
  | nil => exact Finset.sum_eq_zero fun x _ => average_nil x
  | append_singleton ws w ih =>
    rw [afterWindows_concat, cryptoRatio_update _ (hne w (by simp)),
      ← ih fun w' hw' => hne w' (by simp [hw'])]
    simp only [average_concat, blend]
    rw [Finset.sum_add_distrib, ← Finset.mul_sum, ← Finset.mul_sum, sum_relFreq_cryptoIds]

/-- The stored frequencies, summed over any set that contains the stored ids. -/
lemma freqSum_eq_sum {K : Type*} [Field K] (b : ProgramBaseline K) {s : Finset SyscallId}
    (hs : ∀ x ∈ b.syscallFrequencies, x ∈ s) : b.freqSum = ∑ x ∈ s, b.freq x := by
  have hvalue : ∀ x f, b.syscallFrequencies.lookup x = some f → f = b.freq x := by
    intro x f hf
    rw [freq, hf]
    rfl
  rw [freqSum, HashMap.sum_entries _ (fun _ f => f) b.freq hvalue]
  refine Finset.sum_subset (fun x hx => hs x ?_) fun x _ hx => ?_
  · exact AList.mem_keys.mpr (List.mem_toFinset.mp hx)
  · have hnone : b.syscallFrequencies.lookup x = none :=
      AList.lookup_eq_none.mpr fun h => hx (List.mem_toFinset.mpr (AList.mem_keys.mp h))
    rw [freq, hnone]
    rfl

variable {windows} in
lemma mem_frequencies_afterWindows {K : Type*} [Field K] (hne : ∀ w ∈ windows, w ≠ [])
    (x : SyscallId) :
    x ∈ (afterWindows programId windows : ProgramBaseline K).syscallFrequencies ↔
      ∃ w ∈ windows, x ∈ ids w := by
  induction windows using List.reverseRecOn with
  | nil => exact iff_of_false (fun h => absurd h (by simp [afterWindows, new])) (by simp)
  | append_singleton ws w ih =>
    rw [afterWindows_concat, mem_frequencies_update _ (hne w (by simp)),
      ih fun w' hw' => hne w' (by simp [hw'])]
    simp [or_and_right, exists_or]

/-- **When the baseline is the moving average of the histograms.**  The stored frequencies are
the averages, add up to one up to the warm-up factor and agree with the crypto ratio, exactly
when every window contains all ids of the windows before it. -/
theorem baseline_is_average_iff (hne : ∀ w ∈ windows, w ≠ []) :
    let b : ProgramBaseline ℚ := afterWindows programId windows
    ((∀ x, b.freq x = average windows x) ∧
        b.freqSum = 1 - (1 - alpha) ^ windows.length ∧
        ∑ x ∈ cryptoIds.toFinset, b.freq x = b.cryptoRatio) ↔
      windows.Pairwise fun w w' => ∀ x ∈ ids w, x ∈ ids w' := by
  intro b
  have hkept : (∀ x, b.freq x = average windows x) ↔
      windows.Pairwise fun w w' => ∀ x ∈ ids w, x ∈ ids w' := by
    simp only [b, (average_le_freq programId hne _).2, Kept, List.pairwise_iff_getElem]
    constructor
    · exact fun h i j hi hj hij x => h x i j hi hj hij
    · exact fun h x i j hi hj hij => h i j hi hj hij x
  rw [← hkept]
  refine ⟨fun h => h.1, fun h => ⟨h, ?_, ?_⟩⟩
  · have hs : ∀ w ∈ windows, ∀ x ∈ ids w, x ∈ (windows.flatMap ids).toFinset := by
      intro w hw x hx
      exact List.mem_toFinset.mpr (List.mem_flatMap.mpr ⟨w, hw, hx⟩)
    have hstored : ∀ x ∈ b.syscallFrequencies,
        x ∈ (windows.flatMap ids).toFinset := by
      intro x hx
      obtain ⟨w, hw, hxw⟩ := (mem_frequencies_afterWindows programId hne x).mp hx
      exact hs w hw x hxw
    rw [freqSum_eq_sum _ hstored, Finset.sum_congr rfl fun x _ => h x,
      sum_average_of_subset hne hs]
  · rw [Finset.sum_congr rfl fun x _ => h x, sum_average_cryptoIds programId hne]

/-- Two windows with the same id. -/
theorem baseline_is_average_sameId :
    let windows := [makeEvents [1], makeEvents [1]]
    let b : ProgramBaseline ℚ := afterWindows zeroPubkey windows
    (∀ x, b.freq x = average windows x) ∧ b.freqSum = 1 - (1 - alpha) ^ 2 ∧
      ∑ x ∈ cryptoIds.toFinset, b.freq x = b.cryptoRatio := by
  have hne : ∀ w ∈ [makeEvents [1], makeEvents [1]], w ≠ [] := by decide
  exact (baseline_is_average_iff zeroPubkey _ hne).mpr (List.pairwise_pair.mpr fun _ hx => hx)

/-- The second window leaves out the id of the first, whose frequency stays where it was. -/
theorem frequency_not_decayed :
    let windows := [makeEvents [1], makeEvents [2]]
    let b : ProgramBaseline ℚ := afterWindows zeroPubkey windows
    b.freq 1 = 1 / 10 ∧ average windows 1 = 9 / 100 ∧ b.freqSum ≠ 1 - (1 - alpha) ^ 2 := by
  decide +kernel

end ProgramBaseline

end SyscallMind
