/-
# The divergence of a distribution from positive weights

For a distribution `p` and positive weights `q` on a finite set, the divergence
`∑ p log (p / q)` is at least `-log (∑ q)`: if the weights are a distribution too this is
Gibbs' inequality, and weights with a larger sum allow a negative divergence.

The bound cannot be improved, even if `p` has to come from counting: the relative frequencies
of suitable counts bring the divergence below any number above the bound
(`exists_counts_divergence_lt`).
-/
import Mathlib.Algebra.BigOperators.Field
import Mathlib.Analysis.SpecialFunctions.Log.NegMulLog
import Mathlib.Order.Filter.AtTopBot.Archimedean
import Mathlib.Topology.Algebra.Order.Floor

namespace Lib

open Filter Topology

namespace Divergence

variable {ι : Type*}

/-- One summand of the divergence. -/
noncomputable def term (p q : ℝ) : ℝ := p * Real.log (p / q)

/-- The divergence of `p` from the weights `q`. -/
noncomputable def divergence (s : Finset ι) (p q : ι → ℝ) : ℝ := ∑ i ∈ s, term (p i) (q i)

lemma sub_le_term {p q : ℝ} (hp : 0 ≤ p) (hq : 0 < q) : p - q ≤ term p q := by
  rcases hp.eq_or_lt with rfl | hp
  · simp [term, hq.le]
  · have hlog := Real.one_sub_inv_le_log_of_pos (div_pos hp hq)
    have hmul := mul_le_mul_of_nonneg_left hlog hp.le
    calc p - q = p * (1 - (p / q)⁻¹) := by rw [inv_div]; field_simp
      _ ≤ term p q := hmul

variable {s : Finset ι} {p q : ι → ℝ}

lemma nonempty_of_sum_eq_one (hsum : ∑ i ∈ s, p i = 1) : s.Nonempty := by
  refine Finset.nonempty_of_sum_ne_zero (f := p) ?_
  rw [hsum]
  exact one_ne_zero

/-- Scaling the weights shifts the divergence. -/
lemma divergence_div (hp : ∀ i ∈ s, 0 ≤ p i) (hq : ∀ i ∈ s, 0 < q i) {c : ℝ} (hc : 0 < c) :
    divergence s p (fun i => q i / c) = divergence s p q + (∑ i ∈ s, p i) * Real.log c := by
  rw [divergence, divergence, Finset.sum_mul, ← Finset.sum_add_distrib]
  refine Finset.sum_congr rfl fun i hi => ?_
  rcases (hp i hi).eq_or_lt with hzero | hpos
  · simp [term, ← hzero]
  · have hratio : 0 < p i / q i := div_pos hpos (hq i hi)
    rw [term, term, ← mul_add, ← Real.log_mul hratio.ne' hc.ne', div_div_eq_mul_div]
    congr 2
    ring

/-- **Gibbs' inequality** for weights with an arbitrary sum. -/
theorem neg_log_sum_le_divergence (hp : ∀ i ∈ s, 0 ≤ p i) (hq : ∀ i ∈ s, 0 < q i)
    (hsum : ∑ i ∈ s, p i = 1) : -Real.log (∑ i ∈ s, q i) ≤ divergence s p q := by
  have hne := nonempty_of_sum_eq_one hsum
  have hQ : 0 < ∑ i ∈ s, q i := Finset.sum_pos hq hne
  have hterm : ∀ i ∈ s, p i - q i / (∑ j ∈ s, q j) ≤ term (p i) (q i / (∑ j ∈ s, q j)) :=
    fun i hi => sub_le_term (hp i hi) (div_pos (hq i hi) hQ)
  have hnonneg : 0 ≤ divergence s p (fun i => q i / (∑ j ∈ s, q j)) := by
    calc (0 : ℝ) = ∑ i ∈ s, (p i - q i / (∑ j ∈ s, q j)) := by
          rw [Finset.sum_sub_distrib, hsum, ← Finset.sum_div, div_self hQ.ne', sub_self]
      _ ≤ divergence s p (fun i => q i / (∑ j ∈ s, q j)) := Finset.sum_le_sum hterm
  rw [divergence_div hp hq hQ, hsum, one_mul] at hnonneg
  linarith

/-! ## Bounds on the weights -/

lemma term_le_mul_log {p q c : ℝ} (hp : 0 ≤ p) (hq : 0 < q) (h : p ≤ c * q) :
    term p q ≤ p * Real.log c := by
  rcases hp.eq_or_lt with rfl | hp
  · simp [term]
  · have hratio : p / q ≤ c := (div_le_iff₀ hq).mpr h
    exact mul_le_mul_of_nonneg_left (Real.log_le_log (div_pos hp hq) hratio) hp.le

lemma term_anti {p q q' : ℝ} (hp : 0 ≤ p) (hq : 0 < q) (h : q ≤ q') : term p q' ≤ term p q := by
  rcases hp.eq_or_lt with rfl | hp
  · simp [term]
  · have hratio : p / q' ≤ p / q := div_le_div_of_nonneg_left hp.le hq h
    have hlog := Real.log_le_log (div_pos hp (hq.trans_le h)) hratio
    exact mul_le_mul_of_nonneg_left hlog hp.le

/-- The divergence is at most the logarithm of the largest ratio. -/
theorem divergence_le_log (hp : ∀ i ∈ s, 0 ≤ p i) (hq : ∀ i ∈ s, 0 < q i)
    (hsum : ∑ i ∈ s, p i = 1) {c : ℝ} (hc : ∀ i ∈ s, p i ≤ c * q i) :
    divergence s p q ≤ Real.log c := by
  calc divergence s p q ≤ ∑ i ∈ s, p i * Real.log c :=
        Finset.sum_le_sum fun i hi => term_le_mul_log (hp i hi) (hq i hi) (hc i hi)
    _ = Real.log c := by rw [← Finset.sum_mul, hsum, one_mul]

/-- Larger weights give a smaller divergence. -/
lemma divergence_anti {q' : ι → ℝ} (hp : ∀ i ∈ s, 0 ≤ p i) (hq : ∀ i ∈ s, 0 < q i)
    (h : ∀ i ∈ s, q i ≤ q' i) : divergence s p q' ≤ divergence s p q :=
  Finset.sum_le_sum fun i hi => term_anti (hp i hi) (hq i hi) (h i hi)

/-- With weights of at most one the divergence is not below the negative entropy of the
uniform distribution. -/
lemma neg_log_card_le_divergence (hp : ∀ i ∈ s, 0 ≤ p i) (hq : ∀ i ∈ s, 0 < q i)
    (hsum : ∑ i ∈ s, p i = 1) (hone : ∀ i ∈ s, q i ≤ 1) :
    -Real.log s.card ≤ divergence s p q := by
  have hne := nonempty_of_sum_eq_one hsum
  have hcard : ∑ i ∈ s, q i ≤ s.card := by
    simpa using Finset.sum_le_card_nsmul s q 1 hone
  have hlog := Real.log_le_log (Finset.sum_pos hq hne) hcard
  have hgibbs := neg_log_sum_le_divergence hp hq hsum
  linarith

/-- **Small weights on a part of the set.**  The share of the part counts with the logarithm of
the floor, and only the entropy can make up for it. -/
theorem mul_log_sub_log_card_le_divergence (hp : ∀ i ∈ s, 0 ≤ p i) (hq : ∀ i ∈ s, 0 < q i)
    (hsum : ∑ i ∈ s, p i = 1) (hone : ∀ i ∈ s, q i ≤ 1) {t : Finset ι} (ht : t ⊆ s) {c : ℝ}
    (hc : 0 < c) (hsmall : ∀ i ∈ t, q i ≤ c) :
    (∑ i ∈ t, p i) * Real.log c⁻¹ - Real.log s.card ≤ divergence s p q := by
  classical
  have hentropy := neg_log_card_le_divergence hp (fun i _ => one_pos) hsum
    (fun i _ => le_refl (1 : ℝ))
  have hterm : ∀ i ∈ s, term (p i) 1 + (if i ∈ t then p i * Real.log c⁻¹ else 0) ≤
      term (p i) (q i) := by
    intro i hi
    split
    · next hit =>
      rcases (hp i hi).eq_or_lt with hzero | hpos
      · simp [term, ← hzero]
      · calc term (p i) 1 + p i * Real.log c⁻¹ = term (p i) c := by
              rw [term, term, ← mul_add, div_one, div_eq_mul_inv,
                Real.log_mul hpos.ne' (inv_pos.mpr hc).ne']
          _ ≤ term (p i) (q i) := term_anti (hp i hi) (hq i hi) (hsmall i hit)
    · rw [add_zero]
      exact term_anti (hp i hi) (hq i hi) (hone i hi)
  have htotal := Finset.sum_le_sum hterm
  rw [Finset.sum_add_distrib, ← Finset.sum_filter, Finset.filter_mem_eq_inter,
    Finset.inter_eq_right.mpr ht, ← Finset.sum_mul] at htotal
  rw [divergence] at hentropy ⊢
  linarith

/-! ## The bound is approached by counting -/

/-- The relative frequency of an index under counts. -/
noncomputable def relative (s : Finset ι) (counts : ι → ℕ) (i : ι) : ℝ :=
  (counts i : ℝ) / ((∑ j ∈ s, counts j : ℕ) : ℝ)

/-- Counts that follow the weights `w` with growing precision. -/
noncomputable def counting (w : ι → ℝ) (n : ℕ) (i : ι) : ℕ := ⌈w i * n⌉₊

lemma tendsto_counting {w : ι → ℝ} {i : ι} (hw : 0 ≤ w i) :
    Tendsto (fun n : ℕ => (counting w n i : ℝ) / n) atTop (𝓝 (w i)) :=
  (tendsto_nat_ceil_mul_div_atTop hw).comp tendsto_natCast_atTop_atTop

lemma tendsto_relative {w : ι → ℝ} (hw : ∀ i ∈ s, 0 ≤ w i) (hsum : ∑ i ∈ s, w i = 1) {i : ι}
    (hi : i ∈ s) :
    Tendsto (fun n : ℕ => relative s (counting w n) i) atTop (𝓝 (w i)) := by
  have htotal : Tendsto (fun n : ℕ => ((∑ j ∈ s, counting w n j : ℕ) : ℝ) / n) atTop (𝓝 1) := by
    have h := tendsto_finsetSum s fun j hj => tendsto_counting (hw j hj)
    rw [hsum] at h
    refine h.congr fun n => ?_
    rw [← Finset.sum_div, Nat.cast_sum]
  have hdiv := (tendsto_counting (hw i hi)).div htotal one_ne_zero
  rw [div_one] at hdiv
  refine hdiv.congr' ?_
  filter_upwards [eventually_gt_atTop 0] with n hn
  have hn' : (n : ℝ) ≠ 0 := Nat.cast_ne_zero.mpr hn.ne'
  rw [Pi.div_apply, relative, div_div_div_cancel_right₀ hn']

lemma continuous_term {q : ℝ} (hq : 0 < q) : Continuous fun p => term p q := by
  have heq : (fun p => term p q) = fun p => q * (p / q * Real.log (p / q)) := by
    ext p
    rw [term]
    field_simp
  rw [heq]
  exact continuous_const.mul (Real.continuous_mul_log.comp (continuous_id.div_const q))

/-- **The bound is sharp.** -/
theorem exists_counts_divergence_lt (hne : s.Nonempty) (hq : ∀ i ∈ s, 0 < q i) {c : ℝ}
    (hc : -Real.log (∑ i ∈ s, q i) < c) :
    ∃ counts : ι → ℕ, (∀ i ∈ s, 0 < counts i) ∧ divergence s (relative s counts) q < c := by
  have hQ : 0 < ∑ i ∈ s, q i := Finset.sum_pos hq hne
  have hw : ∀ i ∈ s, 0 < q i / (∑ j ∈ s, q j) := fun i hi => div_pos (hq i hi) hQ
  have hsum : ∑ i ∈ s, q i / (∑ j ∈ s, q j) = 1 := by rw [← Finset.sum_div, div_self hQ.ne']
  have hlimit : divergence s (fun i => q i / (∑ j ∈ s, q j)) q = -Real.log (∑ i ∈ s, q i) := by
    have hself : divergence s (fun i => q i / (∑ j ∈ s, q j)) (fun i => q i / (∑ j ∈ s, q j)) =
        0 := by
      refine Finset.sum_eq_zero fun i hi => ?_
      rw [term, div_self (hw i hi).ne', Real.log_one, mul_zero]
    rw [divergence_div (fun i hi => (hw i hi).le) hq hQ, hsum, one_mul] at hself
    linarith
  have htendsto : Tendsto (fun n : ℕ => divergence s
      (relative s (counting (fun i => q i / (∑ j ∈ s, q j)) n)) q) atTop
        (𝓝 (-Real.log (∑ i ∈ s, q i))) := by
    rw [← hlimit]
    refine tendsto_finsetSum s fun i hi => ?_
    exact ((continuous_term (hq i hi)).tendsto _).comp
      (tendsto_relative (fun j hj => (hw j hj).le) hsum hi)
  obtain ⟨n, hlt, hn⟩ := ((htendsto.eventually_lt_const hc).and (eventually_gt_atTop 0)).exists
  refine ⟨_, fun i hi => ?_, hlt⟩
  exact Nat.ceil_pos.mpr (mul_pos (hw i hi) (Nat.cast_pos.mpr hn))

end Divergence

end Lib
