/-
# The entropy of a list

The entropy of a list, in bits, is the mean over its elements of the information in each: the
logarithm of the inverse of its proportion in the list.

The entropy is at least that of one value against all others (`binary_le_entropy`), so if the
most frequent value has the proportion `p`, it is at least one bit or at least `2 (1 - p)`:
entropy and largest proportion are not both small (`four_fifths_le`).  A list in which some
elements are single has the information of these, and for the others that of as many equal ones
(`singles_le_entropy`).
-/
import Mathlib.Analysis.SpecialFunctions.Log.Base
import Mathlib.Analysis.SpecialFunctions.Log.NegMulLog
import Mathlib.Algebra.BigOperators.Field

namespace Lib

namespace Entropy

variable {α : Type*} [DecidableEq α]

/-- The proportion of a value in a list. -/
noncomputable def proportion (xs : List α) (x : α) : ℝ := (xs.count x : ℝ) / xs.length

/-- The information in an element of a list, in bits. -/
noncomputable def information (xs : List α) (x : α) : ℝ :=
  -Real.logb (2 : ℕ) (proportion xs x)

/-- The entropy of a list, in bits. -/
noncomputable def entropy (xs : List α) : ℝ := (xs.map (information xs)).sum / xs.length

/-! ## Proportions -/

variable {xs : List α} {x : α}

lemma proportion_pos (hx : x ∈ xs) : 0 < proportion xs x :=
  div_pos (Nat.cast_pos.mpr (List.count_pos_iff.mpr hx))
    (Nat.cast_pos.mpr (List.length_pos_of_mem hx))

lemma proportion_le_one (xs : List α) (x : α) : proportion xs x ≤ 1 :=
  div_le_one_of_le₀ (Nat.cast_le.mpr List.count_le_length) (Nat.cast_nonneg _)

/-- Two different values share the list. -/
lemma proportion_add_le (xs : List α) {y : α} (hxy : x ≠ y) :
    proportion xs x + proportion xs y ≤ 1 := by
  have hcount : xs.count x + xs.count y ≤ xs.length := by
    induction xs with
    | nil => simp
    | cons z xs ih =>
      rw [List.count_cons, List.count_cons, List.length_cons]
      by_cases hzx : z = x
      · subst hzx
        simp only [beq_self_eq_true, if_true, beq_iff_eq, hxy, if_false]
        omega
      · simp only [beq_iff_eq, hzx, if_false]
        split <;> omega
  rw [proportion, proportion, ← add_div]
  exact div_le_one_of_le₀ (by exact_mod_cast hcount) (Nat.cast_nonneg _)

lemma log_two_pos : 0 < Real.log (2 : ℕ) := Real.log_pos (by norm_num)

/-- At most a half is at least one bit. -/
lemma one_le_neg_logb {p : ℝ} (hp : 0 < p) (hhalf : p ≤ 1 / 2) :
    1 ≤ -Real.logb (2 : ℕ) p := by
  have hlog := Real.log_le_log hp hhalf
  rw [one_div, Real.log_inv] at hlog
  rw [Real.logb, ← neg_div, le_div_iff₀ log_two_pos, one_mul]
  push_cast
  linarith

/-- Between a half and one, `-p log p` is above its chord. -/
lemma one_sub_le_mul_information (hhalf : 1 / 2 ≤ proportion xs x) :
    1 - proportion xs x ≤ proportion xs x * information xs x := by
  have hone := proportion_le_one xs x
  rw [information, Real.logb, ← neg_div, mul_div_assoc', le_div_iff₀ log_two_pos]
  generalize proportion xs x = p at *
  -- `p` is between a half and one with the weights `2 (1 - p)` and `2 p - 1`
  have hconcave := Real.concaveOn_negMulLog.2
  have hchord := hconcave (Set.mem_Ici.mpr (by norm_num : (0 : ℝ) ≤ 1 / 2))
    (Set.mem_Ici.mpr zero_le_one) (by linarith : 0 ≤ 2 * (1 - p)) (by linarith : 0 ≤ 2 * p - 1)
    (by ring)
  have hpoint : 2 * (1 - p) * (1 / 2) + (2 * p - 1) * 1 = p := by ring
  simp only [smul_eq_mul] at hchord
  rw [hpoint, Real.negMulLog_one, mul_zero, add_zero, Real.negMulLog, Real.negMulLog, one_div,
    Real.log_inv] at hchord
  push_cast
  linarith

/-! ## The entropy -/

/-- The sum over the values. -/
lemma entropy_eq_sum (xs : List α) : entropy xs =
    -∑ x ∈ xs.toFinset, proportion xs x * Real.logb (2 : ℕ) (proportion xs x) := by
  rw [entropy, Finset.sum_list_map_count, Finset.sum_div, ← Finset.sum_neg_distrib]
  refine Finset.sum_congr rfl fun x _ => ?_
  rw [information, proportion, nsmul_eq_mul]
  ring

/-- A bound for each element is one for the entropy. -/
lemma le_entropy {f : α → ℝ} (h : ∀ x ∈ xs, f x ≤ information xs x) :
    (xs.map f).sum / xs.length ≤ entropy xs :=
  div_le_div_of_nonneg_right (List.sum_le_sum h) (Nat.cast_nonneg _)

lemma entropy_replicate (n : ℕ) (x : α) : entropy (List.replicate n x) = 0 := by
  rcases Nat.eq_zero_or_pos n with rfl | hn
  · simp [entropy]
  · have hself : proportion (List.replicate n x) x = 1 := by
      rw [proportion, List.count_replicate_self, List.length_replicate]
      exact div_self (Nat.cast_ne_zero.mpr hn.ne')
    rw [entropy, List.map_replicate, information, hself]
    simp

lemma one_le_entropy (hne : xs ≠ []) (h : ∀ x ∈ xs, proportion xs x ≤ 1 / 2) :
    1 ≤ entropy xs := by
  have hlen : (xs.length : ℝ) ≠ 0 := Nat.cast_ne_zero.mpr (List.length_pos_iff.mpr hne).ne'
  refine le_trans ?_ (le_entropy (f := fun _ => 1) fun x hx =>
    one_le_neg_logb (proportion_pos hx) (h x hx))
  rw [List.map_const', List.sum_replicate, nsmul_one, div_self hlen]

lemma sum_ite_eq (xs : List α) (x : α) (i j : ℝ) :
    (xs.map fun y => if y = x then i else j).sum =
      xs.count x * i + (xs.length - xs.count x) * j := by
  induction xs with
  | nil => simp
  | cons y xs ih =>
    rw [List.map_cons, List.sum_cons, ih, List.count_cons, List.length_cons]
    by_cases hy : y = x
    · simp only [hy, if_true, beq_self_eq_true]
      push_cast
      ring
    · simp only [hy, if_false, beq_iff_eq]
      push_cast
      ring

/-- The entropy of a list is at least the one of a single value against all others. -/
theorem binary_le_entropy (hx : x ∈ xs) : proportion xs x * information xs x +
    (1 - proportion xs x) * -Real.logb (2 : ℕ) (1 - proportion xs x) ≤ entropy xs := by
  have hlen : (xs.length : ℝ) ≠ 0 := Nat.cast_ne_zero.mpr (List.length_pos_of_mem hx).ne'
  have hbound : ((xs.map fun y => if y = x then information xs x
      else -Real.logb (2 : ℕ) (1 - proportion xs x)).sum : ℝ) / xs.length ≤ entropy xs := by
    refine le_entropy fun y hy => ?_
    split
    · next heq => rw [heq]
    · next hne =>
      -- another value has at most the proportion of all others
      have hadd := proportion_add_le xs hne
      have hbase : (1 : ℝ) < (2 : ℕ) := by norm_num
      exact neg_le_neg (Real.logb_le_logb_of_le hbase (proportion_pos hy) (by linarith))
  rwa [sum_ite_eq, add_div, mul_div_right_comm, mul_div_right_comm, sub_div, div_self hlen,
    ← proportion] at hbound

/-- The same in numbers of elements. -/
lemma binary_counts_le_entropy (hx : x ∈ xs) {m : ℕ} (hlen : xs.length = xs.count x + m) :
    (xs.count x * Real.logb (2 : ℕ) (xs.length / xs.count x) +
      m * Real.logb (2 : ℕ) (xs.length / m)) / xs.length ≤ entropy xs := by
  have hpos : (xs.length : ℝ) ≠ 0 := Nat.cast_ne_zero.mpr (List.length_pos_of_mem hx).ne'
  have hrest : 1 - proportion xs x = (m : ℝ) / xs.length := by
    have hcast : (xs.length : ℝ) = xs.count x + m := by exact_mod_cast hlen
    rw [proportion, eq_div_iff hpos, sub_mul, one_mul, div_mul_cancel₀ _ hpos, hcast]
    ring
  refine le_of_eq_of_le ?_ (binary_le_entropy hx)
  rw [hrest, information, proportion, ← Real.logb_inv, ← Real.logb_inv, inv_div, inv_div]
  ring

/-- A value with at least half of the list leaves at least this much. -/
lemma two_mul_le_entropy (hx : x ∈ xs) (hhalf : 1 / 2 ≤ proportion xs x) :
    2 * (1 - proportion xs x) ≤ entropy xs := by
  have hbinary := binary_le_entropy hx
  have hmul := one_sub_le_mul_information hhalf
  rcases (proportion_le_one xs x).eq_or_lt with hone | hone
  · -- nothing is left
    rw [hone] at hbinary hmul ⊢
    linarith
  · have hrest := one_le_neg_logb (sub_pos.mpr hone) (by linarith)
    have hshare := mul_le_mul_of_nonneg_left hrest (sub_pos.mpr hone).le
    linarith

/-- **Entropy and largest proportion are not both small.** -/
theorem four_fifths_le (hx : x ∈ xs) (hmax : ∀ y ∈ xs, proportion xs y ≤ proportion xs x) :
    4 / 5 ≤ entropy xs ^ 2 + proportion xs x ^ 2 := by
  rcases le_or_gt (1 / 2) (proportion xs x) with hhalf | hhalf
  · have hentropy := two_mul_le_entropy hx hhalf
    have hone := proportion_le_one xs x
    have hsq : (2 * (1 - proportion xs x)) ^ 2 ≤ entropy xs ^ 2 :=
      pow_le_pow_left₀ (by linarith) hentropy 2
    nlinarith [sq_nonneg (5 * proportion xs x - 4)]
  · have hentropy : 1 ≤ entropy xs :=
      one_le_entropy (List.ne_nil_of_mem hx) fun y hy => (hmax y hy).trans hhalf.le
    have hsq := one_le_pow₀ hentropy (n := 2)
    have hpos := sq_nonneg (proportion xs x)
    linarith

/-- An element that occurs at most so often has at least this information. -/
lemma logb_le_information (hx : x ∈ xs) {k : ℕ} (hk : xs.count x ≤ k) :
    Real.logb (2 : ℕ) (xs.length / k) ≤ information xs x := by
  have hcount : (0 : ℝ) < xs.count x := Nat.cast_pos.mpr (List.count_pos_iff.mpr hx)
  have hlen : (0 : ℝ) < xs.length := Nat.cast_pos.mpr (List.length_pos_of_mem hx)
  have hle : (xs.count x : ℝ) ≤ k := Nat.cast_le.mpr hk
  have hbase : (1 : ℝ) < (2 : ℕ) := by norm_num
  rw [information, ← Real.logb_inv, proportion, inv_div]
  exact Real.logb_le_logb_of_le hbase (div_pos hlen (hcount.trans_le hle))
    (div_le_div_of_nonneg_left hlen.le hcount hle)

/-- **The entropy of single elements among others.** -/
theorem singles_le_entropy {singles rest : List α} (hperm : xs.Perm (singles ++ rest))
    (hsingle : ∀ y ∈ singles, xs.count y ≤ 1) :
    (singles.length * Real.logb (2 : ℕ) xs.length +
      rest.length * Real.logb (2 : ℕ) (xs.length / rest.length)) / xs.length ≤ entropy xs := by
  have hsingles : singles.length * Real.logb (2 : ℕ) xs.length ≤
      (singles.map (information xs)).sum := by
    have hsum := List.sum_le_sum (f := fun _ => Real.logb (2 : ℕ) xs.length)
      (g := information xs) fun y hy => by
        have hinformation := logb_le_information (hperm.mem_iff.mpr (List.mem_append_left _ hy))
          (hsingle y hy)
        rwa [Nat.cast_one, div_one] at hinformation
    rwa [List.map_const', List.sum_replicate, nsmul_eq_mul] at hsum
  have hrest : rest.length * Real.logb (2 : ℕ) (xs.length / rest.length) ≤
      (rest.map (information xs)).sum := by
    have hsum := List.sum_le_sum (f := fun _ => Real.logb (2 : ℕ) (xs.length / rest.length))
      (g := information xs) (l := rest) fun y hy => by
        refine logb_le_information (hperm.mem_iff.mpr (List.mem_append_right _ hy)) ?_
        by_cases hmem : y ∈ singles
        -- a value of the rest that is also among the single ones occurs once
        · exact (hsingle y hmem).trans (List.length_pos_of_mem hy)
        · rw [hperm.count_eq, List.count_append, List.count_eq_zero_of_not_mem hmem, zero_add]
          exact List.count_le_length
    rwa [List.map_const', List.sum_replicate, nsmul_eq_mul] at hsum
  rw [entropy, (hperm.map _).sum_eq, List.map_append, List.sum_append]
  exact div_le_div_of_nonneg_right (add_le_add hsingles hrest) (Nat.cast_nonneg _)

/-! ## Numbers -/

/-- A mean of two logarithms, from a comparison of powers. -/
lemma div_le_mean_logb {a b c d k m n : ℕ} (hb : 0 < b) (hc : 0 < c) (hd : 0 < d)
    (hn : n = k + m) (hpos : 0 < n) (h : 2 ^ (a * n) * c ^ (k * b) * d ^ (m * b) ≤ n ^ (n * b)) :
    (a : ℝ) / b ≤
      (k * Real.logb (2 : ℕ) (n / c) + m * Real.logb (2 : ℕ) (n / d)) / n := by
  have hn' : (0 : ℝ) < n := Nat.cast_pos.mpr hpos
  have hc' : (0 : ℝ) < c := Nat.cast_pos.mpr hc
  have hd' : (0 : ℝ) < d := Nat.cast_pos.mpr hd
  have hlog : Real.log ((2 : ℝ) ^ (a * n) * c ^ (k * b) * d ^ (m * b)) ≤
      Real.log ((n : ℝ) ^ (n * b)) :=
    Real.log_le_log (by positivity) (by exact_mod_cast h)
  rw [Real.log_mul (by positivity) (by positivity), Real.log_mul (by positivity) (by positivity),
    Real.log_pow, Real.log_pow, Real.log_pow, Real.log_pow] at hlog
  have hsum : (n : ℝ) = k + m := by exact_mod_cast hn
  rw [div_le_div_iff₀ (Nat.cast_pos.mpr hb) hn', Real.logb, Real.logb,
    Real.log_div hn'.ne' hc'.ne', Real.log_div hn'.ne' hd'.ne', mul_div_assoc', mul_div_assoc',
    ← add_div, div_mul_eq_mul_div, le_div_iff₀ log_two_pos]
  push_cast at hlog ⊢
  rw [hsum] at hlog ⊢
  linarith

end Entropy

end Lib
