/-
# Natural numbers as double-precision numbers

Lean's `Float` comes with a model of IEEE 754 binary64 that can be evaluated: a number is
unpacked into a sign, a mantissa and an exponent, the operation is carried out, and the result
is rounded and packed again.

A natural number below `2 ^ 53` fits the mantissa.  Its unpacked form is `canonical`, its cast
has just this value (`value_natFloat`), and the sum of two such numbers is exact as long as it
is below `2 ^ 53` too (`natFloat_add`).  So a program that adds such numbers adds in `Float` as
it would in `ℕ`, in any order (`foldl_natFloat`).
-/
import Mathlib

namespace Lib

namespace FloatNat

open Float.Model Float.Model.UnpackedFloat

/-! ## The value of a float -/

/-- The rational number of a finite float. -/
def ratOf : UnpackedFloat → Option ℚ
  | .finite s m e _ => some (s.apply m * (2 : ℚ) ^ e)
  | .zero _ => some 0
  | .infinity _ => none
  | .notANumber => none

def value (x : Float) : Option ℚ := ratOf x.toModel.unpack

/-! ## Exact shifts -/

lemma log2_mul_two_pow {n : ℕ} (hn : n ≠ 0) (k : ℕ) : (n * 2 ^ k).log2 = n.log2 + k := by
  have hpos := Nat.two_pow_pos k
  refine (Nat.log2_eq_iff (Nat.mul_ne_zero hn hpos.ne')).mpr ⟨?_, ?_⟩
  · rw [Nat.pow_add]
    exact Nat.mul_le_mul_right _ (Nat.log2_self_le hn)
  · rw [show n.log2 + k + 1 = n.log2 + 1 + k by omega, Nat.pow_add]
    exact (Nat.mul_lt_mul_right hpos).mpr Nat.lt_log2_self

/-- No bit is lost when a multiple of the power is shifted. -/
lemma shiftRight_mul_two_pow (q s : ℕ) :
    (ExtendedMantissa.mk (q * 2 ^ s) false false) >>> s = ⟨q, false, false⟩ := by
  induction s generalizing q with
  | zero => simp [HShiftRight.hShiftRight, Nat.repeat]
  | succ s ih =>
    have hmul : q * 2 ^ (s + 1) = q * 2 * 2 ^ s := by ring
    have hshift : ∀ em : ExtendedMantissa, em >>> (s + 1) = (em >>> s).shiftRightOne :=
      fun _ => rfl
    rw [hshift, hmul, ih, ExtendedMantissa.shiftRightOne]
    simp

lemma targetExponent_of_log2 {q : ℕ} (hq : q ≠ 0) (hlog : q.log2 = 52) {t : ℤ} (ht : -1074 ≤ t)
    (s : ℕ) :
    Format.binary64.targetExponent (totalExponent (q * 2 ^ s) (t - s)) = t := by
  simp only [Format.targetExponent, totalExponent, Format.mantissaBits, Format.minExponent,
    log2_mul_two_pow hq, hlog]
  norm_num
  omega

/-- A multiple of a mantissa of full length is rounded without an error. -/
lemma roundWithAccuracy_exact {q : ℕ} (hq : 0 < q) (hlog : q.log2 = 52) {t : ℤ} (ht : -1074 ≤ t)
    (s : ℕ) (sign : Sign) :
    roundWithAccuracy Format.binary64 sign (q * 2 ^ s) (t - s) .exact = .finite sign q t hq := by
  have hshift : ∀ s : ℕ, shiftToTargetExponent Format.binary64 (q * 2 ^ s) (t - s) .exact =
      (⟨q, false, false⟩, t) := by
    intro s
    have hamount : (t - (t - s)).toNat = s := by omega
    rw [shiftToTargetExponent, targetExponent_of_log2 hq.ne' hlog ht]
    simp only [shiftToExponent, hamount, ExtendedMantissa.ofMantissaAndAccuracy]
    rw [shiftRight_mul_two_pow, sub_add_cancel]
  have hagain := hshift 0
  rw [pow_zero, mul_one, Nat.cast_zero, sub_zero] at hagain
  simp only [roundWithAccuracy, hshift, ExtendedMantissa.roundedMantissa,
    ExtendedMantissa.accuracy, Accuracy.roundToNearestEven, hagain, dif_neg hq.ne']

/-! ## Natural numbers -/

/-- The unpacked form of a natural number with at most 53 bits. -/
def canonical (n : ℕ) : UnpackedFloat :=
  if h : n = 0 then .zero .positive
  else
    .finite .positive (n * 2 ^ (52 - n.log2)) (n.log2 - 52 : ℤ)
      (Nat.mul_pos (Nat.pos_of_ne_zero h) (Nat.two_pow_pos _))

lemma log2_le {n : ℕ} (hn : n ≠ 0) (h : n < 2 ^ 53) : n.log2 ≤ 52 := by
  have := (Nat.log2_lt hn).mpr h
  omega

lemma round_nat {n : ℕ} (hn : n ≠ 0) (h : n < 2 ^ 53) (k : ℕ) :
    UnpackedFloat.round Format.binary64 .positive (n * 2 ^ k) (-k : ℤ) = canonical n := by
  have hlog := log2_le hn h
  have htarget : Format.binary64.targetExponent (totalExponent (n * 2 ^ k) (-k : ℤ)) =
      n.log2 - 52 := by
    simp only [Format.targetExponent, totalExponent, Format.mantissaBits, Format.minExponent,
      log2_mul_two_pow hn]
    norm_num
    omega
  -- the exponent is decreased by `d`, and then the mantissa shifted back by `s`
  obtain ⟨d, hd⟩ : ∃ d : ℕ, d = (-k - (n.log2 - 52 : ℤ)).toNat := ⟨_, rfl⟩
  obtain ⟨s, hs⟩ : ∃ s : ℕ, k + d = 52 - n.log2 + s := ⟨k + d - (52 - n.log2), by omega⟩
  have hmantissa : (n * 2 ^ k) <<< d = n * 2 ^ (52 - n.log2) * 2 ^ s := by
    rw [Nat.shiftLeft_eq, mul_assoc, mul_assoc, ← pow_add, ← pow_add, hs]
  have hexponent : (-k - d : ℤ) = (n.log2 - 52 : ℤ) - s := by omega
  have hround := roundWithAccuracy_exact (q := n * 2 ^ (52 - n.log2))
    (Nat.mul_pos (Nat.pos_of_ne_zero hn) (Nat.two_pow_pos _))
    (by rw [log2_mul_two_pow hn]; omega) (t := n.log2 - 52) (by omega) s .positive
  simp only [UnpackedFloat.round, htarget, decreaseExponent, ← hd, hmantissa, hexponent, hround]
  rw [canonical, dif_neg hn]

lemma normalize_nat {n : ℕ} (h : n < 2 ^ 53) (k : ℕ) :
    UnpackedFloat.normalize Format.binary64 (n * 2 ^ k : ℕ) (-k : ℤ) .positive = canonical n := by
  by_cases hn : n = 0
  · subst hn
    rw [zero_mul]
    rfl
  · have hpos : (0 : ℤ) < (n * 2 ^ k : ℕ) :=
      Int.natCast_pos.mpr (Nat.mul_pos (Nat.pos_of_ne_zero hn) (Nat.two_pow_pos k))
    have hcompare : compare ((n * 2 ^ k : ℕ) : ℤ) 0 = .gt := compare_gt_iff_gt.mpr hpos
    rw [UnpackedFloat.normalize, hcompare]
    exact round_nat hn h k

lemma ofNat_eq {n : ℕ} (h : n < 2 ^ 53) : UnpackedFloat.ofNat Format.binary64 n = canonical n := by
  have hnormalize := normalize_nat h 0
  rw [pow_zero, mul_one] at hnormalize
  exact hnormalize

/-- The sum of two natural numbers is exact. -/
lemma add_canonical {a b : ℕ} (h : a + b < 2 ^ 53) :
    UnpackedFloat.add Format.binary64 (canonical a) (canonical b) = canonical (a + b) := by
  by_cases ha : a = 0
  · subst ha
    rw [zero_add]
    by_cases hb : b = 0
    · subst hb
      rfl
    · rw [canonical, dif_pos rfl, canonical, dif_neg hb]
      rfl
  · by_cases hb : b = 0
    · subst hb
      rw [add_zero, canonical, dif_neg ha, canonical, dif_pos rfl]
      rfl
    · have hloga := log2_le ha (by omega)
      have hlogb := log2_le hb (by omega)
      obtain ⟨k, hk⟩ : ∃ k : ℕ, min (a.log2 - 52 : ℤ) (b.log2 - 52 : ℤ) = -k := by
        refine ⟨(-min (a.log2 - 52 : ℤ) (b.log2 - 52 : ℤ)).toNat, ?_⟩
        omega
      have hshift : ∀ n : ℕ, n.log2 ≤ 52 → (-k : ℤ) ≤ n.log2 - 52 →
          (n * 2 ^ (52 - n.log2)) <<< ((n.log2 - 52 : ℤ) - (-k : ℤ)).toNat = n * 2 ^ k := by
        intro n hlog hle
        have hadd : 52 - n.log2 + ((n.log2 - 52 : ℤ) - (-k : ℤ)).toNat = k := by omega
        rw [Nat.shiftLeft_eq, mul_assoc, ← pow_add, hadd]
      rw [canonical, dif_neg ha, canonical, dif_neg hb]
      simp only [UnpackedFloat.add, decreaseExponent, hk, hshift a hloga (by omega),
        hshift b hlogb (by omega), Sign.apply]
      rw [← Nat.cast_add, ← Nat.add_mul]
      exact normalize_nat h k

/-! ## Packing -/

/-- A mantissa of full length and an exponent in range are packed without a loss. -/
lemma unpack_pack_normal {m l : ℕ} (hm : 0 < m) (hmlog : m.log2 = 52) (hl : l ≤ 52) :
    (Float.Model.pack (.finite .positive m (l - 52 : ℤ) hm)).unpack =
      .finite .positive m (l - 52 : ℤ) hm := by
  obtain ⟨hlow, hhigh⟩ := (Nat.log2_eq_iff hm.ne').mp hmlog
  have hexponent : (BitVec.ofNat 11 (l + 1023)).toNat = l + 1023 := by
    rw [BitVec.toNat_ofNat, Nat.mod_eq_of_lt (by omega)]
  have hones : BitVec.ofNat 11 (l + 1023) ≠ -1#11 := by
    intro heq
    have hval : (-1#11).toNat = 2047 := rfl
    rw [← heq, hexponent] at hval
    omega
  have hzero : BitVec.ofNat 11 (l + 1023) ≠ 0#11 := by
    intro heq
    have hval : (0#11).toNat = 0 := rfl
    rw [← heq, hexponent] at hval
    omega
  -- the implicit bit is the leading bit of the mantissa
  have hmantissa : (1#1 ++ BitVec.ofNat 52 m).toNat = m := by
    have hone : (1#1).toNat = 1 := rfl
    have hrest : (BitVec.ofNat 52 m).toNat = m % 2 ^ 52 := rfl
    rw [BitVec.toNat_append, ← Nat.shiftLeft_add_eq_or_of_lt (BitVec.isLt _), hone, hrest,
      Nat.shiftLeft_eq]
    omega
  have hbias : ((l - 52 : ℤ) + (1023 : ℕ) + (52 : ℕ)).toNat = l + 1023 := by omega
  have hpack : UnpackedFloat.pack Format.binary64 (.finite .positive m (l - 52) hm) =
      packComponents Format.binary64 .positive (BitVec.ofNat 11 (l + 1023))
        (BitVec.ofNat 52 m) := by
    have hbiased : ((l - 52 : ℤ) + Format.binary64.exponentBias +
        Format.binary64.mantissaBitsWithoutImplicit).toNat = l + 1023 := hbias
    have hfits : ¬ 2 ^ Format.binary64.exponentBits ≤ l + 1023 + 1 := by
      show ¬ 2 ^ 11 ≤ l + 1023 + 1
      omega
    have hfull : m.log2 + 1 = Format.binary64.mantissaBits := by
      rw [hmlog]
      rfl
    rw [UnpackedFloat.pack]
    simp only [hbiased, if_neg hfits, if_pos hfull]
  have hunpack : UnpackedFloat.unpack Format.binary64
      (packComponents Format.binary64 .positive (BitVec.ofNat 11 (l + 1023))
        (BitVec.ofNat 52 m)) = .finite .positive m (l - 52) hm := by
    rw [UnpackedFloat.unpack]
    simp only [unpackMantissa_packComponents, unpackExponent_packComponents,
      unpackSign_packComponents, hones, hzero, if_false, hmantissa, hexponent]
    have hexp : ((l + 1023 : ℕ) : ℤ) - (Format.binary64.exponentBias +
        Format.binary64.mantissaBitsWithoutImplicit) = l - 52 := by
      show ((l + 1023 : ℕ) : ℤ) - ((1023 : ℕ) + (52 : ℕ)) = l - 52
      omega
    simp only [hexp]
    rfl
  rw [Float.Model.unpack, Float.Model.pack]
  exact (congrArg _ hpack).trans hunpack

lemma unpack_pack_canonical {n : ℕ} (h : n < 2 ^ 53) :
    (Float.Model.pack (canonical n)).unpack = canonical n := by
  by_cases hn : n = 0
  · subst hn
    rfl
  · have hlog := log2_le hn h
    rw [canonical, dif_neg hn]
    exact unpack_pack_normal _ (by rw [log2_mul_two_pow hn]; omega) hlog

/-! ## Natural numbers as floats -/

/-- The cast of a 64-bit integer. -/
def natFloat (n : ℕ) : Float := (UInt64.ofNat n).toFloat

lemma lt_size {n : ℕ} (h : n < 2 ^ 53) : n < UInt64.size := h.trans (by decide)

lemma unpack_natFloat {n : ℕ} (h : n < 2 ^ 53) : (natFloat n).toModel.unpack = canonical n := by
  have hcast : (natFloat n).toModel = Float.Model.pack (canonical n) := by
    rw [← ofNat_eq h]
    show Float.Model.pack (UnpackedFloat.ofNat Format.binary64 (UInt64.ofNat n).toNat) = _
    rw [UInt64.toNat_ofNat_of_lt' (lt_size h)]
  rw [hcast, unpack_pack_canonical h]

/-- **Natural numbers below `2 ^ 53` are exact.** -/
theorem value_natFloat {n : ℕ} (h : n < 2 ^ 53) : value (natFloat n) = some (n : ℚ) := by
  rw [value, unpack_natFloat h, canonical]
  split
  · next hn =>
    rw [hn]
    rfl
  · next hn =>
    have hlog := log2_le hn h
    have hpow : (2 : ℚ) ^ (52 - n.log2) * 2 ^ (n.log2 - 52 : ℤ) = 1 := by
      rw [← zpow_natCast, ← zpow_add₀ two_ne_zero, Nat.cast_sub hlog]
      norm_num
    have hcast : ((Sign.positive.apply (n * 2 ^ (52 - n.log2) : ℕ) : ℤ) : ℚ) =
        n * 2 ^ (52 - n.log2) := by
      rw [Sign.apply]
      push_cast
      rfl
    rw [ratOf, hcast, mul_assoc, hpow, mul_one]

/-- **And so are their sums.** -/
theorem natFloat_add {a b : ℕ} (h : a + b < 2 ^ 53) :
    natFloat a + natFloat b = natFloat (a + b) := by
  have hsum : (natFloat a + natFloat b).toModel = (natFloat (a + b)).toModel := by
    show Float.Model.pack (UnpackedFloat.add Format.binary64 (natFloat a).toModel.unpack
      (natFloat b).toModel.unpack) = _
    rw [unpack_natFloat (by omega), unpack_natFloat (by omega), add_canonical h, ← ofNat_eq h]
    show _ = Float.Model.pack (UnpackedFloat.ofNat Format.binary64 (UInt64.ofNat (a + b)).toNat)
    rw [UInt64.toNat_ofNat_of_lt' (lt_size h)]
  exact congrArg Float.ofModel hsum

/-- A sum from left to right. -/
lemma foldl_natFloat (l : List ℕ) (a : ℕ) (h : a + l.sum < 2 ^ 53) :
    (l.map natFloat).foldl (· + ·) (natFloat a) = natFloat (a + l.sum) := by
  induction l generalizing a with
  | nil => rfl
  | cons b l ih =>
    rw [List.sum_cons] at h ⊢
    rw [List.map_cons, List.foldl_cons, natFloat_add (by omega), ih (a + b) (by omega), add_assoc]

end FloatNat

end Lib
