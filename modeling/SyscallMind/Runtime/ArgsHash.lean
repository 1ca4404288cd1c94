/-
# What the argument hash tells apart

`fnv_hash` of `common/src/lib.rs`, under which the handler reports the arguments of a call.

A round xors a byte into the lowest byte of the state and multiplies by an odd number, so it can
be undone, and a common suffix changes nothing.

For the bytes of one small field the hash is injective.  Two states that differ by `d` differ,
after a round, by the prime times `d + e` modulo `2 ^ 64`, where `e` comes from the lowest bytes
and is at most 510 (`Apart.fnvRound`).  After four rounds from one state the differences add up
to a cubic polynomial in the prime `2 ^ 40 + 435`.  With coefficients so small it is zero modulo
`2 ^ 64` only if the first bytes are equal (`first_eq_zero`).
-/
import Mathlib.Data.Int.Notation
import SyscallMind.Lib.RoundHash
import SyscallMind.Runtime.SyscallHandler

namespace SyscallMind

open Lib

/-! ## Rounds -/

/-- The inverse of the prime modulo `2 ^ 64`. -/
def fnvInverse : UInt64 := 14886173955864302971

lemma fnvRound_mul_inverse (hash : UInt64) (byte : UInt8) :
    fnvRound hash byte * fnvInverse = hash ^^^ byte.toUInt64 := by
  have hone : (1099511628211 : UInt64) * fnvInverse = 1 := rfl
  rw [fnvRound, UInt64.mul_assoc, hone, UInt64.mul_one]

lemma xor_eq_of_fnvRound_eq {x y : UInt64} {b b' : UInt8} (heq : fnvRound x b = fnvRound y b') :
    x ^^^ b.toUInt64 = y ^^^ b'.toUInt64 := by
  rw [← fnvRound_mul_inverse, heq, fnvRound_mul_inverse]

lemma fnvRound_reversible : RoundHash.Reversible fnvRound := fun byte _ _ heq =>
  (UInt64.xor_left_inj byte.toUInt64).mp (xor_eq_of_fnvRound_eq heq)

/-- The byte reaches the lowest byte of the state only. -/
lemma toNat_xor_div (hash : UInt64) (byte : UInt8) :
    (hash ^^^ byte.toUInt64).toNat / 256 = hash.toNat / 256 := by
  have hbyte : byte.toNat / 2 ^ 8 = 0 := Nat.div_eq_of_lt byte.toNat_lt
  have hdiv := Nat.xor_div_two_pow (a := hash.toNat) (b := byte.toNat) (n := 8)
  rw [hbyte, Nat.xor_zero] at hdiv
  rw [UInt64.toNat_xor, UInt8.toNat_toUInt64]
  exact hdiv

/-! ## Differences -/

/-- The two states differ by `d` modulo `2 ^ 64`. -/
def Apart (d : ℤ) (x y : UInt64) : Prop :=
  ((x.toNat : ℤ) - y.toNat - d) % 18446744073709551616 = 0

lemma toNat_fnvRound (hash : UInt64) (byte : UInt8) : (fnvRound hash byte).toNat =
    (hash ^^^ byte.toUInt64).toNat * 1099511628211 % 18446744073709551616 := by
  rw [fnvRound, UInt64.toNat_mul]
  rfl

/-- From one state, two bytes are as far apart as their sums with the lowest byte. -/
lemma apart_xor_self (hash : UInt64) (b b' : UInt8) : ∃ d : ℤ, -255 ≤ d ∧ d ≤ 255 ∧
    (d = 0 → b = b') ∧ Apart d (hash ^^^ b.toUInt64) (hash ^^^ b'.toUInt64) := by
  have hb := toNat_xor_div hash b
  have hb' := toNat_xor_div hash b'
  refine ⟨((hash ^^^ b.toUInt64).toNat : ℤ) - (hash ^^^ b'.toUInt64).toNat, by omega, by omega,
    fun hzero => ?_, by rw [Apart, sub_self]; rfl⟩
  have hsame : hash ^^^ b.toUInt64 = hash ^^^ b'.toUInt64 := UInt64.toNat_inj.mp (by omega)
  have hbytes := congrArg UInt64.toUInt8 ((UInt64.xor_right_inj hash).mp hsame)
  rwa [UInt8.toUInt8_toUInt64, UInt8.toUInt8_toUInt64] at hbytes

/-- Two bytes change the distance of two states by at most 510. -/
lemma Apart.xor {d : ℤ} {x y : UInt64} (hxy : Apart d x y) (b b' : UInt8) :
    ∃ e : ℤ, -510 ≤ e ∧ e ≤ 510 ∧ Apart (d + e) (x ^^^ b.toUInt64) (y ^^^ b'.toUInt64) := by
  have hb := toNat_xor_div x b
  have hb' := toNat_xor_div y b'
  rw [Apart] at hxy
  refine ⟨((x ^^^ b.toUInt64).toNat : ℤ) - x.toNat - ((y ^^^ b'.toUInt64).toNat - y.toNat),
    by omega, by omega, ?_⟩
  rw [Apart]
  omega

/-- A multiplication by the prime multiplies the distance. -/
lemma Apart.fnvRound {d : ℤ} {x y : UInt64} {b b' : UInt8}
    (hxy : Apart d (x ^^^ b.toUInt64) (y ^^^ b'.toUInt64)) :
    Apart (1099511628211 * d) (fnvRound x b) (fnvRound y b') := by
  have hx := toNat_fnvRound x b
  have hy := toNat_fnvRound y b'
  rw [Apart] at hxy ⊢
  omega

lemma apart_zero {d : ℤ} {x : UInt64} (hx : Apart d x x) : d % 18446744073709551616 = 0 := by
  rw [Apart] at hx
  omega

/-! ## A window of four bytes -/

/-- **A cubic polynomial in the prime with small coefficients** is zero modulo `2 ^ 64` only
if its leading coefficient is. -/
lemma first_eq_zero {d e₂ e₃ e₄ : ℤ} (hd : -255 ≤ d ∧ d ≤ 255) (h₂ : -510 ≤ e₂ ∧ e₂ ≤ 510)
    (h₃ : -510 ≤ e₃ ∧ e₃ ≤ 510) (h₄ : -510 ≤ e₄ ∧ e₄ ≤ 510)
    (hzero : (1099511628211 * (1099511628211 * (1099511628211 * d + e₂) + e₃) + e₄) %
      18446744073709551616 = 0) : d = 0 := by
  -- the powers of `2 ^ 40 + 435` modulo `2 ^ 64`, split at `2 ^ 40`
  have hsplit : (1099511627776 * (567675 * d + 870 * e₂ + e₃) +
      (82312875 * d + 189225 * e₂ + 435 * e₃ + e₄)) % 18446744073709551616 = 0 := by
    omega
  have hlow : 82312875 * d + 189225 * e₂ + 435 * e₃ + e₄ = 0 := by omega
  have hhigh : (567675 * d + 870 * e₂ + e₃) % 16777216 = 0 := by omega
  have hsmall : -1 ≤ d ∧ d ≤ 1 := by omega
  have hhigh' : 567675 * d + 870 * e₂ + e₃ = 0 := by omega
  omega

lemma first_eq (hash : UInt64) (b b' : UInt8) (w w' : List UInt8) (hw : w.length = 3)
    (hw' : w'.length = 3)
    (heq : (b :: w).foldl fnvRound hash = (b' :: w').foldl fnvRound hash) : b = b' := by
  obtain ⟨b₂, b₃, b₄, rfl⟩ := List.length_eq_three.mp hw
  obtain ⟨b₂', b₃', b₄', rfl⟩ := List.length_eq_three.mp hw'
  simp only [List.foldl_cons, List.foldl_nil] at heq
  obtain ⟨d, hd, hd', hbytes, h₁⟩ := apart_xor_self hash b b'
  obtain ⟨e₂, he₂, he₂', h₂⟩ := h₁.fnvRound.xor b₂ b₂'
  obtain ⟨e₃, he₃, he₃', h₃⟩ := h₂.fnvRound.xor b₃ b₃'
  obtain ⟨e₄, he₄, he₄', h₄⟩ := h₃.fnvRound.xor b₄ b₄'
  rw [xor_eq_of_fnvRound_eq heq] at h₄
  exact hbytes (first_eq_zero ⟨hd, hd'⟩ ⟨he₂, he₂'⟩ ⟨he₃, he₃'⟩ ⟨he₄, he₄'⟩ (apart_zero h₄))

lemma fnvRound_separates : RoundHash.Separates fnvRound 4 :=
  RoundHash.separates_of_head fnvRound_reversible 0 first_eq

/-! ## Arguments and keys -/

lemma fnvHash_append_eq_iff (p q s : List UInt8) :
    fnvHash (p ++ s) = fnvHash (q ++ s) ↔ fnvHash p = fnvHash q :=
  RoundHash.foldl_append_eq_iff fnvRound_reversible

/-- Different byte strings of one length that agree outside four consecutive bytes. -/
structure DifferInField (p q : List UInt8) : Prop where
  length_eq : p.length = q.length
  agree : ∃ i, RoundHash.AgreeOutside 4 i p q
  ne : p ≠ q

lemma fnvHash_ne_of_differInField {p q : List UInt8} (hdiffer : DifferInField p q) :
    fnvHash p ≠ fnvHash q := by
  obtain ⟨i, hagree⟩ := hdiffer.agree
  exact RoundHash.foldl_ne_of_agreeOutside fnvRound_reversible fnvRound_separates
    hdiffer.length_eq hagree hdiffer.ne _

end SyscallMind
