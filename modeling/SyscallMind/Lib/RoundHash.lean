/-
# Hashes that fold a round over their input

A hash keeps a state and mixes in one entry of the input after the other.  If every round can
be undone, what follows two inputs neither separates nor confuses them
(`foldl_append_eq_iff`).

So inputs of one length that agree outside a window are told apart by the hash exactly if the
two windows are, from the state that the hash has reached before them.  That no two windows of
at most `n` entries are confused, from no state, follows if the first of `n` entries never is:
a shorter window is filled up behind (`separates_of_head`).
-/
import Mathlib.Data.List.Basic
import Mathlib.Tactic.Common

namespace Lib

namespace RoundHash

variable {σ β : Type*} (round : σ → β → σ)

/-- No round identifies two states. -/
def Reversible : Prop := ∀ b, Function.Injective fun h => round h b

/-- No two inputs of one length, at most `n`, lead from one state to one state. -/
def Separates (n : ℕ) : Prop :=
  ∀ (h : σ) (w w' : List β), w.length = w'.length → w.length ≤ n →
    w.foldl round h = w'.foldl round h → w = w'

/-- The inputs agree outside the `n` entries from `i` on. -/
def AgreeOutside (n i : ℕ) (p q : List β) : Prop := ∀ j, j < i ∨ i + n ≤ j → p[j]? = q[j]?

variable {round}

lemma foldl_injective (hrev : Reversible round) (s : List β) :
    Function.Injective fun h => s.foldl round h := by
  induction s with
  | nil => exact fun _ _ h => h
  | cons b s ih => exact fun h h' heq => hrev b (ih heq)

lemma foldl_append_eq_iff (hrev : Reversible round) {p q s : List β} {h h' : σ} :
    (p ++ s).foldl round h = (q ++ s).foldl round h' ↔ p.foldl round h = q.foldl round h' := by
  rw [List.foldl_append, List.foldl_append]
  exact (foldl_injective hrev s).eq_iff

/-- It is enough that the first of exactly `n + 1` entries is never confused. -/
lemma separates_of_head (hrev : Reversible round) (fill : β) {n : ℕ}
    (hhead : ∀ (h : σ) (b b' : β) (w w' : List β), w.length = n → w'.length = n →
      (b :: w).foldl round h = (b' :: w').foldl round h → b = b') :
    Separates round (n + 1) := by
  intro h w w' hlen hle heq
  induction w generalizing h w' with
  | nil => exact (List.length_eq_zero_iff.mp hlen.symm).symm
  | cons b w ih =>
    cases w' with
    | nil => exact absurd hlen (by simp)
    | cons b' w' =>
      rw [List.length_cons, List.length_cons] at hlen
      rw [List.length_cons] at hle
      -- fill both windows up to `n + 1` entries
      have hfilled := (foldl_append_eq_iff (s := List.replicate (n - w.length) fill) hrev).mpr heq
      rw [List.cons_append, List.cons_append] at hfilled
      have hb : b = b' := by
        refine hhead h b b' _ _ ?_ ?_ hfilled
        · rw [List.length_append, List.length_replicate]
          omega
        · rw [List.length_append, List.length_replicate]
          omega
      subst hb
      rw [ih (round h b) w' (by omega) (by omega) heq]

lemma agreeOutside_append (u w w' v : List β) (hlen : w.length = w'.length) :
    AgreeOutside w.length u.length (u ++ (w ++ v)) (u ++ (w' ++ v)) := by
  rintro j (hj | hj)
  · rw [List.getElem?_append_left hj, List.getElem?_append_left hj]
  · rw [List.getElem?_append_right (by omega), List.getElem?_append_right (by omega),
      List.getElem?_append_right (by omega), List.getElem?_append_right (by omega), hlen]

/-- The part before the window, the window, and the part behind it. -/
lemma AgreeOutside.split {n i : ℕ} {p q : List β} (hagree : AgreeOutside n i p q)
    (hlen : p.length = q.length) : ∃ u w w' v, p = u ++ (w ++ v) ∧ q = u ++ (w' ++ v) ∧
      w.length = w'.length ∧ w.length ≤ n := by
  have hbefore : p.take i = q.take i := by
    refine List.ext_getElem? fun j => ?_
    rw [List.getElem?_take, List.getElem?_take]
    split
    · next hj => exact hagree j (Or.inl hj)
    · rfl
  have hbehind : (p.drop i).drop n = (q.drop i).drop n := by
    refine List.ext_getElem? fun j => ?_
    rw [List.drop_drop, List.drop_drop, List.getElem?_drop, List.getElem?_drop]
    exact hagree _ (Or.inr (by omega))
  refine ⟨p.take i, (p.drop i).take n, (q.drop i).take n, (p.drop i).drop n, ?_, ?_, ?_, ?_⟩
  · rw [List.take_append_drop, List.take_append_drop]
  · rw [hbefore, hbehind, List.take_append_drop, List.take_append_drop]
  · rw [List.length_take, List.length_take, List.length_drop, List.length_drop, hlen]
  · rw [List.length_take]
    omega

/-- Different inputs that agree outside a window have different hashes. -/
lemma foldl_ne_of_agreeOutside (hrev : Reversible round) {n i : ℕ} (hsep : Separates round n)
    {p q : List β} (hlen : p.length = q.length) (hagree : AgreeOutside n i p q) (hne : p ≠ q)
    (h : σ) : p.foldl round h ≠ q.foldl round h := by
  obtain ⟨u, w, w', v, rfl, rfl, hlen', hle⟩ := hagree.split hlen
  intro heq
  simp only [List.foldl_append] at heq
  obtain rfl := hsep _ w w' hlen' hle (foldl_injective hrev v heq)
  exact hne rfl

end RoundHash

end Lib
