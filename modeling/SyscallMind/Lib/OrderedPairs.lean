/-
# Pairs of positions

A nested scan over a list looks at every pair of positions `i < j` and keeps those whose
elements are related.  Here are the pairs that it keeps, in its order (`scan_eq_pairs`): each
once, and exactly the related ones.

How many there are is a count by recursion on the list.  It is zero exactly if the list is
pairwise unrelated, so an empty scan stays empty on every sublist.  If only elements with the
same key are related, the count is known from the subsequences of the single keys, whatever
their interleaving (`length_pairs_eq_of_filter_eq`).
-/
import Mathlib.Data.List.Nodup
import Mathlib.Data.Prod.Basic

namespace Lib

namespace OrderedPairs

variable {α : Type*} (r : α → α → Bool)

/-- The positions `i < j` with related elements. -/
def pairs : List α → List (ℕ × ℕ)
  | [] => []
  | a :: l => (l.findIdxs (r a) 1).map (Prod.mk 0) ++ (pairs l).map (Prod.map (· + 1) (· + 1))

/-- The nested scan. -/
def scan (l : List α) : List (ℕ × ℕ) :=
  l.zipIdx.flatMap fun (a, i) =>
    (l.zipIdx.drop (i + 1)).filterMap fun (b, j) => if r a b then some (i, j) else none

theorem scan_eq_pairs (l : List α) : scan r l = pairs r l := by
  induction l with
  | nil => rfl
  | cons a l ih =>
    have hzip : l.zipIdx 1 = l.zipIdx.map fun x => (x.1, x.2 + 1) := List.zipIdx_succ
    rw [pairs, ← ih, scan, List.zipIdx_cons, List.flatMap_cons]
    congr 1
    · rw [List.findIdxs_eq_filterMap_zipIdx, List.map_filterMap]
      refine List.filterMap_congr ?_
      rintro ⟨b, j⟩ -
      cases h : r a b <;> simp [h]
    · rw [hzip, List.flatMap_map, scan, List.map_flatMap]
      refine congrArg (fun f => l.zipIdx.flatMap f) (funext ?_)
      rintro ⟨b, i⟩
      simp only [List.drop_succ_cons, ← List.map_drop, List.filterMap_map, List.map_filterMap]
      refine List.filterMap_congr ?_
      rintro ⟨c, j⟩ -
      cases h : r b c <;> simp [h]

variable {r} {l l' : List α}

lemma mem_pairs_iff {i j : ℕ} :
    (i, j) ∈ pairs r l ↔
      i < j ∧ ∃ a b, l[i]? = some a ∧ l[j]? = some b ∧ r a b = true := by
  induction l generalizing i j with
  | nil => simp [pairs]
  | cons a l ih =>
    rw [pairs, List.mem_append, List.mem_map, List.mem_map]
    constructor
    · rintro (⟨k, hk, heq⟩ | ⟨⟨i', j'⟩, hmem, heq⟩)
      · obtain ⟨rfl, rfl⟩ := Prod.mk.inj heq
        obtain ⟨hk1, hlt, hr⟩ := List.mem_findIdxs_iff_getElem_sub_pos.mp hk
        obtain ⟨k, rfl⟩ : ∃ k', k = k' + 1 := ⟨k - 1, by omega⟩
        exact ⟨by omega, a, l[k], rfl, List.getElem?_eq_getElem hlt, hr⟩
      · obtain ⟨rfl, rfl⟩ := Prod.mk.inj heq
        obtain ⟨hij, b, c, hb, hc, hr⟩ := ih.mp hmem
        exact ⟨Nat.succ_lt_succ hij, b, c, hb, hc, hr⟩
    · rintro ⟨hij, b, c, hb, hc, hr⟩
      obtain ⟨j, rfl⟩ : ∃ j', j = j' + 1 := ⟨j - 1, by omega⟩
      cases i with
      | zero =>
        obtain rfl : a = b := Option.some.inj hb
        have hc' : l[j]? = some c := hc
        obtain ⟨hlt, rfl⟩ := List.getElem?_eq_some_iff.mp hc'
        exact Or.inl ⟨j + 1, List.mem_findIdxs_iff_getElem_sub_pos.mpr ⟨by omega, hlt, hr⟩, rfl⟩
      | succ i =>
        exact Or.inr ⟨(i, j), ih.mpr ⟨by omega, b, c, hb, hc, hr⟩, rfl⟩

lemma nodup_pairs : (pairs r l).Nodup := by
  induction l with
  | nil => exact List.nodup_nil
  | cons a l ih =>
    rw [pairs, List.nodup_append]
    refine ⟨List.nodup_findIdxs.map (Prod.mk_right_injective 0), ih.map ?_, ?_⟩
    · rintro ⟨i, j⟩ ⟨i', j'⟩ h
      simpa using h
    · -- the pairs of the first element have the position zero
      rintro x hx y hy rfl
      obtain ⟨k, -, rfl⟩ := List.mem_map.mp hx
      obtain ⟨z, -, hz⟩ := List.mem_map.mp hy
      exact absurd (congrArg Prod.fst hz) (by simp)

/-! ## The number of pairs -/

lemma length_pairs_cons (a : α) (l : List α) :
    (pairs r (a :: l)).length = l.countP (r a) + (pairs r l).length := by
  rw [pairs, List.length_append, List.length_map, List.length_map, List.length_findIdxs]

lemma length_pairs_append_cons (l₁ l₂ : List α) (a : α) :
    (pairs r (l₁ ++ a :: l₂)).length =
      (pairs r (l₁ ++ l₂)).length + (l₁.countP (fun b => r b a) + l₂.countP (r a)) := by
  induction l₁ with
  | nil =>
    rw [List.nil_append, List.nil_append, length_pairs_cons, List.countP_nil]
    omega
  | cons b l₁ ih =>
    rw [List.cons_append, List.cons_append, length_pairs_cons, length_pairs_cons, ih,
      List.countP_append, List.countP_append, List.countP_cons, List.countP_cons]
    omega

lemma pairs_eq_nil_iff : pairs r l = [] ↔ l.Pairwise fun a b => r a b = false := by
  induction l with
  | nil => simp [pairs]
  | cons a l ih => rw [pairs, List.append_eq_nil_iff, List.map_eq_nil_iff, List.map_eq_nil_iff,
      List.findIdxs_eq_nil_iff, List.pairwise_cons, ih]

/-- Deleting elements takes no new pair in. -/
lemma pairs_eq_nil_of_sublist (hsub : l.Sublist l') (h : pairs r l' = []) : pairs r l = [] :=
  pairs_eq_nil_iff.mpr ((pairs_eq_nil_iff.mp h).sublist hsub)

section Key

variable {κ : Type*} [DecidableEq κ] {key : α → κ}

lemma countP_filter_key (hkey : ∀ a b, r a b = true → key a = key b) (a : α) (l : List α) :
    l.countP (r a) = (l.filter fun b => key b = key a).countP (r a) := by
  rw [List.countP_filter]
  refine List.countP_congr fun b _ => ?_
  constructor
  · exact fun hr => by simp [hr, hkey a b hr]
  · exact fun h => (Bool.and_eq_true_iff.mp h).1

/-- **Interleavings have the same number of pairs.** -/
theorem length_pairs_eq_of_filter_eq (hkey : ∀ a b, r a b = true → key a = key b)
    (h : ∀ k, l.filter (fun a => key a = k) = l'.filter fun a => key a = k) :
    (pairs r l).length = (pairs r l').length := by
  induction l generalizing l' with
  | nil =>
    have hnil : l' = [] := by
      refine List.eq_nil_iff_forall_not_mem.mpr fun a ha => ?_
      have hmem : a ∈ l'.filter fun b => key b = key a := List.mem_filter.mpr ⟨ha, by simp⟩
      rw [← h] at hmem
      exact absurd hmem (by simp)
    rw [hnil]
  | cons a l ih =>
    -- the first element of `l'` with the key of `a` is `a`
    have ha := h (key a)
    rw [List.filter_cons_of_pos (by simp)] at ha
    obtain ⟨l₁, l₂, rfl, hl₁, -, hl₂⟩ := List.filter_eq_cons_iff.mp ha.symm
    have hne : ∀ b ∈ l₁, key b ≠ key a := fun b hb => by simpa using hl₁ b hb
    have hfilter₁ : l₁.filter (fun b => key b = key a) = [] :=
      List.filter_eq_nil_iff.mpr fun b hb => by simpa using hne b hb
    have hrest : ∀ k, l.filter (fun b => key b = k) = (l₁ ++ l₂).filter fun b => key b = k := by
      intro k
      by_cases hk : key a = k
      · subst hk
        rw [List.filter_append, hfilter₁, List.nil_append, hl₂]
      · have hrest' := h k
        rwa [List.filter_cons_of_neg (by simpa using hk), List.filter_append,
          List.filter_cons_of_neg (by simpa using hk), ← List.filter_append] at hrest'
    have hbefore : l₁.countP (fun b => r b a) = 0 := by
      refine List.countP_eq_zero.mpr fun b hb hr => ?_
      exact hne b hb (hkey b a hr)
    have hafter : l.countP (r a) = l₂.countP (r a) := by
      rw [countP_filter_key hkey a l, countP_filter_key hkey a l₂, hl₂]
    rw [length_pairs_cons, length_pairs_append_cons, ih hrest, hbefore, hafter]
    omega

end Key

end OrderedPairs

end Lib
