/-
# Grouping pairs by their keys

The values of a key in a list of pairs, each once and in the order of their first occurrence
(`values`).  Such a list grows at its end, or not at all, when a pair is appended; a pair that
repeats an earlier one makes no difference; and listing the groups one after the other gives a
list of pairs with the same groups (`values_flatMap`).
-/
import Mathlib.Data.List.Induction
import Mathlib.Data.List.Nodup
import Mathlib.Data.Prod.Basic

namespace Lib

namespace Grouping

/-! ## First occurrences -/

section FirstOccurrences

variable {α : Type*} [DecidableEq α]

lemma eraseDups_concat (l : List α) (a : α) :
    (l ++ [a]).eraseDups = if a ∈ l then l.eraseDups else l.eraseDups ++ [a] := by
  rw [List.eraseDups_append]
  by_cases ha : a ∈ l <;> simp [List.removeAll, List.eraseDups_cons, ha]

lemma nodup_eraseDups (l : List α) : l.eraseDups.Nodup := by
  induction l using List.reverseRecOn with
  | nil => exact List.nodup_nil
  | append_singleton l a ih =>
    rw [eraseDups_concat]
    split
    · exact ih
    · next ha =>
      rw [← List.concat_eq_append]
      exact ih.concat fun hmem => ha (List.mem_eraseDups.mp hmem)

lemma eraseDups_of_nodup {l : List α} (h : l.Nodup) : l.eraseDups = l := by
  induction l using List.reverseRecOn with
  | nil => rfl
  | append_singleton l a ih =>
    obtain ⟨hl, -, hdisj⟩ := List.nodup_append.mp h
    rw [eraseDups_concat, ih hl, if_neg fun ha => hdisj a ha a (by simp) rfl]

/-- A repeated element makes no difference. -/
lemma eraseDups_append_cons {l₁ l₂ : List α} {a : α} (ha : a ∈ l₁) :
    (l₁ ++ a :: l₂).eraseDups = (l₁ ++ l₂).eraseDups := by
  have hremove : (a :: l₂).removeAll l₁ = l₂.removeAll l₁ := by
    simp [List.removeAll, ha]
  rw [List.eraseDups_append, hremove, ← List.eraseDups_append]

end FirstOccurrences

/-! ## The values of a key -/

variable {K V : Type*} [DecidableEq K] [DecidableEq V]

/-- The values that the list pairs with the key, each at its first occurrence. -/
def values (k : K) (l : List (K × V)) : List V :=
  ((l.filter fun x => x.1 = k).map Prod.snd).eraseDups

lemma mem_values_iff {k : K} {v : V} {l : List (K × V)} : v ∈ values k l ↔ (k, v) ∈ l := by
  rw [values, List.mem_eraseDups, List.mem_map]
  constructor
  · rintro ⟨⟨k', v'⟩, hmem, rfl⟩
    obtain ⟨hl, hk⟩ := List.mem_filter.mp hmem
    obtain rfl : k' = k := of_decide_eq_true hk
    exact hl
  · exact fun h => ⟨(k, v), List.mem_filter.mpr ⟨h, by simp⟩, rfl⟩

lemma nodup_values (k : K) (l : List (K × V)) : (values k l).Nodup := nodup_eraseDups _

/-- An appended pair adds its value to its own group, unless the value is there already. -/
lemma values_concat (k : K) (l : List (K × V)) (x : K × V) :
    values k (l ++ [x]) =
      if x.1 = k ∧ x ∉ l then values k l ++ [x.2] else values k l := by
  by_cases hk : x.1 = k
  · subst hk
    have hfilter : (l ++ [x]).filter (fun y => y.1 = x.1) =
        (l.filter fun y => y.1 = x.1) ++ [x] := by
      simp [List.filter_append]
    have hmem : x.2 ∈ (l.filter fun y => y.1 = x.1).map Prod.snd ↔ x ∈ l := by
      rw [← List.mem_eraseDups]
      exact mem_values_iff
    rw [values, hfilter, List.map_append, List.map_singleton, eraseDups_concat]
    by_cases hx : x ∈ l
    · rw [if_pos (hmem.mpr hx), if_neg (by simp [hx])]
      rfl
    · rw [if_neg (fun h => hx (hmem.mp h)), if_pos ⟨rfl, hx⟩]
      rfl
  · rw [if_neg (by simp [hk]), values, List.filter_append]
    simp [hk, values]

/-- The order of the first occurrences. -/
theorem pairwise_idxOf_values (k : K) (l : List (K × V)) :
    (values k l).Pairwise fun v v' => l.idxOf (k, v) < l.idxOf (k, v') := by
  induction l using List.reverseRecOn with
  | nil => exact List.Pairwise.nil
  | append_singleton l x ih =>
    have hold : ∀ v ∈ values k l, (l ++ [x]).idxOf (k, v) = l.idxOf (k, v) := fun v hv => by
      rw [List.idxOf_append, if_pos (mem_values_iff.mp hv)]
    have hvalues : (values k l).Pairwise
        fun v v' => (l ++ [x]).idxOf (k, v) < (l ++ [x]).idxOf (k, v') := by
      refine ih.imp_of_mem fun {v v'} hv hv' hlt => ?_
      rwa [hold v hv, hold v' hv']
    rw [values_concat]
    split
    · next hx =>
      obtain ⟨rfl, hnew⟩ := hx
      refine List.pairwise_append.mpr ⟨hvalues, List.pairwise_singleton _ _, fun v hv v' hv' => ?_⟩
      obtain rfl := List.mem_singleton.mp hv'
      have hlast : (l ++ [x]).idxOf x = l.length := by
        rw [List.idxOf_append, if_neg hnew]
        simp
      show (l ++ [x]).idxOf (x.1, v) < (l ++ [x]).idxOf x
      rw [hold v hv, hlast]
      exact List.idxOf_lt_length_of_mem (mem_values_iff.mp hv)
    · exact hvalues

/-- Dropping a pair that repeats an earlier one. -/
lemma values_append_cons_of_mem {l₁ l₂ : List (K × V)} {x : K × V} (hx : x ∈ l₁) (k : K) :
    values k (l₁ ++ x :: l₂) = values k (l₁ ++ l₂) := by
  rw [values, values, List.filter_append, List.filter_append]
  by_cases hk : x.1 = k
  · rw [List.filter_cons_of_pos (by simpa using hk), List.map_append, List.map_append,
      List.map_cons]
    exact eraseDups_append_cons (List.mem_map_of_mem (List.mem_filter.mpr ⟨hx, by simpa using hk⟩))
  · rw [List.filter_cons_of_neg (by simpa using hk)]

/-- Dropping a pair with another key. -/
lemma values_append_cons_of_ne {l₁ l₂ : List (K × V)} {x : K × V} {k : K} (hk : x.1 ≠ k) :
    values k (l₁ ++ x :: l₂) = values k (l₁ ++ l₂) := by
  rw [values, values, List.filter_append, List.filter_append,
    List.filter_cons_of_neg (by simpa using hk)]

/-- **Listing the groups keeps the groups.** -/
theorem values_flatMap {ks : List K} (hks : ks.Nodup) {f : K → List V}
    (hf : ∀ k, (f k).Nodup) (k : K) :
    values k (ks.flatMap fun k' => (f k').map (Prod.mk k')) = if k ∈ ks then f k else [] := by
  have hfilter : ((ks.flatMap fun k' => (f k').map (Prod.mk k')).filter
      fun x => x.1 = k).map Prod.snd = if k ∈ ks then f k else [] := by
    induction ks with
    | nil => rfl
    | cons k' ks ih =>
      obtain ⟨hk', hks'⟩ := List.nodup_cons.mp hks
      rw [List.flatMap_cons, List.filter_append, List.map_append, ih hks', List.filter_map,
        List.map_map]
      by_cases hk : k' = k
      · subst hk
        simp [hk', Function.comp_def]
      · have hne : k ≠ k' := Ne.symm hk
        simp [hk, hne, Function.comp_def]
  rw [values, hfilter]
  split
  · exact eraseDups_of_nodup (hf k)
  · rfl

end Grouping

end Lib
