/-
# Mean aggregation along the edges of a graph

A layer of a graph network computes a new feature for every node, from the feature of the node
and from the mean of the features of the nodes that its edges lead to.  An edge counts as often
as it is listed, and the mean over no edges is zero.

The features after a number of layers are determined at a node by the edges of the nodes that
are reached in fewer steps.  Of these edges only the proportions matter, and neither their order
nor their number (`run_eq_of_proportional`).
-/
import Mathlib.Algebra.Module.BigOperators
import Mathlib.Algebra.Order.Field.Basic
import Mathlib.Algebra.Order.Ring.Cast
import Mathlib.Data.List.Count
import Mathlib.Tactic.Common

namespace Lib

namespace MeanAggregation

variable {V W : Type*} [DecidableEq V] [DecidableEq W]

/-! ## Proportional lists -/

/-- The two lists have the same elements in the same proportions. -/
def Proportional (l l' : List V) : Prop :=
  ∃ a b, 0 < a ∧ 0 < b ∧ ∀ v, a * l.count v = b * l'.count v

/-- Enough copies of the one list are a permutation of copies of the other one. -/
lemma proportional_iff_perm {l l' : List V} :
    Proportional l l' ↔ ∃ a b, 0 < a ∧ 0 < b ∧
      (List.replicate a l).flatten.Perm (List.replicate b l').flatten := by
  have hcount : ∀ (n : ℕ) (l : List V) (v : V),
      (List.replicate n l).flatten.count v = n * l.count v := by
    intro n l v
    rw [List.count_flatten, List.map_replicate, List.sum_replicate, smul_eq_mul]
  simp only [Proportional, List.perm_iff_count, hcount]

lemma Proportional.refl (l : List V) : Proportional l l := ⟨1, 1, one_pos, one_pos, fun _ => rfl⟩

lemma Proportional.symm {l l' : List V} (h : Proportional l l') : Proportional l' l := by
  obtain ⟨a, b, ha, hb, hcount⟩ := h
  exact ⟨b, a, hb, ha, fun v => (hcount v).symm⟩

/-- Proportions are kept by whatever is done with the single elements. -/
lemma Proportional.flatMap {l l' : List V} (h : Proportional l l') (f : V → List W) :
    Proportional (l.flatMap f) (l'.flatMap f) := by
  obtain ⟨a, b, ha, hb, hperm⟩ := proportional_iff_perm.mp h
  have hflat : ∀ (n : ℕ) (l : List V), (List.replicate n l).flatten.flatMap f =
      (List.replicate n (l.flatMap f)).flatten := by
    intro n l
    induction n with
    | zero => rfl
    | succ n ih =>
      rw [List.replicate_succ, List.flatten_cons, List.flatMap_append, ih, List.replicate_succ,
        List.flatten_cons]
  refine proportional_iff_perm.mpr ⟨a, b, ha, hb, ?_⟩
  rw [← hflat, ← hflat]
  exact hperm.flatMap_right f

lemma Proportional.mem {l l' : List V} (h : Proportional l l') {v : V} (hv : v ∈ l) : v ∈ l' := by
  obtain ⟨a, b, ha, hb, hcount⟩ := h
  have hpos := Nat.mul_pos ha (List.count_pos_iff.mpr hv)
  rw [hcount v] at hpos
  exact List.count_pos_iff.mp (pos_of_mul_pos_right hpos (Nat.zero_le b))

/-! ## Means -/

variable {K M : Type*} [Field K] [LinearOrder K] [IsStrictOrderedRing K] [AddCommGroup M]
  [Module K M]

/-- The mean over a list, zero if it is empty. -/
def average (l : List V) (x : V → M) : M := (max (l.length : K) 1)⁻¹ • (l.map x).sum

omit [DecidableEq V] in
lemma sum_flatten_replicate (n : ℕ) (l : List V) (x : V → M) :
    ((List.replicate n l).flatten.map x).sum = n • (l.map x).sum := by
  rw [List.map_flatten, List.map_replicate, List.sum_flatten, List.map_replicate,
    List.sum_replicate]

omit [DecidableEq V] in
/-- Copies do not change the mean. -/
lemma average_of_ne_nil {l : List V} (hl : l ≠ []) {n : ℕ} (hn : 0 < n) (x : V → M) :
    average (K := K) l x =
      ((List.replicate n l).flatten.length : K)⁻¹ • ((List.replicate n l).flatten.map x).sum := by
  have hlength : (1 : K) ≤ l.length := Nat.one_le_cast.mpr (List.length_pos_iff.mpr hl)
  have hn' : (n : K) ≠ 0 := Nat.cast_ne_zero.mpr hn.ne'
  rw [average, max_eq_left hlength, sum_flatten_replicate, List.length_flatten, List.map_replicate,
    List.sum_replicate, smul_eq_mul, Nat.cast_mul, mul_inv_rev, ← Nat.cast_smul_eq_nsmul K,
    smul_smul, inv_mul_cancel_right₀ hn']

/-- **The mean depends on the proportions only.** -/
theorem average_eq_of_proportional {l l' : List V} (h : Proportional l l') {x x' : V → M}
    (hx : ∀ v ∈ l, x v = x' v) : average (K := K) l x = average (K := K) l' x' := by
  by_cases hl : l = []
  · obtain rfl : l' = [] := by
      rw [List.eq_nil_iff_forall_not_mem]
      intro v hv
      rw [hl] at h
      exact absurd (h.symm.mem hv) List.not_mem_nil
    rw [hl, average, average, List.map_nil, List.map_nil]
  · obtain ⟨v, hv⟩ := List.exists_mem_of_ne_nil l hl
    have hl' : l' ≠ [] := List.ne_nil_of_mem (h.mem hv)
    have hsame : average (K := K) l x = average (K := K) l x' := by
      rw [average, average, List.map_congr_left hx]
    obtain ⟨a, b, ha, hb, hperm⟩ := proportional_iff_perm.mp h
    rw [hsame, average_of_ne_nil hl ha, average_of_ne_nil hl' hb, hperm.length_eq,
      (hperm.map x').sum_eq]

/-! ## Layers -/

/-- The targets of the edges of a node, in order. -/
def outs (edges : List (V × V)) (v : V) : List V :=
  (edges.filter fun e => decide (e.1 = v)).map (·.2)

/-- Add the feature of the target of every edge to the sum of its source. -/
def scatterAdd (edges : List (V × V)) (x : V → M) : V → M :=
  edges.foldl (fun agg e => Function.update agg e.1 (agg e.1 + x e.2)) fun _ => 0

lemma scatterAdd_apply (edges : List (V × V)) (x : V → M) (v : V) :
    scatterAdd edges x v = ((outs edges v).map x).sum := by
  have hgen : ∀ (edges : List (V × V)) (agg : V → M),
      edges.foldl (fun agg e => Function.update agg e.1 (agg e.1 + x e.2)) agg v =
        agg v + ((outs edges v).map x).sum := by
    intro edges
    induction edges with
    | nil => exact fun agg => (add_zero _).symm
    | cons e edges ih =>
      intro agg
      rw [List.foldl_cons, ih]
      by_cases he : e.1 = v
      · subst he
        rw [Function.update_self, outs, outs, List.filter_cons_of_pos (by simp), List.map_cons,
          List.map_cons, List.sum_cons, add_assoc]
      · rw [Function.update_of_ne (Ne.symm he), outs, outs,
          List.filter_cons_of_neg (by simpa using he)]
  rw [scatterAdd, hgen, zero_add]

/-- One layer: the old feature and the mean over the edges. -/
def layer (K : Type*) [Field K] [LinearOrder K] [Module K M] (combine : M → M → M)
    (edges : List (V × V)) (x : V → M) : V → M :=
  fun v => combine (x v) (average (K := K) (outs edges v) x)

/-- One layer after the other. -/
def run (K : Type*) [Field K] [LinearOrder K] [Module K M] (layers : List (M → M → M))
    (edges : List (V × V)) (x : V → M) : V → M :=
  layers.foldl (fun x combine => layer K combine edges x) x

/-- The nodes that are reached from a node in at most so many steps. -/
def within (edges : List (V × V)) : ℕ → V → Set V
  | 0, v => {v}
  | n + 1, v => {u | u = v ∨ ∃ w ∈ outs edges v, u ∈ within edges n w}

section Within

variable {edges : List (V × V)}

lemma self_mem_within (n : ℕ) (v : V) : v ∈ within edges n v := by
  cases n with
  | zero => exact rfl
  | succ n => exact Or.inl rfl

lemma within_succ {n : ℕ} {u v : V} (h : u ∈ within edges n v) : u ∈ within edges (n + 1) v := by
  induction n generalizing v with
  | zero => exact Or.inl h
  | succ n ih =>
    rcases h with rfl | ⟨w, hw, hu⟩
    · exact Or.inl rfl
    · exact Or.inr ⟨w, hw, ih hu⟩

/-- One more step at the end. -/
lemma outs_within {n : ℕ} {u v w : V} (hu : u ∈ within edges n v) (hw : w ∈ outs edges u) :
    w ∈ within edges (n + 1) v := by
  induction n generalizing v with
  | zero =>
    obtain rfl : u = v := hu
    exact Or.inr ⟨w, hw, rfl⟩
  | succ n ih =>
    rcases hu with rfl | ⟨v', hv', hu⟩
    · exact Or.inr ⟨w, hw, self_mem_within _ _⟩
    · exact Or.inr ⟨v', hv', ih hu⟩

end Within

/-- **What a node sees of a graph.**  The features agree at the node if the edges are in the
same proportions at all nodes that are reached in fewer steps than there are layers. -/
theorem run_eq_of_proportional {layers : List (M → M → M)} {edges edges' : List (V × V)}
    {x x' : V → M} {v : V}
    (hedges : ∀ u ∈ within edges (layers.length - 1) v,
      Proportional (outs edges u) (outs edges' u))
    (hx : ∀ u ∈ within edges layers.length v, x u = x' u) :
    run K layers edges x v = run K layers edges' x' v := by
  induction layers generalizing x x' with
  | nil => exact hx v rfl
  | cons combine layers ih =>
    refine ih (fun u hu => hedges u ?_) fun u hu => ?_
    · rw [List.length_cons, Nat.add_sub_cancel]
      cases hlayers : layers.length with
      | zero => rwa [hlayers] at hu
      | succ n =>
        rw [hlayers, Nat.add_sub_cancel] at hu
        exact within_succ hu
    · have hsame : x u = x' u := hx u (within_succ hu)
      have hmean : average (K := K) (outs edges u) x = average (K := K) (outs edges' u) x' :=
        average_eq_of_proportional (hedges u hu) fun w hw => hx w (outs_within hu hw)
      show combine (x u) _ = combine (x' u) _
      rw [hsame, hmean]

end MeanAggregation

end Lib
