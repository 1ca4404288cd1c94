/-
# Layers that attend within a mask

A layer of a sequence model computes a new entry for every position, from the entry of the
position itself and from those of the positions that it may attend to.  A mask says which
positions a position may not attend to.

A set of positions is closed if its positions attend to no others.  Two sequences that agree on
a closed set agree on it after any number of layers (`run_eq_of_agree`), whatever they hold
elsewhere and however long they are.  Under the causal mask the initial segments are closed, so
the layers commute with cutting a sequence off (`run_take`).

Multi-head softmax attention with residual connections is such a layer
(`attendsWithin_softmaxLayer`).
-/
import Mathlib.Algebra.Module.Defs
import Mathlib.Analysis.SpecialFunctions.Exp
import Mathlib.Data.List.Range

namespace Lib

namespace Attention

/-- Row, column: `true` if the position may not attend to the other one. -/
abbrev Mask := ℕ → ℕ → Bool

/-- No position may attend to a later one. -/
def causalMask : Mask := fun i j => decide (i < j)

variable {H : Type*}

/-- What the position may attend to, by position. -/
def visible (mask : Mask) (hs : List H) (i j : ℕ) : Option H := if mask i j then none else hs[j]?

/-- The result at a position is a function of what it holds and of what it may attend to. -/
structure AttendsWithin (layer : Mask → List H → List H) : Prop where
  length_eq : ∀ mask hs, (layer mask hs).length = hs.length
  row_eq : ∀ {mask mask' : Mask} {hs hs' : List H} {i : ℕ}, hs[i]? = hs'[i]? →
    visible mask hs i = visible mask' hs' i → (layer mask hs)[i]? = (layer mask' hs')[i]?

/-- One layer after the other. -/
def run (layers : List (Mask → List H → List H)) (mask : Mask) (hs : List H) : List H :=
  layers.foldl (fun hs layer => layer mask hs) hs

@[simp] lemma run_nil (mask : Mask) (hs : List H) : run [] mask hs = hs := rfl

@[simp] lemma run_cons (layer : Mask → List H → List H) (layers : List (Mask → List H → List H))
    (mask : Mask) (hs : List H) :
    run (layer :: layers) mask hs = run layers mask (layer mask hs) := rfl

section Layers

variable {layers : List (Mask → List H → List H)} (hlayers : ∀ layer ∈ layers, AttendsWithin layer)
include hlayers

lemma length_run (mask : Mask) (hs : List H) : (run layers mask hs).length = hs.length := by
  induction layers generalizing hs with
  | nil => rfl
  | cons layer layers ih =>
    rw [List.forall_mem_cons] at hlayers
    rw [run_cons, ih hlayers.2, hlayers.1.length_eq]

/-- **A closed set of positions sees nothing else.** -/
theorem run_eq_of_agree {mask : Mask} {s : Set ℕ}
    (hclosed : ∀ i ∈ s, ∀ j, mask i j = false → j ∈ s) {hs hs' : List H}
    (hagree : ∀ i ∈ s, hs[i]? = hs'[i]?) :
    ∀ i ∈ s, (run layers mask hs)[i]? = (run layers mask hs')[i]? := by
  induction layers generalizing hs hs' with
  | nil => exact hagree
  | cons layer layers ih =>
    rw [List.forall_mem_cons] at hlayers
    refine ih hlayers.2 fun i hi => hlayers.1.row_eq (hagree i hi) ?_
    ext1 j
    rw [visible, visible]
    cases hmask : mask i j with
    | true => rfl
    | false => exact hagree j (hclosed i hi j hmask)

/-- **Under the causal mask, cutting off commutes with the layers.** -/
theorem run_take (hs : List H) (n : ℕ) :
    run layers causalMask (hs.take n) = (run layers causalMask hs).take n := by
  have hclosed : ∀ i ∈ Set.Iio n, ∀ j, causalMask i j = false → j ∈ Set.Iio n := by
    intro i hi j hj
    have hle : ¬ i < j := of_decide_eq_false hj
    exact (not_lt.mp hle).trans_lt hi
  have hagree : ∀ i ∈ Set.Iio n, (hs.take n)[i]? = hs[i]? :=
    fun i hi => List.getElem?_take_of_lt hi
  ext1 i
  rcases lt_or_ge i n with hi | hi
  · rw [run_eq_of_agree hlayers hclosed hagree i hi, List.getElem?_take_of_lt hi]
  · rw [List.getElem?_eq_none, List.getElem?_eq_none]
    · exact (List.length_take_le _ _).trans hi
    · rw [length_run hlayers]
      exact (List.length_take_le _ _).trans hi

end Layers

/-! ## Softmax attention -/

/-- What the position may attend to, in order. -/
def attended (mask : Mask) (hs : List H) (i : ℕ) : List H :=
  (List.range hs.length).filterMap (visible mask hs i)

lemma visible_of_le {mask : Mask} {hs : List H} {i j : ℕ} (h : hs.length ≤ j) :
    visible mask hs i j = none := by
  rw [visible, List.getElem?_eq_none h, ite_self]

/-- Positions behind the end add nothing. -/
lemma attended_eq {mask : Mask} {hs : List H} {n : ℕ} (h : hs.length ≤ n) (i : ℕ) :
    attended mask hs i = (List.range n).filterMap (visible mask hs i) := by
  induction n, h using Nat.le_induction with
  | base => rfl
  | succ n hn ih =>
    rw [ih, List.range_succ, List.filterMap_append]
    simp [visible_of_le hn]

/-- A layer that computes each entry from the old one and the attended ones. -/
def rowLayer (combine : H → List H → H) (mask : Mask) (hs : List H) : List H :=
  hs.mapIdx fun i h => combine h (attended mask hs i)

lemma attendsWithin_rowLayer (combine : H → List H → H) : AttendsWithin (rowLayer combine) where
  length_eq mask hs := List.length_mapIdx
  row_eq := by
    intro mask mask' hs hs' i hrow hvisible
    have hattended : attended mask hs i = attended mask' hs' i := by
      rw [attended_eq (le_max_left _ hs'.length), attended_eq (le_max_right hs.length _),
        hvisible]
    rw [rowLayer, rowLayer, List.getElem?_mapIdx, List.getElem?_mapIdx, hrow, hattended]

/-- One head: the score of a query entry against a key entry, and the projected value. -/
structure Head (H : Type*) where
  score : H → H → ℝ
  value : H → H

variable [AddCommMonoid H] [Module ℝ H]

/-- The values of the attended entries, weighted by the softmax of their scores. -/
noncomputable def Head.attend (head : Head H) (query : H) (entries : List H) : H :=
  let total := (entries.map fun h => Real.exp (head.score query h)).sum
  (entries.map fun h => (Real.exp (head.score query h) / total) • head.value h).sum

/-- An encoder layer with normalisation after each of its two residual connections. -/
noncomputable def softmaxLayer (heads : List (Head H)) (bias : H)
    (feedForward norm₁ norm₂ : H → H) : Mask → List H → List H :=
  rowLayer fun h entries =>
    let h := norm₁ (h + ((heads.map fun head => head.attend h entries).sum + bias))
    norm₂ (h + feedForward h)

theorem attendsWithin_softmaxLayer (heads : List (Head H)) (bias : H)
    (feedForward norm₁ norm₂ : H → H) :
    AttendsWithin (softmaxLayer heads bias feedForward norm₁ norm₂) :=
  attendsWithin_rowLayer _

end Attention

end Lib
