/-
# Sequences of effectful calls

A call returns a result and may change a state; a sequence of calls is executed from left to
right.  Nothing is assumed about the calls, the results or the states.

Calls that leave every state unchanged can be permuted: each keeps its result and the final
state is the same.
-/
import Mathlib.Data.List.OfFn
import Mathlib.Logic.Equiv.Defs

namespace Lib

namespace Effect

variable {C R S : Type*} (exec : C → S → R × S)

/-- The state after a sequence of calls. -/
def stateAfter (s : S) (cs : List C) : S := cs.foldl (fun s c => (exec c s).2) s

/-- The results of a sequence of calls, in order. -/
def results : S → List C → List R
  | _, [] => []
  | s, c :: cs => (exec c s).1 :: results (exec c s).2 cs

/-- The call leaves every state unchanged. -/
def Preserves (c : C) : Prop := ∀ s, (exec c s).2 = s

@[simp] lemma stateAfter_nil (s : S) : stateAfter exec s [] = s := rfl

@[simp] lemma stateAfter_cons (s : S) (c : C) (cs : List C) :
    stateAfter exec s (c :: cs) = stateAfter exec (exec c s).2 cs := rfl

lemma stateAfter_append (s : S) (cs ds : List C) :
    stateAfter exec s (cs ++ ds) = stateAfter exec (stateAfter exec s cs) ds := by
  simp [stateAfter]

@[simp] lemma results_nil (s : S) : results exec s [] = [] := rfl

@[simp] lemma results_cons (s : S) (c : C) (cs : List C) :
    results exec s (c :: cs) = (exec c s).1 :: results exec (exec c s).2 cs := rfl

/-! ## Calls that leave the state unchanged -/

variable {exec}

lemma stateAfter_of_preserves {cs : List C} (h : ∀ c ∈ cs, Preserves exec c) (s : S) :
    stateAfter exec s cs = s := by
  induction cs with
  | nil => rfl
  | cons c cs ih =>
    rw [stateAfter_cons, h c (by simp) s]
    exact ih fun d hd => h d (by simp [hd])

lemma results_of_preserves {cs : List C} (h : ∀ c ∈ cs, Preserves exec c) (s : S) :
    results exec s cs = cs.map fun c => (exec c s).1 := by
  induction cs with
  | nil => rfl
  | cons c cs ih =>
    rw [results_cons, List.map_cons, h c (by simp) s]
    rw [ih fun d hd => h d (by simp [hd])]

/-- **Calls that leave the state unchanged can be permuted.**  The state is the same and each
call returns the same result, wherever the permutation has put it. -/
theorem permute_of_preserves {n : ℕ} {call : Fin n → C} (h : ∀ i, Preserves exec (call i))
    (π : Equiv.Perm (Fin n)) (s : S) :
    stateAfter exec s (List.ofFn fun i => call (π i)) = stateAfter exec s (List.ofFn call) ∧
      ∀ i : Fin n, (results exec s (List.ofFn fun i => call (π i)))[(i : ℕ)]? =
        (results exec s (List.ofFn call))[(π i : ℕ)]? := by
  have hcalls : ∀ c ∈ List.ofFn call, Preserves exec c := by
    intro c hc
    obtain ⟨i, rfl⟩ := List.mem_ofFn.mp hc
    exact h i
  have hperm : ∀ c ∈ List.ofFn (fun i => call (π i)), Preserves exec c := by
    intro c hc
    obtain ⟨i, rfl⟩ := List.mem_ofFn.mp hc
    exact h (π i)
  refine ⟨?_, ?_⟩
  · rw [stateAfter_of_preserves hperm, stateAfter_of_preserves hcalls]
  · intro i
    rw [results_of_preserves hperm, results_of_preserves hcalls]
    simp

end Effect

end Lib
