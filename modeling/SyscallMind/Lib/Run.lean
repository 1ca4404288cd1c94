/-
# Runs of a step function

A deterministic system takes one action after the other; its state after a list of actions is
a fold.  An invariant is preserved by every step and so holds in every state of a run.

Where a system has a property in some runs only, the question is which steps destroy it.  If
a step from a state with the property leads to a state with the property exactly when it
satisfies a condition, then the property holds in every state of a run exactly when every
step of the run satisfies the condition (`everyState_iff_everyStep`).

What a state remembers of its run is often the last action of some kind: `Since set kill as`
says that an action of the kind `set` is followed by no action of the kind `kill`.
-/
import Mathlib.Data.List.Induction

namespace Lib

namespace Run

variable {S A : Type*} (step : S → A → S)

/-- The state after a list of actions. -/
def after (s : S) (as : List A) : S := as.foldl step s

/-- The property holds in every state of the run, the first and the last one included. -/
def EveryState (P : S → Prop) (s : S) (as : List A) : Prop :=
  ∀ pre post, as = pre ++ post → P (after step s pre)

/-- Every action of the run satisfies the condition in the state in which it is taken. -/
def EveryStep (cond : S → A → Prop) (s : S) (as : List A) : Prop :=
  ∀ pre a post, as = pre ++ a :: post → cond (after step s pre) a

@[simp] lemma after_nil (s : S) : after step s [] = s := rfl

@[simp] lemma after_cons (s : S) (a : A) (as : List A) :
    after step s (a :: as) = after step (step s a) as := rfl

lemma after_append (s : S) (as bs : List A) :
    after step s (as ++ bs) = after step (after step s as) bs := by
  simp [after]

variable {step}

theorem invariant {P : S → Prop} (hstep : ∀ s a, P s → P (step s a)) {s : S} (hs : P s)
    (as : List A) : P (after step s as) := by
  induction as generalizing s with
  | nil => exact hs
  | cons a as ih => exact ih (hstep s a hs)

/-- Two systems that take the same actions stay related. -/
theorem simulation {T : Type*} {step' : T → A → T} {R : S → T → Prop}
    (hstep : ∀ s t a, R s t → R (step s a) (step' t a)) {s : S} {t : T} (h : R s t)
    (as : List A) : R (after step s as) (after step' t as) := by
  induction as generalizing s t with
  | nil => exact h
  | cons a as ih => exact ih (hstep s t a h)

/-! ## One step at a time -/

variable {P : S → Prop} {cond : S → A → Prop}

lemma everyState_nil {s : S} : EveryState step P s [] ↔ P s := by
  constructor
  · intro h
    exact h [] [] rfl
  · intro h pre post heq
    obtain ⟨rfl, -⟩ := List.append_eq_nil_iff.mp heq.symm
    exact h

lemma everyState_cons {s : S} {a : A} {as : List A} :
    EveryState step P s (a :: as) ↔ P s ∧ EveryState step P (step s a) as := by
  constructor
  · intro h
    refine ⟨h [] (a :: as) rfl, ?_⟩
    intro pre post heq
    exact h (a :: pre) post (by rw [heq]; rfl)
  · rintro ⟨hs, has⟩ pre post heq
    cases pre with
    | nil => exact hs
    | cons b pre =>
      obtain ⟨rfl, heq'⟩ : a = b ∧ as = pre ++ post := by simpa using heq
      exact has pre post heq'

lemma everyStep_nil {s : S} : EveryStep step cond s [] := by
  intro pre a post heq
  exact absurd heq (by simp)

lemma everyStep_cons {s : S} {a : A} {as : List A} :
    EveryStep step cond s (a :: as) ↔ cond s a ∧ EveryStep step cond (step s a) as := by
  constructor
  · intro h
    refine ⟨h [] a as rfl, ?_⟩
    intro pre b post heq
    exact h (a :: pre) b post (by rw [heq]; rfl)
  · rintro ⟨hs, has⟩ pre b post heq
    cases pre with
    | nil =>
      obtain ⟨rfl, -⟩ : a = b ∧ as = post := by simpa using heq
      exact hs
    | cons d pre =>
      obtain ⟨rfl, heq'⟩ : a = d ∧ as = pre ++ b :: post := by simpa using heq
      exact has pre b post heq'

/-- **Which runs keep a property.**  The invariant `I` is kept by the admissible steps; where
it holds, a step keeps the property `P` exactly when it satisfies the condition. -/
theorem everyState_iff_everyStep {I : S → Prop} {adm : S → A → Prop}
    (hI : ∀ s a, I s → adm s a → I (step s a))
    (hP : ∀ s a, I s → P s → adm s a → (P (step s a) ↔ cond s a)) {s : S} {as : List A}
    (hs : I s) (hPs : P s) (hadm : EveryStep step adm s as) :
    EveryState step P s as ↔ EveryStep step cond s as := by
  induction as generalizing s with
  | nil => exact ⟨fun _ => everyStep_nil, fun _ => everyState_nil.mpr hPs⟩
  | cons a as ih =>
    obtain ⟨ha, has⟩ := everyStep_cons.mp hadm
    rw [everyState_cons, everyStep_cons]
    constructor
    · rintro ⟨-, h⟩
      have hPa : P (step s a) := h [] as rfl
      exact ⟨(hP s a hs hPs ha).mp hPa, (ih (hI s a hs ha) hPa has).mp h⟩
    · rintro ⟨hc, h⟩
      have hPa : P (step s a) := (hP s a hs hPs ha).mpr hc
      exact ⟨hPs, (ih (hI s a hs ha) hPa has).mpr h⟩

/-- The same without an invariant to help. -/
theorem everyState_iff_everyStep_of_forall (hP : ∀ s a, P s → (P (step s a) ↔ cond s a))
    {s : S} {as : List A} (hs : P s) : EveryState step P s as ↔ EveryStep step cond s as := by
  have hadm : EveryStep step (fun _ _ => True) s as := fun _ _ _ _ => trivial
  refine everyState_iff_everyStep (I := fun _ => True) ?_ ?_ trivial hs hadm
  · exact fun _ _ _ _ => trivial
  · exact fun s a _ hPs _ => hP s a hPs

/-! ## The last action of a kind -/

/-- Some action satisfies `set`, and no later one satisfies `kill`. -/
def Since {A : Type*} (set kill : A → Prop) (as : List A) : Prop :=
  ∃ pre a post, as = pre ++ a :: post ∧ set a ∧ ∀ b ∈ post, ¬ kill b

section Since

variable {A : Type*} {set kill : A → Prop}

lemma since_nil : ¬ Since set kill ([] : List A) := by
  rintro ⟨pre, a, post, heq, -⟩
  exact absurd heq (by simp)

lemma since_concat {as : List A} {b : A} :
    Since set kill (as ++ [b]) ↔ set b ∨ (Since set kill as ∧ ¬ kill b) := by
  constructor
  · rintro ⟨pre, a, post, heq, ha, hpost⟩
    rcases List.eq_nil_or_concat post with rfl | ⟨post', b', rfl⟩
    · obtain ⟨-, hb⟩ := List.append_inj' heq rfl
      obtain rfl : b = a := by simpa using hb
      exact Or.inl ha
    · have heq' : as ++ [b] = (pre ++ a :: post') ++ [b'] := by rw [heq]; simp
      obtain ⟨has, hb⟩ := List.append_inj' heq' rfl
      obtain rfl : b = b' := by simpa using hb
      refine Or.inr ⟨⟨pre, a, post', has, ha, fun c hc => hpost c (by simp [hc])⟩, ?_⟩
      exact hpost b (by simp)
  · rintro (hb | ⟨⟨pre, a, post, rfl, ha, hpost⟩, hb⟩)
    · exact ⟨as, b, [], rfl, hb, fun c hc => absurd hc (by simp)⟩
    · refine ⟨pre, a, post ++ [b], by simp, ha, fun c hc => ?_⟩
      rcases List.mem_append.mp hc with hc | hc
      · exact hpost c hc
      · rwa [List.mem_singleton.mp hc]

end Since

end Run

end Lib
