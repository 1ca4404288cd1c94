/-
# What one party sees of a system

A deterministic system answers one action after the other, and some of the actions are those
of one party.  The party knows an action by its key and sees a part of the answer to each of
its own actions.

A `View` is a relation of states that the actions of the others do not change and under which
actions with the same key give the same answers.  Between related states the party sees the
same in two runs as soon as the keys of its own actions are the same in both
(`seen_eq_of_own`), so it sees what it would see alone, whatever the interleaving with the
others.
-/
import SyscallMind.Lib.Run

namespace Lib

namespace Isolation

variable {S A B O P : Type*} (step : S → A → O × S) (key : A → B) (mine : B → Bool)
  (part : O → P)

/-- The state after the actions of a run. -/
def after (s : S) (as : List A) : S := Run.after (fun s a => (step s a).2) s as

/-- What the party sees: its part of the answers to its own actions. -/
def seen : S → List A → List P
  | _, [] => []
  | s, a :: as =>
      if mine (key a) then part (step s a).1 :: seen (step s a).2 as
      else seen (step s a).2 as

/-- The actions of the party. -/
def own (as : List A) : List A := as.filter fun a => mine (key a)

/-- Related states look the same to the party. -/
structure View (R : S → S → Prop) : Prop where
  symm : ∀ {s t}, R s t → R t s
  trans : ∀ {s t u}, R s t → R t u → R s u
  other : ∀ {s} a, R s s → mine (key a) = false → R (step s a).2 s
  own : ∀ {s t} a b, R s t → key a = key b → mine (key a) = true →
    part (step s a).1 = part (step t b).1 ∧ R (step s a).2 (step t b).2

variable {step key mine part}

lemma own_cons (a : A) (as : List A) :
    own key mine (a :: as) =
      if mine (key a) = true then a :: own key mine as else own key mine as :=
  List.filter_cons

namespace View

variable {R : S → S → Prop} (h : View step key mine part R)
include h

/-- A related state is related to itself. -/
lemma refl_left {s t : S} (hst : R s t) : R s s := h.trans hst (h.symm hst)

/-- The actions of the others are not seen. -/
lemma own_eq {s t : S} (hst : R s t) (as : List A) :
    seen step key mine part s as = seen step key mine part t (Isolation.own key mine as) ∧
      R (after step s as) (after step t (Isolation.own key mine as)) := by
  induction as generalizing s t with
  | nil => exact ⟨rfl, hst⟩
  | cons a as ih =>
    cases ha : mine (key a) with
    | true =>
      obtain ⟨hpart, hstep⟩ := h.own a a hst rfl ha
      obtain ⟨hseen, hafter⟩ := ih hstep
      rw [own_cons, if_pos ha, seen, seen, if_pos ha, if_pos ha, hpart, hseen]
      exact ⟨rfl, hafter⟩
    | false =>
      have hstep := h.trans (h.other a (h.refl_left hst) ha) hst
      obtain ⟨hseen, hafter⟩ := ih hstep
      rw [own_cons, if_neg (by simp [ha]), seen, if_neg (by simp [ha])]
      exact ⟨hseen, hafter⟩

/-- Actions with the same keys are answered alike. -/
lemma congr {s t : S} (hst : R s t) {as bs : List A} (hkeys : as.map key = bs.map key)
    (hmine : ∀ a ∈ as, mine (key a) = true) :
    seen step key mine part s as = seen step key mine part t bs ∧
      R (after step s as) (after step t bs) := by
  induction as generalizing s t bs with
  | nil =>
    obtain rfl : bs = [] := List.map_eq_nil_iff.mp hkeys.symm
    exact ⟨rfl, hst⟩
  | cons a as ih =>
    obtain ⟨b, bs, rfl, hkey, hrest⟩ := List.map_eq_cons_iff.mp hkeys.symm
    have ha := hmine a (by simp)
    obtain ⟨hpart, hstep⟩ := h.own a b hst hkey.symm ha
    obtain ⟨hseen, hafter⟩ := ih hstep hrest.symm fun a' ha' => hmine a' (by simp [ha'])
    rw [seen, seen, if_pos ha, if_pos (by rw [hkey, ha]), hpart, hseen]
    exact ⟨rfl, hafter⟩

/-- **What a party sees depends on its own actions only.** -/
theorem seen_eq_of_own {s : S} (hs : R s s) {as bs : List A}
    (hkeys : (as.map key).filter mine = (bs.map key).filter mine) :
    seen step key mine part s as = seen step key mine part s bs ∧
      R (after step s as) (after step s bs) := by
  obtain ⟨hseen, hafter⟩ := h.own_eq hs as
  obtain ⟨hseen', hafter'⟩ := h.own_eq hs bs
  have hown : (Isolation.own key mine as).map key = (Isolation.own key mine bs).map key := by
    rw [List.filter_map, List.filter_map] at hkeys
    exact hkeys
  obtain ⟨hmid, hmid'⟩ := h.congr hs hown fun a ha => (List.mem_filter.mp ha).2
  refine ⟨hseen.trans (hmid.trans hseen'.symm), ?_⟩
  exact h.trans hafter (h.trans hmid' (h.symm hafter'))

end View

end Isolation

end Lib
