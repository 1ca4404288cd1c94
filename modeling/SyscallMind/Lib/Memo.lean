/-
# Memoising effectful calls through a lossy store

Some of the calls of a sequence go through a store: a hit returns the stored result and the
call is not executed, a miss executes the call and stores its result under the key of the
call.  The other calls are executed.  A call may read and change a state, so that a stored
result can be out of date when it is used again.

The store may forget whatever it likes; all that is asked is that it never makes a result up
(`Store`).  The development has three parts.

* Every hit returns the result that an earlier call with the same key had when it was
  executed (`hit_provenance`).
* If repeating a call would have given its earlier result, then every hit is what executing
  the call would give (`hitsFresh_of_safeReuse`), which is the same as saying that the
  memoised run and the direct run return the same results (`results_eq_iff_hitsFresh`).
* For a store that has room for the whole sequence and forgets nothing (`Retains`), the
  condition is also necessary (`safeReuse_of_hitsFresh`).
-/
import Mathlib.Data.List.Induction
import SyscallMind.Lib.Effect

namespace Lib

namespace Memo

open Effect

universe u

/-- A store of results: `contents` says what is in it, `lookup` and `record` use it.  It may
lose an entry at any operation but never changes one, except by recording it. -/
structure Store (K R : Type*) where
  /-- The states of the store. -/
  T : Type u
  lookup : T → K → Option R × T
  record : T → K → R → T
  contents : T → K → Option R
  lookup_sound : ∀ {t k r}, (lookup t k).1 = some r → contents t k = some r
  contents_of_lookup : ∀ {t k k' r},
    contents (lookup t k).2 k' = some r → contents t k' = some r
  contents_of_record : ∀ {t k k' r r'},
    contents (record t k r) k' = some r' → (k' = k ∧ r' = r) ∨ contents t k' = some r'

/-- How a call was answered. -/
inductive Outcome (R : Type*)
  | hit (r : R)
  | executed (r : R)
deriving DecidableEq, Repr

/-- The result that the caller sees. -/
def Outcome.result {R : Type*} : Outcome R → R
  | hit r => r
  | executed r => r

variable {C K R S : Type*} (M : Store K R) (memo : C → Bool) (key : C → K)
  (exec : C → S → R × S)

/-- One call through the store. -/
def step (ts : M.T × S) (c : C) : Outcome R × M.T × S :=
  if memo c then
    match M.lookup ts.1 (key c) with
    | (some r, t) => (.hit r, t, ts.2)
    | (none, t) =>
        (.executed (exec c ts.2).1, M.record t (key c) (exec c ts.2).1, (exec c ts.2).2)
  else (.executed (exec c ts.2).1, ts.1, (exec c ts.2).2)

/-- The store and the state after a sequence of calls. -/
def after (ts : M.T × S) (cs : List C) : M.T × S :=
  cs.foldl (fun ts c => (step M memo key exec ts c).2) ts

/-- How the calls of a sequence were answered, in order. -/
def outcomes : M.T × S → List C → List (Outcome R)
  | _, [] => []
  | ts, c :: cs =>
      (step M memo key exec ts c).1 :: outcomes (step M memo key exec ts c).2 cs

/-- Every hit of the run returns what executing the call there would return. -/
def HitsFresh (ts : M.T × S) (cs : List C) : Prop :=
  ∀ pre c post, cs = pre ++ c :: post → ∀ r,
    (step M memo key exec (after M memo key exec ts pre) c).1 = .hit r →
      r = (exec c (after M memo key exec ts pre).2).1

/-- Repeating a memoised call of the sequence gives the result it had before. -/
def SafeReuse (s : S) (cs : List C) : Prop :=
  ∀ pre c mid c' post, cs = pre ++ c :: (mid ++ c' :: post) →
    memo c = true → memo c' = true → key c = key c' →
      (exec c' (stateAfter exec s (pre ++ c :: mid))).1 = (exec c (stateAfter exec s pre)).1

section Step

variable {ts : M.T × S} {c : C}

lemma step_of_hit {r : R} {t : M.T} (hm : memo c = true)
    (hl : M.lookup ts.1 (key c) = (some r, t)) :
    step M memo key exec ts c = (.hit r, t, ts.2) := by
  simp [step, hm, hl]

lemma step_of_miss {t : M.T} (hm : memo c = true)
    (hl : M.lookup ts.1 (key c) = (none, t)) :
    step M memo key exec ts c =
      (.executed (exec c ts.2).1, M.record t (key c) (exec c ts.2).1, (exec c ts.2).2) := by
  simp [step, hm, hl]

lemma step_of_not_memo (hm : memo c = false) :
    step M memo key exec ts c = (.executed (exec c ts.2).1, ts.1, (exec c ts.2).2) := by
  simp [step, hm]

end Step

/-- What a step can do: answer from the store, execute and record, or execute. -/
lemma step_cases (ts : M.T × S) (c : C) :
    (∃ r, memo c = true ∧ (M.lookup ts.1 (key c)).1 = some r ∧
      step M memo key exec ts c = (.hit r, (M.lookup ts.1 (key c)).2, ts.2)) ∨
    (memo c = true ∧ (M.lookup ts.1 (key c)).1 = none ∧
      step M memo key exec ts c = (.executed (exec c ts.2).1,
        M.record (M.lookup ts.1 (key c)).2 (key c) (exec c ts.2).1, (exec c ts.2).2)) ∨
    (memo c = false ∧
      step M memo key exec ts c = (.executed (exec c ts.2).1, ts.1, (exec c ts.2).2)) := by
  cases hm : memo c with
  | false => exact Or.inr (Or.inr ⟨rfl, step_of_not_memo M memo key exec hm⟩)
  | true =>
    rcases hl : M.lookup ts.1 (key c) with ⟨_ | r, t⟩
    · exact Or.inr (Or.inl ⟨rfl, rfl, step_of_miss M memo key exec hm hl⟩)
    · exact Or.inl ⟨r, rfl, rfl, step_of_hit M memo key exec hm hl⟩

@[simp] lemma after_nil (ts : M.T × S) : after M memo key exec ts [] = ts := rfl

@[simp] lemma after_cons (ts : M.T × S) (c : C) (cs : List C) :
    after M memo key exec ts (c :: cs) =
      after M memo key exec (step M memo key exec ts c).2 cs := rfl

lemma after_append (ts : M.T × S) (cs ds : List C) :
    after M memo key exec ts (cs ++ ds) =
      after M memo key exec (after M memo key exec ts cs) ds := by
  simp [after]

/-! ## The state is that of the direct run -/

variable {memo exec}

lemma step_state (hpres : ∀ c, memo c = true → Preserves exec c) (ts : M.T × S) (c : C) :
    (step M memo key exec ts c).2.2 = (exec c ts.2).2 := by
  rcases step_cases M memo key exec ts c with ⟨r, hm, -, h⟩ | ⟨-, -, h⟩ | ⟨-, h⟩
  · rw [h, hpres c hm ts.2]
  · rw [h]
  · rw [h]

lemma after_state (hpres : ∀ c, memo c = true → Preserves exec c) (ts : M.T × S)
    (cs : List C) : (after M memo key exec ts cs).2 = stateAfter exec ts.2 cs := by
  induction cs generalizing ts with
  | nil => rfl
  | cons c cs ih => rw [after_cons, ih, step_state M key hpres, stateAfter_cons]

/-! ## Where the stored results come from -/

variable (memo exec) in
/-- Every stored result is the one that some memoised call of the history had, executed in
the state in which it was made. -/
def Provenance (s : S) (done : List C) (t : M.T) : Prop :=
  ∀ k r, M.contents t k = some r → ∃ pre c post, done = pre ++ c :: post ∧
    memo c = true ∧ key c = k ∧ r = (exec c (stateAfter exec s pre)).1

lemma provenance_mono {s : S} {done : List C} {t t' : M.T} (c : C)
    (h : Provenance M memo key exec s done t)
    (hsub : ∀ k r, M.contents t' k = some r → M.contents t k = some r) :
    Provenance M memo key exec s (done ++ [c]) t' := by
  intro k r hr
  obtain ⟨pre, d, post, rfl, hm, hk, hres⟩ := h k r (hsub k r hr)
  exact ⟨pre, d, post ++ [c], by simp, hm, hk, hres⟩

lemma provenance_step {s : S} {done : List C} {ts : M.T × S} (c : C)
    (hs : ts.2 = stateAfter exec s done) (h : Provenance M memo key exec s done ts.1) :
    Provenance M memo key exec s (done ++ [c]) (step M memo key exec ts c).2.1 := by
  rcases step_cases M memo key exec ts c with ⟨r, -, -, he⟩ | ⟨hm, -, he⟩ | ⟨-, he⟩
  · rw [he]
    exact provenance_mono M key c h fun k r hr => M.contents_of_lookup hr
  · rw [he]
    intro k r hr
    rcases M.contents_of_record hr with ⟨rfl, rfl⟩ | hr'
    · exact ⟨done, c, [], rfl, hm, rfl, by rw [hs]⟩
    · exact provenance_mono M key c h (fun k r hr => M.contents_of_lookup hr) k r hr'
  · rw [he]
    exact provenance_mono M key c h fun k r hr => hr

lemma provenance_after (hpres : ∀ c, memo c = true → Preserves exec c) {ts : M.T × S}
    (hempty : ∀ k, M.contents ts.1 k = none) (cs : List C) :
    Provenance M memo key exec ts.2 cs (after M memo key exec ts cs).1 := by
  induction cs using List.reverseRecOn with
  | nil =>
    intro k r hr
    rw [after_nil, hempty k] at hr
    exact absurd hr (by simp)
  | append_singleton cs c ih =>
    rw [after_append, after_cons, after_nil]
    exact provenance_step M key c (after_state M key hpres ts cs) ih

/-- **A hit returns the result of an earlier call with the same key**, as it was executed in
the state of that moment. -/
theorem hit_provenance (hpres : ∀ c, memo c = true → Preserves exec c) {ts : M.T × S}
    (hempty : ∀ k, M.contents ts.1 k = none) {pre : List C} {c : C} {r : R}
    (h : (step M memo key exec (after M memo key exec ts pre) c).1 = .hit r) :
    memo c = true ∧ ∃ pre₀ c₀ mid, pre = pre₀ ++ c₀ :: mid ∧ memo c₀ = true ∧
      key c₀ = key c ∧ r = (exec c₀ (stateAfter exec ts.2 pre₀)).1 := by
  rcases step_cases M memo key exec (after M memo key exec ts pre) c with
    ⟨r', hm, hl, he⟩ | ⟨-, -, he⟩ | ⟨-, he⟩
  · rw [he] at h
    obtain rfl : r' = r := by simpa using h
    exact ⟨hm, provenance_after M key hpres hempty pre _ _ (M.lookup_sound hl)⟩
  · rw [he] at h
    exact absurd h (by simp)
  · rw [he] at h
    exact absurd h (by simp)

theorem hitsFresh_of_safeReuse (hpres : ∀ c, memo c = true → Preserves exec c)
    {ts : M.T × S} (hempty : ∀ k, M.contents ts.1 k = none) {cs : List C}
    (hsafe : SafeReuse memo key exec ts.2 cs) : HitsFresh M memo key exec ts cs := by
  intro pre c post hcs r hr
  obtain ⟨hm, pre₀, c₀, mid, rfl, hm₀, hk, rfl⟩ := hit_provenance M key hpres hempty hr
  rw [after_state M key hpres]
  exact (hsafe pre₀ c₀ mid c post (by simpa using hcs) hm₀ hm hk).symm

/-! ## Fresh hits and equal results -/

lemma hitsFresh_cons (ts : M.T × S) (c : C) (cs : List C) :
    HitsFresh M memo key exec ts (c :: cs) ↔
      (∀ r, (step M memo key exec ts c).1 = .hit r → r = (exec c ts.2).1) ∧
        HitsFresh M memo key exec (step M memo key exec ts c).2 cs := by
  constructor
  · intro h
    refine ⟨fun r hr => h [] c cs rfl r hr, ?_⟩
    intro pre d post hcs r hr
    exact h (c :: pre) d post (by rw [hcs]; rfl) r hr
  · rintro ⟨hc, hcs⟩ pre d post heq r hr
    cases pre with
    | nil =>
      obtain ⟨rfl, rfl⟩ : c = d ∧ cs = post := by simpa using heq
      exact hc r hr
    | cons c' pre =>
      obtain ⟨rfl, rfl⟩ : c = c' ∧ cs = pre ++ d :: post := by simpa using heq
      exact hcs pre d post rfl r hr

lemma step_result_iff (ts : M.T × S) (c : C) :
    (step M memo key exec ts c).1.result = (exec c ts.2).1 ↔
      ∀ r, (step M memo key exec ts c).1 = .hit r → r = (exec c ts.2).1 := by
  rcases step_cases M memo key exec ts c with ⟨r, -, -, he⟩ | ⟨-, -, he⟩ | ⟨-, he⟩ <;>
    simp [he, Outcome.result]

/-- **The memoised run returns the results of the direct run exactly when all its hits are
fresh.** -/
theorem results_eq_iff_hitsFresh (hpres : ∀ c, memo c = true → Preserves exec c)
    (ts : M.T × S) (cs : List C) :
    (outcomes M memo key exec ts cs).map Outcome.result = results exec ts.2 cs ↔
      HitsFresh M memo key exec ts cs := by
  induction cs generalizing ts with
  | nil => exact ⟨fun _ pre c post h => absurd h (by simp), fun _ => rfl⟩
  | cons c cs ih =>
    rw [hitsFresh_cons, ← ih, ← step_result_iff, step_state M key hpres]
    simp [outcomes]

/-! ## A store that forgets nothing -/

/-- With `fits t n` there is room for `n` more results in the store `t`, and while there is
room the store answers every key it holds and keeps all its entries. -/
structure Retains (fits : M.T → ℕ → Prop) : Prop where
  mono : ∀ {t n}, fits t (n + 1) → fits t n
  lookup_complete : ∀ {t n k r}, fits t n → M.contents t k = some r →
    (M.lookup t k).1 = some r
  fits_lookup : ∀ {t n} (k), fits t n → fits (M.lookup t k).2 n
  fits_record : ∀ {t n} (k r), fits t (n + 1) → fits (M.record t k r) n
  contents_lookup : ∀ {t n k' r} (k), fits t n → M.contents t k' = some r →
    M.contents (M.lookup t k).2 k' = some r
  contents_record_self : ∀ t k r, M.contents (M.record t k r) k = some r
  contents_record_ne : ∀ {t n k k' r} (r'), fits t (n + 1) → k' ≠ k →
    M.contents t k' = some r → M.contents (M.record t k r') k' = some r

variable (memo exec) {fits : M.T → ℕ → Prop} (hret : Retains M fits)

include hret

lemma fits_step {ts : M.T × S} {n : ℕ} (c : C) (h : fits ts.1 (n + 1)) :
    fits (step M memo key exec ts c).2.1 n := by
  rcases step_cases M memo key exec ts c with ⟨r, -, -, he⟩ | ⟨-, -, he⟩ | ⟨-, he⟩
  · rw [he]
    exact hret.fits_lookup _ (hret.mono h)
  · rw [he]
    exact hret.fits_record _ _ (hret.fits_lookup _ h)
  · rw [he]
    exact hret.mono h

lemma fits_after {ts : M.T × S} {n : ℕ} (cs : List C) (h : fits ts.1 (cs.length + n)) :
    fits (after M memo key exec ts cs).1 n := by
  induction cs generalizing ts with
  | nil => simpa using h
  | cons c cs ih =>
    refine ih (fits_step M memo key exec hret c ?_)
    rwa [List.length_cons, show cs.length + 1 + n = cs.length + n + 1 by omega] at h

/-- An entry stays: its key hits, so nothing is recorded under it again. -/
lemma contents_step {ts : M.T × S} {n : ℕ} {k : K} {r : R} (c : C)
    (h : fits ts.1 (n + 1)) (hk : M.contents ts.1 k = some r) :
    M.contents (step M memo key exec ts c).2.1 k = some r := by
  rcases step_cases M memo key exec ts c with ⟨r', -, -, he⟩ | ⟨-, hl, he⟩ | ⟨-, he⟩
  · rw [he]
    exact hret.contents_lookup _ h hk
  · rw [he]
    have hne : k ≠ key c := by
      rintro rfl
      rw [hret.lookup_complete h hk] at hl
      exact absurd hl (by simp)
    exact hret.contents_record_ne _ (hret.fits_lookup _ h) hne (hret.contents_lookup _ h hk)
  · rw [he]
    exact hk

lemma contents_after {ts : M.T × S} {n : ℕ} {k : K} {r : R} (cs : List C)
    (h : fits ts.1 (cs.length + n)) (hk : M.contents ts.1 k = some r) :
    M.contents (after M memo key exec ts cs).1 k = some r := by
  induction cs generalizing ts with
  | nil => exact hk
  | cons c cs ih =>
    have h' : fits ts.1 (cs.length + n + 1) := by
      rwa [List.length_cons, show cs.length + 1 + n = cs.length + n + 1 by omega] at h
    exact ih (fits_step M memo key exec hret c h') (contents_step M memo key exec hret c h' hk)

/-- After a memoised call its result is in the store. -/
lemma contents_step_self {ts : M.T × S} {n : ℕ} {c : C} (h : fits ts.1 n)
    (hm : memo c = true) :
    M.contents (step M memo key exec ts c).2.1 (key c) =
      some (step M memo key exec ts c).1.result := by
  rcases step_cases M memo key exec ts c with ⟨r, -, hl, he⟩ | ⟨-, -, he⟩ | ⟨hm', -⟩
  · rw [he]
    exact hret.contents_lookup _ h (M.lookup_sound hl)
  · rw [he]
    exact hret.contents_record_self _ _ _
  · exact absurd hm (by simp [hm'])

/-- A later call with the key of an earlier one hits and returns the earlier result. -/
lemma hit_of_repeat {ts : M.T × S} {pre mid : List C} {c c' : C} {n : ℕ}
    (h : fits ts.1 ((pre ++ c :: mid).length + n)) (hm : memo c = true)
    (hm' : memo c' = true) (hk : key c = key c') :
    (step M memo key exec (after M memo key exec ts (pre ++ c :: mid)) c').1 =
      .hit (step M memo key exec (after M memo key exec ts pre) c).1.result := by
  have hpre : fits (after M memo key exec ts pre).1 (mid.length + n + 1) := by
    refine fits_after M memo key exec hret pre ?_
    rwa [List.length_append, List.length_cons, show pre.length + (mid.length + 1) + n =
      pre.length + (mid.length + n + 1) by omega] at h
  have hself := contents_step_self M memo key exec hret hpre hm
  have hfit₁ := fits_step M memo key exec hret c hpre
  have hmid := contents_after M memo key exec hret mid hfit₁ hself
  have hfit := fits_after M memo key exec hret mid hfit₁
  rw [after_append, after_cons]
  rw [hk] at hmid
  have hl := hret.lookup_complete hfit hmid
  rcases step_cases M memo key exec (after M memo key exec
      (step M memo key exec (after M memo key exec ts pre) c).2 mid) c' with
    ⟨r, -, hl', he⟩ | ⟨-, hl', -⟩ | ⟨hm'', -⟩
  · rw [he]
    rw [hl, Option.some.injEq] at hl'
    rw [hl']
  · rw [hl] at hl'
    exact absurd hl' (by simp)
  · exact absurd hm' (by simp [hm''])

/-- **If all hits are fresh in a store with enough room, every repeated call would have
given its earlier result.** -/
theorem safeReuse_of_hitsFresh (hpres : ∀ c, memo c = true → Preserves exec c)
    {ts : M.T × S} {cs : List C} (hfit : fits ts.1 cs.length)
    (hfresh : HitsFresh M memo key exec ts cs) : SafeReuse memo key exec ts.2 cs := by
  intro pre c mid c' post hcs hm hm' hk
  have hfit' : fits ts.1 ((pre ++ c :: mid).length + (post.length + 1)) := by
    rw [hcs] at hfit
    simpa [Nat.add_assoc, Nat.add_comm, Nat.add_left_comm] using hfit
  have hrep := hit_of_repeat M memo key exec hret hfit' hm hm' hk
  have h' := hfresh (pre ++ c :: mid) c' post (by simpa using hcs) _ hrep
  have h := (step_result_iff M key (after M memo key exec ts pre) c).mpr
    fun r hr => hfresh pre c (mid ++ c' :: post) hcs r hr
  rw [after_state M key hpres] at h h'
  rw [← h', h]

end Memo

end Lib
