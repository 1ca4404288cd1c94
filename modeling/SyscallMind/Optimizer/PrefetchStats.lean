/-
# What the counters of the prefetcher count

Every `consume` that finds an entry counts as a hit.  One that finds none returns before it
counts as a miss, and an entry that is not ready, the only one that would be counted, does not
occur.  So the misses stay zero, and the counters account for all lookups exactly in the runs
in which every lookup finds its entry (`lookups_counted_iff`).
-/
import SyscallMind.Optimizer.Prefetcher

namespace SyscallMind

open Lib

namespace SpeculativePrefetcher

/-- What the operation returns, if it is a `consume`. -/
def answer (s : SpeculativePrefetcher) : Op → Option (Option (List UInt8))
  | .trigger _ => none
  | .consume syscallId argsHash => some (s.consume syscallId argsHash).1

/-- The results of the `consume` calls of a run. -/
def answers : SpeculativePrefetcher → List Op → List (Option (List UInt8))
  | _, [] => []
  | s, op :: ops => (s.answer op).toList ++ answers (s.step op) ops

def isConsume : Op → Bool
  | .trigger _ => false
  | .consume _ _ => true

/-- The counters after the run say how many `consume` calls it has made and how many of them
have returned a result. -/
def Accounted (threshold : F32) (ops : List Op) : Prop :=
  let s := Run.after step (new threshold) ops
  s.stats = ((answers (new threshold) ops).countP Option.isSome,
      (answers (new threshold) ops).countP Option.isNone) ∧
    s.hits + s.misses = ops.countP isConsume

/-- A prediction for the key that passes the threshold. -/
def Fills (threshold : F32) (k : SyscallId × ArgsHash) (op : Op) : Prop :=
  ∃ ps, op = .trigger ps ∧ ∃ p ∈ ps, (p.1, p.2.1) = k ∧ p.2.2.lt threshold = false

/-! ## One call -/

variable {s : SpeculativePrefetcher} {threshold : F32}

/-- What a `consume` can do: deliver an entry, or nothing at all. -/
lemma consume_cases (hs : AllReady s) (syscallId : SyscallId) (argsHash : ArgsHash) :
    (s.buffer.lookup (syscallId, argsHash) = none ∧
      s.consume syscallId argsHash = (none, s)) ∨
    ∃ entry, s.buffer.lookup (syscallId, argsHash) = some entry ∧
      s.consume syscallId argsHash =
        (some entry.result,
          { s with buffer := s.buffer.erase (syscallId, argsHash), hits := s.hits + 1 }) := by
  cases hl : s.buffer.lookup (syscallId, argsHash) with
  | none => exact Or.inl ⟨rfl, by simp [consume, hl]⟩
  | some entry => exact Or.inr ⟨entry, rfl, by simp [consume, hl, hs _ entry hl]⟩

lemma triggerOne_stats (p : Prediction) : (s.triggerOne p).stats = s.stats := by
  rcases s.triggerOne_cases p with ⟨-, -, h⟩ | ⟨-, h⟩
  · rw [h]
    rfl
  · rw [h]

lemma trigger_stats (ps : List Prediction) : (s.trigger ps).stats = s.stats := by
  induction ps generalizing s with
  | nil => rfl
  | cons p ps ih => exact ih.trans (triggerOne_stats p)

/-! ## Runs -/

/-- The lookup of the operation finds an entry. -/
def Finds (s : SpeculativePrefetcher) (op : Op) : Prop :=
  ∀ syscallId argsHash, op = .consume syscallId argsHash →
    (s.buffer.lookup (syscallId, argsHash)).isSome = true

/-- Every result counts as a hit, and nothing counts as a miss. -/
lemma stats_after (hs : AllReady s) (ops : List Op) :
    (Run.after step s ops).stats =
      (s.hits + (answers s ops).countP Option.isSome, s.misses) := by
  induction ops generalizing s with
  | nil => rfl
  | cons op ops ih =>
    rw [Run.after_cons, ih (hs.step op), answers, List.countP_append]
    cases op with
    | trigger ps =>
      obtain ⟨hhits, hmisses⟩ := Prod.mk.inj (trigger_stats (s := s) ps)
      simp [step, answer, hhits, hmisses]
    | consume id h =>
      rcases consume_cases hs id h with ⟨-, heq⟩ | ⟨entry, -, heq⟩
      · simp [step, answer, heq]
      · simp [step, answer, heq, Nat.add_assoc]

lemma length_answers (ops : List Op) : (answers s ops).length = ops.countP isConsume := by
  induction ops generalizing s with
  | nil => rfl
  | cons op ops ih =>
    rw [answers, List.length_append, ih, List.countP_cons]
    cases op <;> simp [answer, isConsume, Nat.add_comm]

lemma no_none_iff (hs : AllReady s) (ops : List Op) :
    (answers s ops).countP Option.isNone = 0 ↔ Run.EveryStep step Finds s ops := by
  induction ops generalizing s with
  | nil => exact iff_of_true rfl Run.everyStep_nil
  | cons op ops ih =>
    have hfinds : (s.answer op).toList.countP Option.isNone = 0 ↔ Finds s op := by
      cases op with
      | trigger ps => exact iff_of_true rfl fun _ _ heq => absurd heq (by simp)
      | consume id h =>
        rcases consume_cases hs id h with ⟨hl, heq⟩ | ⟨entry, hl, heq⟩
        · simp [answer, heq, Finds, hl]
        · simp [answer, heq, Finds, hl]
    rw [answers, List.countP_append, Nat.add_eq_zero_iff, hfinds, ih (hs.step op),
      Run.everyStep_cons]

/-! ## When an entry is there -/

lemma isSome_step_iff (hs : AllReady s) (op : Op) (k : SyscallId × ArgsHash) :
    ((s.step op).buffer.lookup k).isSome = true ↔
      Fills s.confidenceThreshold k op ∨
        ((s.buffer.lookup k).isSome = true ∧ ¬ op = .consume k.1 k.2) := by
  cases op with
  | trigger ps =>
    rw [step, isSome_trigger_iff]
    constructor
    · rintro (hold | ⟨p, hp, hk, hpass⟩)
      · exact Or.inr ⟨hold, by simp⟩
      · exact Or.inl ⟨ps, rfl, p, hp, hk.symm, by simpa [passes] using hpass⟩
    · rintro (⟨ps', heq, p, hp, hk, hpass⟩ | ⟨hold, -⟩)
      · obtain rfl := Op.trigger.inj heq
        exact Or.inr ⟨p, hp, hk.symm, by simp [passes, hpass]⟩
      · exact Or.inl hold
  | consume id h =>
    have hfills : ¬ Fills s.confidenceThreshold k (.consume id h) := by
      rintro ⟨ps, heq, -⟩
      exact absurd heq (by simp)
    have hown : Op.consume id h = .consume k.1 k.2 ↔ k = (id, h) := by
      rw [Op.consume.injEq, Prod.ext_iff, eq_comm (a := id), eq_comm (a := h)]
    rw [or_iff_right hfills, hown, step]
    rcases consume_cases hs id h with ⟨hl, heq⟩ | ⟨entry, hl, heq⟩
    · rw [heq]
      refine ⟨fun hk => ⟨hk, ?_⟩, fun hk => hk.1⟩
      rintro rfl
      rw [hl] at hk
      exact absurd hk (by simp)
    · rw [heq]
      dsimp only
      rw [HashMap.lookup_erase_eq]
      by_cases hk : k = (id, h) <;> simp [hk]

lemma allReady_after (ops : List Op) : AllReady (Run.after step (new threshold) ops) :=
  Run.invariant (fun _ op h => h.step op) (allReady_new threshold) ops

lemma threshold_after (ops : List Op) :
    (Run.after step (new threshold) ops).confidenceThreshold = threshold :=
  Run.invariant (P := fun s : SpeculativePrefetcher => s.confidenceThreshold = threshold)
    (fun _ op h => (step_threshold op).trans h) rfl ops

/-- An entry is there since the last passing prediction, unless it was consumed. -/
lemma isSome_after_iff (ops : List Op) (k : SyscallId × ArgsHash) :
    ((Run.after step (new threshold) ops).buffer.lookup k).isSome = true ↔
      Run.Since (Fills threshold k) (fun op => op = .consume k.1 k.2) ops := by
  induction ops using List.reverseRecOn with
  | nil => exact iff_of_false (by simp [new]) Run.since_nil
  | append_singleton ops op ih =>
    rw [Run.after_append, Run.after_cons, Run.after_nil, isSome_step_iff (allReady_after ops),
      threshold_after, ih, Run.since_concat]

/-- **When the counters account for every lookup**: exactly if each `consume` of a key comes
after a passing prediction for the key that no other `consume` has used up. -/
theorem lookups_counted_iff (threshold : F32) (ops : List Op) :
    Accounted threshold ops ↔
      ∀ pre syscallId argsHash post, ops = pre ++ .consume syscallId argsHash :: post →
        Run.Since (Fills threshold (syscallId, argsHash))
          (fun op => op = .consume syscallId argsHash) pre := by
  have hstats := stats_after (allReady_new threshold) ops
  have hsome := no_none_iff (allReady_new threshold) ops
  have hlength := length_answers (s := new threshold) ops
  have hpartition : (answers (new threshold) ops).length =
      (answers (new threshold) ops).countP Option.isSome +
        (answers (new threshold) ops).countP Option.isNone := by
    rw [List.length_eq_countP_add_countP Option.isSome]
    congr 1
    refine List.countP_congr fun o _ => ?_
    cases o <;> simp
  have hsteps : Run.EveryStep step Finds (new threshold) ops ↔
      ∀ pre syscallId argsHash post, ops = pre ++ .consume syscallId argsHash :: post →
        Run.Since (Fills threshold (syscallId, argsHash))
          (fun op => op = .consume syscallId argsHash) pre := by
    constructor
    · intro h pre id hash post heq
      exact (isSome_after_iff pre (id, hash)).mp (h pre _ post heq id hash rfl)
    · rintro h pre op post heq id hash rfl
      exact (isSome_after_iff pre (id, hash)).mpr (h pre id hash post heq)
  obtain ⟨hhits, hmisses⟩ := Prod.mk.inj hstats
  rw [← hsteps, ← hsome, Accounted]
  constructor
  · rintro ⟨hcounts, -⟩
    exact (Prod.mk.inj hcounts).2.symm.trans hmisses
  · intro hnone
    refine ⟨?_, ?_⟩
    · rw [hstats, hnone]
      simp [new]
    · rw [hhits, hmisses, ← hlength, hpartition, hnone]
      simp [new]

/-- A lookup in an empty prefetcher is a miss that is not counted. -/
theorem miss_not_counted :
    (((new ⟨0x3f4ccccd⟩).consume 99 0).1 = none ∧
      ((new ⟨0x3f4ccccd⟩).consume 99 0).2.stats = (0, 0)) ∧
      ¬ Accounted ⟨0x3f4ccccd⟩ [.consume 99 0] := by
  refine ⟨by decide, ?_⟩
  rintro ⟨-, hsum⟩
  exact absurd hsum (by decide)

end SpeculativePrefetcher

end SyscallMind
