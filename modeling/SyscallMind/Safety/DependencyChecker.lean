/-
# The dynamic dependency check

`DependencyChecker` of `safety/src/dependency_checker.rs`: the quadratic scan for a
state-mutating call that precedes a read of the same program, and the reorder test built on
it.  The results here are the two facts that the callers need: what a reported dependency
says about its two positions, and that a sequence of read-only calls has none.

The scan depends on the classifier only through the classes of the ids, so it is also given
for an arbitrary classification (`checkSequenceBy`).
-/
import SyscallMind.Safety.Classifier

namespace SyscallMind

structure DataDependency where
  fromIndex : ℕ
  toIndex : ℕ
  reason : String
deriving DecidableEq, Repr

namespace DependencyChecker

/-- The pattern `StateChanging | OrderSensitive`. -/
def mutates : SafetyClass → Bool
  | .stateChanging | .orderSensitive => true
  | .readOnly | .idempotent => false

/-- The pattern `ReadOnly | Idempotent`. -/
def reads : SafetyClass → Bool
  | .readOnly | .idempotent => true
  | .stateChanging | .orderSensitive => false

def dependencyReason (i : ℕ) (from' : SyscallTraceEvent) (j : ℕ) (to' : SyscallTraceEvent) :
    String :=
  "syscall[" ++ toString i ++ "] (id=" ++ toString from'.syscallId ++
    ") mutates state read by syscall[" ++ toString j ++ "] (id=" ++ toString to'.syscallId ++ ")"

/-- Any state-mutating syscall at index `i` creates a dependency for all subsequent reads
from the same program. -/
def checkSequence (sequence : List SyscallTraceEvent) : List DataDependency :=
  let classifier := SyscallClassifier.new
  sequence.zipIdx.flatMap fun (from', i) =>
    if mutates (classifier.classify from'.syscallId) then
      (sequence.zipIdx.drop (i + 1)).filterMap fun (to', j) =>
        if to'.programId = from'.programId ∧ reads (classifier.classify to'.syscallId) then
          some ⟨i, j, dependencyReason i from' j to'⟩
        else none
    else []

/-- The scan of `checkSequence` under a given classification of the ids. -/
def checkSequenceBy (classify : SyscallId → SafetyClass) (sequence : List SyscallTraceEvent) :
    List DataDependency :=
  sequence.zipIdx.flatMap fun (from', i) =>
    if mutates (classify from'.syscallId) then
      (sequence.zipIdx.drop (i + 1)).filterMap fun (to', j) =>
        if to'.programId = from'.programId ∧ reads (classify to'.syscallId) then
          some ⟨i, j, dependencyReason i from' j to'⟩
        else none
    else []

lemma checkSequence_eq (sequence : List SyscallTraceEvent) :
    checkSequence sequence = checkSequenceBy SyscallClassifier.new.classify sequence := rfl

def hasDependencies (sequence : List SyscallTraceEvent) : Bool :=
  !(checkSequence sequence).isEmpty

def isSafeToReorder (sequence : List SyscallTraceEvent) : Bool :=
  if hasDependencies sequence then false
  else
    let classifier := SyscallClassifier.new
    sequence.all fun e => decide (classifier.classify e.syscallId = .readOnly)

/-! ## What is reported -/

section CheckSequence

variable {classify : SyscallId → SafetyClass} {sequence : List SyscallTraceEvent}

lemma mem_zipIdx_drop_iff {α : Type*} {l : List α} {i j : ℕ} {a : α} :
    (a, j) ∈ l.zipIdx.drop (i + 1) ↔ i < j ∧ l[j]? = some a := by
  rw [List.mem_iff_getElem?]
  simp only [List.getElem?_drop, List.getElem?_zipIdx, Option.map_eq_some_iff, Prod.mk.injEq]
  constructor
  · rintro ⟨k, b, hb, rfl, hj⟩
    have hjk : i + 1 + k = j := by omega
    rw [hjk] at hb
    exact ⟨by omega, hb⟩
  · rintro ⟨hij, ha⟩
    refine ⟨j - (i + 1), a, ?_, rfl, by omega⟩
    rw [show i + 1 + (j - (i + 1)) = j by omega]
    exact ha

/-- A dependency leads from a call that mutates state to a later read of the same program. -/
lemma mem_checkSequenceBy_iff {d : DataDependency} :
    d ∈ checkSequenceBy classify sequence ↔
      ∃ i j from' to', i < j ∧ sequence[i]? = some from' ∧ sequence[j]? = some to' ∧
        mutates (classify from'.syscallId) = true ∧ to'.programId = from'.programId ∧
        reads (classify to'.syscallId) = true ∧ d = ⟨i, j, dependencyReason i from' j to'⟩ := by
  rw [checkSequenceBy, List.mem_flatMap]
  constructor
  · rintro ⟨⟨from', i⟩, hfrom, hd⟩
    have hi : sequence[i]? = some from' := by simpa [List.mem_zipIdx_iff_getElem?] using hfrom
    dsimp only at hd
    split at hd
    · next hm =>
      obtain ⟨⟨to', j⟩, hto, hd⟩ := List.mem_filterMap.mp hd
      obtain ⟨hij, hj⟩ := mem_zipIdx_drop_iff.mp hto
      dsimp only at hd
      split at hd
      · next hc => exact ⟨i, j, from', to', hij, hi, hj, hm, hc.1, hc.2, (Option.some.inj hd).symm⟩
      · exact absurd hd (by simp)
    · exact absurd hd (by simp)
  · rintro ⟨i, j, from', to', hij, hi, hj, hm, hp, hr, rfl⟩
    refine ⟨(from', i), by simpa [List.mem_zipIdx_iff_getElem?] using hi, ?_⟩
    dsimp only
    rw [if_pos hm]
    refine List.mem_filterMap.mpr ⟨(to', j), mem_zipIdx_drop_iff.mpr ⟨hij, hj⟩, ?_⟩
    exact if_pos ⟨hp, hr⟩

/-- The positions that are reported as depending on an earlier one. -/
lemma exists_dependency_to_iff {j : ℕ} :
    (∃ d ∈ checkSequenceBy classify sequence, d.toIndex = j) ↔
      ∃ i from' to', i < j ∧ sequence[i]? = some from' ∧ sequence[j]? = some to' ∧
        mutates (classify from'.syscallId) = true ∧ to'.programId = from'.programId ∧
        reads (classify to'.syscallId) = true := by
  constructor
  · rintro ⟨d, hd, rfl⟩
    obtain ⟨i, j, from', to', hij, hi, hj, hm, hp, hr, rfl⟩ := mem_checkSequenceBy_iff.mp hd
    exact ⟨i, from', to', hij, hi, hj, hm, hp, hr⟩
  · rintro ⟨i, from', to', hij, hi, hj, hm, hp, hr⟩
    exact ⟨_, mem_checkSequenceBy_iff.mpr ⟨i, j, from', to', hij, hi, hj, hm, hp, hr, rfl⟩, rfl⟩

/-- The scan asks of a class only whether it mutates or reads. -/
lemma checkSequenceBy_congr {classify' : SyscallId → SafetyClass}
    (hm : ∀ id, mutates (classify id) = mutates (classify' id))
    (hr : ∀ id, reads (classify id) = reads (classify' id)) :
    checkSequenceBy classify sequence = checkSequenceBy classify' sequence := by
  simp only [checkSequenceBy, hm, hr]

end CheckSequence

/-- A sequence in which no call mutates state has no dependency. -/
lemma hasDependencies_of_all_readOnly {sequence : List SyscallTraceEvent}
    (h : ∀ e ∈ sequence, SyscallClassifier.new.classify e.syscallId = .readOnly) :
    hasDependencies sequence = false := by
  have hnil : checkSequence sequence = [] := by
    rw [checkSequence, List.flatMap_eq_nil_iff]
    rintro ⟨from', i⟩ hmem
    have hro := h from' (List.fst_mem_of_mem_zipIdx hmem)
    simp [hro, mutates]
  simp [hasDependencies, hnil]

lemma isSafeToReorder_iff {sequence : List SyscallTraceEvent} :
    isSafeToReorder sequence = true ↔
      ∀ e ∈ sequence, SyscallClassifier.new.classify e.syscallId = .readOnly := by
  constructor
  · intro h
    unfold isSafeToReorder at h
    split at h
    · exact absurd h (by simp)
    · simpa using h
  · intro h
    rw [isSafeToReorder, if_neg (by simp [hasDependencies_of_all_readOnly h])]
    simpa using h

end DependencyChecker

end SyscallMind
