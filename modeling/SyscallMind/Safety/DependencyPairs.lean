/-
# The pairs of the dependency check

The scan of `check_sequence` reports a pair of positions once, and it reports the pairs in
which a read follows a call of the same program that mutates state.  It is announced as a
search for both kinds of conflicts, but the pairs in which a call overwrites what an earlier
one has read are passed over.  So it finds all conflicts exactly on the sequences that have no
pair of this second kind (`findsConflicts_iff`).

Only calls of one program are related.  The number of dependencies is therefore the same for
all interleavings of the programs, and the verdicts that are built on it can only become
better when calls are deleted (`verdicts_of_ownOrder`).
-/
import SyscallMind.Lib.OrderedPairs
import SyscallMind.Safety.Validator

namespace SyscallMind

open Lib OrderedPairs SyscallIds

namespace DependencyChecker

variable {sequence sequence' : List SyscallTraceEvent}

def classOf (e : SyscallTraceEvent) : SafetyClass := SyscallClassifier.new.classify e.syscallId

/-- A call that mutates state, and a read of the same program. -/
def writeThenRead (from' to' : SyscallTraceEvent) : Bool :=
  decide (mutates (classOf from') = true ∧ to'.programId = from'.programId ∧
    reads (classOf to') = true)

/-- The positions of the reported dependencies, in the order of the report. -/
def positions (sequence : List SyscallTraceEvent) : List (ℕ × ℕ) :=
  (checkSequence sequence).map fun d => (d.fromIndex, d.toIndex)

/-- **What is reported**: each read that follows a call of its program that mutates state,
once for every such call. -/
theorem positions_eq (sequence : List SyscallTraceEvent) :
    positions sequence = pairs writeThenRead sequence := by
  rw [← scan_eq_pairs, positions, checkSequence, scan, List.map_flatMap]
  refine congrArg (fun f => sequence.zipIdx.flatMap f) (funext ?_)
  rintro ⟨from', i⟩
  cases hm : mutates (SyscallClassifier.new.classify from'.syscallId) with
  | false =>
    have hnone : ∀ to', writeThenRead from' to' = false := fun to' => by
      simp [writeThenRead, classOf, hm]
    simp [hm, hnone]
  | true =>
    simp only [hm, if_true, List.map_filterMap]
    refine List.filterMap_congr ?_
    rintro ⟨to', j⟩ -
    by_cases hr : to'.programId = from'.programId ∧
        reads (SyscallClassifier.new.classify to'.syscallId) = true
    · simp [hr, writeThenRead, classOf, hm]
    · have hfalse : writeThenRead from' to' = false := by
        simpa [writeThenRead, classOf, hm] using hr
      simp [hr, hfalse]

/-! ## Conflicts -/

/-- Two calls of one program, of which one mutates state and the other reads it. -/
def Conflict (a b : SyscallTraceEvent) : Prop :=
  a.programId = b.programId ∧
    (mutates (classOf a) = true ∧ reads (classOf b) = true ∨
      reads (classOf a) = true ∧ mutates (classOf b) = true)

/-- The call at the position `i` comes before the one at `j` and conflicts with it. -/
def ConflictAt (sequence : List SyscallTraceEvent) (i j : ℕ) : Prop :=
  i < j ∧ ∃ a b, sequence[i]? = some a ∧ sequence[j]? = some b ∧ Conflict a b

/-- Each conflict is reported exactly once, and nothing else is reported. -/
def FindsConflicts (sequence : List SyscallTraceEvent) : Prop :=
  ∀ i j,
    (ConflictAt sequence i j →
      (checkSequence sequence).countP (fun d => d.fromIndex = i ∧ d.toIndex = j) = 1) ∧
    (¬ ConflictAt sequence i j →
      (checkSequence sequence).countP (fun d => d.fromIndex = i ∧ d.toIndex = j) = 0)

lemma mutates_eq_not_reads (c : SafetyClass) : mutates c = !reads c := by
  cases c <;> rfl

lemma countP_checkSequence (i j : ℕ) :
    (checkSequence sequence).countP (fun d => d.fromIndex = i ∧ d.toIndex = j) =
      (pairs writeThenRead sequence).count (i, j) := by
  rw [← positions_eq, positions, List.count_eq_countP, List.countP_map]
  refine List.countP_congr fun d _ => ?_
  simp

/-- The reported pairs are conflicts. -/
lemma conflictAt_of_mem {i j : ℕ} (h : (i, j) ∈ pairs writeThenRead sequence) :
    ConflictAt sequence i j := by
  obtain ⟨hij, a, b, ha, hb, hab⟩ := mem_pairs_iff.mp h
  obtain ⟨hm, hp, hr⟩ := of_decide_eq_true hab
  exact ⟨hij, a, b, ha, hb, hp.symm, Or.inl ⟨hm, hr⟩⟩

/-- **When the check finds all conflicts**: exactly if no read is followed by a call of its
program that mutates state. -/
theorem findsConflicts_iff (sequence : List SyscallTraceEvent) :
    FindsConflicts sequence ↔
      sequence.Pairwise fun a b =>
        ¬ (a.programId = b.programId ∧ reads (classOf a) = true ∧
          mutates (classOf b) = true) := by
  constructor
  · intro h
    rw [List.pairwise_iff_getElem]
    rintro i j hi hj hij ⟨hp, hr, hm⟩
    have hconflict : ConflictAt sequence i j :=
      ⟨hij, sequence[i], sequence[j], by simp, by simp, hp, Or.inr ⟨hr, hm⟩⟩
    have hone := (h i j).1 hconflict
    rw [countP_checkSequence] at hone
    -- the pair is reported, so its first call mutates state
    have hmem : (i, j) ∈ pairs writeThenRead sequence := by
      rw [← List.count_pos_iff, hone]
      exact Nat.one_pos
    obtain ⟨-, a, b, ha, -, hab⟩ := mem_pairs_iff.mp hmem
    have hm' := (of_decide_eq_true hab).1
    obtain rfl : sequence[i] = a := by simpa [hi] using ha
    rw [mutates_eq_not_reads, hr] at hm'
    exact absurd hm' (by simp)
  · intro h i j
    rw [countP_checkSequence]
    constructor
    · rintro ⟨hij, a, b, ha, hb, hp, hab | ⟨hr, hm⟩⟩
      · refine List.count_eq_one_of_mem nodup_pairs (mem_pairs_iff.mpr ?_)
        exact ⟨hij, a, b, ha, hb, decide_eq_true ⟨hab.1, hp.symm, hab.2⟩⟩
      · obtain ⟨hi, rfl⟩ := List.getElem?_eq_some_iff.mp ha
        obtain ⟨hj, rfl⟩ := List.getElem?_eq_some_iff.mp hb
        exact absurd ⟨hp, hr, hm⟩ (List.pairwise_iff_getElem.mp h i j hi hj hij)
    · exact fun hno => List.count_eq_zero_of_not_mem fun hmem => hno (conflictAt_of_mem hmem)

/-- An event of which only the program and the id matter. -/
def ev (programId : Pubkey) (syscallId : SyscallId) : SyscallTraceEvent :=
  ⟨programId, syscallId, 0, 0, 1, zeroTxId, 0⟩

/-- The return data are read and then overwritten. -/
def getThenSetReturnData : List SyscallTraceEvent :=
  [ev zeroPubkey solGetReturnData, ev zeroPubkey solSetReturnData]

theorem getThenSetReturnData_not_found : ¬ FindsConflicts getThenSetReturnData := by
  intro h
  have hconflict : ConflictAt getThenSetReturnData 0 1 := by
    refine ⟨Nat.one_pos, _, _, rfl, rfl, rfl, Or.inr ?_⟩
    decide
  have hzero : (checkSequence getThenSetReturnData).countP
      (fun d => d.fromIndex = 0 ∧ d.toIndex = 1) = 0 := by
    decide
  exact absurd (hzero.symm.trans ((h 0 1).1 hconflict)) (by simp)

/-! ## Interleavings and deletions -/

lemma length_checkSequence (sequence : List SyscallTraceEvent) :
    (checkSequence sequence).length = (pairs writeThenRead sequence).length := by
  rw [← positions_eq, positions, List.length_map]

lemma hasDependencies_eq_false_iff :
    hasDependencies sequence = false ↔ pairs writeThenRead sequence = [] := by
  rw [← List.length_eq_zero_iff, ← length_checkSequence, List.length_eq_zero_iff,
    hasDependencies]
  simp

lemma programId_eq_of_writeThenRead (a b : SyscallTraceEvent) (h : writeThenRead a b = true) :
    a.programId = b.programId :=
  (of_decide_eq_true h).2.1.symm

/-- The two sequences have the same calls of every program, in the same order. -/
def SameOwnOrder (sequence sequence' : List SyscallTraceEvent) : Prop :=
  ∀ programId, sequence.filter (fun e => e.programId = programId) =
    sequence'.filter fun e => e.programId = programId

lemma SameOwnOrder.length_checkSequence_eq (h : SameOwnOrder sequence sequence') :
    (checkSequence sequence).length = (checkSequence sequence').length := by
  rw [length_checkSequence, length_checkSequence]
  exact length_pairs_eq_of_filter_eq programId_eq_of_writeThenRead h

lemma SameOwnOrder.mem_iff (h : SameOwnOrder sequence sequence') (e : SyscallTraceEvent) :
    e ∈ sequence ↔ e ∈ sequence' := by
  have hfilter := h e.programId
  have hmem : ∀ l : List SyscallTraceEvent,
      e ∈ l ↔ e ∈ l.filter fun e' => e'.programId = e.programId := fun l => by
    simp [List.mem_filter]
  rw [hmem sequence, hfilter, ← hmem sequence']

lemma SameOwnOrder.hasDependencies_eq (h : SameOwnOrder sequence sequence') :
    hasDependencies sequence = hasDependencies sequence' := by
  rw [Bool.eq_iff_iff, ← Bool.not_eq_false, ← Bool.not_eq_false, hasDependencies_eq_false_iff,
    hasDependencies_eq_false_iff, ← List.length_eq_zero_iff, ← List.length_eq_zero_iff,
    ← length_checkSequence, ← length_checkSequence, h.length_checkSequence_eq]

lemma SameOwnOrder.isSafeToReorder_eq (h : SameOwnOrder sequence sequence') :
    isSafeToReorder sequence = isSafeToReorder sequence' := by
  rw [Bool.eq_iff_iff, isSafeToReorder_iff, isSafeToReorder_iff]
  simp only [h.mem_iff]

/-- **Verdicts on interleavings and on subsequences.** -/
theorem verdicts_of_ownOrder :
    (∀ sequence sequence', SameOwnOrder sequence sequence' →
      (checkSequence sequence).length = (checkSequence sequence').length ∧
        hasDependencies sequence = hasDependencies sequence' ∧
        ∀ v : SafetyValidator, v.validateReorder sequence = v.validateReorder sequence') ∧
    (∀ sub sequence : List SyscallTraceEvent, sub.Sublist sequence →
      (hasDependencies sub = true → hasDependencies sequence = true) ∧
        ∀ v : SafetyValidator, (v.validateReorder sequence).approved = true →
          (v.validateReorder sub).approved = true) := by
  constructor
  · intro sequence sequence' h
    refine ⟨h.length_checkSequence_eq, h.hasDependencies_eq, fun v => ?_⟩
    rw [SafetyValidator.validateReorder, SafetyValidator.validateReorder, h.hasDependencies_eq,
      h.isSafeToReorder_eq]
  · intro sub sequence hsub
    refine ⟨fun hdep => ?_, fun v happ => ?_⟩
    · by_contra hno
      rw [Bool.not_eq_true, hasDependencies_eq_false_iff] at hno
      have hnil := hasDependencies_eq_false_iff.mpr (pairs_eq_nil_of_sublist hsub hno)
      rw [hdep] at hnil
      exact absurd hnil (by simp)
    · rw [SafetyValidator.validateReorder_approved_iff] at happ ⊢
      exact fun e he => happ e (hsub.subset he)

/-- A second program between the two calls of the first, or in front of them. -/
theorem verdicts_of_ownOrder_twoPrograms :
    let other : Pubkey := Vector.replicate 32 1
    let sequence := [ev zeroPubkey solSetReturnData, ev other solGetClockSysvar,
      ev zeroPubkey solGetReturnData]
    let sequence' := [ev other solGetClockSysvar, ev zeroPubkey solSetReturnData,
      ev zeroPubkey solGetReturnData]
    (checkSequence sequence).length = (checkSequence sequence').length ∧
      hasDependencies sequence = true := by
  intro other sequence sequence'
  have hother : zeroPubkey ≠ other := by decide
  have hown : SameOwnOrder sequence sequence' := by
    intro programId
    by_cases hp : zeroPubkey = programId
    · subst hp
      simp [sequence, sequence', ev, hother.symm]
    · simp [sequence, sequence', ev, hp, List.filter_cons]
  have hsub : [ev zeroPubkey solSetReturnData, ev zeroPubkey solGetReturnData].Sublist
      sequence := by
    simp [sequence]
  exact ⟨(verdicts_of_ownOrder.1 _ _ hown).1,
    (verdicts_of_ownOrder.2 _ _ hsub).1 (by decide)⟩

end DependencyChecker

end SyscallMind
