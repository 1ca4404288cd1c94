/-
# The registry of the runtime

`SyscallRegistry` of `runtime/src/syscall_registry.rs`: the safety class of every known id.
The handler asks this table whether a call is eligible; the gates ask the table of the
classifier.

The tables have the same ids and agree on all of them but one: `sol_memcmp` is read-only
here and idempotent there (`getSafety_eq`).  Eligibility and data dependencies do not
distinguish these two classes, the reorder gate does, so the two tables give the same
verdicts on a sequence unless it is a sequence of read-only calls and `sol_memcmp` only
(`verdicts_agree_iff`).
-/
import SyscallMind.Safety.Validator

namespace SyscallMind

open Lib SyscallIds

/-- Of what is registered for an id, only the safety class is read. -/
structure SyscallInfo where
  safety : SafetyClass
deriving DecidableEq, Repr

structure SyscallRegistry where
  entries : HashMap SyscallId SyscallInfo

namespace SyscallRegistry

def register (entries : HashMap SyscallId SyscallInfo) (id : SyscallId) (safety : SafetyClass) :
    HashMap SyscallId SyscallInfo :=
  entries.insert id ⟨safety⟩

def new : SyscallRegistry :=
  let m : HashMap SyscallId SyscallInfo := ∅
  let m := register m solGetClockSysvar .readOnly
  let m := register m solGetRentSysvar .readOnly
  let m := register m solGetEpochScheduleSysvar .readOnly
  let m := register m solGetFeesSysvar .readOnly
  let m := register m solGetSlotHashesSysvar .readOnly
  let m := register m solGetStakeHistorySysvar .readOnly
  let m := register m solLog .idempotent
  let m := register m solLog64 .idempotent
  let m := register m solLogPubkey .idempotent
  let m := register m solLogComputeUnits .idempotent
  let m := register m solSha256 .idempotent
  let m := register m solKeccak256 .idempotent
  let m := register m solSecp256k1Recover .idempotent
  let m := register m solEd25519Verify .idempotent
  let m := register m solInvokeSigned .orderSensitive
  let m := register m solSetReturnData .stateChanging
  let m := register m solGetReturnData .readOnly
  let m := register m solAllocFree .idempotent
  let m := register m solMemcpy .idempotent
  let m := register m solMemmove .idempotent
  let m := register m solMemset .idempotent
  let m := register m solMemcmp .readOnly
  let m := register m solPanic .stateChanging
  let m := register m solAbort .stateChanging
  ⟨m⟩

variable (r : SyscallRegistry)

def getSafety (id : SyscallId) : SafetyClass :=
  ((r.entries.lookup id).map (·.safety)).getD .stateChanging

def isOptimizationEligible (id : SyscallId) : Bool :=
  match r.getSafety id with
  | .readOnly | .idempotent => true
  | .stateChanging | .orderSensitive => false

/-! ## The two tables -/

lemma getSafety_of_not_mem {id : SyscallId} (h : id ∉ new.entries.keys) :
    new.getSafety id = .stateChanging := by
  have hl : new.entries.lookup id = none :=
    AList.lookup_eq_none.mpr fun hmem => h (AList.mem_keys.mp hmem)
  rw [getSafety, hl]
  rfl

/-- **The two tables differ in one entry.** -/
theorem getSafety_eq (id : SyscallId) :
    new.getSafety id =
      if id = solMemcmp then .readOnly else SyscallClassifier.new.classify id := by
  by_cases hmem : id ∈ new.entries.keys
  · have hall : ∀ k ∈ new.entries.keys, new.getSafety k =
        if k = solMemcmp then .readOnly else SyscallClassifier.new.classify k :=
      List.all_iff_forall_prop.mp (by decide)
    exact hall id hmem
  · have hne : id ≠ solMemcmp := by
      rintro rfl
      exact hmem (by decide)
    have hsub : ∀ k ∈ SyscallClassifier.new.classifications.keys, k ∈ new.entries.keys :=
      List.all_iff_forall_prop.mp (by decide)
    rw [getSafety_of_not_mem hmem, if_neg hne,
      SyscallClassifier.classify_of_not_mem fun h => hmem (hsub id h)]

lemma classify_solMemcmp : SyscallClassifier.new.classify solMemcmp = .idempotent := by decide

/-- A question that does not distinguish the classes of `sol_memcmp` has the same answer for
both tables. -/
lemma getSafety_congr {α : Type*} (f : SafetyClass → α) (h : f .readOnly = f .idempotent)
    (id : SyscallId) : f (new.getSafety id) = f (SyscallClassifier.new.classify id) := by
  rw [getSafety_eq]
  split
  · next heq => rw [heq, classify_solMemcmp, h]
  · rfl

lemma isOptimizationEligible_eq (id : SyscallId) :
    new.isOptimizationEligible id = SyscallClassifier.new.isOptimizationEligible id := by
  have heligible := getSafety_congr (fun c => DependencyChecker.reads c) rfl id
  rw [isOptimizationEligible, SyscallClassifier.isOptimizationEligible]
  revert heligible
  cases new.getSafety id <;> cases SyscallClassifier.new.classify id <;>
    simp [DependencyChecker.reads]

/-! ## The verdicts on a sequence -/

section Verdicts

variable (enforce : Bool) (sequence : List SyscallTraceEvent)

lemma validateBatch_iff_eligible (ids : List SyscallId) :
    ((SafetyValidator.new enforce).validateBatch ids).approved = true ↔
      ∀ id ∈ ids, new.isOptimizationEligible id = true := by
  simp only [isOptimizationEligible_eq]
  exact SafetyValidator.validateBatch_approved_iff _ ids

lemma checkSequence_eq_by_getSafety :
    DependencyChecker.checkSequence sequence =
      DependencyChecker.checkSequenceBy new.getSafety sequence := by
  rw [DependencyChecker.checkSequence_eq]
  refine DependencyChecker.checkSequenceBy_congr (fun id => ?_) (fun id => ?_)
  · exact (getSafety_congr DependencyChecker.mutates rfl id).symm
  · exact (getSafety_congr DependencyChecker.reads rfl id).symm

lemma getSafety_eq_readOnly_iff {id : SyscallId} :
    new.getSafety id = .readOnly ↔ id = solMemcmp ∨ id ∈ SyscallClassifier.readOnlyIds := by
  rw [getSafety_eq]
  split
  · next h => simp [h]
  · next h => simp [h, SyscallClassifier.classify_eq_readOnly_iff]

/-- The reorder gate and the registry part on the sequences that contain `sol_memcmp` and
otherwise only read-only calls. -/
lemma validateReorder_iff_getSafety_iff :
    (((SafetyValidator.new enforce).validateReorder sequence).approved = true ↔
        ∀ e ∈ sequence, new.getSafety e.syscallId = .readOnly) ↔
      ((∃ e ∈ sequence, e.syscallId = solMemcmp) →
        ∃ e ∈ sequence, e.syscallId ≠ solMemcmp ∧
          e.syscallId ∉ SyscallClassifier.readOnlyIds) := by
  have hmemcmp : solMemcmp ∉ SyscallClassifier.readOnlyIds := by decide
  rw [SafetyValidator.validateReorder_approved_iff]
  simp only [SyscallClassifier.classify_eq_readOnly_iff, getSafety_eq_readOnly_iff]
  constructor
  · rintro hiff ⟨e, he, hid⟩
    by_contra hno
    have hall : ∀ e' ∈ sequence, e'.syscallId = solMemcmp ∨
        e'.syscallId ∈ SyscallClassifier.readOnlyIds := by
      intro e' he'
      by_contra hout
      exact hno ⟨e', he', fun h => hout (.inl h), fun h => hout (.inr h)⟩
    exact hmemcmp (hid ▸ hiff.mpr hall e he)
  · intro hcond
    refine ⟨fun h e he => .inr (h e he), fun h e he => ?_⟩
    rcases h e he with hid | hid
    · obtain ⟨e', he', hne, hout⟩ := hcond ⟨e, he, hid⟩
      exact absurd (h e' he') (by simp [hne, hout])
    · exact hid

/-- **When the two tables give the same verdicts on a sequence.** -/
theorem verdicts_agree_iff :
    ((((SafetyValidator.new enforce).validateBatch (sequence.map (·.syscallId))).approved = true ↔
          ∀ e ∈ sequence, new.isOptimizationEligible e.syscallId = true) ∧
        (((SafetyValidator.new enforce).validateReorder sequence).approved = true ↔
          ∀ e ∈ sequence, new.getSafety e.syscallId = .readOnly) ∧
        DependencyChecker.checkSequence sequence =
          DependencyChecker.checkSequenceBy new.getSafety sequence) ↔
      ((∃ e ∈ sequence, e.syscallId = solMemcmp) →
        ∃ e ∈ sequence, e.syscallId ≠ solMemcmp ∧
          e.syscallId ∉ SyscallClassifier.readOnlyIds) := by
  have hbatch : ((SafetyValidator.new enforce).validateBatch
      (sequence.map (·.syscallId))).approved = true ↔
        ∀ e ∈ sequence, new.isOptimizationEligible e.syscallId = true := by
    rw [validateBatch_iff_eligible, List.forall_mem_map]
  rw [← validateReorder_iff_getSafety_iff enforce]
  constructor
  · rintro ⟨-, hreorder, -⟩
    exact hreorder
  · intro hreorder
    exact ⟨hbatch, hreorder, checkSequence_eq_by_getSafety sequence⟩

end Verdicts

/-- A single `sol_memcmp` is read-only for the registry and refused by the reorder gate. -/
theorem memcmp_verdicts_differ :
    ¬(((SafetyValidator.new true).validateReorder
          [⟨zeroPubkey, solMemcmp, 0, 0, 0, zeroTxId, 0⟩]).approved = true ↔
        ∀ e ∈ [(⟨zeroPubkey, solMemcmp, 0, 0, 0, zeroTxId, 0⟩ : SyscallTraceEvent)],
          new.getSafety e.syscallId = .readOnly) := by
  decide

end SyscallRegistry

end SyscallMind
