/-
# The gates in front of the optimisations

`SafetyValidator` of `safety/src/validator.rs`.  Each gate returns a verdict with the text of
its reason.  The lemmas reduce every verdict to the classification of the ids it looks at.
-/
import SyscallMind.Safety.DependencyChecker

namespace SyscallMind

inductive OptimizationKind
  | cache
  | batch
  | prefetch
  | reorder
  | dedup
deriving DecidableEq, Repr

structure ValidationResult where
  approved : Bool
  reason : String
  kind : OptimizationKind
deriving DecidableEq, Repr

namespace ValidationResult

def approve (kind : OptimizationKind) (reason : String) : ValidationResult :=
  ⟨true, reason, kind⟩

def reject (kind : OptimizationKind) (reason : String) : ValidationResult :=
  ⟨false, reason, kind⟩

@[simp] lemma approved_approve (kind : OptimizationKind) (reason : String) :
    (approve kind reason).approved = true := rfl

@[simp] lemma approved_reject (kind : OptimizationKind) (reason : String) :
    (reject kind reason).approved = false := rfl

end ValidationResult

structure SafetyValidator where
  classifier : SyscallClassifier
  enforceDeterminism : Bool

namespace SafetyValidator

open ValidationResult

def new (enforceDeterminism : Bool) : SafetyValidator :=
  ⟨SyscallClassifier.new, enforceDeterminism⟩

variable (v : SafetyValidator)

def validateCache (syscallId : SyscallId) : ValidationResult :=
  if !v.enforceDeterminism then
    approve .cache "determinism not enforced"
  else if v.classifier.isOptimizationEligible syscallId then
    approve .cache ("syscall " ++ toString syscallId ++ " is " ++
      (v.classifier.classify syscallId).debug ++ " — cacheable")
  else
    reject .cache ("syscall " ++ toString syscallId ++ " is " ++
      (v.classifier.classify syscallId).debug ++ " — not cacheable")

/-- The loop rejects at the first id that is not eligible. -/
def validateBatch : List SyscallId → ValidationResult
  | [] => approve .batch "all syscalls are batch-eligible"
  | id :: ids =>
      if !v.classifier.isOptimizationEligible id then
        reject .batch ("syscall " ++ toString id ++ " is not eligible for batching")
      else validateBatch ids

/-- This gate uses the checker and its own classifier, not the validator's. -/
def validateReorder (_v : SafetyValidator) (sequence : List SyscallTraceEvent) :
    ValidationResult :=
  if DependencyChecker.hasDependencies sequence then
    reject .reorder "sequence has data dependencies — reordering unsafe"
  else if !DependencyChecker.isSafeToReorder sequence then
    reject .reorder "sequence contains non-ReadOnly syscalls — reordering not permitted"
  else
    approve .reorder "all syscalls are ReadOnly and dependency-free"

def validateDedup (syscallId : SyscallId) : ValidationResult :=
  match v.classifier.classify syscallId with
  | .readOnly | .idempotent => approve .dedup "idempotent — dedup safe"
  | other =>
      reject .dedup ("syscall " ++ toString syscallId ++ " is " ++ other.debug ++
        " — dedup would alter semantics")

/-! ## The verdicts -/

lemma validateCache_approved (id : SyscallId) :
    ((new true).validateCache id).approved =
      SyscallClassifier.new.isOptimizationEligible id := by
  have hc : (new true).classifier = SyscallClassifier.new := rfl
  have he : (new true).enforceDeterminism = true := rfl
  rw [validateCache, he, hc]
  cases SyscallClassifier.new.isOptimizationEligible id <;> simp

lemma validateBatch_approved_iff (ids : List SyscallId) :
    (v.validateBatch ids).approved = true ↔
      ∀ id ∈ ids, v.classifier.isOptimizationEligible id = true := by
  induction ids with
  | nil => simp [validateBatch]
  | cons id ids ih =>
    rw [validateBatch]
    cases h : v.classifier.isOptimizationEligible id <;> simp [h, ih]

lemma validateDedup_approved (id : SyscallId) :
    (v.validateDedup id).approved = v.classifier.isOptimizationEligible id := by
  unfold validateDedup SyscallClassifier.isOptimizationEligible
  cases v.classifier.classify id <;> rfl

/-- The dependency scan never changes the verdict: a sequence of read-only calls has no
dependency, and any other sequence is rejected by the second test. -/
lemma validateReorder_approved_iff (sequence : List SyscallTraceEvent) :
    (v.validateReorder sequence).approved = true ↔
      ∀ e ∈ sequence, SyscallClassifier.new.classify e.syscallId = .readOnly := by
  rw [← DependencyChecker.isSafeToReorder_iff, validateReorder]
  cases hs : DependencyChecker.isSafeToReorder sequence with
  | false => split <;> simp
  | true =>
    have hro := DependencyChecker.isSafeToReorder_iff.mp hs
    simp [DependencyChecker.hasDependencies_of_all_readOnly hro]

end SafetyValidator

end SyscallMind
