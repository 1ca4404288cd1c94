/-
# The static classification of syscalls

The table of `safety/src/classifier.rs` and the three questions asked of it: the class of an
id, whether an id may be optimised at all, and whether two ids may be reordered.  An id that
is not in the table counts as state changing.
-/
import Mathlib.Data.Bool.AllAny
import SyscallMind.Lib.HashMap
import SyscallMind.Common

namespace SyscallMind

open Lib SyscallIds

structure SyscallClassifier where
  classifications : HashMap SyscallId SafetyClass

namespace SyscallClassifier

def new : SyscallClassifier :=
  let m : HashMap SyscallId SafetyClass := ∅
  -- Sysvar reads
  let m := HashMap.insertAll m
    [solGetClockSysvar, solGetRentSysvar, solGetEpochScheduleSysvar, solGetFeesSysvar,
      solGetSlotHashesSysvar, solGetStakeHistorySysvar, solGetReturnData] .readOnly
  -- Logging
  let m := HashMap.insertAll m
    [solLog, solLog64, solLogPubkey, solLogComputeUnits] .idempotent
  -- Cryptographic operations
  let m := HashMap.insertAll m
    [solSha256, solKeccak256, solSecp256k1Recover, solEd25519Verify] .idempotent
  -- Memory operations
  let m := HashMap.insertAll m
    [solAllocFree, solMemcpy, solMemmove, solMemset, solMemcmp] .idempotent
  -- State-mutating calls and control flow
  let m := m.insert solSetReturnData .stateChanging
  let m := m.insert solPanic .stateChanging
  let m := m.insert solAbort .stateChanging
  -- Cross-program invocations
  let m := m.insert solInvokeSigned .orderSensitive
  ⟨m⟩

variable (c : SyscallClassifier)

def classify (id : SyscallId) : SafetyClass :=
  (c.classifications.lookup id).getD .stateChanging

def isOptimizationEligible (id : SyscallId) : Bool :=
  match c.classify id with
  | .readOnly | .idempotent => true
  | .stateChanging | .orderSensitive => false

/-- Two syscalls can be reordered only if both are read-only. -/
def canReorder (a b : SyscallId) : Bool :=
  let c := new
  decide (c.classify a = .readOnly) && decide (c.classify b = .readOnly)

lemma isOptimizationEligible_iff {id : SyscallId} :
    c.isOptimizationEligible id = true ↔
      c.classify id = .readOnly ∨ c.classify id = .idempotent := by
  unfold isOptimizationEligible
  cases c.classify id <;> simp

/-- An id that has no entry. -/
lemma classify_of_not_mem {id : SyscallId} (h : id ∉ new.classifications.keys) :
    new.classify id = .stateChanging := by
  have hl : new.classifications.lookup id = none :=
    AList.lookup_eq_none.mpr fun hmem => h (AList.mem_keys.mp hmem)
  rw [classify, hl]
  rfl

/-- The sysvar reads and `sol_get_return_data`. -/
def readOnlyIds : List SyscallId :=
  [solGetClockSysvar, solGetRentSysvar, solGetEpochScheduleSysvar, solGetFeesSysvar,
    solGetSlotHashesSysvar, solGetStakeHistorySysvar, solGetReturnData]

lemma classify_eq_readOnly_iff {id : SyscallId} :
    new.classify id = .readOnly ↔ id ∈ readOnlyIds := by
  by_cases hmem : id ∈ new.classifications.keys
  · have hall : ∀ k ∈ new.classifications.keys, new.classify k = .readOnly ↔ k ∈ readOnlyIds :=
      List.all_iff_forall_prop.mp (by decide)
    exact hall id hmem
  · have hsub : ∀ k ∈ readOnlyIds, k ∈ new.classifications.keys :=
      List.all_iff_forall_prop.mp (by decide)
    rw [classify_of_not_mem hmem]
    exact ⟨fun h => absurd h (by simp), fun h => absurd (hsub id h) hmem⟩

lemma canReorder_iff {a b : SyscallId} :
    canReorder a b = true ↔ new.classify a = .readOnly ∧ new.classify b = .readOnly := by
  simp [canReorder]

end SyscallClassifier

end SyscallMind
