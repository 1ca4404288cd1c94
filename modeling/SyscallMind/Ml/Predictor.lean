/-
# The reorder hint of the predictor

`reorder_safe` of `ml/inference/src/predictor.rs`.  The transformer predictor calls a sequence
safe when all ids are below 30, the range of the sysvar reads and the cryptographic calls;
the predictor with hot reload asks the one that it holds.

The reorder gate admits the read-only ids.  Below 30 these are the sysvar reads 1 to 6, so a
sequence that the predictor calls safe passes the gate exactly when it consists of these
(`approved_iff_of_reorderSafe`); the cryptographic calls are idempotent, and a hint for them
is refused.
-/
import SyscallMind.Safety.Validator

namespace SyscallMind

open SyscallIds

/-- The Markov table of `predict_next` is the same in every predictor. -/
structure TransformerPredictor where
  modelPath : String
deriving DecidableEq, Repr

namespace TransformerPredictor

def new (modelPath : String) : TransformerPredictor := ⟨modelPath⟩

/-- Heuristic: safe to reorder if all syscalls are in the sysvar and crypto range. -/
def reorderSafe (_p : TransformerPredictor) (sequence : List SyscallId) : Bool :=
  sequence.all fun id => decide (id ≤ 29)

lemma reorderSafe_iff (p : TransformerPredictor) {sequence : List SyscallId} :
    p.reorderSafe sequence = true ↔ ∀ id ∈ sequence, id ≤ 29 := by
  simp [reorderSafe]

end TransformerPredictor

/-- Times are in seconds; `inner` is always a transformer predictor. -/
structure HotReloadablePredictor where
  inner : TransformerPredictor
  modelPath : String
  lastReload : ℕ
  reloadInterval : ℕ
deriving DecidableEq, Repr

namespace HotReloadablePredictor

def new (modelPath : String) (reloadIntervalSecs : ℕ) (now : ℕ) : HotReloadablePredictor :=
  ⟨TransformerPredictor.new modelPath, modelPath, now, reloadIntervalSecs⟩

/-- Reload the model if the interval has elapsed. -/
def maybeReload (p : HotReloadablePredictor) (now : ℕ) : HotReloadablePredictor :=
  if p.reloadInterval ≤ now - p.lastReload then
    { p with inner := TransformerPredictor.new p.modelPath, lastReload := now }
  else p

def reorderSafe (p : HotReloadablePredictor) (sequence : List SyscallId) : Bool :=
  p.inner.reorderSafe sequence

/-- Neither the wrapper nor a reload changes the hint. -/
lemma reorderSafe_eq (p : HotReloadablePredictor) (t : TransformerPredictor) :
    p.reorderSafe = t.reorderSafe := rfl

end HotReloadablePredictor

/-! ## The hint and the gate -/

/-- The read-only ids below 30 are the sysvar reads. -/
lemma classify_eq_readOnly_iff_of_le {id : SyscallId} (h : id ≤ 29) :
    SyscallClassifier.new.classify id = .readOnly ↔ 1 ≤ id ∧ id ≤ 6 := by
  have hall : ∀ n : Fin 30, UInt32.ofNat n ∈ SyscallClassifier.readOnlyIds ↔
      1 ≤ UInt32.ofNat n ∧ UInt32.ofNat n ≤ 6 := by
    decide
  have hlt : id.toNat < 30 := by
    have := UInt32.le_iff_toNat_le.mp h
    simp at this
    omega
  have hid : UInt32.ofNat (⟨id.toNat, hlt⟩ : Fin 30) = id := by simp
  have := hall ⟨id.toNat, hlt⟩
  rw [hid] at this
  rw [SyscallClassifier.classify_eq_readOnly_iff, this]

/-- **What the gate says to a sequence that a predictor calls safe.** -/
theorem approved_iff_of_reorderSafe (enforce : Bool) (t : TransformerPredictor)
    (p : HotReloadablePredictor) (sequence : List SyscallTraceEvent)
    (hsafe : t.reorderSafe (sequence.map (·.syscallId)) = true ∨
      p.reorderSafe (sequence.map (·.syscallId)) = true) :
    ((SafetyValidator.new enforce).validateReorder sequence).approved = true ↔
      ∀ e ∈ sequence, 1 ≤ e.syscallId ∧ e.syscallId ≤ 6 := by
  rw [p.reorderSafe_eq t, or_self, TransformerPredictor.reorderSafe_iff,
    List.forall_mem_map] at hsafe
  rw [SafetyValidator.validateReorder_approved_iff]
  constructor
  · intro h e he
    exact (classify_eq_readOnly_iff_of_le (hsafe e he)).mp (h e he)
  · intro h e he
    exact (classify_eq_readOnly_iff_of_le (hsafe e he)).mpr (h e he)

/-- A clock read and a rent read pass both. -/
theorem approved_of_reorderSafe_sysvars :
    ((SafetyValidator.new true).validateReorder
      [⟨zeroPubkey, solGetClockSysvar, 0, 0, 0, zeroTxId, 0⟩,
        ⟨zeroPubkey, solGetRentSysvar, 0, 0, 0, zeroTxId, 0⟩]).approved = true := by
  refine (approved_iff_of_reorderSafe true (.new "model.onnx") (.new "model.onnx" 60 0) _
    (.inl ?_)).mpr ?_ <;> decide

/-- A hash is safe to reorder for the predictor and refused by the gate. -/
theorem sha256_reorderSafe_and_rejected :
    (TransformerPredictor.new "model.onnx").reorderSafe [solSha256] = true ∧
      ((HotReloadablePredictor.new "model.onnx" 60 0).maybeReload 90).reorderSafe [solSha256] =
        true ∧
      ((SafetyValidator.new true).validateReorder
        [⟨zeroPubkey, solSha256, 0, 0, 0, zeroTxId, 0⟩]).approved = false := by
  decide

end SyscallMind
