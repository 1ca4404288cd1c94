/-
# What a syscall may do

The class definitions of `docs/safety_proofs.md` as laws on an otherwise arbitrary semantics
of syscalls: a semantics is any function from a call and a state to a result and a state.

A read-only call leaves the state unchanged.  Its result depends on its arguments and on the
current state (`ReadOnlyLaw`) or, where each program has a state of its own, on the state of
the calling program (`ProgramReadOnlyLaw`).  An idempotent call is a function of its
arguments.  Nothing is asked of the other two classes.
-/
import SyscallMind.Lib.Effect
import SyscallMind.Safety.Validator

namespace SyscallMind

open Lib

/-- A syscall as a program issues it. -/
structure Call where
  programId : Pubkey
  syscallId : SyscallId
  args : List UInt8
deriving DecidableEq, Repr

namespace Call

/-- The hash under which the handler reports the arguments. -/
def argsHash (c : Call) : ArgsHash := fnvHash c.args

def safetyClass (c : Call) : SafetyClass := SyscallClassifier.new.classify c.syscallId

def eligible (c : Call) : Bool := SyscallClassifier.new.isOptimizationEligible c.syscallId

lemma eligible_iff {c : Call} :
    c.eligible = true ↔ c.safetyClass = .readOnly ∨ c.safetyClass = .idempotent :=
  SyscallClassifier.new.isOptimizationEligible_iff

lemma safetyClass_congr {c c' : Call} (h : c.syscallId = c'.syscallId) :
    c.safetyClass = c'.safetyClass := by
  rw [safetyClass, safetyClass, h]

end Call

/-- The argument hash is injective on the arguments of the calls. -/
def HashInjective (calls : List Call) : Prop :=
  ∀ c ∈ calls, ∀ c' ∈ calls, c.argsHash = c'.argsHash → c.args = c'.args

structure SyscallSemantics where
  State : Type
  exec : Call → State → List UInt8 × State

namespace SyscallSemantics

variable (sem : SyscallSemantics)

def ReadOnlyLaw : Prop :=
  ∃ read : SyscallId → List UInt8 → sem.State → List UInt8, ∀ c s,
    c.safetyClass = .readOnly → sem.exec c s = (read c.syscallId c.args s, s)

def ProgramReadOnlyLaw : Prop :=
  ∃ (View : Type) (view : Pubkey → sem.State → View)
    (read : SyscallId → List UInt8 → View → List UInt8), ∀ c s,
    c.safetyClass = .readOnly →
      sem.exec c s = (read c.syscallId c.args (view c.programId s), s)

def IdempotentLaw : Prop :=
  ∃ f : SyscallId → List UInt8 → List UInt8, ∀ c s,
    c.safetyClass = .idempotent → sem.exec c s = (f c.syscallId c.args, s)

/-- The class definitions with one state for all programs. -/
structure Admissible : Prop where
  readOnly : sem.ReadOnlyLaw
  idempotent : sem.IdempotentLaw

/-- The class definitions with a state for each program. -/
structure ProgramAdmissible : Prop where
  readOnly : sem.ProgramReadOnlyLaw
  idempotent : sem.IdempotentLaw

variable {sem}

lemma Admissible.toProgram (h : sem.Admissible) : sem.ProgramAdmissible := by
  obtain ⟨read, hread⟩ := h.readOnly
  exact ⟨⟨sem.State, fun _ s => s, read, hread⟩, h.idempotent⟩

lemma ReadOnlyLaw.preserves (h : sem.ReadOnlyLaw) {c : Call} (hc : c.safetyClass = .readOnly) :
    Effect.Preserves sem.exec c := by
  obtain ⟨read, hread⟩ := h
  intro s
  rw [hread c s hc]

/-- No eligible call changes the state. -/
lemma ProgramAdmissible.preserves (h : sem.ProgramAdmissible) {c : Call}
    (hc : c.eligible = true) : Effect.Preserves sem.exec c := by
  intro s
  rcases Call.eligible_iff.mp hc with hro | hid
  · obtain ⟨View, view, read, hread⟩ := h.readOnly
    rw [hread c s hro]
  · obtain ⟨f, hf⟩ := h.idempotent
    rw [hf c s hid]

/-- Idempotent calls with equal ids and arguments have equal results in any two states. -/
lemma ProgramAdmissible.idempotent_result (h : sem.ProgramAdmissible) {c c' : Call}
    (hc : c.safetyClass = .idempotent) (hid : c.syscallId = c'.syscallId)
    (hargs : c.args = c'.args) (s s' : sem.State) :
    (sem.exec c s).1 = (sem.exec c' s').1 := by
  obtain ⟨f, hf⟩ := h.idempotent
  have hc' : c'.safetyClass = .idempotent := by rw [← Call.safetyClass_congr hid]; exact hc
  rw [hf c s hc, hf c' s' hc', hid, hargs]

/-- Read-only calls of one program with equal ids and arguments have equal results in one
state. -/
lemma ProgramAdmissible.readOnly_result (h : sem.ProgramAdmissible) {c c' : Call}
    (hc : c.safetyClass = .readOnly) (hid : c.syscallId = c'.syscallId)
    (hargs : c.args = c'.args) (hp : c.programId = c'.programId) (s : sem.State) :
    (sem.exec c s).1 = (sem.exec c' s).1 := by
  obtain ⟨View, view, read, hread⟩ := h.readOnly
  have hc' : c'.safetyClass = .readOnly := by rw [← Call.safetyClass_congr hid]; exact hc
  rw [hread c s hc, hread c' s hc', hid, hargs, hp]

/-- With one state for all programs the calling program does not matter. -/
lemma Admissible.readOnly_result (h : sem.Admissible) {c c' : Call}
    (hc : c.safetyClass = .readOnly) (hid : c.syscallId = c'.syscallId)
    (hargs : c.args = c'.args) (s : sem.State) :
    (sem.exec c s).1 = (sem.exec c' s).1 := by
  obtain ⟨read, hread⟩ := h.readOnly
  have hc' : c'.safetyClass = .readOnly := by rw [← Call.safetyClass_congr hid]; exact hc
  rw [hread c s hc, hread c' s hc', hid, hargs]

/-- A run of eligible calls does not change the state. -/
lemma ProgramAdmissible.stateAfter_eligible (h : sem.ProgramAdmissible) {cs : List Call}
    (hcs : ∀ c ∈ cs, c.eligible = true) (s : sem.State) :
    Effect.stateAfter sem.exec s cs = s :=
  Effect.stateAfter_of_preserves (fun c hc => h.preserves (hcs c hc)) s

/-- Repeating an eligible call gives its earlier result, if a read-only call would give the
same in one state and is not repeated across a call that is not eligible. -/
lemma ProgramAdmissible.repeat_result (h : sem.ProgramAdmissible) {pre mid : List Call}
    {c c' : Call} (hc : c.eligible = true) (hid : c.syscallId = c'.syscallId)
    (hargs : c.args = c'.args)
    (hread : c.safetyClass = .readOnly →
      (∀ s, (sem.exec c s).1 = (sem.exec c' s).1) ∧ ∀ x ∈ mid, x.eligible = true)
    (s : sem.State) :
    (sem.exec c' (Effect.stateAfter sem.exec s (pre ++ c :: mid))).1 =
      (sem.exec c (Effect.stateAfter sem.exec s pre)).1 := by
  rcases Call.eligible_iff.mp hc with hro | hidem
  · obtain ⟨hres, hmid⟩ := hread hro
    have hseg : ∀ x ∈ c :: mid, x.eligible = true := by
      intro x hx
      rcases List.mem_cons.mp hx with rfl | hx
      · exact hc
      · exact hmid x hx
    rw [Effect.stateAfter_append, h.stateAfter_eligible hseg]
    exact (hres _).symm
  · exact (h.idempotent_result hidem hid hargs _ _).symm

end SyscallSemantics

end SyscallMind
