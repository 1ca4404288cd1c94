/-
# The reorder gate is exact and sound

`validate_reorder` combines a quadratic dependency scan with a test of all classes, and
`can_reorder` tests one pair of ids.  All three come down to one criterion: every call of the
sequence is read-only.  A sequence that meets it can be executed in any order.
-/
import SyscallMind.Safety.Semantics

namespace SyscallMind

namespace SafetyValidator

open Lib

/-- The call at one position of a traced sequence, with the arguments it was issued with. -/
def callAt (sequence : List SyscallTraceEvent) (args : Fin sequence.length → List UInt8)
    (i : Fin sequence.length) : Call :=
  ⟨sequence[i].programId, sequence[i].syscallId, args i⟩

/-- For two or more calls, all are read-only exactly when all pairs can be reordered. -/
lemma all_readOnly_iff_canReorder {sequence : List SyscallTraceEvent}
    (hlen : 2 ≤ sequence.length) :
    (∀ e ∈ sequence, SyscallClassifier.new.classify e.syscallId = .readOnly) ↔
      ∀ i j : Fin sequence.length, i ≠ j →
        SyscallClassifier.canReorder sequence[i].syscallId sequence[j].syscallId = true := by
  constructor
  · intro h i j _
    rw [SyscallClassifier.canReorder_iff]
    exact ⟨h _ (List.getElem_mem i.isLt), h _ (List.getElem_mem j.isLt)⟩
  · intro h e he
    obtain ⟨i, hi, rfl⟩ := List.mem_iff_getElem.mp he
    -- some other position pairs up with `i`
    obtain ⟨j, hj, hij⟩ : ∃ j, j < sequence.length ∧ i ≠ j := by
      rcases Nat.eq_zero_or_pos i with rfl | hpos
      · exact ⟨1, by omega, by omega⟩
      · exact ⟨0, by omega, by omega⟩
    have hpair := h ⟨i, hi⟩ ⟨j, hj⟩ (by simpa using hij)
    exact (SyscallClassifier.canReorder_iff.mp hpair).1

/-- An approved sequence can be executed in any order. -/
lemma reorder_sound {sequence : List SyscallTraceEvent}
    (hro : ∀ e ∈ sequence, SyscallClassifier.new.classify e.syscallId = .readOnly)
    {sem : SyscallSemantics} (hsem : sem.ReadOnlyLaw)
    (args : Fin sequence.length → List UInt8) (π : Equiv.Perm (Fin sequence.length))
    (s : sem.State) :
    Effect.stateAfter sem.exec s (List.ofFn fun i => callAt sequence args (π i)) =
        Effect.stateAfter sem.exec s (List.ofFn (callAt sequence args)) ∧
      ∀ i : Fin sequence.length,
        (Effect.results sem.exec s (List.ofFn fun i => callAt sequence args (π i)))[(i : ℕ)]? =
          (Effect.results sem.exec s (List.ofFn (callAt sequence args)))[(π i : ℕ)]? := by
  have hpres : ∀ i, Effect.Preserves sem.exec (callAt sequence args i) := by
    intro i
    exact hsem.preserves (hro _ (List.getElem_mem i.isLt))
  exact Effect.permute_of_preserves hpres π s

/-- **The reorder gate is exact and sound.**  It approves a sequence exactly when every event
is read-only, for two or more events exactly when every pair of positions can be reordered;
and then every permutation of the calls, from every state and under every semantics that
obeys the read-only law, gives the same final state and gives each call the same result. -/
theorem validateReorder_exact_and_sound (enforce : Bool) (sequence : List SyscallTraceEvent) :
    (((new enforce).validateReorder sequence).approved = true ↔
        ∀ e ∈ sequence, SyscallClassifier.new.classify e.syscallId = .readOnly) ∧
      (2 ≤ sequence.length →
        (((new enforce).validateReorder sequence).approved = true ↔
          ∀ i j : Fin sequence.length, i ≠ j →
            SyscallClassifier.canReorder sequence[i].syscallId sequence[j].syscallId = true)) ∧
      (((new enforce).validateReorder sequence).approved = true →
        ∀ sem : SyscallSemantics, sem.ReadOnlyLaw →
          ∀ (args : Fin sequence.length → List UInt8) (π : Equiv.Perm (Fin sequence.length))
            (s : sem.State),
            Effect.stateAfter sem.exec s (List.ofFn fun i => callAt sequence args (π i)) =
                Effect.stateAfter sem.exec s (List.ofFn (callAt sequence args)) ∧
              ∀ i : Fin sequence.length,
                (Effect.results sem.exec s
                    (List.ofFn fun i => callAt sequence args (π i)))[(i : ℕ)]? =
                  (Effect.results sem.exec s
                    (List.ofFn (callAt sequence args)))[(π i : ℕ)]?) := by
  have hexact := (new enforce).validateReorder_approved_iff sequence
  refine ⟨hexact, ?_, ?_⟩
  · intro hlen
    rw [hexact]
    exact all_readOnly_iff_canReorder hlen
  · intro happ sem hsem args π s
    exact reorder_sound (hexact.mp happ) hsem args π s

end SafetyValidator

end SyscallMind
