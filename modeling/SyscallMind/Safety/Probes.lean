/-
# Semantics that show stale results

The class definitions leave the semantics of syscalls open, so that a condition on a sequence
of calls is shown to be necessary by a semantics in which every violation is visible.  The
counting semantics does that: a read-only call returns how many calls that are not eligible
have been executed, behind a tag of its program.  The return data register is the smallest
part of the real runtime in which a read becomes stale.
-/
import SyscallMind.Lib.Memo
import SyscallMind.Safety.Semantics

namespace SyscallMind

open Lib

/-! ## Counting the calls that are not eligible -/

/-- The state counts the calls that are not eligible; a read-only call returns the tag of its
program followed by as many zeros as the count. -/
def countingExec (tag : Pubkey → List UInt8) (c : Call) (n : ℕ) : List UInt8 × ℕ :=
  if c.safetyClass = .readOnly then (tag c.programId ++ List.replicate n 0, n)
  else if c.safetyClass = .idempotent then ([], n)
  else ([], n + 1)

def countingSemantics (tag : Pubkey → List UInt8) : SyscallSemantics := ⟨ℕ, countingExec tag⟩

namespace countingSemantics

variable (tag : Pubkey → List UInt8)

lemma idempotentLaw : (countingSemantics tag).IdempotentLaw := by
  refine ⟨fun _ _ => [], ?_⟩
  intro c n hc
  have hne : c.safetyClass ≠ .readOnly := by simp [hc]
  exact (if_neg hne).trans (if_pos hc)

lemma programAdmissible : (countingSemantics tag).ProgramAdmissible where
  readOnly := by
    refine ⟨Pubkey × ℕ, fun p n => (p, n), fun _ _ v => tag v.1 ++ List.replicate v.2 0, ?_⟩
    intro c n hc
    exact if_pos hc
  idempotent := idempotentLaw tag

/-- With one tag for all programs the result is a function of the arguments and the state. -/
lemma admissible : (countingSemantics fun _ => []).Admissible where
  readOnly := by
    refine ⟨fun _ _ n => List.replicate n 0, ?_⟩
    intro c n hc
    exact if_pos hc
  idempotent := idempotentLaw _

lemma exec_snd (c : Call) (n : ℕ) :
    (countingExec tag c n).2 = if c.eligible then n else n + 1 := by
  cases he : c.eligible with
  | true => exact (programAdmissible tag).preserves he n
  | false =>
    have hne : c.safetyClass ≠ .readOnly ∧ c.safetyClass ≠ .idempotent := by
      rw [← not_or, ← Call.eligible_iff, he]
      simp
    simp [countingExec, hne.1, hne.2]

lemma stateAfter_eq (calls : List Call) (n : ℕ) :
    Effect.stateAfter (countingExec tag) n calls = n + calls.countP fun c => !c.eligible := by
  induction calls generalizing n with
  | nil => rfl
  | cons c cs ih =>
    rw [Effect.stateAfter_cons, exec_snd, ih]
    cases h : c.eligible
    · simp [h]
      omega
    · simp [h]

/-- Equal results mean equal tags and equal counts. -/
lemma result_inj (hlen : ∀ p q, (tag p).length = (tag q).length) {c c' : Call}
    (hc : c.safetyClass = .readOnly) (hc' : c'.safetyClass = .readOnly) {n n' : ℕ}
    (h : (countingExec tag c n).1 = (countingExec tag c' n').1) :
    tag c.programId = tag c'.programId ∧ n = n' := by
  simp only [countingExec, hc, hc', if_true] at h
  obtain ⟨hp, hr⟩ := List.append_inj h (hlen c.programId c'.programId)
  exact ⟨hp, by simpa using congrArg List.length hr⟩

/-- If a read-only call and its repetition have equal results, every call between them is
eligible. -/
lemma eligible_between (hlen : ∀ p q, (tag p).length = (tag q).length) {pre mid : List Call}
    {c c' : Call} (hc : c.safetyClass = .readOnly) (hc' : c'.safetyClass = .readOnly)
    (h : (countingExec tag c' (Effect.stateAfter (countingExec tag) 0 (pre ++ c :: mid))).1 =
      (countingExec tag c (Effect.stateAfter (countingExec tag) 0 pre)).1) :
    tag c.programId = tag c'.programId ∧ ∀ x ∈ mid, x.eligible = true := by
  obtain ⟨htag, hcount⟩ := result_inj tag hlen hc' hc h
  refine ⟨htag.symm, ?_⟩
  -- the count has not moved from the first call to the second
  rw [stateAfter_eq, stateAfter_eq, List.countP_append, List.countP_cons] at hcount
  have hzero : mid.countP (fun c => !c.eligible) = 0 := by omega
  simpa [List.countP_eq_zero] using hzero

/-- If repeating a call is safe under the counting semantics, a read-only call and its
repetition have equal tags, and every call between them is eligible. -/
lemma eligible_of_safeReuse (hlen : ∀ p q, (tag p).length = (tag q).length) {K : Type*}
    {key : Call → K} {calls : List Call}
    (h : Memo.SafeReuse Call.eligible key (countingExec tag) 0 calls) {pre mid post : List Call}
    {c c' : Call} (hcalls : calls = pre ++ c :: (mid ++ c' :: post))
    (hro : c.safetyClass = .readOnly) (hid : c.syscallId = c'.syscallId)
    (hkey : key c = key c') :
    tag c.programId = tag c'.programId ∧ ∀ x ∈ mid, x.eligible = true := by
  have hro' : c'.safetyClass = .readOnly := by rw [← Call.safetyClass_congr hid]; exact hro
  have hres := h pre c mid c' post hcalls (Call.eligible_iff.mpr (Or.inl hro))
    (Call.eligible_iff.mpr (Or.inl hro')) hkey
  exact eligible_between tag hlen hro hro' hres

end countingSemantics

/-! ## The return data register -/

/-- The part of a program's state that `sol_set_return_data` writes and
`sol_get_return_data` reads. -/
def returnDataExec (c : Call) (data : List UInt8) : List UInt8 × List UInt8 :=
  if c.syscallId = SyscallIds.solGetReturnData then (data, data)
  else if c.syscallId = SyscallIds.solSetReturnData then ([], c.args)
  else ([], data)

def returnDataSemantics : SyscallSemantics := ⟨List UInt8, returnDataExec⟩

lemma returnDataSemantics_admissible : returnDataSemantics.Admissible := by
  have hset : ∀ c : Call, c.eligible = true → c.syscallId ≠ SyscallIds.solSetReturnData := by
    intro c hc hid
    rw [Call.eligible, hid] at hc
    exact absurd hc (by decide)
  have hget : ∀ c : Call, c.safetyClass = .idempotent →
      c.syscallId ≠ SyscallIds.solGetReturnData := by
    intro c hc hid
    rw [Call.safetyClass, hid] at hc
    exact absurd hc (by decide)
  refine ⟨⟨fun id _ data => if id = SyscallIds.solGetReturnData then data else [], ?_⟩,
    ⟨fun _ _ => [], ?_⟩⟩
  · intro c data hc
    have hne := hset c (Call.eligible_iff.mpr (Or.inl hc))
    by_cases hid : c.syscallId = SyscallIds.solGetReturnData
    · simp [returnDataSemantics, returnDataExec, hid]
    · simp [returnDataSemantics, returnDataExec, hid, hne]
  · intro c data hc
    have hne := hset c (Call.eligible_iff.mpr (Or.inr hc))
    simp [returnDataSemantics, returnDataExec, hget c hc, hne]

/-- Read the return data, set it to the byte `7`, read it again. -/
def readWriteRead : List Call :=
  [⟨zeroPubkey, SyscallIds.solGetReturnData, []⟩, ⟨zeroPubkey, SyscallIds.solSetReturnData, [7]⟩,
    ⟨zeroPubkey, SyscallIds.solGetReturnData, []⟩]

lemma readWriteRead_hashInjective : HashInjective readWriteRead := by
  unfold HashInjective
  decide

/-- Read the clock twice. -/
def readTwice : List Call :=
  [⟨zeroPubkey, SyscallIds.solGetClockSysvar, []⟩, ⟨zeroPubkey, SyscallIds.solGetClockSysvar, []⟩]

lemma readTwice_split {pre mid post : List Call} {c c' : Call}
    (h : readTwice = pre ++ c :: (mid ++ c' :: post)) : c = c' ∧ mid = [] := by
  have hlen := congrArg List.length h
  simp only [readTwice, List.length_append, List.length_cons, List.length_nil] at hlen
  obtain rfl : pre = [] := List.eq_nil_of_length_eq_zero (by omega)
  obtain rfl : mid = [] := List.eq_nil_of_length_eq_zero (by omega)
  obtain ⟨rfl, rfl, -⟩ : _ = c ∧ _ = c' ∧ [] = post := by simpa [readTwice] using h
  exact ⟨rfl, rfl⟩

lemma readTwice_hashInjective : HashInjective readTwice := by
  unfold HashInjective
  decide

end SyscallMind
