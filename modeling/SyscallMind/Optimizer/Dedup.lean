/-
# Deduplication inside a transaction

`DedupTable` of `optimizer/src/dedup.rs` and the gate in front of it: a call whose id
`validate_dedup` approves is answered from the table if the same transaction made it before.

A hit is the result of the first such call, whatever has happened since.  So the gate is
transparent for a sequence of calls, under every semantics that obeys the class definitions,
exactly when no read-only call of the sequence is repeated by another program or across a
call that may change the state (`dedup_transparent_iff`).
-/
import SyscallMind.Lib.HashMap
import SyscallMind.Lib.Memo
import SyscallMind.Safety.Probes

namespace SyscallMind

open Lib

structure DedupTable where
  table : HashMap (TransactionId × SyscallId × ArgsHash) (List UInt8)
  dedupCount : ℕ

namespace DedupTable

def new : DedupTable := ⟨∅, 0⟩

variable (t : DedupTable)

def check (txId : TransactionId) (syscallId : SyscallId) (argsHash : ArgsHash) :
    Option (List UInt8) :=
  t.table.lookup (txId, syscallId, argsHash)

def record (txId : TransactionId) (syscallId : SyscallId) (argsHash : ArgsHash)
    (result : List UInt8) : DedupTable :=
  { t with table := t.table.insert (txId, syscallId, argsHash) result }

/-- Check, and count the hit if there is one. -/
def checkAndCount (txId : TransactionId) (syscallId : SyscallId) (argsHash : ArgsHash) :
    Option (List UInt8) × DedupTable :=
  match t.table.lookup (txId, syscallId, argsHash) with
  | some cached => (some cached, { t with dedupCount := t.dedupCount + 1 })
  | none => (none, t)

/-- Remove all entries of a completed transaction. -/
def clearTransaction (txId : TransactionId) : DedupTable :=
  { t with table := HashMap.retain t.table fun k _ => decide (k.1 ≠ txId) }

def len : ℕ := t.table.entries.length

variable (txId txId' : TransactionId) (id id' : SyscallId) (h h' : ArgsHash)

@[simp] lemma check_new : new.check txId id h = none := AList.lookup_empty _

lemma check_record (result : List UInt8) :
    (t.record txId id h result).check txId' id' h' =
      if (txId', id', h') = (txId, id, h) then some result else t.check txId' id' h' :=
  HashMap.lookup_insert_eq t.table _ _ result

@[simp] lemma checkAndCount_fst : (t.checkAndCount txId id h).1 = t.check txId id h := by
  rw [checkAndCount, check]
  cases t.table.lookup (txId, id, h) <;> rfl

@[simp] lemma check_checkAndCount :
    (t.checkAndCount txId id h).2.check txId' id' h' = t.check txId' id' h' := by
  rw [checkAndCount]
  cases t.table.lookup (txId, id, h) <;> rfl

lemma check_clearTransaction :
    (t.clearTransaction txId).check txId' id' h' =
      if txId' = txId then none else t.check txId' id' h' := by
  rw [check, clearTransaction, HashMap.lookup_retain]
  by_cases htx : txId' = txId
  · cases t.table.lookup (txId', id', h') <;> simp [htx]
  · cases hl : t.table.lookup (txId', id', h') <;> simp [htx, check, hl]

/-- The entries of one transaction, as a store of results.  It never loses one. -/
def store (txId : TransactionId) : Memo.Store (SyscallId × ArgsHash) (List UInt8) where
  T := DedupTable
  lookup t k := t.checkAndCount txId k.1 k.2
  record t k r := t.record txId k.1 k.2 r
  contents t k := t.check txId k.1 k.2
  lookup_sound := by
    intro t k r hr
    rwa [checkAndCount_fst] at hr
  contents_of_lookup := by
    intro t k k' r hr
    rwa [check_checkAndCount] at hr
  contents_of_record := by
    intro t k k' r r' hr
    rw [check_record] at hr
    split at hr
    · next heq =>
      have hk : k' = k := (Prod.ext_iff.mp heq).2
      exact Or.inl ⟨hk, (Option.some.inj hr).symm⟩
    · exact Or.inr hr

lemma store_retains (txId : TransactionId) : Memo.Retains (store txId) fun _ _ => True where
  mono _ := trivial
  lookup_complete := by
    intro t n k r _ hr
    rw [← hr]
    exact t.checkAndCount_fst txId k.1 k.2
  fits_lookup _ _ := trivial
  fits_record _ _ _ := trivial
  contents_lookup := by
    intro t n k' r k _ hr
    rw [← hr]
    exact t.check_checkAndCount txId txId k.1 k'.1 k.2 k'.2
  contents_record_self := by
    intro t k r
    exact (t.check_record txId txId k.1 k.1 k.2 k.2 r).trans (if_pos rfl)
  contents_record_ne := by
    intro t n k k' r r' _ hne hr
    rw [← hr]
    refine (t.check_record txId txId k.1 k'.1 k.2 k'.2 r').trans (if_neg ?_)
    intro heq
    exact hne (Prod.ext_iff.mp heq).2

end DedupTable

/-! ## The gate -/

/-- The key under which a call is stored. -/
def Call.key (c : Call) : SyscallId × ArgsHash := (c.syscallId, c.argsHash)

/-- One call of the transaction through the gate. -/
def dedupCall (v : SafetyValidator) (txId : TransactionId) (sem : SyscallSemantics)
    (ts : DedupTable × sem.State) (c : Call) :
    Memo.Outcome (List UInt8) × DedupTable × sem.State :=
  if (v.validateDedup c.syscallId).approved then
    match ts.1.checkAndCount txId c.syscallId c.argsHash with
    | (some cached, t) => (.hit cached, t, ts.2)
    | (none, t) =>
        let (result, s) := sem.exec c ts.2
        (.executed result, t.record txId c.syscallId c.argsHash result, s)
  else
    let (result, s) := sem.exec c ts.2
    (.executed result, ts.1, s)

/-- The calls of the transaction through the gate: what they return, and the table and the
state at the end. -/
def dedupRun (v : SafetyValidator) (txId : TransactionId) (sem : SyscallSemantics) :
    DedupTable × sem.State → List Call → List (List UInt8) × DedupTable × sem.State
  | ts, [] => ([], ts)
  | ts, c :: cs =>
      let (outcome, ts') := dedupCall v txId sem ts c
      let (results, ts'') := dedupRun v txId sem ts' cs
      (outcome.result :: results, ts'')

/-- No read-only call is repeated by another program or across a call that is not eligible. -/
def NoStaleRepeat (calls : List Call) : Prop :=
  ∀ pre c mid c' post, calls = pre ++ c :: (mid ++ c' :: post) →
    c.safetyClass = .readOnly → c.syscallId = c'.syscallId → c.argsHash = c'.argsHash →
      c.programId = c'.programId ∧ ∀ x ∈ mid, x.eligible = true

section Gate

variable (enforce : Bool) (txId : TransactionId) (sem : SyscallSemantics)

/-- The gate is memoisation of the eligible calls in the entries of the transaction. -/
lemma dedupCall_eq_step (ts : DedupTable × sem.State) (c : Call) :
    dedupCall (SafetyValidator.new enforce) txId sem ts c =
      Memo.step (DedupTable.store txId) Call.eligible Call.key sem.exec ts c := by
  have happ : ((SafetyValidator.new enforce).validateDedup c.syscallId).approved = c.eligible :=
    (SafetyValidator.new enforce).validateDedup_approved c.syscallId
  rw [dedupCall, happ]
  cases he : c.eligible with
  | false => exact (Memo.step_of_not_memo (DedupTable.store txId) _ Call.key _ he).symm
  | true =>
    rcases hl : ts.1.checkAndCount txId c.syscallId c.argsHash with ⟨_ | r, t⟩
    · have hl' : (DedupTable.store txId).lookup ts.1 c.key = (none, t) := hl
      exact (Memo.step_of_miss (DedupTable.store txId) _ Call.key _ he hl').symm
    · have hl' : (DedupTable.store txId).lookup ts.1 c.key = (some r, t) := hl
      exact (Memo.step_of_hit (DedupTable.store txId) _ Call.key _ he hl').symm

lemma dedupRun_eq (ts : DedupTable × sem.State) (calls : List Call) :
    dedupRun (SafetyValidator.new enforce) txId sem ts calls =
      ((Memo.outcomes (DedupTable.store txId) Call.eligible Call.key sem.exec ts calls).map
          Memo.Outcome.result,
        Memo.after (DedupTable.store txId) Call.eligible Call.key sem.exec ts calls) := by
  induction calls generalizing ts with
  | nil => rfl
  | cons c cs ih =>
    simp only [dedupRun, ih, dedupCall_eq_step]
    rfl

variable {sem}

/-- For an admissible semantics the final state is always that of the direct run, and the
results agree exactly when every hit is fresh. -/
lemma dedupRun_transparent_iff (hsem : sem.ProgramAdmissible) (t : DedupTable)
    (s : sem.State) (calls : List Call) :
    ((dedupRun (SafetyValidator.new enforce) txId sem (t, s) calls).1 =
          Effect.results sem.exec s calls ∧
        (dedupRun (SafetyValidator.new enforce) txId sem (t, s) calls).2.2 =
          Effect.stateAfter sem.exec s calls) ↔
      Memo.HitsFresh (DedupTable.store txId) Call.eligible Call.key sem.exec (t, s) calls := by
  have hpres : ∀ c, Call.eligible c = true → Effect.Preserves sem.exec c :=
    fun c hc => hsem.preserves hc
  have hres := Memo.results_eq_iff_hitsFresh (DedupTable.store txId) Call.key hpres (t, s) calls
  have hstate := Memo.after_state (DedupTable.store txId) Call.key hpres (t, s) calls
  rw [dedupRun_eq, ← hres]
  exact ⟨fun h => h.1, fun h => ⟨h, hstate⟩⟩

/-- If no read-only call is stale when it is repeated, repeating a call gives its result. -/
lemma safeReuse_of_noStaleRepeat (hsem : sem.ProgramAdmissible) {calls : List Call}
    (hinj : HashInjective calls) (h : NoStaleRepeat calls) (s : sem.State) :
    Memo.SafeReuse Call.eligible Call.key sem.exec s calls := by
  intro pre c mid c' post hcalls hc hc' hkey
  obtain ⟨hid, hhash⟩ : c.syscallId = c'.syscallId ∧ c.argsHash = c'.argsHash :=
    Prod.ext_iff.mp hkey
  have hargs : c.args = c'.args :=
    hinj c (by rw [hcalls]; simp) c' (by rw [hcalls]; simp) hhash
  refine hsem.repeat_result hc hid hargs ?_ s
  intro hro
  obtain ⟨hprog, hmid⟩ := h pre c mid c' post hcalls hro hid hhash
  exact ⟨hsem.readOnly_result hro hid hargs hprog, hmid⟩

end Gate

/-- If repeating a call is safe under the counting semantics, no read-only call is stale
when it is repeated. -/
lemma noStaleRepeat_of_counting {calls : List Call}
    (h : Memo.SafeReuse Call.eligible Call.key (countingExec Vector.toList) 0 calls) :
    NoStaleRepeat calls := by
  intro pre c mid c' post hcalls hro hid hhash
  have hkey : Call.key c = Call.key c' := Prod.ext hid hhash
  obtain ⟨htag, hmid⟩ :=
    countingSemantics.eligible_of_safeReuse Vector.toList (by simp) h hcalls hro hid hkey
  exact ⟨Vector.toList_inj.mp htag, hmid⟩

/-- **Deduplication is transparent exactly when no read-only call is stale when it is
repeated.**  The table may hold entries of other transactions; the semantics are all those in
which a read-only result is a function of the arguments and the state of the program. -/
theorem dedup_transparent_iff (enforce : Bool) (txId : TransactionId) (t : DedupTable)
    (hempty : ∀ id h, t.check txId id h = none) (calls : List Call)
    (hinj : HashInjective calls) :
    (∀ sem : SyscallSemantics, sem.ProgramAdmissible → ∀ s : sem.State,
      (dedupRun (SafetyValidator.new enforce) txId sem (t, s) calls).1 =
          Effect.results sem.exec s calls ∧
        (dedupRun (SafetyValidator.new enforce) txId sem (t, s) calls).2.2 =
          Effect.stateAfter sem.exec s calls) ↔
      NoStaleRepeat calls := by
  constructor
  · intro h
    -- the counting semantics alone is enough to find a stale repetition
    have hadm := countingSemantics.programAdmissible Vector.toList
    have hfresh := (dedupRun_transparent_iff enforce txId hadm t (0 : ℕ) calls).mp
      (h (countingSemantics Vector.toList) hadm (0 : ℕ))
    exact noStaleRepeat_of_counting (Memo.safeReuse_of_hitsFresh (DedupTable.store txId)
      Call.eligible Call.key (countingExec Vector.toList) (DedupTable.store_retains txId)
      (fun c hc => hadm.preserves hc) trivial hfresh)
  · intro h sem hsem s
    have hempty' : ∀ k, (DedupTable.store txId).contents t k = none :=
      fun k => hempty k.1 k.2
    rw [dedupRun_transparent_iff enforce txId hsem t s calls]
    exact Memo.hitsFresh_of_safeReuse (DedupTable.store txId) Call.key
      (fun c hc => hsem.preserves hc) hempty' (safeReuse_of_noStaleRepeat hsem hinj h s)

/-- A transaction that reads the clock twice is deduplicated transparently. -/
theorem dedup_transparent_iff_readTwice :
    (dedupRun (SafetyValidator.new true) zeroTxId returnDataSemantics
          (DedupTable.new, ([] : List UInt8)) readTwice).1 =
        Effect.results returnDataSemantics.exec ([] : List UInt8) readTwice ∧
      (dedupRun (SafetyValidator.new true) zeroTxId returnDataSemantics
          (DedupTable.new, ([] : List UInt8)) readTwice).2.2 =
        Effect.stateAfter returnDataSemantics.exec ([] : List UInt8) readTwice := by
  have hsafe : NoStaleRepeat readTwice := by
    intro pre c mid c' post hcalls _ _ _
    obtain ⟨rfl, rfl⟩ := readTwice_split hcalls
    exact ⟨rfl, by simp⟩
  exact (dedup_transparent_iff true zeroTxId DedupTable.new
    (fun id h => DedupTable.check_new zeroTxId id h) readTwice readTwice_hashInjective).mpr hsafe
    returnDataSemantics returnDataSemantics_admissible.toProgram ([] : List UInt8)

/-- Through the gate the second read of the return data returns what the first one did. -/
theorem dedup_stale_read :
    returnDataSemantics.ProgramAdmissible ∧ HashInjective readWriteRead ∧
      (dedupRun (SafetyValidator.new true) zeroTxId returnDataSemantics
          (DedupTable.new, ([] : List UInt8)) readWriteRead).1 = [[], [], []] ∧
      Effect.results returnDataSemantics.exec ([] : List UInt8) readWriteRead =
        [[], [], [7]] := by
  refine ⟨returnDataSemantics_admissible.toProgram, readWriteRead_hashInjective, ?_, ?_⟩
  · decide
  · decide

end SyscallMind
