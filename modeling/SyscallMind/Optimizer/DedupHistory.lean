/-
# What the dedup table remembers

A run of a `DedupTable` mixes the operations of many transactions.  What a lookup returns is
the latest record of its key that no later `clear_transaction` of the same transaction has
removed, so the table is determined by its history, and the results that a transaction sees
are determined by its own operations: the table shows the same to it as one that nobody else
uses (`agree_view`).
-/
import Mathlib.Data.Set.Card
import SyscallMind.Lib.Isolation
import SyscallMind.Lib.Run
import SyscallMind.Optimizer.Dedup

namespace SyscallMind

open Lib

namespace DedupTable

inductive Op
  | record (txId : TransactionId) (syscallId : SyscallId) (argsHash : ArgsHash)
      (result : List UInt8)
  | check (txId : TransactionId) (syscallId : SyscallId) (argsHash : ArgsHash)
  | checkAndCount (txId : TransactionId) (syscallId : SyscallId) (argsHash : ArgsHash)
  | clearTransaction (txId : TransactionId)
deriving DecidableEq, Repr

/-- The transaction that an operation belongs to. -/
def Op.txId : Op → TransactionId
  | .record txId _ _ _ => txId
  | .check txId _ _ => txId
  | .checkAndCount txId _ _ => txId
  | .clearTransaction txId => txId

/-- The result of a lookup; the other operations return nothing. -/
abbrev Answer := Option (Option (List UInt8))

/-- What an operation returns, and the table after it. -/
def step (t : DedupTable) : Op → Answer × DedupTable
  | .record txId id h result => (none, t.record txId id h result)
  | .check txId id h => (some (t.check txId id h), t)
  | .checkAndCount txId id h =>
      (some (t.checkAndCount txId id h).1, (t.checkAndCount txId id h).2)
  | .clearTransaction txId => (none, t.clearTransaction txId)

/-- The table after a run. -/
def after (t : DedupTable) (ops : List Op) : DedupTable :=
  Run.after (fun t op => (t.step op).2) t ops

/-- The operations of a run with what they return. -/
def trace : DedupTable → List Op → List (Op × Answer)
  | _, [] => []
  | t, op :: ops => (op, (t.step op).1) :: trace (t.step op).2 ops

lemma after_concat (t : DedupTable) (ops : List Op) (op : Op) :
    t.after (ops ++ [op]) = ((t.after ops).step op).2 :=
  Run.after_append _ t ops [op]

variable (tx : TransactionId) (id : SyscallId) (h : ArgsHash)

/-! ## Lookups -/

/-- One operation changes what is found under a key by recording it or by clearing its
transaction. -/
lemma check_step (t : DedupTable) (op : Op) (r : List UInt8) :
    (t.step op).2.check tx id h = some r ↔
      op = .record tx id h r ∨
        (t.check tx id h = some r ∧
          ¬ (op = .clearTransaction tx ∨ ∃ r', op = .record tx id h r')) := by
  cases op with
  | record tx' id' h' r' =>
    rw [step, check_record]
    by_cases hk : (tx, id, h) = (tx', id', h')
    · obtain ⟨rfl, rfl, rfl⟩ : tx = tx' ∧ id = id' ∧ h = h' := by simpa using hk
      simp
    · rw [if_neg hk]
      have hne : ∀ r'', Op.record tx' id' h' r' ≠ .record tx id h r'' := by
        rintro r'' heq
        obtain ⟨rfl, rfl, rfl, -⟩ := Op.record.inj heq
        exact hk rfl
      simp [hne]
  | check tx' id' h' => simp [step]
  | checkAndCount tx' id' h' => simp [step]
  | clearTransaction tx' =>
    rw [step, check_clearTransaction]
    by_cases htx : tx = tx'
    · simp [htx]
    · simp [htx, Ne.symm htx]

/-- The latest record of the key since its transaction was last cleared has the result `r`. -/
def Latest (ops : List Op) (r : List UInt8) : Prop :=
  Run.Since (fun op => op = .record tx id h r)
    (fun op => op = .clearTransaction tx ∨ ∃ r', op = .record tx id h r') ops

lemma latest_concat (ops : List Op) (op : Op) (r : List UInt8) :
    Latest tx id h (ops ++ [op]) r ↔
      op = .record tx id h r ∨
        (Latest tx id h ops r ∧
          ¬ (op = .clearTransaction tx ∨ ∃ r', op = .record tx id h r')) := Run.since_concat

/-- The key was recorded, and its transaction was not cleared since. -/
def Recorded (ops : List Op) : Prop :=
  Run.Since (fun op => ∃ r, op = .record tx id h r) (fun op => op = .clearTransaction tx) ops

lemma recorded_concat (ops : List Op) (op : Op) :
    Recorded tx id h (ops ++ [op]) ↔
      (∃ r, op = .record tx id h r) ∨ (Recorded tx id h ops ∧ op ≠ .clearTransaction tx) :=
  Run.since_concat

/-- **A lookup returns the latest record.** -/
theorem check_after_iff (ops : List Op) (r : List UInt8) :
    (new.after ops).check tx id h = some r ↔ Latest tx id h ops r := by
  induction ops using List.reverseRecOn with
  | nil =>
    have hnil : ¬ Latest tx id h [] r := Run.since_nil
    have hnew : (new.after []).check tx id h = none := check_new tx id h
    simp [hnil, hnew]
  | append_singleton ops op ih =>
    rw [after_concat, check_step, ih, latest_concat]

lemma exists_check_after_iff (ops : List Op) :
    (∃ r, (new.after ops).check tx id h = some r) ↔ Recorded tx id h ops := by
  induction ops using List.reverseRecOn with
  | nil =>
    have hnil : ¬ Recorded tx id h [] := Run.since_nil
    have hnew : (new.after []).check tx id h = none := check_new tx id h
    simp [hnil, hnew]
  | append_singleton ops op ih =>
    rw [after_concat, recorded_concat, ← ih]
    constructor
    · rintro ⟨r, hr⟩
      rcases (check_step tx id h _ op r).mp hr with hrec | ⟨hold, hkeep⟩
      · exact Or.inl ⟨r, hrec⟩
      · exact Or.inr ⟨⟨r, hold⟩, fun hclear => hkeep (Or.inl hclear)⟩
    · rintro (⟨r, hrec⟩ | ⟨⟨r, hold⟩, hkeep⟩)
      · exact ⟨r, (check_step tx id h _ op r).mpr (Or.inl hrec)⟩
      · by_cases hrec : ∃ r', op = .record tx id h r'
        · obtain ⟨r', hr'⟩ := hrec
          exact ⟨r', (check_step tx id h _ op r').mpr (Or.inl hr')⟩
        · refine ⟨r, (check_step tx id h _ op r).mpr (Or.inr ⟨hold, ?_⟩)⟩
          rintro (hclear | hex)
          · exact hkeep hclear
          · exact hrec hex

/-! ## The counters -/

/-- The call of `check_and_count` returned `Some`. -/
def isHit : Op × Answer → Bool
  | (.checkAndCount _ _ _, some (some _)) => true
  | _ => false

lemma dedupCount_step (t : DedupTable) (op : Op) :
    (t.step op).2.dedupCount =
      t.dedupCount + if isHit (op, (t.step op).1) = true then 1 else 0 := by
  cases op with
  | record tx' id' h' r' => rfl
  | check tx' id' h' => rfl
  | checkAndCount tx' id' h' =>
    rw [step, checkAndCount]
    cases t.table.lookup (tx', id', h') <;> rfl
  | clearTransaction tx' => rfl

lemma dedupCount_after (t : DedupTable) (ops : List Op) :
    (t.after ops).dedupCount = t.dedupCount + (t.trace ops).countP isHit := by
  induction ops generalizing t with
  | nil => rfl
  | cons op ops ih =>
    have hih := ih (t.step op).2
    have hstep := dedupCount_step t op
    rw [trace, List.countP_cons]
    change ((t.step op).2.after ops).dedupCount = _
    omega

lemma len_after (ops : List Op) :
    (new.after ops).len = {k : TransactionId × SyscallId × ArgsHash |
      Recorded k.1 k.2.1 k.2.2 ops}.ncard := by
  have hset : {k : TransactionId × SyscallId × ArgsHash | Recorded k.1 k.2.1 k.2.2 ops} =
      ((new.after ops).table.keys.toFinset : Set (TransactionId × SyscallId × ArgsHash)) := by
    ext ⟨tx, id, h⟩
    rw [Set.mem_ofPred_eq, ← exists_check_after_iff, List.coe_toFinset, Set.mem_ofPred_eq,
      HashMap.mem_keys_iff]
    rfl
  rw [hset, Set.ncard_coe_finset, List.toFinset_card_of_nodup (AList.keys_nodup _),
    HashMap.length_keys]
  rfl

/-! ## Isolation -/

/-- The two tables hold the same for the transaction. -/
def Agree (t t' : DedupTable) : Prop := ∀ id h, t.check tx id h = t'.check tx id h

variable {tx}

lemma Agree.step_of_ne {t t' : DedupTable} (ht : Agree tx t t') {op : Op} (hop : op.txId ≠ tx) :
    Agree tx (t.step op).2 t' := by
  intro id h
  rw [← ht id h]
  ext r
  rw [check_step]
  constructor
  · rintro (rfl | ⟨hold, -⟩)
    · exact absurd rfl hop
    · exact hold
  · intro hold
    refine Or.inr ⟨hold, ?_⟩
    rintro (rfl | ⟨r', rfl⟩) <;> exact hop rfl

lemma Agree.step {t t' : DedupTable} (ht : Agree tx t t') (op : Op) :
    Agree tx (t.step op).2 (t'.step op).2 := by
  intro id h
  ext r
  rw [check_step, check_step, ht id h]

lemma Agree.answer {t t' : DedupTable} (ht : Agree tx t t') {op : Op} (hop : op.txId = tx) :
    (t.step op).1 = (t'.step op).1 := by
  subst hop
  cases op with
  | record tx' id' h' r' => rfl
  | check tx' id' h' => exact congrArg some (ht id' h')
  | checkAndCount tx' id' h' =>
    show some (t.checkAndCount tx' id' h').1 = some (t'.checkAndCount tx' id' h').1
    rw [checkAndCount_fst, checkAndCount_fst]
    exact congrArg some (ht id' h')
  | clearTransaction tx' => rfl

/-- An operation with its answer, and the next table. -/
def answered (t : DedupTable) (op : Op) : (Op × Answer) × DedupTable :=
  ((op, (t.step op).1), (t.step op).2)

variable (tx) in
lemma trace_filter (t : DedupTable) (ops : List Op) :
    (t.trace ops).filter (fun p => p.1.txId = tx) =
      Isolation.seen answered (fun op => op) (fun op => decide (op.txId = tx)) (fun p => p)
        t ops := by
  induction ops generalizing t with
  | nil => rfl
  | cons op ops ih =>
    rw [trace, List.filter_cons, Isolation.seen, ih]
    rfl

/-- A transaction is a party of its own: it sees what it would see if its operations were the
only ones. -/
lemma agree_view : Isolation.View answered (fun op => op) (fun op => decide (op.txId = tx))
    (fun p => p) (Agree tx) where
  symm ht id h := (ht id h).symm
  trans ht ht' id h := (ht id h).trans (ht' id h)
  other op ht hop := ht.step_of_ne (of_decide_eq_false hop)
  own op op' ht hop hmine := by
    obtain rfl : op = op' := hop
    exact ⟨congrArg (Prod.mk op) (ht.answer (of_decide_eq_true hmine)), ht.step op⟩

/-- **The history determines the table, and each transaction sees its own part of it.** -/
theorem dedup_isolates (ops : List Op) :
    (∀ tx id h r, ((new.after ops).check tx id h = some r ↔ Latest tx id h ops r) ∧
        (((new.after ops).checkAndCount tx id h).1 = some r ↔ Latest tx id h ops r)) ∧
      (new.after ops).dedupCount = (new.trace ops).countP isHit ∧
      (new.after ops).len = {k : TransactionId × SyscallId × ArgsHash |
        Recorded k.1 k.2.1 k.2.2 ops}.ncard ∧
      ∀ tx ops', ops.filter (fun op => op.txId = tx) = ops'.filter (fun op => op.txId = tx) →
        (new.trace ops).filter (fun p => p.1.txId = tx) =
          (new.trace ops').filter (fun p => p.1.txId = tx) := by
  refine ⟨?_, ?_, len_after ops, ?_⟩
  · intro tx id h r
    rw [checkAndCount_fst]
    exact ⟨check_after_iff tx id h ops r, check_after_iff tx id h ops r⟩
  · rw [dedupCount_after]
    exact Nat.zero_add _
  · intro tx ops' hops
    have hself : Agree tx new new := fun _ _ => rfl
    rw [trace_filter, trace_filter]
    refine (agree_view.seen_eq_of_own hself ?_).1
    rw [List.map_id', List.map_id']
    exact hops

end DedupTable

end SyscallMind
