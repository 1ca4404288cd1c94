/-
# Batches and data dependencies

A batch is executed in front of the calls that precede its reads, so a read that depends on
an earlier call must not be batched.  The batcher and the batch gate look at the ids only:
every pending sysvar read is put into an approved batch, whatever precedes it.  So the
dependency check is respected exactly on the sequences in which no sysvar read is preceded
by a call of its own program that mutates state (`batches_respect_dependencies_iff`).
-/
import SyscallMind.Optimizer.Batcher

namespace SyscallMind

open Lib DependencyChecker

namespace Batcher

/-- The pending list is made of the events of the sequence, in their order. -/
def PendingOf (sequence : List SyscallTraceEvent) (pending : List PendingSyscall) : Prop :=
  pending.map (fun p => (p.syscallId, p.argsHash)) =
    sequence.map (fun e => (e.syscallId, e.argsHash))

/-- The batch contains the fetch that answers the event. -/
def Places (b : BatchedFetch) (e : SyscallTraceEvent) : Prop :=
  (e.syscallId, e.argsHash) ∈ b.syscallIds.zip b.argsHashes

/-- No read that an approved batch contains is reported as depending on an earlier call. -/
def RespectsDependencies (v : SafetyValidator) (bs : List BatchedFetch)
    (sequence : List SyscallTraceEvent) : Prop :=
  ∀ j e, sequence[j]? = some e → ∀ b ∈ bs, Places b e →
    (v.validateBatch b.syscallIds).approved = true →
      ¬ ∃ d ∈ checkSequence sequence, d.toIndex = j

lemma mem_zip_replicate_iff {α β : Type*} {a a' : α} {b : β} {l : List β} :
    (a, b) ∈ (List.replicate l.length a').zip l ↔ a = a' ∧ b ∈ l := by
  induction l with
  | nil => simp
  | cons c l ih =>
    rw [List.length_cons, List.replicate_succ, List.zip_cons_cons, List.mem_cons, ih]
    simp only [Prod.mk.injEq, List.mem_cons]
    tauto

lemma places_fetch_iff {groups : Groups} {id : SyscallId} {e : SyscallTraceEvent} :
    Places (fetch groups id) e ↔ e.syscallId = id ∧ e.argsHash ∈ group groups id :=
  mem_zip_replicate_iff

variable {sequence : List SyscallTraceEvent} {pending : List PendingSyscall}

lemma exists_pending_of_mem (h : PendingOf sequence pending) {e : SyscallTraceEvent}
    (he : e ∈ sequence) :
    ∃ p ∈ pending, p.syscallId = e.syscallId ∧ p.argsHash = e.argsHash := by
  have hmem : (e.syscallId, e.argsHash) ∈ pending.map (fun p => (p.syscallId, p.argsHash)) := by
    rw [h]
    exact List.mem_map_of_mem he
  obtain ⟨p, hp, heq⟩ := List.mem_map.mp hmem
  exact ⟨p, hp, congrArg Prod.fst heq, congrArg Prod.snd heq⟩

/-- Every event whose id can be batched is in one of the batches. -/
lemma exists_places_iff (order : IterationOrder SyscallId) (h : PendingOf sequence pending)
    {e : SyscallTraceEvent} (he : e ∈ sequence) :
    (∃ b ∈ (sortedIds order pending).map (fetch (groupPending pending)), Places b e) ↔
      canBatch e.syscallId = true := by
  constructor
  · rintro ⟨b, hb, hplaces⟩
    obtain ⟨id, -, rfl⟩ := List.mem_map.mp hb
    obtain ⟨rfl, hh⟩ := places_fetch_iff.mp hplaces
    obtain ⟨p, -, hcan, hid, -⟩ := mem_group_iff.mp hh
    exact hid ▸ hcan
  · intro hcan
    obtain ⟨p, hp, hid, hhash⟩ := exists_pending_of_mem h he
    obtain ⟨b, hb, hmem⟩ := (exists_mem_batch_iff (batchSysvarReads_eq order pending)).mpr
      ⟨hcan, p, hp, hid⟩
    obtain ⟨id, hids, rfl⟩ := List.mem_map.mp hb
    have heq : e.syscallId = id := (List.mem_replicate.mp hmem).2
    subst heq
    refine ⟨_, hb, places_fetch_iff.mpr ⟨rfl, ?_⟩⟩
    exact mem_group_iff.mpr ⟨p, hp, hid ▸ hcan, hid.symm, hhash.symm⟩

/-- A batch of reads of one id is approved exactly when the id is eligible. -/
lemma validateBatch_of_places {v : SafetyValidator} {groups : Groups} {id : SyscallId}
    {e : SyscallTraceEvent} (h : Places (fetch groups id) e) :
    (v.validateBatch (fetch groups id).syscallIds).approved = true ↔
      v.classifier.isOptimizationEligible e.syscallId = true := by
  obtain ⟨rfl, hh⟩ := places_fetch_iff.mp h
  rw [SafetyValidator.validateBatch_approved_iff]
  constructor
  · intro hall
    exact hall _ (List.mem_replicate.mpr ⟨(List.length_pos_of_mem hh).ne', rfl⟩)
  · intro hel id hid
    rw [(List.mem_replicate.mp hid).2]
    exact hel

/-- The sysvar reads that the batcher accepts and the table knows. -/
lemma batched_and_eligible_iff {id : SyscallId} :
    (canBatch id = true ∧ SyscallClassifier.new.isOptimizationEligible id = true) ↔
      1 ≤ id ∧ id ≤ 6 := by
  constructor
  · rintro ⟨hcan, hel⟩
    obtain ⟨h7, h8, h9⟩ := (eligible_iff_of_canBatch hcan).mp hel
    obtain ⟨h1, hle⟩ := of_decide_eq_true hcan
    refine ⟨h1, ?_⟩
    rw [UInt32.le_iff_toNat_le] at hle ⊢
    simp only [ne_eq, ← UInt32.toNat_inj] at h7 h8 h9
    simp at hle h7 h8 h9 ⊢
    omega
  · rintro ⟨h1, hle⟩
    have hcan : canBatch id = true := by
      refine decide_eq_true ⟨h1, ?_⟩
      exact UInt32.le_trans hle (by decide)
    refine ⟨hcan, (eligible_iff_of_canBatch hcan).mpr ?_⟩
    refine ⟨?_, ?_, ?_⟩ <;> exact fun h => absurd (h ▸ hle) (by decide)

/-- The classes that mutate state are the ones that are not eligible. -/
lemma mutates_classify_iff {id : SyscallId} :
    mutates (SyscallClassifier.new.classify id) = true ↔
      SyscallClassifier.new.isOptimizationEligible id = false := by
  rw [SyscallClassifier.isOptimizationEligible]
  cases SyscallClassifier.new.classify id <;> simp [mutates]

lemma reads_classify_iff {id : SyscallId} :
    reads (SyscallClassifier.new.classify id) = true ↔
      SyscallClassifier.new.isOptimizationEligible id = true := by
  rw [SyscallClassifier.isOptimizationEligible]
  cases SyscallClassifier.new.classify id <;> simp [reads]

/-- **When batching respects the dependency check.**  The pending list always gives batches,
and none of their approved reads has a dependency exactly when no read with an id from 1 to 6
comes after a call of the same program that is not eligible. -/
theorem batches_respect_dependencies_iff (enforce : Bool) (order : IterationOrder SyscallId)
    (hpending : PendingOf sequence pending) :
    (∃ bs, batchSysvarReads order pending = some bs ∧
        RespectsDependencies (SafetyValidator.new enforce) bs sequence) ↔
      ∀ (i j : ℕ) (w r : SyscallTraceEvent), i < j → sequence[i]? = some w → sequence[j]? = some r →
        SyscallClassifier.new.isOptimizationEligible w.syscallId = false →
        1 ≤ r.syscallId → r.syscallId ≤ 6 → r.programId ≠ w.programId := by
  constructor
  · rintro ⟨bs, hbs, hrespects⟩ i j w r hij hi hj hw h1 h6 hprog
    rw [batchSysvarReads_eq, Option.some.injEq] at hbs
    obtain ⟨hcan, hel⟩ := batched_and_eligible_iff.mpr ⟨h1, h6⟩
    have hr : r ∈ sequence := List.mem_of_getElem? hj
    obtain ⟨b, hb, hplaces⟩ := (exists_places_iff order hpending hr).mpr hcan
    obtain ⟨id, -, rfl⟩ := List.mem_map.mp hb
    have happ := (validateBatch_of_places (v := SafetyValidator.new enforce) hplaces).mpr hel
    refine hrespects j r hj _ (hbs ▸ hb) hplaces happ ?_
    rw [checkSequence_eq, exists_dependency_to_iff]
    exact ⟨i, w, r, hij, hi, hj, mutates_classify_iff.mpr hw, hprog, reads_classify_iff.mpr hel⟩
  · intro hcond
    refine ⟨_, batchSysvarReads_eq order pending, ?_⟩
    intro j r hj b hb hplaces happ hdep
    obtain ⟨id, -, rfl⟩ := List.mem_map.mp hb
    have hr : r ∈ sequence := List.mem_of_getElem? hj
    have hcan := (exists_places_iff order hpending hr).mp ⟨_, hb, hplaces⟩
    have hel := (validateBatch_of_places hplaces).mp happ
    obtain ⟨h1, h6⟩ := batched_and_eligible_iff.mp ⟨hcan, hel⟩
    rw [checkSequence_eq, exists_dependency_to_iff] at hdep
    obtain ⟨i, w, r', hij, hi, hj', hm, hprog, -⟩ := hdep
    obtain rfl : r' = r := Option.some.inj (hj'.symm.trans hj)
    exact hcond i j w r' hij hi hj (mutates_classify_iff.mp hm) h1 h6 hprog

/-- The clock is read after `sol_set_return_data` of the same program. -/
def setThenClock : List SyscallTraceEvent :=
  [⟨zeroPubkey, 40, 0, 0, 0, zeroTxId, 0⟩, ⟨zeroPubkey, 1, 0, 0, 0, zeroTxId, 0⟩]

/-- Another program sets its return data before the clock read. -/
def otherSetThenClock : List SyscallTraceEvent :=
  [⟨Vector.replicate 32 1, 40, 0, 0, 0, zeroTxId, 0⟩, ⟨zeroPubkey, 1, 0, 0, 0, zeroTxId, 0⟩]

/-- The call before the clock read is not eligible, but it is of another program. -/
theorem batches_respect_dependencies_otherProgram :
    ∃ bs, batchSysvarReads (IterationOrder.stored _) [⟨40, 0, [], 0⟩, ⟨1, 0, [], 1⟩] = some bs ∧
      RespectsDependencies (SafetyValidator.new true) bs otherSetThenClock := by
  have hpending : PendingOf otherSetThenClock [⟨40, 0, [], 0⟩, ⟨1, 0, [], 1⟩] := rfl
  refine (batches_respect_dependencies_iff true _ hpending).mpr ?_
  rintro i j w r hij hi hj - - -
  have hj2 : j < 2 := (List.getElem?_eq_some_iff.mp hj).1
  obtain rfl : i = 0 := by omega
  obtain rfl : j = 1 := by omega
  rw [← Option.some.inj hi, ← Option.some.inj hj]
  decide

/-- The clock read is put into an approved batch, and the checker reports that it depends on
the call before it. -/
theorem clock_batched_across_dependency :
    PendingOf setThenClock [⟨40, 0, [], 0⟩, ⟨1, 0, [], 1⟩] ∧
      batchSysvarReads (IterationOrder.stored _) [⟨40, 0, [], 0⟩, ⟨1, 0, [], 1⟩] =
        some [⟨[1], [0]⟩] ∧
      ¬ RespectsDependencies (SafetyValidator.new true) [⟨[1], [0]⟩] setThenClock := by
  refine ⟨rfl, by decide, fun hrespects => ?_⟩
  have hdep : ∃ d ∈ checkSequence setThenClock, d.toIndex = 1 := by decide
  have happ : ((SafetyValidator.new true).validateBatch [1]).approved = true := by decide
  exact hrespects 1 _ rfl ⟨[1], [0]⟩ (by simp) (by simp [Places]) happ hdep

end Batcher

end SyscallMind
