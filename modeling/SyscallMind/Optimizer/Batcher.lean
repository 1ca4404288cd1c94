/-
# The sysvar batcher

`batch_sysvar_reads` of `optimizer/src/batcher.rs`: the pending reads are grouped by id, each
argument hash once, and every group becomes one fetch, in the order of the ids.

Which reads are grouped is decided by a range of ids; which batches are approved is decided
by the table of the classifier.  The range is larger by the ids 7, 8 and 9, so all batches
are approved exactly when none of these three is pending (`batches_approved_iff`).
-/
import Mathlib.Data.List.Sort
import SyscallMind.Safety.Validator

namespace SyscallMind

open Lib

structure PendingSyscall where
  syscallId : SyscallId
  argsHash : ArgsHash
  args : List UInt8
  sequenceIndex : ℕ
deriving DecidableEq, Repr

structure BatchedFetch where
  syscallIds : List SyscallId
  argsHashes : List ArgsHash
deriving DecidableEq, Repr

namespace Batcher

/-- The ids 1 to 9. -/
def canBatch (syscallId : SyscallId) : Bool := decide (1 ≤ syscallId ∧ syscallId ≤ 9)

/-- The argument hashes of each id. -/
abbrev Groups := HashMap SyscallId (List ArgsHash)

/-- The body of the grouping loop. -/
def addPending (groups : Groups) (p : PendingSyscall) : Groups :=
  if !canBatch p.syscallId then groups
  else
    let hashes := (groups.lookup p.syscallId).getD []
    groups.insert p.syscallId
      (if hashes.contains p.argsHash then hashes else hashes ++ [p.argsHash])

def groupPending (pending : List PendingSyscall) : Groups := pending.foldl addPending ∅

/-- Remove the groups one after the other; `none` is the panic of the `unwrap`. -/
def collect : Groups → List SyscallId → Option (List BatchedFetch)
  | _, [] => some []
  | groups, id :: ids =>
      match groups.lookup id with
      | none => none
      | some hashes =>
          (collect (groups.erase id) ids).map
            fun result => ⟨List.replicate hashes.length id, hashes⟩ :: result

def batchSysvarReads (order : IterationOrder SyscallId) (pending : List PendingSyscall) :
    Option (List BatchedFetch) :=
  let groups := groupPending pending
  let sortedIds := (order.keys groups.keys).insertionSort (· ≤ ·)
  collect groups sortedIds

/-! ## The groups -/

/-- The hashes under an id, none if the id has no group. -/
def group (groups : Groups) (id : SyscallId) : List ArgsHash := (groups.lookup id).getD []

lemma group_addPending (groups : Groups) (p : PendingSyscall) (id : SyscallId) :
    group (addPending groups p) id =
      if canBatch p.syscallId = true ∧ id = p.syscallId ∧ p.argsHash ∉ group groups id then
        group groups id ++ [p.argsHash]
      else group groups id := by
  rw [group, addPending]
  cases hb : canBatch p.syscallId with
  | false => simp [group]
  | true =>
    simp only [Bool.not_true, Bool.false_eq_true, if_false, HashMap.lookup_insert_eq]
    by_cases hid : id = p.syscallId
    · subst hid
      by_cases hmem : p.argsHash ∈ group groups p.syscallId
      · have hmem' : p.argsHash ∈ (groups.lookup p.syscallId).getD [] := hmem
        simp [hmem', group]
      · have hmem' : p.argsHash ∉ (groups.lookup p.syscallId).getD [] := hmem
        simp [hmem', group]
    · simp [hid, group]

lemma mem_group_addPending_iff {groups : Groups} {p : PendingSyscall} {id : SyscallId}
    {h : ArgsHash} :
    h ∈ group (addPending groups p) id ↔
      h ∈ group groups id ∨
        (canBatch p.syscallId = true ∧ id = p.syscallId ∧ h = p.argsHash) := by
  rw [group_addPending]
  by_cases hadd : canBatch p.syscallId = true ∧ id = p.syscallId ∧ p.argsHash ∉ group groups id
  · rw [if_pos hadd, List.mem_append, List.mem_singleton]
    simp [hadd.1, hadd.2.1]
  · rw [if_neg hadd]
    refine ⟨Or.inl, ?_⟩
    rintro (hmem | ⟨hb, hid, rfl⟩)
    · exact hmem
    · by_contra hmem
      exact hadd ⟨hb, hid, hmem⟩

lemma mem_group_foldl_iff {groups : Groups} {pending : List PendingSyscall} {id : SyscallId}
    {h : ArgsHash} :
    h ∈ group (pending.foldl addPending groups) id ↔
      h ∈ group groups id ∨
        ∃ p ∈ pending, canBatch p.syscallId = true ∧ id = p.syscallId ∧ h = p.argsHash := by
  induction pending generalizing groups with
  | nil => simp
  | cons p ps ih =>
    rw [List.foldl_cons, ih, mem_group_addPending_iff, or_assoc]
    simp

/-- The groups hold the hashes of the pending reads that can be batched. -/
lemma mem_group_iff {pending : List PendingSyscall} {id : SyscallId} {h : ArgsHash} :
    h ∈ group (groupPending pending) id ↔
      ∃ p ∈ pending, canBatch p.syscallId = true ∧ id = p.syscallId ∧ h = p.argsHash := by
  rw [groupPending, mem_group_foldl_iff]
  simp [group]

lemma lookup_addPending_ne_nil {groups : Groups}
    (h : ∀ id hashes, groups.lookup id = some hashes → hashes ≠ []) (p : PendingSyscall) :
    ∀ id hashes, (addPending groups p).lookup id = some hashes → hashes ≠ [] := by
  rw [addPending]
  split
  · exact h
  · refine HashMap.forall_lookup_insert _ h ?_
    split
    · next hc => exact List.ne_nil_of_mem (List.contains_iff_mem.mp hc)
    · simp

/-- No group is empty. -/
lemma lookup_groupPending_ne_nil {pending : List PendingSyscall} :
    ∀ id hashes, (groupPending pending).lookup id = some hashes → hashes ≠ [] := by
  have hgen : ∀ (ps : List PendingSyscall) (groups : Groups),
      (∀ id hashes, groups.lookup id = some hashes → hashes ≠ []) →
        ∀ id hashes, (ps.foldl addPending groups).lookup id = some hashes → hashes ≠ [] := by
    intro ps
    induction ps with
    | nil => exact fun groups h => h
    | cons p ps ih => exact fun groups h => ih _ (lookup_addPending_ne_nil h p)
  exact hgen pending ∅ fun id hashes h => absurd h (by simp)

/-! ## The batches -/

/-- The fetch of one group. -/
def fetch (groups : Groups) (id : SyscallId) : BatchedFetch :=
  ⟨List.replicate (group groups id).length id, group groups id⟩

/-- The `unwrap` finds its group, whatever the order of the ids, as long as they are
distinct. -/
lemma collect_eq_some {groups : Groups} {ids : List SyscallId} (hnodup : ids.Nodup)
    (hmem : ∀ id ∈ ids, id ∈ groups.keys) : collect groups ids = some (ids.map (fetch groups)) := by
  induction ids generalizing groups with
  | nil => rfl
  | cons id ids ih =>
    obtain ⟨hid, hids⟩ := List.nodup_cons.mp hnodup
    obtain ⟨hashes, hl⟩ := (HashMap.mem_keys_iff groups).mp (hmem id (by simp))
    have hne : ∀ id' ∈ ids, id' ≠ id := fun id' h' heq => hid (heq ▸ h')
    have hrest : ∀ id' ∈ ids, id' ∈ (groups.erase id).keys := by
      intro id' h'
      rw [HashMap.mem_keys_iff, HashMap.lookup_erase_eq, if_neg (hne id' h'),
        ← HashMap.mem_keys_iff]
      exact hmem id' (by simp [h'])
    have hfetch : ids.map (fetch (groups.erase id)) = ids.map (fetch groups) := by
      refine List.map_congr_left fun id' h' => ?_
      simp only [fetch, group, HashMap.lookup_erase_eq, if_neg (hne id' h')]
    rw [collect, hl]
    simp only [ih hids hrest, hfetch, Option.map_some, List.map_cons]
    simp [fetch, group, hl]

section Batches

variable (order : IterationOrder SyscallId) (pending : List PendingSyscall)

/-- The ids of the groups in the order in which the batcher removes them. -/
def sortedIds : List SyscallId :=
  (order.keys (groupPending pending).keys).insertionSort (· ≤ ·)

lemma sortedIds_perm : (sortedIds order pending).Perm (groupPending pending).keys :=
  (List.perm_insertionSort _ _).trans (order.perm _)

/-- The batcher never panics: it returns the fetches of all groups. -/
lemma batchSysvarReads_eq :
    batchSysvarReads order pending =
      some ((sortedIds order pending).map (fetch (groupPending pending))) := by
  have hperm := sortedIds_perm order pending
  refine collect_eq_some (hperm.nodup_iff.mpr (AList.keys_nodup _)) ?_
  exact fun id hid => hperm.mem_iff.mp hid

variable {order pending}

/-- The ids that are put into some batch are the pending ones that can be batched. -/
lemma exists_mem_batch_iff {bs : List BatchedFetch}
    (hbs : batchSysvarReads order pending = some bs) {id : SyscallId} :
    (∃ b ∈ bs, id ∈ b.syscallIds) ↔
      canBatch id = true ∧ ∃ p ∈ pending, p.syscallId = id := by
  rw [batchSysvarReads_eq, Option.some.injEq] at hbs
  subst hbs
  constructor
  · rintro ⟨b, hb, hid⟩
    obtain ⟨id', -, rfl⟩ := List.mem_map.mp hb
    obtain ⟨hlen, rfl⟩ := List.mem_replicate.mp hid
    obtain ⟨h, hh⟩ := List.exists_mem_of_length_pos (Nat.pos_of_ne_zero hlen)
    obtain ⟨p, hp, hcan, rfl, -⟩ := mem_group_iff.mp hh
    exact ⟨hcan, p, hp, rfl⟩
  · rintro ⟨hcan, p, hp, rfl⟩
    have hh : p.argsHash ∈ group (groupPending pending) p.syscallId :=
      mem_group_iff.mpr ⟨p, hp, hcan, rfl, rfl⟩
    have hkey : p.syscallId ∈ (groupPending pending).keys := by
      rw [HashMap.mem_keys_iff]
      cases hl : (groupPending pending).lookup p.syscallId with
      | none => simp [group, hl] at hh
      | some hashes => exact ⟨hashes, rfl⟩
    refine ⟨fetch (groupPending pending) p.syscallId,
      List.mem_map_of_mem ((sortedIds_perm order pending).mem_iff.mpr hkey), ?_⟩
    exact List.mem_replicate.mpr ⟨(List.length_pos_of_mem hh).ne', rfl⟩

end Batches

/-! ## The safety gate -/

/-- Three of the ids that can be batched are not in the table of the classifier. -/
lemma eligible_iff_of_canBatch {id : SyscallId} (h : canBatch id = true) :
    SyscallClassifier.new.isOptimizationEligible id = true ↔ id ≠ 7 ∧ id ≠ 8 ∧ id ≠ 9 := by
  have hmem : ∀ n : Fin 10, canBatch (UInt32.ofNat n) = true →
      (SyscallClassifier.new.isOptimizationEligible (UInt32.ofNat n) = true ↔
        UInt32.ofNat n ≠ 7 ∧ UInt32.ofNat n ≠ 8 ∧ UInt32.ofNat n ≠ 9) := by
    decide
  have hle : id.toNat < 10 := by
    have h' := (of_decide_eq_true h).2
    have := UInt32.le_iff_toNat_le.mp h'
    simp at this
    omega
  have hid : UInt32.ofNat (⟨id.toNat, hle⟩ : Fin 10) = id := by simp
  have := hmem ⟨id.toNat, hle⟩
  rw [hid] at this
  exact this h

/-- **All batches are approved exactly when no pending syscall has the id 7, 8 or 9.** -/
theorem batches_approved_iff (enforce : Bool) (order : IterationOrder SyscallId)
    (pending : List PendingSyscall) :
    (∃ bs, batchSysvarReads order pending = some bs ∧ ∀ b ∈ bs,
        ((SafetyValidator.new enforce).validateBatch b.syscallIds).approved = true) ↔
      ∀ p ∈ pending, p.syscallId ≠ 7 ∧ p.syscallId ≠ 8 ∧ p.syscallId ≠ 9 := by
  have hsome := batchSysvarReads_eq order pending
  constructor
  · rintro ⟨bs, hbs, happ⟩ p hp
    by_cases hb : canBatch p.syscallId = true
    · obtain ⟨b, hb', hid⟩ := (exists_mem_batch_iff hbs).mpr ⟨hb, p, hp, rfl⟩
      have hel := (SafetyValidator.validateBatch_approved_iff _ _).mp (happ b hb') _ hid
      exact (eligible_iff_of_canBatch hb).mp hel
    · refine ⟨?_, ?_, ?_⟩ <;> exact fun h => hb (by rw [h]; decide)
  · intro h
    refine ⟨_, hsome, fun b hb => ?_⟩
    rw [SafetyValidator.validateBatch_approved_iff]
    intro id hid
    obtain ⟨hcan, p, hp, rfl⟩ := (exists_mem_batch_iff hsome).mp ⟨b, hb, hid⟩
    exact (eligible_iff_of_canBatch hcan).mpr (h p hp)

/-- A pending syscall with the id 7 is batched, and the batch is rejected. -/
theorem batch_of_seven_rejected :
    batchSysvarReads (IterationOrder.stored _) [⟨7, 0, [], 0⟩] = some [⟨[7], [0]⟩] ∧
      ((SafetyValidator.new true).validateBatch [7]).approved = false := by
  decide

end Batcher

end SyscallMind
