/-
# The batches are the minimal fetch set

What the batcher returns depends on the pending syscalls only through the list of their ids
and argument hashes: the group of an id that can be batched holds the values of this id in
the list (`group_groupPending`), and the ids are sorted, so the order of the hash map does not
show.  It follows that the batches ask for everything that is pending and can be batched, each
pair once and in a fixed order, and that entries which ask for nothing new can be dropped.
-/
import Mathlib.Logic.Relation
import SyscallMind.Lib.Grouping
import SyscallMind.Optimizer.Batcher

namespace SyscallMind

open Lib

namespace Batcher

/-- The id and the argument hash of every pending syscall. -/
def occurrences (pending : List PendingSyscall) : List (SyscallId × ArgsHash) :=
  pending.map fun p => (p.syscallId, p.argsHash)

/-- The pairs that a batch fetches. -/
def fetched (b : BatchedFetch) : List (SyscallId × ArgsHash) := b.syscallIds.zip b.argsHashes

def flattened (bs : List BatchedFetch) : List (SyscallId × ArgsHash) := bs.flatMap fetched

/-- The batches fetch every pending pair that can be batched, once and in order. -/
structure Minimal (pending : List PendingSyscall) (bs : List BatchedFetch) : Prop where
  nodup : (flattened bs).Nodup
  mem_iff : ∀ x, x ∈ flattened bs ↔ canBatch x.1 = true ∧ x ∈ occurrences pending
  ne_nil : ∀ b ∈ bs, b.argsHashes ≠ []
  length_eq : ∀ b ∈ bs, b.syscallIds.length = b.argsHashes.length
  single : ∀ b ∈ bs, ∃ id, ∀ id' ∈ b.syscallIds, id' = id
  /-- The ids of the batches increase. -/
  idOrder : bs.Pairwise fun b b' => ∀ id ∈ b.syscallIds, ∀ id' ∈ b'.syscallIds, id < id'
  /-- Within a batch the pairs come in the order of their first occurrence. -/
  hashOrder : ∀ b ∈ bs, (fetched b).Pairwise fun x y =>
    (occurrences pending).idxOf x < (occurrences pending).idxOf y

/-- One entry is dropped that cannot be batched or that repeats an earlier one. -/
def Drops (pending pending' : List PendingSyscall) : Prop :=
  ∃ before p after, pending = before ++ p :: after ∧ pending' = before ++ after ∧
    (canBatch p.syscallId = false ∨
      ∃ q ∈ before, q.syscallId = p.syscallId ∧ q.argsHash = p.argsHash)

/-! ## The groups are the values of the ids -/

lemma group_groupPending (pending : List PendingSyscall) (id : SyscallId) :
    group (groupPending pending) id =
      if canBatch id = true then Grouping.values id (occurrences pending) else [] := by
  induction pending using List.reverseRecOn with
  | nil => simp [group, groupPending, occurrences, Grouping.values]
  | append_singleton ps p ih =>
    have hstep : groupPending (ps ++ [p]) = addPending (groupPending ps) p :=
      List.foldl_append
    have hocc : occurrences (ps ++ [p]) = occurrences ps ++ [(p.syscallId, p.argsHash)] :=
      List.map_append
    rw [hstep, group_addPending, ih, hocc, Grouping.values_concat]
    by_cases hcan : canBatch id = true
    · by_cases hid : p.syscallId = id
      · subst hid
        simp [hcan, Grouping.mem_values_iff]
      · simp [hcan, hid, Ne.symm hid]
    · by_cases hid : p.syscallId = id
      · subst hid
        simp [hcan]
      · simp [hcan, Ne.symm hid]

section SortedIds

variable {order order' : IterationOrder SyscallId} {pending pending' : List PendingSyscall}

lemma mem_sortedIds_iff {id : SyscallId} :
    id ∈ sortedIds order pending ↔ group (groupPending pending) id ≠ [] := by
  rw [(sortedIds_perm order pending).mem_iff, HashMap.mem_keys_iff]
  constructor
  · rintro ⟨hashes, hl⟩
    have hne := lookup_groupPending_ne_nil id hashes hl
    simpa [group, hl] using hne
  · intro hne
    cases hl : (groupPending pending).lookup id with
    | none => exact absurd (by simp [group, hl]) hne
    | some hashes => exact ⟨hashes, rfl⟩

lemma pairwise_sortedIds : (sortedIds order pending).Pairwise (· < ·) := by
  have hle : (sortedIds order pending).Pairwise (· ≤ ·) := List.pairwise_insertionSort _ _
  have hnodup : (sortedIds order pending).Nodup :=
    (sortedIds_perm order pending).nodup_iff.mpr (AList.keys_nodup _)
  exact (hle.and hnodup).imp fun h => UInt32.lt_of_le_of_ne h.1 h.2

/-- The result is a function of the groups. -/
lemma batchSysvarReads_congr
    (h : ∀ id, group (groupPending pending) id = group (groupPending pending') id) :
    batchSysvarReads order pending = batchSysvarReads order' pending' := by
  have hids : sortedIds order pending = sortedIds order' pending' := by
    refine pairwise_sortedIds.eq_of_mem_iff pairwise_sortedIds fun id => ?_
    rw [mem_sortedIds_iff, mem_sortedIds_iff, h]
  rw [batchSysvarReads_eq, batchSysvarReads_eq, hids]
  refine congrArg some (List.map_congr_left fun id _ => ?_)
  rw [fetch, fetch, h]

end SortedIds

/-! ## The minimal fetch set -/

lemma fetched_fetch (groups : Groups) (id : SyscallId) :
    fetched (fetch groups id) = (group groups id).map (Prod.mk id) := by
  rw [fetched, fetch]
  induction group groups id with
  | nil => rfl
  | cons h hs ih =>
    rw [List.length_cons, List.replicate_succ, List.zip_cons_cons, ih, List.map_cons]

section Minimal

variable (order : IterationOrder SyscallId) (pending : List PendingSyscall)

/-- The batches of the groups, in the order of the ids. -/
def batches : List BatchedFetch :=
  (sortedIds order pending).map (fetch (groupPending pending))

lemma flattened_batches :
    flattened (batches order pending) =
      (sortedIds order pending).flatMap fun id =>
        (group (groupPending pending) id).map (Prod.mk id) := by
  rw [flattened, batches, List.flatMap_map]
  exact congrArg (fun f => (sortedIds order pending).flatMap f)
    (funext fun id => fetched_fetch _ id)

lemma nodup_group (id : SyscallId) : (group (groupPending pending) id).Nodup := by
  rw [group_groupPending]
  split
  · exact Grouping.nodup_values _ _
  · exact List.nodup_nil

lemma mem_flattened_batches_iff (x : SyscallId × ArgsHash) :
    x ∈ flattened (batches order pending) ↔
      canBatch x.1 = true ∧ x ∈ occurrences pending := by
  have hgroup : x.2 ∈ group (groupPending pending) x.1 ↔
      canBatch x.1 = true ∧ x ∈ occurrences pending := by
    rw [group_groupPending]
    by_cases hcan : canBatch x.1 = true
    · simp [hcan, Grouping.mem_values_iff]
    · simp [hcan]
  rw [flattened_batches, List.mem_flatMap, ← hgroup]
  constructor
  · rintro ⟨id, -, hx⟩
    obtain ⟨h, hh, rfl⟩ := List.mem_map.mp hx
    exact hh
  · intro hx
    exact ⟨x.1, mem_sortedIds_iff.mpr (List.ne_nil_of_mem hx), List.mem_map.mpr ⟨x.2, hx, rfl⟩⟩

lemma nodup_flattened_batches : (flattened (batches order pending)).Nodup := by
  rw [flattened_batches, List.nodup_flatMap]
  refine ⟨fun id _ => (nodup_group pending id).map (Prod.mk_right_injective id), ?_⟩
  refine pairwise_sortedIds.imp fun {id id'} hlt => ?_
  -- pairs of different groups have different ids
  intro x hx hx'
  obtain ⟨h, -, rfl⟩ := List.mem_map.mp hx
  obtain ⟨h', -, heq⟩ := List.mem_map.mp hx'
  obtain rfl : id' = id := congrArg Prod.fst heq
  exact UInt32.lt_irrefl id' hlt

lemma minimal_batches : Minimal pending (batches order pending) where
  nodup := nodup_flattened_batches order pending
  mem_iff := mem_flattened_batches_iff order pending
  ne_nil := by
    intro b hb
    obtain ⟨id, hid, rfl⟩ := List.mem_map.mp hb
    exact mem_sortedIds_iff.mp hid
  length_eq := by
    intro b hb
    obtain ⟨id, -, rfl⟩ := List.mem_map.mp hb
    exact List.length_replicate
  single := by
    intro b hb
    obtain ⟨id, -, rfl⟩ := List.mem_map.mp hb
    exact ⟨id, fun id' h => (List.mem_replicate.mp h).2⟩
  idOrder := by
    refine List.pairwise_map.mpr (pairwise_sortedIds.imp fun {id id'} hlt => ?_)
    intro i hi i' hi'
    rw [(List.mem_replicate.mp hi).2, (List.mem_replicate.mp hi').2]
    exact hlt
  hashOrder := by
    intro b hb
    obtain ⟨id, -, rfl⟩ := List.mem_map.mp hb
    rw [fetched_fetch, List.pairwise_map, group_groupPending]
    split
    · exact Grouping.pairwise_idxOf_values id (occurrences pending)
    · exact List.Pairwise.nil

variable {pending} {pending' : List PendingSyscall}

/-- A dropped entry is in no group, or in one that has its hash already. -/
lemma Drops.group_eq (h : Drops pending pending') (id : SyscallId) :
    group (groupPending pending) id = group (groupPending pending') id := by
  obtain ⟨before, p, after, rfl, rfl, hp⟩ := h
  rw [group_groupPending, group_groupPending]
  by_cases hcan : canBatch id = true
  · rw [if_pos hcan, if_pos hcan, occurrences, occurrences, List.map_append, List.map_cons,
      List.map_append]
    rcases hp with hno | ⟨q, hq, hid, hhash⟩
    · refine Grouping.values_append_cons_of_ne fun heq => ?_
      rw [← heq, hno] at hcan
      exact absurd hcan (by simp)
    · refine Grouping.values_append_cons_of_mem ?_ id
      exact List.mem_map.mpr ⟨q, hq, Prod.ext hid hhash⟩
  · rw [if_neg hcan, if_neg hcan]

lemma group_eq_of_drops (h : Relation.ReflTransGen Drops pending pending') (id : SyscallId) :
    group (groupPending pending) id = group (groupPending pending') id := by
  induction h with
  | refl => rfl
  | tail _ hdrop ih => exact ih.trans (hdrop.group_eq id)

/-- The groups of the flattened batches are the groups that were flattened. -/
lemma group_eq_of_flattened (h : occurrences pending' = flattened (batches order pending))
    (id : SyscallId) :
    group (groupPending pending') id = group (groupPending pending) id := by
  have hvalues := Grouping.values_flatMap
    ((sortedIds_perm order pending).nodup_iff.mpr (AList.keys_nodup _)) (nodup_group pending) id
  rw [group_groupPending pending', h, flattened_batches, hvalues]
  by_cases hmem : id ∈ sortedIds order pending
  · have hcan : canBatch id = true := by
      by_contra hno
      rw [mem_sortedIds_iff, group_groupPending, if_neg hno] at hmem
      exact hmem rfl
    rw [if_pos hmem, if_pos hcan]
  · have hnil : group (groupPending pending) id = [] := by
      by_contra hne
      exact hmem (mem_sortedIds_iff.mpr hne)
    rw [if_neg hmem, hnil, ite_self]

end Minimal

/-- **The batcher returns the minimal fetch set**, in every iteration order of its map; the
result stays the same if entries are dropped that cannot be batched or repeat earlier ones,
and if the pairs of the result are batched again. -/
theorem batchSysvarReads_minimal (order : IterationOrder SyscallId)
    (pending : List PendingSyscall) :
    ∃ bs, batchSysvarReads order pending = some bs ∧ Minimal pending bs ∧
      (∀ order' pending', Relation.ReflTransGen Drops pending pending' →
        batchSysvarReads order' pending' = some bs) ∧
      (∀ order' pending', occurrences pending' = flattened bs →
        batchSysvarReads order' pending' = some bs) := by
  have hsome : batchSysvarReads order pending = some (batches order pending) :=
    batchSysvarReads_eq order pending
  refine ⟨batches order pending, hsome, minimal_batches order pending,
    fun order' pending' hdrops => ?_, fun order' pending' hflat => ?_⟩
  · rw [← hsome]
    exact (batchSysvarReads_congr (group_eq_of_drops hdrops)).symm
  · rw [← hsome]
    exact batchSysvarReads_congr (group_eq_of_flattened order hflat)

end Batcher

end SyscallMind
