/-
# What a cache shows of its history

A run of a sysvar cache mixes inserts, lookups, sweeps and moves of the two counters.  The cache
shows the same as a map that remembers the latest insert of every key: a hit returns it, under
a tag that is current.  What the bounded map adds is that it forgets, and it forgets in three
ways only: a lookup finds the entry stale, a sweep finds it stale, or a new key is stored in a
full map and the entry has waited the longest for a use (`Leaves`).

The statement `FilteredLru` is about the cache after a run and the next operation.  Every prefix
of a run is a run, so it speaks about every operation of a run.
-/
import SyscallMind.Lib.LruOrder
import SyscallMind.Optimizer.Cache

namespace SyscallMind

open Lib

namespace SysvarCache

/-- The key under which an entry is stored. -/
def slotKey (key : CacheKey) : SyscallId × ArgsHash := (key.syscallId, key.argsHash)

/-- What a lookup returns; the other operations return nothing. -/
abbrev Answer := Option (Option CachedResult)

def answer (c : SysvarCache) : Op → Answer
  | .get key => some (c.get key).1
  | _ => none

/-- The operations of a run with what they return. -/
def trace : SysvarCache → List Op → List (Op × Answer)
  | _, [] => []
  | c, op :: ops => (op, c.answer op) :: trace (c.step op) ops

/-- The key that an operation uses, if it does: an insert always, a lookup if it hits. -/
def used : Op × Answer → Option (SyscallId × ArgsHash)
  | (.insert key _, _) => some (slotKey key)
  | (.get key, some (some _)) => some (slotKey key)
  | _ => none

/-- The keys in the order in which they were used. -/
def uses (seen : List (Op × Answer)) : List (SyscallId × ArgsHash) := seen.filterMap used

/-- What the lookups returned. -/
def lookups (seen : List (Op × Answer)) : List (Option CachedResult) := seen.filterMap (·.2)

def Op.isGet : Op → Bool
  | .get _ => true
  | _ => false

/-- The latest insert of the key stored this entry. -/
def LatestInsert (key : CacheKey) (ops : List Op) (entry : CachedResult) : Prop :=
  Run.Since (fun op => op = .insert key entry) (fun op => ∃ result, op = .insert key result) ops

/-- The policy of an id in a cache as it is created. -/
def initialPolicy (id : SyscallId) : InvalidationPolicy :=
  (registeredPolicies.lookup id).getD .epochBound

/-- The epoch after a run, which only the setter moves. -/
def epochAfter (epoch : UInt64) (ops : List Op) : UInt64 :=
  Run.after (fun e op => match op with | .setEpoch e' => e' | _ => e) epoch ops

/-- The slot after a run. -/
def slotAfter (slot : UInt64) (ops : List Op) : UInt64 :=
  Run.after (fun s op => match op with | .setSlot s' => s' | _ => s) slot ops

/-- The sweep of the slot finds the entry stale. -/
def SlotStale (c : SysvarCache) (id : SyscallId) (entry : CachedResult) : Prop :=
  registeredPolicies.lookup id = some .slot ∧ entry.cachedAtSlot ≠ c.currentSlot

/-- The sweep of the epoch finds the entry stale. -/
def EpochStale (c : SysvarCache) (id : SyscallId) (entry : CachedResult) : Prop :=
  registeredPolicies.lookup id = some .epochBound ∧ entry.epoch ≠ c.currentEpoch

instance (c : SysvarCache) (id : SyscallId) (entry : CachedResult) :
    Decidable (SlotStale c id entry) := inferInstanceAs (Decidable (_ ∧ _))

instance (c : SysvarCache) (id : SyscallId) (entry : CachedResult) :
    Decidable (EpochStale c id entry) := inferInstanceAs (Decidable (_ ∧ _))

/-- The reasons for an entry to leave the cache. -/
inductive Leaves (c : SysvarCache) (capacity : ℕ) (uses : List (SyscallId × ArgsHash))
    (key : CacheKey) (entry : CachedResult) : Op → Prop
  | staleGet : c.valid (initialPolicy key.syscallId) entry = false → (c.get key).1 = none →
      Leaves c capacity uses key entry (.get key)
  | sweptSlot : SlotStale c key.syscallId entry → Leaves c capacity uses key entry .invalidateSlot
  | sweptEpoch :
      EpochStale c key.syscallId entry → Leaves c capacity uses key entry .invalidateEpoch
  /-- A new key comes into a full cache, and all other keys were used since this one. -/
  | evicted (key' : CacheKey) (result : CachedResult) : c.resident key' = none →
      c.len = max capacity 1 →
      (∀ k entry', c.resident k = some entry' → k ≠ key →
        Run.Since (· = slotKey k) (· = slotKey key) uses) →
      Leaves c capacity uses key entry (.insert key' result)

/-- The cache `c` after the operations `ops` shows a validity-filtered LRU map. -/
structure FilteredLru (capacity : ℕ) (epoch slot : UInt64) (ops : List Op)
    (seen : List (Op × Answer)) (c : SysvarCache) : Prop where
  currentEpoch : c.currentEpoch = epochAfter epoch ops
  currentSlot : c.currentSlot = slotAfter slot ops
  get_iff : ∀ key entry, (c.get key).1 = some entry ↔
    c.resident key = some entry ∧ c.valid (initialPolicy key.syscallId) entry = true
  hit : ∀ key entry, (c.get key).1 = some entry →
    LatestInsert key ops entry ∧ c.valid (initialPolicy key.syscallId) entry = true
  insert : ∀ key result, (c.insert key result).resident key = some result
  miss : ∀ key, (c.get key).1 = none →
    (c.get key).2.resident key = none ∧
      (c.get key).2.inner.map.entries = c.inner.others (slotKey key)
  get_others : ∀ key, (c.get key).2.inner.others (slotKey key) = c.inner.others (slotKey key)
  sweep_slot : c.invalidateSlot.inner.map.entries =
    c.inner.map.entries.filter fun e => decide (¬ SlotStale c e.1.1 e.2)
  sweep_epoch : c.invalidateEpoch.inner.map.entries =
    c.inner.map.entries.filter fun e => decide (¬ EpochStale c e.1.1 e.2)
  leaves : ∀ op key entry, c.resident key = some entry → (c.step op).resident key = none →
    Leaves c capacity (uses seen) key entry op
  len_le : c.len ≤ max capacity 1
  hits_add_misses : c.hits + c.misses = ops.countP Op.isGet
  hits : c.hits = (lookups seen).countP Option.isSome

/-! ## One operation -/

section Step

variable {c : SysvarCache} {key : CacheKey}

lemma get_miss (h : (c.get key).1 = none) :
    (c.get key).2.resident key = none ∧
      (c.get key).2.inner.map.entries = c.inner.others (slotKey key) := by
  rcases c.get_cases key with ⟨hr, hg⟩ | ⟨e, hr, hv, hg⟩ | ⟨e, hr, hv, hg⟩
  · rw [hg]
    exact ⟨hr, (c.inner.others_of_peek_none hr).symm⟩
  · rw [hg] at h
    exact absurd h (by simp)
  · rw [hg]
    refine ⟨?_, c.inner.entries_pop _⟩
    exact (c.inner.peek_pop _ _).trans (if_pos rfl)

lemma get_hit {entry : CachedResult} (h : (c.get key).1 = some entry) :
    (c.get key).2.inner.map.entries = ⟨slotKey key, entry⟩ :: c.inner.others (slotKey key) := by
  rcases c.get_cases key with ⟨hr, hg⟩ | ⟨e, hr, hv, hg⟩ | ⟨e, hr, hv, hg⟩
  · rw [hg] at h
    exact absurd h (by simp)
  · rw [hg] at h ⊢
    obtain rfl := Option.some.inj h
    exact c.inner.entries_get hr
  · rw [hg] at h
    exact absurd h (by simp)

lemma get_others (c : SysvarCache) (key : CacheKey) :
    (c.get key).2.inner.others (slotKey key) = c.inner.others (slotKey key) := by
  cases h : (c.get key).1 with
  | none =>
    rw [LruCache.others, (get_miss h).2, LruCache.others, List.filter_filter]
    simp
  | some entry => exact c.inner.others_of_entries (get_hit h)

lemma sweep_entries (policy : InvalidationPolicy) (stale : CachedResult → Bool) :
    (c.sweep policy stale).inner.map.entries = c.inner.map.entries.filter fun e =>
      !(decide (c.invalidationMap.lookup e.1.1 = some policy) && stale e.2) :=
  c.inner.entries_popAll_keysWhere _

lemma uses_concat_of_none {seen : List (Op × Answer)} {a : Op × Answer} (h : used a = none) :
    uses (seen ++ [a]) = uses seen := by
  simp [uses, h]

lemma uses_concat_of_some {seen : List (Op × Answer)} {a : Op × Answer}
    {k : SyscallId × ArgsHash} (h : used a = some k) : uses (seen ++ [a]) = uses seen ++ [k] := by
  simp [uses, h]

lemma inOrder_get {seen : List (Op × Answer)} (h : c.inner.InOrder (uses seen)) :
    (c.get key).2.inner.InOrder (uses (seen ++ [(.get key, c.answer (.get key))])) := by
  rcases c.get_cases key with ⟨hr, hg⟩ | ⟨e, hr, hv, hg⟩ | ⟨e, hr, hv, hg⟩
  · rw [answer, hg, uses_concat_of_none rfl]
    exact h
  · rw [answer, hg, uses_concat_of_some rfl]
    exact h.get hr
  · rw [answer, hg, uses_concat_of_none rfl]
    exact h.pop _

lemma cap_step (c : SysvarCache) (op : Op) : (c.step op).inner.cap = c.inner.cap := by
  cases op with
  | get key =>
    rcases c.get_cases key with ⟨-, hg⟩ | ⟨e, -, -, hg⟩ | ⟨e, -, -, hg⟩
    · rw [step, hg]
    · rw [step, hg]
      exact c.inner.cap_get _
    · rw [step, hg]
      rfl
  | invalidateSlot => exact c.inner.cap_popAll _
  | invalidateEpoch => exact c.inner.cap_popAll _
  | _ => rfl

/-- Every lookup is counted, as a hit if it returns something. -/
lemma counts_get (c : SysvarCache) (key : CacheKey) :
    (c.get key).2.hits + (c.get key).2.misses = c.hits + c.misses + 1 ∧
      (c.get key).2.hits = c.hits + if (c.get key).1.isSome then 1 else 0 := by
  rcases c.get_cases key with ⟨-, hg⟩ | ⟨e, -, -, hg⟩ | ⟨e, -, -, hg⟩
  · rw [hg]
    exact ⟨by simp only; omega, rfl⟩
  · rw [hg]
    exact ⟨by simp only; omega, rfl⟩
  · rw [hg]
    exact ⟨by simp only; omega, rfl⟩

end Step

/-! ## The run so far -/

/-- What the cache `c` remembers of the operations `ops` and what they returned. -/
structure Remembers (capacity : ℕ) (epoch slot : UInt64) (ops : List Op)
    (seen : List (Op × Answer)) (c : SysvarCache) : Prop where
  policies : c.invalidationMap = registeredPolicies
  currentEpoch : c.currentEpoch = epochAfter epoch ops
  currentSlot : c.currentSlot = slotAfter slot ops
  latest : ∀ key entry, c.resident key = some entry → LatestInsert key ops entry
  inOrder : c.inner.InOrder (uses seen)
  cap : c.inner.cap = max capacity 1
  hits_add_misses : c.hits + c.misses = ops.countP Op.isGet
  hits : c.hits = (lookups seen).countP Option.isSome

section Run

variable {capacity : ℕ} {epoch slot : UInt64} {ops : List Op} {seen : List (Op × Answer)}
  {c : SysvarCache}

lemma remembers_new (capacity : ℕ) (epoch slot : UInt64) :
    Remembers capacity epoch slot [] [] (new capacity epoch slot) where
  policies := rfl
  currentEpoch := rfl
  currentSlot := rfl
  latest key entry h := absurd h (by simp)
  inOrder := LruCache.inOrder_new _ _
  cap := rfl
  hits_add_misses := rfl
  hits := rfl

lemma latestInsert_step (h : ∀ key entry, c.resident key = some entry → LatestInsert key ops entry)
    (op : Op) {key : CacheKey} {entry : CachedResult}
    (hr : (c.step op).resident key = some entry) : LatestInsert key (ops ++ [op]) entry := by
  by_cases hop : op = .insert key entry
  · exact Run.since_concat.mpr (Or.inl hop)
  · refine Run.since_concat.mpr (Or.inr ⟨?_, ?_⟩)
    · exact h key entry ((resident_of_step hr).resolve_left hop)
    · rintro ⟨result, rfl⟩
      have hself : (c.insert key result).resident key = some result :=
        resident_insert_self key result
      rw [← Option.some.inj (hself.symm.trans hr)] at hop
      exact hop rfl

/-- One more operation. -/
lemma Remembers.concat (h : Remembers capacity epoch slot ops seen c) (op : Op) :
    Remembers capacity epoch slot (ops ++ [op]) (seen ++ [(op, c.answer op)]) (c.step op) where
  policies := by rw [step_invalidationMap, h.policies]
  currentEpoch := by
    rw [(step_counters op).1, epochAfter, Run.after_append, h.currentEpoch]
    cases op <;> rfl
  currentSlot := by
    rw [(step_counters op).2, slotAfter, Run.after_append, h.currentSlot]
    cases op <;> rfl
  latest key entry hr := latestInsert_step h.latest op hr
  inOrder := by
    cases op with
    | insert key result =>
      rw [uses_concat_of_some rfl]
      exact h.inOrder.put _ _
    | get key => exact inOrder_get h.inOrder
    | invalidateSlot =>
      rw [uses_concat_of_none rfl]
      exact h.inOrder.popAll_keysWhere _
    | invalidateEpoch =>
      rw [uses_concat_of_none rfl]
      exact h.inOrder.popAll_keysWhere _
    | setEpoch epoch =>
      rw [uses_concat_of_none rfl]
      exact h.inOrder
    | setSlot slot =>
      rw [uses_concat_of_none rfl]
      exact h.inOrder
  cap := by rw [cap_step, h.cap]
  hits_add_misses := by
    rw [List.countP_append, ← h.hits_add_misses]
    cases op with
    | get key => exact (counts_get c key).1
    | _ => rfl
  hits := by
    rw [lookups, List.filterMap_append, List.countP_append]
    cases op with
    | get key =>
      refine (counts_get c key).2.trans ?_
      rw [h.hits, lookups]
      simp [answer, List.countP_cons]
    | _ => exact h.hits

lemma trace_concat (c : SysvarCache) (ops : List Op) (op : Op) :
    c.trace (ops ++ [op]) = c.trace ops ++ [(op, (Run.after step c ops).answer op)] := by
  induction ops generalizing c with
  | nil => rfl
  | cons op' ops ih => rw [List.cons_append, trace, trace, ih, List.cons_append, Run.after_cons]

lemma remembers_after (capacity : ℕ) (epoch slot : UInt64) (ops : List Op) :
    Remembers capacity epoch slot ops ((new capacity epoch slot).trace ops)
      (Run.after step (new capacity epoch slot) ops) := by
  induction ops using List.reverseRecOn with
  | nil => exact remembers_new capacity epoch slot
  | append_singleton ops op ih =>
    rw [trace_concat, Run.after_append]
    exact ih.concat op

/-! ## What the cache shows -/

lemma Remembers.get_eq_some_iff (h : Remembers capacity epoch slot ops seen c) {key : CacheKey}
    {entry : CachedResult} :
    (c.get key).1 = some entry ↔
      c.resident key = some entry ∧ c.valid (initialPolicy key.syscallId) entry = true := by
  rw [SysvarCache.get_eq_some_iff, policy, h.policies]
  rfl

lemma Remembers.leaves (h : Remembers capacity epoch slot ops seen c) {op : Op} {key : CacheKey}
    {entry : CachedResult} (hr : c.resident key = some entry)
    (hgone : (c.step op).resident key = none) : Leaves c capacity (uses seen) key entry op := by
  have hnone : ∀ entry', (c.step op).resident key ≠ some entry' := by
    rw [hgone]
    simp
  cases op with
  | insert key' result =>
    obtain ⟨hnew, hfull, horder⟩ := LruCache.evicted h.inOrder hr hgone
    refine .evicted key' result hnew (hfull.trans h.cap) fun k entry' hk hne => ?_
    exact horder (slotKey k) entry' hk fun heq => hne (pair_eq_iff.mp heq)
  | get key' =>
    have hstale := hnone entry
    rw [step, Ne, resident_get_iff] at hstale
    obtain ⟨rfl, hv⟩ : key = key' ∧ ¬ c.valid (c.policy key'.syscallId) entry = true := by
      by_contra hnot
      exact hstale ⟨hr, fun heq => by_contra fun hv => hnot ⟨heq, hv⟩⟩
    rw [policy, h.policies] at hv
    refine .staleGet (Bool.eq_false_iff.mpr hv) ?_
    cases hg : (c.get key).1 with
    | none => rfl
    | some entry' =>
      obtain ⟨hr', hv'⟩ := h.get_eq_some_iff.mp hg
      exact absurd (Option.some.inj (hr'.symm.trans hr) ▸ hv') hv
  | invalidateSlot =>
    have hstale := hnone entry
    rw [step, invalidateSlot, Ne, resident_sweep_iff, h.policies, not_and, not_not,
      decide_eq_true_eq] at hstale
    exact .sweptSlot (hstale hr)
  | invalidateEpoch =>
    have hstale := hnone entry
    rw [step, invalidateEpoch, Ne, resident_sweep_iff, h.policies, not_and, not_not,
      decide_eq_true_eq] at hstale
    exact .sweptEpoch (hstale hr)
  | setEpoch epoch' => exact absurd hr (hnone entry)
  | setSlot slot' => exact absurd hr (hnone entry)

end Run

/-- **The cache is a validity-filtered LRU map.**  For every capacity and every run. -/
theorem cache_is_filtered_lru (capacity : ℕ) (epoch slot : UInt64) (ops : List Op) :
    FilteredLru capacity epoch slot ops ((new capacity epoch slot).trace ops)
      (Run.after step (new capacity epoch slot) ops) := by
  have h := remembers_after capacity epoch slot ops
  refine ⟨h.currentEpoch, h.currentSlot, fun key entry => h.get_eq_some_iff, ?_,
    resident_insert_self, fun key => get_miss, get_others _, ?_, ?_, ?_, ?_,
    h.hits_add_misses, h.hits⟩
  · intro key entry hg
    obtain ⟨hr, hv⟩ := h.get_eq_some_iff.mp hg
    exact ⟨h.latest key entry hr, hv⟩
  · rw [invalidateSlot, sweep_entries, h.policies]
    exact List.filter_congr fun e _ => Bool.eq_iff_iff.mpr (by simp [SlotStale])
  · rw [invalidateEpoch, sweep_entries, h.policies]
    exact List.filter_congr fun e _ => Bool.eq_iff_iff.mpr (by simp [EpochStale])
  · exact fun op key entry hr hgone => h.leaves hr hgone
  · rw [← h.cap]
    exact (Run.after step (new capacity epoch slot) ops).inner.length_le

end SysvarCache

end SyscallMind
