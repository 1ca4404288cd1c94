/-
# The sysvar cache

`SysvarCache` of `optimizer/src/cache.rs`: an LRU map from calls to results, each tagged with
the epoch and the slot in which it was stored.  The policy of an id says which tag must be
current for its entries to be used.  A `get` checks the tag of the entry it finds and pops a
stale one; the two sweeps pop all stale entries of their policy at once.

The epoch and the slot are shared counters that others move, so moving them is an operation
of its own.  All that a cache does is said here by what is resident afterwards; the order of
use matters only to the eviction.
-/
import SyscallMind.Common
import SyscallMind.Lib.LruCache
import SyscallMind.Lib.Run

namespace SyscallMind

open Lib SyscallIds

structure CachedResult where
  data : List UInt8
  epoch : UInt64
  cachedAtSlot : UInt64
deriving DecidableEq, Repr

inductive InvalidationPolicy
  /-- Invalidate when the epoch advances. -/
  | epochBound
  /-- Deterministic result, never invalidated. -/
  | permanent
  /-- Invalidate on every new slot. -/
  | slot
deriving DecidableEq, Repr

/-- The ids that `SysvarCache::new` registers, with their policies. -/
def registeredPolicies : HashMap SyscallId InvalidationPolicy :=
  let m : HashMap SyscallId InvalidationPolicy := ∅
  let m := HashMap.insertAll m
    [solGetClockSysvar, solGetRentSysvar, solGetEpochScheduleSysvar, solGetFeesSysvar]
    .epochBound
  let m := m.insert solGetSlotHashesSysvar .slot
  HashMap.insertAll m [solSha256, solKeccak256, solSecp256k1Recover, solEd25519Verify]
    .permanent

structure SysvarCache where
  inner : LruCache (SyscallId × ArgsHash) CachedResult
  currentEpoch : UInt64
  currentSlot : UInt64
  invalidationMap : HashMap SyscallId InvalidationPolicy
  hits : ℕ
  misses : ℕ

namespace SysvarCache

/-- A capacity of zero is raised to one. -/
def new (capacity : ℕ) (epoch slot : UInt64) : SysvarCache where
  inner := LruCache.new (max capacity 1) (by omega)
  currentEpoch := epoch
  currentSlot := slot
  invalidationMap := registeredPolicies
  hits := 0
  misses := 0

variable (c : SysvarCache)

/-- The policy of an id; an id that is not registered is bound to the epoch. -/
def policy (id : SyscallId) : InvalidationPolicy :=
  (c.invalidationMap.lookup id).getD .epochBound

/-- Whether the tag that the policy looks at is current. -/
def valid (policy : InvalidationPolicy) (entry : CachedResult) : Bool :=
  match policy with
  | .permanent => true
  | .epochBound => decide (entry.epoch = c.currentEpoch)
  | .slot => decide (entry.cachedAtSlot = c.currentSlot)

def insert (key : CacheKey) (result : CachedResult) : SysvarCache :=
  { c with inner := c.inner.put (key.syscallId, key.argsHash) result }

def get (key : CacheKey) : Option CachedResult × SysvarCache :=
  match c.inner.peek (key.syscallId, key.argsHash) with
  | some entry =>
      if c.valid (c.policy key.syscallId) entry then
        let (result, inner) := c.inner.get (key.syscallId, key.argsHash)
        (result, { c with inner := inner, hits := c.hits + 1 })
      else
        (none, { c with inner := c.inner.pop (key.syscallId, key.argsHash),
                        misses := c.misses + 1 })
  | none => (none, { c with misses := c.misses + 1 })

/-- Pop every entry that is stale and whose id is registered with the policy. -/
def sweep (policy : InvalidationPolicy) (stale : CachedResult → Bool) : SysvarCache :=
  let toRemove := c.inner.keysWhere fun k entry =>
    decide (c.invalidationMap.lookup k.1 = some policy) && stale entry
  { c with inner := c.inner.popAll toRemove }

def invalidateSlot : SysvarCache :=
  c.sweep .slot fun entry => decide (entry.cachedAtSlot ≠ c.currentSlot)

def invalidateEpoch : SysvarCache :=
  c.sweep .epochBound fun entry => decide (entry.epoch ≠ c.currentEpoch)

def stats : ℕ × ℕ := (c.hits, c.misses)

def len : ℕ := c.inner.len

/-- The entry that the cache holds under a key, stale or not. -/
def resident (key : CacheKey) : Option CachedResult :=
  c.inner.peek (key.syscallId, key.argsHash)

/-! ## What is resident after each operation -/

variable {c}

lemma pair_eq_iff {key key' : CacheKey} :
    (key'.syscallId, key'.argsHash) = (key.syscallId, key.argsHash) ↔ key' = key := by
  cases key
  cases key'
  simp

@[simp] lemma resident_new (capacity : ℕ) (epoch slot : UInt64) (key : CacheKey) :
    (new capacity epoch slot).resident key = none := LruCache.peek_new _ _ _

/-- What a `get` can do: miss, hit, or pop a stale entry. -/
lemma get_cases (key : CacheKey) :
    (c.resident key = none ∧ c.get key = (none, { c with misses := c.misses + 1 })) ∨
    (∃ entry, c.resident key = some entry ∧ c.valid (c.policy key.syscallId) entry = true ∧
      c.get key = (some entry,
        { c with inner := (c.inner.get (key.syscallId, key.argsHash)).2,
                 hits := c.hits + 1 })) ∨
    (∃ entry, c.resident key = some entry ∧ c.valid (c.policy key.syscallId) entry = false ∧
      c.get key = (none,
        { c with inner := c.inner.pop (key.syscallId, key.argsHash),
                 misses := c.misses + 1 })) := by
  cases hl : c.inner.peek (key.syscallId, key.argsHash) with
  | none => exact Or.inl ⟨hl, by simp [get, hl]⟩
  | some entry =>
    cases hv : c.valid (c.policy key.syscallId) entry with
    | true => exact Or.inr (Or.inl ⟨entry, hl, hv, by simp [get, hl, hv]⟩)
    | false => exact Or.inr (Or.inr ⟨entry, hl, hv, by simp [get, hl, hv]⟩)

/-- A `get` hits on the resident entries with a current tag. -/
lemma get_eq_some_iff {key : CacheKey} {entry : CachedResult} :
    (c.get key).1 = some entry ↔
      c.resident key = some entry ∧ c.valid (c.policy key.syscallId) entry = true := by
  rcases c.get_cases key with ⟨hr, hg⟩ | ⟨e, hr, hv, hg⟩ | ⟨e, hr, hv, hg⟩
  · simp [hr, hg]
  · rw [hr, hg, Option.some.injEq]
    constructor
    · rintro rfl
      exact ⟨rfl, hv⟩
    · exact fun h => h.1
  · rw [hr, hg, Option.some.injEq]
    constructor
    · intro h
      exact absurd h (by simp)
    · rintro ⟨rfl, hv'⟩
      exact absurd hv (by simp [hv'])

/-- A `get` drops nothing but a stale entry of its own key. -/
lemma resident_get_iff {key k : CacheKey} {entry : CachedResult} :
    (c.get key).2.resident k = some entry ↔
      c.resident k = some entry ∧
        (k = key → c.valid (c.policy key.syscallId) entry = true) := by
  rcases c.get_cases key with ⟨hr, hg⟩ | ⟨e, hr, hv, hg⟩ | ⟨e, hr, hv, hg⟩
  · have hres : (c.get key).2.resident k = c.resident k := by rw [hg]; rfl
    rw [hres]
    refine ⟨fun h => ⟨h, ?_⟩, fun h => h.1⟩
    rintro rfl
    rw [hr] at h
    exact absurd h (by simp)
  · have hres : (c.get key).2.resident k = c.resident k := by
      rw [hg]
      exact c.inner.peek_get _ _
    rw [hres]
    refine ⟨fun h => ⟨h, ?_⟩, fun h => h.1⟩
    rintro rfl
    rw [hr, Option.some.injEq] at h
    rw [← h, hv]
  · have hres : (c.get key).2.resident k = if k = key then none else c.resident k := by
      rw [hg]
      refine (c.inner.peek_pop _ _).trans ?_
      simp only [pair_eq_iff]
      rfl
    rw [hres]
    by_cases hk : k = key
    · subst hk
      rw [if_pos rfl]
      refine ⟨fun h => absurd h (by simp), ?_⟩
      rintro ⟨h, hv'⟩
      rw [hr, Option.some.injEq] at h
      rw [← h] at hv'
      exact absurd (hv' rfl) (by simp [hv])
    · rw [if_neg hk]
      exact ⟨fun h => ⟨h, fun h' => absurd h' hk⟩, fun h => h.1⟩

lemma resident_insert_self (key : CacheKey) (result : CachedResult) :
    (c.insert key result).resident key = some result := c.inner.peek_put_self _ _

/-- An `insert` may evict another entry but does not change it. -/
lemma resident_of_insert {key k : CacheKey} {result entry : CachedResult}
    (h : (c.insert key result).resident k = some entry) :
    (k = key ∧ entry = result) ∨ c.resident k = some entry := by
  rcases c.inner.peek_of_peek_put h with ⟨hk, he⟩ | h'
  · exact Or.inl ⟨pair_eq_iff.mp hk, he⟩
  · exact Or.inr h'

lemma resident_sweep_iff {policy : InvalidationPolicy} {stale : CachedResult → Bool}
    {k : CacheKey} {entry : CachedResult} :
    (c.sweep policy stale).resident k = some entry ↔
      c.resident k = some entry ∧
        ¬(c.invalidationMap.lookup k.syscallId = some policy ∧ stale entry = true) := by
  have h := c.inner.peek_popAll_keysWhere
    (fun k entry => decide (c.invalidationMap.lookup k.1 = some policy) && stale entry)
    (k.syscallId, k.argsHash)
  rw [resident, sweep, h, Option.filter_eq_some_iff]
  simp [resident, imp_iff_not_or]

/-! ## Everything else is unchanged -/

lemma get_snd_frame (key : CacheKey) :
    (c.get key).2.currentEpoch = c.currentEpoch ∧ (c.get key).2.currentSlot = c.currentSlot ∧
      (c.get key).2.invalidationMap = c.invalidationMap := by
  rcases c.get_cases key with ⟨-, hg⟩ | ⟨e, -, -, hg⟩ | ⟨e, -, -, hg⟩ <;> simp [hg]

/-! ## Runs -/

/-- What can happen to a cache and to the two counters it shares. -/
inductive Op
  | insert (key : CacheKey) (result : CachedResult)
  | get (key : CacheKey)
  | invalidateSlot
  | invalidateEpoch
  | setEpoch (epoch : UInt64)
  | setSlot (slot : UInt64)
deriving DecidableEq, Repr

def step (c : SysvarCache) : Op → SysvarCache
  | .insert key result => c.insert key result
  | .get key => (c.get key).2
  | .invalidateSlot => c.invalidateSlot
  | .invalidateEpoch => c.invalidateEpoch
  | .setEpoch epoch => { c with currentEpoch := epoch }
  | .setSlot slot => { c with currentSlot := slot }

/-- Only an `insert` makes an entry resident, and only the inserted one. -/
lemma resident_of_step {op : Op} {k : CacheKey} {entry : CachedResult}
    (h : (c.step op).resident k = some entry) :
    op = .insert k entry ∨ c.resident k = some entry := by
  cases op with
  | insert key result =>
    rcases resident_of_insert h with ⟨rfl, rfl⟩ | h'
    · exact Or.inl rfl
    · exact Or.inr h'
  | get key => exact Or.inr (resident_get_iff.mp h).1
  | invalidateSlot => exact Or.inr (resident_sweep_iff.mp h).1
  | invalidateEpoch => exact Or.inr (resident_sweep_iff.mp h).1
  | setEpoch epoch => exact Or.inr h
  | setSlot slot => exact Or.inr h

@[simp] lemma step_invalidationMap (op : Op) :
    (c.step op).invalidationMap = c.invalidationMap := by
  cases op with
  | get key => exact (get_snd_frame key).2.2
  | _ => rfl

/-- The counters move only when they are set. -/
lemma step_counters (op : Op) :
    (c.step op).currentEpoch = (match op with | .setEpoch e => e | _ => c.currentEpoch) ∧
      (c.step op).currentSlot = (match op with | .setSlot s => s | _ => c.currentSlot) := by
  cases op with
  | get key => exact ⟨(get_snd_frame key).1, (get_snd_frame key).2.1⟩
  | _ => exact ⟨rfl, rfl⟩

end SysvarCache

end SyscallMind
