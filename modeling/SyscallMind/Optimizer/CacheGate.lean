/-
# The cache in front of the calls

Calls whose id `validate_cache` approves are answered by `SysvarCache::get`; a miss executes
the call and inserts its result under the current epoch and slot.  The calls are issued
inside one slot of one epoch, so that no tag ever becomes old.

The gate looks at one id and the cache at two counters: neither sees that a call between two
reads has changed the state.  So every hit is fresh, for every capacity and every semantics
that obeys the class definitions, exactly when no read-only call is made both before and
after a call that is not eligible (`cache_hits_fresh_iff`).
-/
import SyscallMind.Lib.Memo
import SyscallMind.Optimizer.Cache
import SyscallMind.Safety.Probes

namespace SyscallMind

open Lib

/-- The key under which the cache holds a call. -/
def Call.cacheKey (c : Call) : CacheKey := ⟨c.syscallId, c.argsHash⟩

/-- One call through the gate. -/
def cacheCall (v : SafetyValidator) (sem : SyscallSemantics) (ts : SysvarCache × sem.State)
    (c : Call) : Memo.Outcome (List UInt8) × SysvarCache × sem.State :=
  if (v.validateCache c.syscallId).approved then
    match ts.1.get c.cacheKey with
    | (some entry, t) => (.hit entry.data, t, ts.2)
    | (none, t) =>
        let (result, s) := sem.exec c ts.2
        (.executed result, t.insert c.cacheKey ⟨result, t.currentEpoch, t.currentSlot⟩, s)
  else
    let (result, s) := sem.exec c ts.2
    (.executed result, ts.1, s)

/-- The cache and the state after a sequence of calls through the gate. -/
def cacheAfter (v : SafetyValidator) (sem : SyscallSemantics) (ts : SysvarCache × sem.State)
    (calls : List Call) : SysvarCache × sem.State :=
  calls.foldl (fun ts c => (cacheCall v sem ts c).2) ts

/-- Every hit returns what executing the call at that point would return. -/
def CacheHitsFresh (v : SafetyValidator) (sem : SyscallSemantics)
    (ts : SysvarCache × sem.State) (calls : List Call) : Prop :=
  ∀ pre c post, calls = pre ++ c :: post → ∀ r,
    (cacheCall v sem (cacheAfter v sem ts pre) c).1 = .hit r →
      r = (sem.exec c (cacheAfter v sem ts pre).2).1

/-- No read-only call is made both before and after a call that is not eligible. -/
def NoReadAcrossWrite (calls : List Call) : Prop :=
  ∀ pre c mid c' post, calls = pre ++ c :: (mid ++ c' :: post) →
    c.safetyClass = .readOnly → c.syscallId = c'.syscallId → c.argsHash = c'.argsHash →
      ∀ x ∈ mid, x.eligible = true

/-! ## The cache as a store of results -/

namespace SysvarCache

/-- The cache as a store that may evict. -/
def store : Memo.Store CacheKey (List UInt8) where
  T := SysvarCache
  lookup t k := ((t.get k).1.map CachedResult.data, (t.get k).2)
  record t k r := t.insert k ⟨r, t.currentEpoch, t.currentSlot⟩
  contents t k := (t.resident k).map CachedResult.data
  lookup_sound := by
    intro t k r hr
    obtain ⟨entry, hget, rfl⟩ := Option.map_eq_some_iff.mp hr
    rw [(get_eq_some_iff.mp hget).1, Option.map_some]
  contents_of_lookup := by
    intro t k k' r hr
    obtain ⟨entry, hres, rfl⟩ := Option.map_eq_some_iff.mp hr
    rw [(resident_get_iff.mp hres).1, Option.map_some]
  contents_of_record := by
    intro t k k' r r' hr
    obtain ⟨entry, hres, rfl⟩ := Option.map_eq_some_iff.mp hr
    rcases resident_of_insert hres with ⟨hk, rfl⟩ | hres'
    · exact Or.inl ⟨hk, rfl⟩
    · right
      rw [hres', Option.map_some]

/-- All tags are current and there is room for `n` more entries. -/
def Fits (t : SysvarCache) (n : ℕ) : Prop :=
  t.inner.len + n ≤ t.inner.cap ∧ ∀ key entry, t.resident key = some entry →
    entry.epoch = t.currentEpoch ∧ entry.cachedAtSlot = t.currentSlot

lemma fits_new {capacity n : ℕ} (h : n ≤ capacity) (epoch slot : UInt64) :
    Fits (new capacity epoch slot) n := by
  refine ⟨?_, fun key entry hres => absurd hres (by simp)⟩
  simp only [new, LruCache.len_new, LruCache.cap_new]
  omega

variable {t : SysvarCache} {n : ℕ}

lemma Fits.mono (h : Fits t (n + 1)) : Fits t n := by
  obtain ⟨hroom, htags⟩ := h
  exact ⟨by omega, htags⟩

/-- A current entry is valid under every policy. -/
lemma Fits.get_of_resident (h : Fits t n) {key : CacheKey} {entry : CachedResult}
    (hres : t.resident key = some entry) : (t.get key).1 = some entry := by
  obtain ⟨hepoch, hslot⟩ := h.2 key entry hres
  refine get_eq_some_iff.mpr ⟨hres, ?_⟩
  cases t.policy key.syscallId with
  | permanent => rfl
  | epochBound => exact decide_eq_true hepoch
  | slot => exact decide_eq_true hslot

/-- When all tags are current, a `get` drops nothing. -/
lemma Fits.resident_get (h : Fits t n) (key k : CacheKey) :
    (t.get key).2.resident k = t.resident k := by
  ext entry
  rw [resident_get_iff]
  refine ⟨fun h' => h'.1, fun hres => ⟨hres, ?_⟩⟩
  rintro rfl
  exact (get_eq_some_iff.mp (h.get_of_resident hres)).2

lemma Fits.get (h : Fits t n) (key : CacheKey) : Fits (t.get key).2 n := by
  obtain ⟨hepoch, hslot, -⟩ := t.get_snd_frame key
  refine ⟨?_, ?_⟩
  · rcases t.get_cases key with ⟨-, hg⟩ | ⟨e, -, -, hg⟩ | ⟨e, hres, hv, -⟩
    · rw [hg]
      exact h.1
    · rw [hg]
      simpa using h.1
    · have hget := h.get_of_resident hres
      exact absurd (get_eq_some_iff.mp hget).2 (by simp [hv])
  · intro k entry hres
    rw [hepoch, hslot]
    exact h.2 k entry (by rwa [h.resident_get] at hres)

lemma Fits.insert (h : Fits t (n + 1)) (key : CacheKey) (data : List UInt8) :
    Fits (t.insert key ⟨data, t.currentEpoch, t.currentSlot⟩) n := by
  refine ⟨?_, ?_⟩
  · have hlen := t.inner.len_put_le (key.syscallId, key.argsHash)
      ⟨data, t.currentEpoch, t.currentSlot⟩
    have hroom := h.1
    simp only [SysvarCache.insert, LruCache.cap_put]
    omega
  · intro k entry hres
    rcases resident_of_insert hres with ⟨-, rfl⟩ | hres'
    · exact ⟨rfl, rfl⟩
    · exact h.2 k entry hres'

lemma resident_insert_of_room {key k : CacheKey} (result : CachedResult)
    (hroom : t.inner.len < t.inner.cap) (hk : k ≠ key) :
    (t.insert key result).resident k = t.resident k :=
  t.inner.peek_put_of_room result hroom fun h => hk (pair_eq_iff.mp h)

lemma store_retains : Memo.Retains store Fits where
  mono h := h.mono
  lookup_complete := by
    intro t n k r h hr
    obtain ⟨entry, hres, rfl⟩ := Option.map_eq_some_iff.mp hr
    exact congrArg (Option.map CachedResult.data) (h.get_of_resident hres)
  fits_lookup k h := h.get k
  fits_record k r h := h.insert k r
  contents_lookup := by
    intro t n k' r k h hr
    rw [← hr]
    exact congrArg (Option.map CachedResult.data) (h.resident_get k k')
  contents_record_self := by
    intro t k r
    exact congrArg (Option.map CachedResult.data) (resident_insert_self k _)
  contents_record_ne := by
    intro t n k k' r r' h hne hr
    rw [← hr]
    have hroom : t.inner.len < t.inner.cap := by
      have := h.1
      omega
    exact congrArg (Option.map CachedResult.data) (resident_insert_of_room _ hroom hne)

end SysvarCache

/-! ## The gate -/

section Gate

variable (sem : SyscallSemantics)

/-- The gate is memoisation of the eligible calls in the cache. -/
lemma cacheCall_eq_step (ts : SysvarCache × sem.State) (c : Call) :
    cacheCall (SafetyValidator.new true) sem ts c =
      Memo.step SysvarCache.store Call.eligible Call.cacheKey sem.exec ts c := by
  have happ : ((SafetyValidator.new true).validateCache c.syscallId).approved = c.eligible :=
    SafetyValidator.validateCache_approved c.syscallId
  rw [cacheCall, happ]
  cases he : c.eligible with
  | false => exact (Memo.step_of_not_memo SysvarCache.store _ Call.cacheKey _ he).symm
  | true =>
    rcases hl : ts.1.get c.cacheKey with ⟨_ | entry, t⟩
    · have hl' : SysvarCache.store.lookup ts.1 c.cacheKey = (none, t) := by
        simp only [SysvarCache.store, hl, Option.map_none]
      exact (Memo.step_of_miss SysvarCache.store _ Call.cacheKey _ he hl').symm
    · have hl' : SysvarCache.store.lookup ts.1 c.cacheKey = (some entry.data, t) := by
        simp only [SysvarCache.store, hl, Option.map_some]
      exact (Memo.step_of_hit SysvarCache.store _ Call.cacheKey _ he hl').symm

lemma cacheHitsFresh_iff (ts : SysvarCache × sem.State) (calls : List Call) :
    CacheHitsFresh (SafetyValidator.new true) sem ts calls ↔
      Memo.HitsFresh SysvarCache.store Call.eligible Call.cacheKey sem.exec ts calls := by
  have hafter : ∀ cs, cacheAfter (SafetyValidator.new true) sem ts cs =
      Memo.after SysvarCache.store Call.eligible Call.cacheKey sem.exec ts cs := by
    intro cs
    simp only [cacheAfter, Memo.after, cacheCall_eq_step]
    rfl
  have hstep : ∀ pre c, (cacheCall (SafetyValidator.new true) sem
      (cacheAfter (SafetyValidator.new true) sem ts pre) c).1 =
        (Memo.step SysvarCache.store Call.eligible Call.cacheKey sem.exec
          (Memo.after SysvarCache.store Call.eligible Call.cacheKey sem.exec ts pre) c).1 := by
    intro pre c
    rw [hafter pre]
    exact congrArg Prod.fst (cacheCall_eq_step sem _ c)
  simp only [CacheHitsFresh, Memo.HitsFresh, hstep]
  simp only [hafter]

variable {sem}

/-- If no read-only call is made on both sides of a write, repeating a call gives its
result. -/
lemma safeReuse_of_noReadAcrossWrite (hsem : sem.Admissible) {calls : List Call}
    (hinj : HashInjective calls) (h : NoReadAcrossWrite calls) (s : sem.State) :
    Memo.SafeReuse Call.eligible Call.cacheKey sem.exec s calls := by
  intro pre c mid c' post hcalls hc hc' hkey
  obtain ⟨hid, hhash⟩ := CacheKey.mk.inj hkey
  have hargs : c.args = c'.args :=
    hinj c (by rw [hcalls]; simp) c' (by rw [hcalls]; simp) hhash
  refine hsem.toProgram.repeat_result hc hid hargs ?_ s
  intro hro
  exact ⟨hsem.readOnly_result hro hid hargs, h pre c mid c' post hcalls hro hid hhash⟩

end Gate

/-- If repeating a call is safe under the counting semantics, no read-only call is made on
both sides of a write. -/
lemma noReadAcrossWrite_of_counting {calls : List Call}
    (h : Memo.SafeReuse Call.eligible Call.cacheKey (countingExec fun _ => []) 0 calls) :
    NoReadAcrossWrite calls := by
  intro pre c mid c' post hcalls hro hid hhash
  have hkey : Call.cacheKey c = Call.cacheKey c' := by
    rw [Call.cacheKey, Call.cacheKey, hid, hhash]
  exact (countingSemantics.eligible_of_safeReuse (fun _ => []) (by simp) h hcalls hro hid
    hkey).2

/-- **Every hit is fresh exactly when no read-only call is made both before and after a call
that is not eligible.** -/
theorem cache_hits_fresh_iff (calls : List Call) (hinj : HashInjective calls) :
    (∀ (capacity : ℕ) (epoch slot : UInt64) (sem : SyscallSemantics), sem.Admissible →
      ∀ s : sem.State, CacheHitsFresh (SafetyValidator.new true) sem
        (SysvarCache.new capacity epoch slot, s) calls) ↔
      NoReadAcrossWrite calls := by
  constructor
  · intro h
    -- the counting semantics and a cache with room for all calls are enough
    have hadm := countingSemantics.admissible
    have hfresh := (cacheHitsFresh_iff _ _ _).mp
      (h calls.length 0 0 (countingSemantics fun _ => []) hadm (0 : ℕ))
    exact noReadAcrossWrite_of_counting (Memo.safeReuse_of_hitsFresh SysvarCache.store
      Call.eligible Call.cacheKey (countingExec fun _ => []) SysvarCache.store_retains
      (fun c hc => hadm.toProgram.preserves hc) (SysvarCache.fits_new le_rfl 0 0) hfresh)
  · intro h capacity epoch slot sem hsem s
    have hempty : ∀ k,
        SysvarCache.store.contents (SysvarCache.new capacity epoch slot) k = none :=
      fun k => congrArg (Option.map CachedResult.data)
        (SysvarCache.resident_new capacity epoch slot k)
    rw [cacheHitsFresh_iff]
    exact Memo.hitsFresh_of_safeReuse SysvarCache.store Call.cacheKey
      (fun c hc => hsem.toProgram.preserves hc) hempty
      (safeReuse_of_noReadAcrossWrite hsem hinj h s)

/-- The clock can be read twice through the cache. -/
theorem cache_hits_fresh_iff_readTwice :
    CacheHitsFresh (SafetyValidator.new true) returnDataSemantics
      (SysvarCache.new 128 1 10, ([] : List UInt8)) readTwice := by
  have hsafe : NoReadAcrossWrite readTwice := by
    intro pre c mid c' post hcalls _ _ _
    obtain ⟨-, rfl⟩ := readTwice_split hcalls
    simp
  exact (cache_hits_fresh_iff readTwice readTwice_hashInjective).mpr hsafe 128 1 10
    returnDataSemantics returnDataSemantics_admissible ([] : List UInt8)

/-- After the return data is set, the cache answers with what was there before. -/
theorem cache_stale_hit :
    returnDataSemantics.Admissible ∧ HashInjective readWriteRead ∧
      ¬ CacheHitsFresh (SafetyValidator.new true) returnDataSemantics
        (SysvarCache.new 128 1 10, ([] : List UInt8)) readWriteRead := by
  refine ⟨returnDataSemantics_admissible, readWriteRead_hashInjective, ?_⟩
  intro h
  have hstale := h (readWriteRead.take 2) ⟨zeroPubkey, SyscallIds.solGetReturnData, []⟩ []
    rfl [] (by decide)
  exact absurd hstale (by decide)

end SyscallMind
