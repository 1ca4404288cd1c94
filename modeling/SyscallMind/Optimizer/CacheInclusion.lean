/-
# A larger cache never loses a hit

Two sysvar caches of different capacities that go through the same run are used differently:
a `get` that misses in the smaller one may hit in the larger one and move its key there, or
pop a stale entry there.  Everything else happens to both.  So the caches stay related by
`Within` of the LRU map, and what the smaller one holds, the larger one holds.
-/
import SyscallMind.Optimizer.Cache

namespace SyscallMind

open Lib

namespace SysvarCache

/-- The larger cache `b` holds what `s` holds, and the two agree on what is current. -/
structure Within (s b : SysvarCache) : Prop where
  inner : LruCache.Within s.inner b.inner
  currentEpoch : s.currentEpoch = b.currentEpoch
  currentSlot : s.currentSlot = b.currentSlot
  invalidationMap : s.invalidationMap = b.invalidationMap

namespace Within

variable {s b : SysvarCache}

lemma resident (h : Within s b) {key : CacheKey} {entry : CachedResult}
    (hr : s.resident key = some entry) : b.resident key = some entry :=
  h.inner.peek hr

lemma valid (h : Within s b) (key : CacheKey) (entry : CachedResult) :
    s.valid (s.policy key.syscallId) entry = b.valid (b.policy key.syscallId) entry := by
  unfold SysvarCache.valid policy
  rw [h.currentEpoch, h.currentSlot, h.invalidationMap]

/-- A hit of the smaller cache is a hit of the larger one, with the same result. -/
lemma hit (h : Within s b) {key : CacheKey} {entry : CachedResult}
    (hg : (s.get key).1 = some entry) : (b.get key).1 = some entry := by
  obtain ⟨hr, hv⟩ := get_eq_some_iff.mp hg
  exact get_eq_some_iff.mpr ⟨h.resident hr, (h.valid key entry).symm.trans hv⟩

lemma insert (h : Within s b) (key : CacheKey) (result : CachedResult) :
    Within (s.insert key result) (b.insert key result) :=
  ⟨h.inner.put _ result, h.currentEpoch, h.currentSlot, h.invalidationMap⟩

/-- The three outcomes of a `get` in the larger cache when the smaller one has no entry. -/
lemma get_of_miss (h : Within s b) {key : CacheKey} (hs : s.resident key = none) :
    LruCache.Within s.inner (b.get key).2.inner := by
  rcases b.get_cases key with ⟨-, hg⟩ | ⟨e, -, -, hg⟩ | ⟨e, -, -, hg⟩
  · rw [hg]
    exact h.inner
  · rw [hg]
    exact h.inner.get_right hs
  · rw [hg]
    exact h.inner.pop_right hs

lemma get_inner (h : Within s b) (key : CacheKey) :
    LruCache.Within (s.get key).2.inner (b.get key).2.inner := by
  rcases s.get_cases key with ⟨hs, hg⟩ | ⟨e, hs, hv, hg⟩ | ⟨e, hs, hv, hg⟩
  · rw [hg]
    exact h.get_of_miss hs
  · -- a hit of both
    have hb := h.resident hs
    rw [h.valid] at hv
    have hgb : b.get key = (some e, { b with
        inner := (b.inner.get (key.syscallId, key.argsHash)).2, hits := b.hits + 1 }) := by
      rcases b.get_cases key with ⟨hb', -⟩ | ⟨e', hb', -, hg'⟩ | ⟨e', hb', hv', -⟩
      · exact absurd (hb.symm.trans hb') (by simp)
      · obtain rfl : e = e' := Option.some.inj (hb.symm.trans hb')
        exact hg'
      · obtain rfl : e = e' := Option.some.inj (hb.symm.trans hb')
        exact absurd (hv.symm.trans hv') (by simp)
    rw [hg, hgb]
    exact h.inner.get hs
  · -- the same stale entry in both
    have hb := h.resident hs
    rw [h.valid] at hv
    have hgb : b.get key = (none, { b with
        inner := b.inner.pop (key.syscallId, key.argsHash), misses := b.misses + 1 }) := by
      rcases b.get_cases key with ⟨hb', -⟩ | ⟨e', hb', hv', -⟩ | ⟨e', hb', -, hg'⟩
      · exact absurd (hb.symm.trans hb') (by simp)
      · obtain rfl : e = e' := Option.some.inj (hb.symm.trans hb')
        exact absurd (hv.symm.trans hv') (by simp)
      · exact hg'
    rw [hg, hgb]
    exact h.inner.pop _

lemma get (h : Within s b) (key : CacheKey) : Within (s.get key).2 (b.get key).2 := by
  obtain ⟨hes, hss, hms⟩ := get_snd_frame (c := s) key
  obtain ⟨heb, hsb, hmb⟩ := get_snd_frame (c := b) key
  refine ⟨h.get_inner key, ?_, ?_, ?_⟩
  · rw [hes, heb, h.currentEpoch]
  · rw [hss, hsb, h.currentSlot]
  · rw [hms, hmb, h.invalidationMap]

lemma sweep (h : Within s b) (policy : InvalidationPolicy) (stale : CachedResult → Bool) :
    Within (s.sweep policy stale) (b.sweep policy stale) := by
  refine ⟨?_, h.currentEpoch, h.currentSlot, h.invalidationMap⟩
  rw [SysvarCache.sweep, SysvarCache.sweep, h.invalidationMap]
  exact h.inner.popAll_keysWhere _

/-- Every operation keeps the relation. -/
lemma step (h : Within s b) (op : Op) : Within (s.step op) (b.step op) := by
  cases op with
  | insert key result => exact h.insert key result
  | get key => exact h.get key
  | invalidateSlot =>
    show Within s.invalidateSlot b.invalidateSlot
    rw [invalidateSlot, invalidateSlot, h.currentSlot]
    exact h.sweep _ _
  | invalidateEpoch =>
    show Within s.invalidateEpoch b.invalidateEpoch
    rw [invalidateEpoch, invalidateEpoch, h.currentEpoch]
    exact h.sweep _ _
  | setEpoch epoch => exact ⟨h.inner, rfl, h.currentSlot, h.invalidationMap⟩
  | setSlot slot => exact ⟨h.inner, h.currentEpoch, rfl, h.invalidationMap⟩

lemma new {c₁ c₂ : ℕ} (hle : c₁ ≤ c₂) (epoch slot : UInt64) :
    Within (SysvarCache.new c₁ epoch slot) (SysvarCache.new c₂ epoch slot) :=
  ⟨LruCache.Within.new _ _ (by omega), rfl, rfl, rfl⟩

end Within

/-- **Two caches in the same run.**  Whatever the smaller cache answers, the larger one
answers, and what is resident in the smaller one is resident in the larger one. -/
theorem larger_cache_keeps_hits {c₁ c₂ : ℕ} (hle : c₁ ≤ c₂) (epoch slot : UInt64)
    (ops : List Op) (key : CacheKey) (entry : CachedResult) :
    (((Run.after step (new c₁ epoch slot) ops).get key).1 = some entry →
        ((Run.after step (new c₂ epoch slot) ops).get key).1 = some entry) ∧
      ((Run.after step (new c₁ epoch slot) ops).resident key = some entry →
        (Run.after step (new c₂ epoch slot) ops).resident key = some entry) := by
  have hstep : ∀ s b op, Within s b → Within (step s op) (step b op) :=
    fun _ _ op h => h.step op
  have hwithin := Run.simulation hstep (Within.new hle epoch slot) ops
  exact ⟨hwithin.hit, hwithin.resident⟩

/-- The second insert, which is resident in a cache of one entry, is hit in a cache of two. -/
theorem larger_cache_keeps_hits_one_two :
    ((Run.after step (new 2 0 0)
        [.insert ⟨1, 0⟩ ⟨[7], 0, 0⟩, .insert ⟨2, 0⟩ ⟨[8], 0, 0⟩]).get ⟨2, 0⟩).1 =
          some ⟨[8], 0, 0⟩ ∧
      (Run.after step (new 2 0 0)
        [.insert ⟨1, 0⟩ ⟨[7], 0, 0⟩, .insert ⟨2, 0⟩ ⟨[8], 0, 0⟩]).resident ⟨2, 0⟩ =
          some ⟨[8], 0, 0⟩ := by
  have h := larger_cache_keeps_hits (by omega : 1 ≤ 2) 0 0
    [.insert ⟨1, 0⟩ ⟨[7], 0, 0⟩, .insert ⟨2, 0⟩ ⟨[8], 0, 0⟩] ⟨2, 0⟩ ⟨[8], 0, 0⟩
  exact ⟨h.1 (by decide), h.2 (by decide)⟩

end SysvarCache

end SyscallMind
