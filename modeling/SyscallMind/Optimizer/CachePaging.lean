/-
# The sysvar cache as a paging algorithm

In a run of reads through the cache in which no counter moves that decides about one of the
keys that are read, nothing that is resident ever goes stale, and the two sweeps find nothing
to do.  The cache then holds the last distinct keys that were read, as many as it has places
(`Pages`).  So it is known which reads hit, and the misses that the cache counts are bounded
by the loads of any other cache, even of one that knows all reads beforehand.
-/
import SyscallMind.Lib.Paging
import SyscallMind.Optimizer.CacheCoherence

namespace SyscallMind

open Lib SyscallIds

/-- The keys of the LRU map under which the reads of a run look. -/
def WorldOp.readKeys (ops : List WorldOp) : List (SyscallId × ArgsHash) :=
  ops.filterMap fun
    | .read key => some (key.syscallId, key.argsHash)
    | _ => none

/-- The operation moves the counter that the policy looks at. -/
def WorldOp.Moves : InvalidationPolicy → WorldOp → Prop
  | .epochBound, .setEpoch _ => True
  | .slot, .setSlot _ => True
  | _, _ => False

/-- No operation of the run moves the counter that decides about a key that the run reads. -/
def WorldOp.Steady (ops : List WorldOp) : Prop :=
  ∀ op ∈ ops, ∀ key, .read key ∈ ops →
    ¬ Moves ((registeredPolicies.lookup key.syscallId).getD .epochBound) op

namespace SysvarCache

open WorldOp

/-- The cache after an operation of a reader of the world, or of those around it. -/
def worldStep (v : World) (c : SysvarCache) : WorldOp → SysvarCache
  | .read key => (c.readThrough v key).2
  | .invalidateSlot => c.step .invalidateSlot
  | .invalidateEpoch => c.step .invalidateEpoch
  | .setEpoch epoch => c.step (.setEpoch epoch)
  | .setSlot slot => c.step (.setSlot slot)

/-- The cache holds the last distinct keys of `reads`, all of them valid, and has counted the
reads that found no key. -/
structure Pages (cap : ℕ) (reads : List (SyscallId × ArgsHash)) (c : SysvarCache) : Prop where
  policies : c.invalidationMap = registeredPolicies
  cap_eq : c.inner.cap = cap
  keys_eq : c.inner.keys = (Paging.recency [] reads).take c.inner.cap
  valid : ∀ key entry, c.resident key = some entry →
    c.valid (c.policy key.syscallId) entry = true
  misses_eq : c.misses = Paging.misses cap [] reads
  hits_add : c.hits + c.misses = reads.length

variable {v : World} {c : SysvarCache} {cap : ℕ} {reads : List (SyscallId × ArgsHash)}

lemma pages_new (capacity : ℕ) (epoch slot : UInt64) :
    Pages (max capacity 1) [] (new capacity epoch slot) where
  policies := rfl
  cap_eq := rfl
  keys_eq := by rw [Paging.recency_nil, List.take_nil]; rfl
  valid key entry h := absurd h (by simp)
  misses_eq := rfl
  hits_add := rfl

namespace Pages

lemma resident_iff (h : Pages cap reads c) (key : CacheKey) :
    (∃ entry, c.resident key = some entry) ↔
      (key.syscallId, key.argsHash) ∈ (Paging.recency [] reads).take cap := by
  rw [← h.cap_eq, ← h.keys_eq, LruCache.mem_keys_iff]
  rfl

/-- Only keys that were read are resident. -/
lemma mem_of_resident (h : Pages cap reads c) {key : CacheKey} {entry : CachedResult}
    (hr : c.resident key = some entry) : (key.syscallId, key.argsHash) ∈ reads :=
  Paging.mem_recency_iff.mp (List.mem_of_mem_take ((h.resident_iff key).mp ⟨entry, hr⟩))

/-- A read of a resident key: the key moves to the front. -/
lemma hit (h : Pages cap reads c) {key : CacheKey} {entry : CachedResult}
    (hr : c.resident key = some entry) :
    Pages cap (reads ++ [(key.syscallId, key.argsHash)])
      { c with inner := (c.inner.get (key.syscallId, key.argsHash)).2, hits := c.hits + 1 } where
  policies := h.policies
  cap_eq := by rw [← h.cap_eq]; exact c.inner.cap_get _
  keys_eq := by
    rw [LruCache.cap_get]
    exact LruCache.keys_get_of_recency h.keys_eq hr
  valid key' entry' hr' := by
    refine h.valid key' entry' ?_
    rw [← hr']
    exact (c.inner.peek_get _ _).symm
  misses_eq := by
    rw [Paging.misses_concat, if_pos ((h.resident_iff key).mp ⟨entry, hr⟩), Nat.add_zero]
    exact h.misses_eq
  hits_add := by
    have hsum := h.hits_add
    rw [List.length_append, List.length_singleton]
    dsimp only
    omega

/-- A read of a key that is not resident: the answer is stored in front. -/
lemma miss (h : Pages cap reads c) {key : CacheKey} (hr : c.resident key = none)
    (data : List UInt8) :
    Pages cap (reads ++ [(key.syscallId, key.argsHash)])
      (({ c with misses := c.misses + 1 } : SysvarCache).insert key
        ⟨data, c.currentEpoch, c.currentSlot⟩) where
  policies := h.policies
  cap_eq := h.cap_eq
  keys_eq := LruCache.keys_put_of_recency h.keys_eq _ _
  valid key' entry' hr' := by
    rcases resident_of_insert hr' with ⟨rfl, rfl⟩ | hr''
    · -- the stored tags are the current ones
      cases hp : c.policy key'.syscallId with
      | permanent => exact congrArg (fun p => c.valid p _) hp
      | epochBound => exact (congrArg (fun p => c.valid p _) hp).trans (decide_eq_true rfl)
      | slot => exact (congrArg (fun p => c.valid p _) hp).trans (decide_eq_true rfl)
    · exact h.valid key' entry' hr''
  misses_eq := by
    have hnot : (key.syscallId, key.argsHash) ∉ (Paging.recency [] reads).take cap := by
      rw [← h.resident_iff, hr]
      simp
    rw [Paging.misses_concat, if_neg hnot, ← h.misses_eq]
    rfl
  hits_add := by
    have hsum := h.hits_add
    rw [List.length_append, List.length_singleton, ← hsum]
    rfl

lemma read (h : Pages cap reads c) (key : CacheKey) :
    Pages cap (reads ++ [(key.syscallId, key.argsHash)]) (c.readThrough v key).2 := by
  rcases c.get_cases key with ⟨hr, hg⟩ | ⟨entry, hr, -, hg⟩ | ⟨entry, hr, hv, -⟩
  · rw [readThrough, hg]
    exact h.miss hr _
  · rw [readThrough, hg]
    exact h.hit hr
  · exact absurd (h.valid key entry hr) (by simp [hv])

/-- A sweep finds no stale entry. -/
lemma sweep (h : Pages cap reads c) {policy : InvalidationPolicy} {stale : CachedResult → Bool}
    (hstale : ∀ entry, stale entry = !c.valid policy entry) :
    Pages cap reads (c.sweep policy stale) := by
  have hnone : c.inner.keysWhere (fun k entry =>
      decide (c.invalidationMap.lookup k.1 = some policy) && stale entry) = [] := by
    rw [List.eq_nil_iff_forall_not_mem]
    rintro k hk
    obtain ⟨entry, hpeek, hp⟩ := c.inner.mem_keysWhere_iff.mp hk
    rw [Bool.and_eq_true, decide_eq_true_eq] at hp
    have hvalid := h.valid ⟨k.1, k.2⟩ entry hpeek
    rw [SysvarCache.policy, hp.1, Option.getD_some] at hvalid
    rw [hstale, hvalid] at hp
    exact absurd hp.2 (by simp)
  have hsame : c.sweep policy stale = c := by
    rw [SysvarCache.sweep, hnone]
    rfl
  rw [hsame]
  exact h

/-- Moving a counter that decides about none of the keys that were read changes nothing. -/
lemma setCounters (h : Pages cap reads c) {epoch slot : UInt64}
    (hfix : ∀ key : CacheKey, (key.syscallId, key.argsHash) ∈ reads →
      match c.policy key.syscallId with
      | .permanent => True
      | .epochBound => epoch = c.currentEpoch
      | .slot => slot = c.currentSlot) :
    Pages cap reads { c with currentEpoch := epoch, currentSlot := slot } where
  policies := h.policies
  cap_eq := h.cap_eq
  keys_eq := h.keys_eq
  valid key entry hr := by
    have hvalid := h.valid key entry hr
    have hsame := hfix key (h.mem_of_resident hr)
    have hpolicy : SysvarCache.policy { c with currentEpoch := epoch, currentSlot := slot }
        key.syscallId = c.policy key.syscallId := rfl
    rw [hpolicy]
    cases hp : c.policy key.syscallId with
    | permanent => rfl
    | epochBound =>
      rw [hp] at hvalid hsame
      subst hsame
      exact hvalid
    | slot =>
      rw [hp] at hvalid hsame
      subst hsame
      exact hvalid
  misses_eq := h.misses_eq
  hits_add := h.hits_add

/-- One operation of a steady run. -/
lemma step (h : Pages cap reads c) {op : WorldOp}
    (hop : ∀ key : CacheKey, (key.syscallId, key.argsHash) ∈ reads →
      ¬ Moves ((registeredPolicies.lookup key.syscallId).getD .epochBound) op) :
    Pages cap (reads ++ readKeys [op]) (c.worldStep v op) := by
  cases op with
  | read key => exact h.read key
  | invalidateSlot =>
    rw [show readKeys [WorldOp.invalidateSlot] = [] from rfl, List.append_nil]
    exact h.sweep fun entry => by simp [SysvarCache.valid]
  | invalidateEpoch =>
    rw [show readKeys [WorldOp.invalidateEpoch] = [] from rfl, List.append_nil]
    exact h.sweep fun entry => by simp [SysvarCache.valid]
  | setEpoch epoch =>
    rw [show readKeys [WorldOp.setEpoch epoch] = [] from rfl, List.append_nil]
    refine h.setCounters fun key hkey => ?_
    have hmoves := hop key hkey
    rw [← h.policies] at hmoves
    rw [policy]
    cases hp : (c.invalidationMap.lookup key.syscallId).getD .epochBound with
    | epochBound =>
      rw [hp] at hmoves
      exact absurd trivial hmoves
    | permanent => trivial
    | slot => rfl
  | setSlot slot =>
    rw [show readKeys [WorldOp.setSlot slot] = [] from rfl, List.append_nil]
    refine h.setCounters fun key hkey => ?_
    have hmoves := hop key hkey
    rw [← h.policies] at hmoves
    rw [policy]
    cases hp : (c.invalidationMap.lookup key.syscallId).getD .epochBound with
    | slot =>
      rw [hp] at hmoves
      exact absurd trivial hmoves
    | permanent => trivial
    | epochBound => rfl

lemma run (h : Pages cap reads c) {ops : List WorldOp}
    (hops : ∀ op ∈ ops, ∀ key : CacheKey,
      (key.syscallId, key.argsHash) ∈ reads ++ readKeys ops →
        ¬ Moves ((registeredPolicies.lookup key.syscallId).getD .epochBound) op) :
    Pages cap (reads ++ readKeys ops) (Run.after (worldStep v) c ops) := by
  induction ops generalizing c reads with
  | nil =>
    rw [readKeys, List.filterMap_nil, List.append_nil]
    exact h
  | cons op ops ih =>
    have hkeys : reads ++ readKeys (op :: ops) = reads ++ readKeys [op] ++ readKeys ops := by
      rw [List.append_assoc]
      exact congrArg (reads ++ ·) (List.filterMap_append (l := [op]))
    rw [hkeys] at hops ⊢
    refine ih (h.step fun key hkey => ?_) fun op' hop' => hops op' (List.mem_cons_of_mem _ hop')
    refine hops op List.mem_cons_self key ?_
    rw [List.append_assoc]
    exact List.mem_append_left _ hkey

end Pages

lemma mem_readKeys_iff {ops : List WorldOp} {key : CacheKey} :
    (key.syscallId, key.argsHash) ∈ readKeys ops ↔ .read key ∈ ops := by
  rw [readKeys, List.mem_filterMap]
  constructor
  · rintro ⟨op, hop, heq⟩
    cases op with
    | read key' =>
      rw [Option.some.injEq] at heq
      rwa [← pair_eq_iff.mp heq]
    | _ => exact absurd heq (by simp)
  · intro hop
    exact ⟨_, hop, rfl⟩

/-- The cache after a steady run. -/
lemma pages_of_steady (v : World) (capacity : ℕ) (epoch slot : UInt64) {ops : List WorldOp}
    (h : Steady ops) :
    Pages (max capacity 1) (readKeys ops)
      (Run.after (worldStep v) (new capacity epoch slot) ops) := by
  refine (pages_new capacity epoch slot).run fun op hop key hkey => ?_
  rw [List.nil_append, mem_readKeys_iff] at hkey
  exact h op hop key hkey

/-- **Which reads hit.**  After a steady run a key is found exactly when it was read before and
fewer distinct keys than the cache has places were read since. -/
theorem get_isSome_iff_of_steady (v : World) (capacity : ℕ) (epoch slot : UInt64)
    (ops : List WorldOp) (key : CacheKey) (h : Steady ops) :
    ((Run.after (worldStep v) (new capacity epoch slot) ops).get key).1.isSome = true ↔
      ∃ before since, readKeys ops = before ++ (key.syscallId, key.argsHash) :: since ∧
        (key.syscallId, key.argsHash) ∉ since ∧ since.toFinset.card < max capacity 1 := by
  have hpages := pages_of_steady v capacity epoch slot h
  rw [← Paging.mem_take_recency_iff, ← hpages.resident_iff, Option.isSome_iff_exists]
  constructor
  · rintro ⟨entry, hget⟩
    exact ⟨entry, (get_eq_some_iff.mp hget).1⟩
  · rintro ⟨entry, hr⟩
    exact ⟨entry, get_eq_some_iff.mpr ⟨hr, hpages.valid key entry hr⟩⟩

/-- Two hashes are read in turn while the epoch moves. -/
def hashReads : List WorldOp :=
  [.read ⟨solSha256, 7⟩, .setEpoch 2, .read ⟨solKeccak256, 7⟩, .invalidateEpoch,
    .read ⟨solSha256, 7⟩]

lemma hashReads_steady : Steady hashReads := by
  intro op hop key hkey
  have hpermanent : (registeredPolicies.lookup key.syscallId).getD .epochBound = .permanent := by
    simp only [hashReads, List.mem_cons, List.not_mem_nil, or_false, WorldOp.read.injEq,
      reduceCtorEq, false_or] at hkey
    rcases hkey with rfl | rfl | rfl <;> decide
  rw [hpermanent]
  cases op <;> exact id

/-- The hash that was not read last is still found in a cache of two places. -/
theorem get_isSome_of_hashReads :
    ((Run.after (worldStep tagWorld) (new 2 1 10) hashReads).get ⟨solKeccak256, 7⟩).1.isSome =
      true :=
  (get_isSome_iff_of_steady tagWorld 2 1 10 hashReads ⟨solKeccak256, 7⟩ hashReads_steady).mpr
    ⟨[(solSha256, 7)], [(solSha256, 7)], by decide, by decide, by decide⟩

/-- **The misses are competitive.**  Take any way to answer the reads of a steady run from a
cache of `h` places, at most as many as this one has, that is chosen with all reads known and
loads `n` keys.  If this cache has `m` places, it counts at most `m / (m + 1 - h)` times `n`
misses, and every other read is a hit. -/
theorem misses_competitive_of_steady (v : World) (capacity : ℕ) (epoch slot : UInt64)
    (ops : List WorldOp) (hsteady : Steady ops) (h n : ℕ)
    (T : Finset (SyscallId × ArgsHash)) (hpos : 0 < h) (hle : h ≤ max capacity 1)
    (hserves : Paging.Serves h ∅ (readKeys ops) n T) :
    let stats := (Run.after (worldStep v) (new capacity epoch slot) ops).stats
    (max capacity 1 + 1 - h) * stats.2 ≤ max capacity 1 * n ∧
      stats.1 + stats.2 = (readKeys ops).length := by
  have hpages := pages_of_steady v capacity epoch slot hsteady
  refine ⟨?_, hpages.hits_add⟩
  rw [stats, hpages.misses_eq]
  exact Paging.misses_le_of_serves hpos hle hserves

/-- The three reads are served from two places with two loads. -/
theorem misses_competitive_of_hashReads :
    (Run.after (worldStep tagWorld) (new 2 1 10) hashReads).stats.2 ≤ 4 := by
  have hserves : Paging.Serves 2 ∅ (readKeys hashReads) 2
      {(solSha256, 7), (solKeccak256, 7)} := by
    refine @Paging.Serves.cons _ _ 2 ∅ {(solSha256, 7)} _ _ _ 1 (by decide) (by decide) ?_
    refine @Paging.Serves.cons _ _ 2 _ {(solSha256, 7), (solKeccak256, 7)} _ _ _ 0
      (by decide) (by decide) ?_
    exact @Paging.Serves.cons _ _ 2 _ {(solSha256, 7), (solKeccak256, 7)} _ _ _ 0
      (by decide) (by decide) (.nil _)
  have h := (misses_competitive_of_steady tagWorld 2 1 10 hashReads hashReads_steady 2 2 _
    (by decide) (by decide) hserves).1
  rwa [show max 2 1 + 1 - 2 = 1 from rfl, Nat.one_mul] at h

end SysvarCache

end SyscallMind
