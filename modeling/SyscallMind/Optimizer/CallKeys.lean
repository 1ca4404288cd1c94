/-
# The keys of calls whose arguments differ in one field

The three stores of the optimizer know a call by the argument hash of its trace event: the cache
and the prefetch buffer together with the id, the deduplication table together with the
transaction and the id.

The hash never confuses arguments that differ in one field of four bytes, at any offset, and
what follows the arguments does not matter to it (`args_hash_separates`).  So such calls have
different keys in all three stores, and what is stored for one is not found for the other
(`KeysApart.stores_frame`).
-/
import SyscallMind.Optimizer.Cache
import SyscallMind.Optimizer.Dedup
import SyscallMind.Optimizer.Prefetcher
import SyscallMind.Runtime.ArgsHash

namespace SyscallMind

open Lib

namespace SyscallTraceEvent

def cacheKey (e : SyscallTraceEvent) : CacheKey := ⟨e.syscallId, e.argsHash⟩

def dedupKey (e : SyscallTraceEvent) : TransactionId × SyscallId × ArgsHash :=
  (e.transactionId, e.syscallId, e.argsHash)

def prefetchKey (e : SyscallTraceEvent) : SyscallId × ArgsHash := (e.syscallId, e.argsHash)

end SyscallTraceEvent

/-- The two events share a key in none of the stores. -/
structure KeysApart (e e' : SyscallTraceEvent) : Prop where
  cache : e.cacheKey ≠ e'.cacheKey
  dedup : e.dedupKey ≠ e'.dedupKey
  prefetch : e.prefetchKey ≠ e'.prefetchKey

lemma keysApart_of_argsHash_ne {e e' : SyscallTraceEvent} (hne : e.argsHash ≠ e'.argsHash) :
    KeysApart e e' where
  cache heq := hne (congrArg CacheKey.argsHash heq)
  dedup heq := hne (congrArg (fun k => k.2.2) heq)
  prefetch heq := hne (congrArg Prod.snd heq)

namespace KeysApart

variable {e e' : SyscallTraceEvent}

/-! ## What is stored for one of the events -/

lemma check_record (hapart : KeysApart e e') (t : DedupTable) (result : List UInt8) :
    (t.record e.transactionId e.syscallId e.argsHash result).check e'.transactionId e'.syscallId
      e'.argsHash = t.check e'.transactionId e'.syscallId e'.argsHash := by
  rw [DedupTable.check_record]
  exact if_neg hapart.dedup.symm

lemma resident_of_insert (hapart : KeysApart e e') {c : SysvarCache}
    {result entry : CachedResult}
    (hres : (c.insert e.cacheKey result).resident e'.cacheKey = some entry) :
    c.resident e'.cacheKey = some entry := by
  rcases SysvarCache.resident_of_insert hres with ⟨hkey, _⟩ | hres'
  · exact absurd hkey.symm hapart.cache
  · exact hres'

lemma lookup_triggerOne (hapart : KeysApart e e') (s : SpeculativePrefetcher) (confidence : F32) :
    (s.triggerOne (e.syscallId, e.argsHash, confidence)).buffer.lookup e'.prefetchKey =
      s.buffer.lookup e'.prefetchKey := by
  rcases s.triggerOne_cases (e.syscallId, e.argsHash, confidence) with ⟨-, -, h⟩ | ⟨-, h⟩
  · rw [h]
    exact AList.lookup_insert_ne hapart.prefetch.symm
  · rw [h]

/-- **What is stored for one call is not found for the other**, whichever store it is and
whatever else the store holds. -/
theorem stores_frame (hapart : KeysApart e e') (t : DedupTable) (c : SysvarCache)
    (s : SpeculativePrefetcher) (result : List UInt8) (cached : CachedResult) (confidence : F32) :
    (t.record e.transactionId e.syscallId e.argsHash result).check e'.transactionId e'.syscallId
        e'.argsHash = t.check e'.transactionId e'.syscallId e'.argsHash ∧
      (∀ entry, (c.insert e.cacheKey cached).resident e'.cacheKey = some entry →
        c.resident e'.cacheKey = some entry) ∧
      (s.triggerOne (e.syscallId, e.argsHash, confidence)).buffer.lookup e'.prefetchKey =
        s.buffer.lookup e'.prefetchKey :=
  ⟨hapart.check_record t result, fun _ => hapart.resident_of_insert,
    hapart.lookup_triggerOne s confidence⟩

end KeysApart

/-- **The argument hash tells arguments apart that differ in one field**, wherever the field is
and however long the arguments are, and a common suffix changes nothing.  Calls with such
arguments have different keys for the cache, for deduplication and for prefetching. -/
theorem args_hash_separates :
    (∀ p q : List UInt8, DifferInField p q → fnvHash p ≠ fnvHash q) ∧
    (∀ p q s : List UInt8, fnvHash (p ++ s) = fnvHash (q ++ s) ↔ fnvHash p = fnvHash q) ∧
    ∀ (inv inv' : Invocation) (slot slot' : UInt64), DifferInField inv.args inv'.args →
      KeysApart (inv.event slot) (inv'.event slot') := by
  refine ⟨fun p q => fnvHash_ne_of_differInField, fnvHash_append_eq_iff, ?_⟩
  intro inv inv' slot slot' hdiffer
  exact keysApart_of_argsHash_ne (fnvHash_ne_of_differInField hdiffer)

theorem args_hash_separates_lengths :
    fnvHash [7, 32, 0, 0, 0, 1] ≠ fnvHash [7, 64, 0, 0, 0, 1] :=
  args_hash_separates.1 _ _
    ⟨rfl, ⟨1, RoundHash.agreeOutside_append [7] [32, 0, 0, 0] [64, 0, 0, 0] [1] rfl⟩, by decide⟩

end SyscallMind
