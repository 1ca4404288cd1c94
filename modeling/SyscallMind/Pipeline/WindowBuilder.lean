/-
# Execution windows

`WindowBuilder` of `pipeline/src/window_builder.rs`: the events of each transaction are
collected until the transaction is finalised, or until all pending ones are drained, and then
become one window.  The first `max_window_size` events are kept and the others dropped.

A drain finalises the keys of the pending map one after the other, in the map's order of
iteration, which is a parameter here.
-/
import SyscallMind.Common
import SyscallMind.Lib.HashMap

namespace SyscallMind

open Lib

structure ExecutionWindow where
  transactionId : TransactionId
  slot : UInt64
  events : List SyscallTraceEvent
  startTs : UInt64
  endTs : UInt64
deriving DecidableEq, Repr

structure WindowBuilder where
  pending : HashMap TransactionId (List SyscallTraceEvent)
  maxWindowSize : ℕ

namespace WindowBuilder

def new (maxWindowSize : ℕ) : WindowBuilder := ⟨∅, maxWindowSize⟩

variable (b : WindowBuilder)

def ingest (event : SyscallTraceEvent) : WindowBuilder :=
  let window := (b.pending.lookup event.transactionId).getD []
  let window := if window.length < b.maxWindowSize then window ++ [event] else window
  { b with pending := b.pending.insert event.transactionId window }

def finalize (txId : TransactionId) : Option ExecutionWindow × WindowBuilder :=
  match b.pending.lookup txId with
  | none => (none, b)
  | some events =>
      let b := { b with pending := b.pending.erase txId }
      if events.isEmpty then (none, b)
      else
        let startTs := (events.head?.map SyscallTraceEvent.timestampNs).getD 0
        let endTs := (events.getLast?.map SyscallTraceEvent.timestampNs).getD 0
        let slot := (events.head?.map SyscallTraceEvent.slot).getD 0
        (some ⟨txId, slot, events, startTs, endTs⟩, b)

/-- Finalise the keys one after the other and keep the windows. -/
def finalizeAll : WindowBuilder → List TransactionId → List ExecutionWindow × WindowBuilder
  | b, [] => ([], b)
  | b, k :: ks =>
      let (window, b) := b.finalize k
      let (windows, b) := finalizeAll b ks
      (window.toList ++ windows, b)

def drainAll (order : IterationOrder TransactionId) : List ExecutionWindow × WindowBuilder :=
  b.finalizeAll (order.keys b.pending.keys)

/-! ## One operation -/

/-- The window that `finalize` makes of the events it finds. -/
def windowOf (txId : TransactionId) (events : List SyscallTraceEvent) : Option ExecutionWindow :=
  match events.head?, events.getLast? with
  | some first, some last =>
      some ⟨txId, first.slot, events, first.timestampNs, last.timestampNs⟩
  | _, _ => none

@[simp] lemma windowOf_nil (txId : TransactionId) : windowOf txId [] = none := rfl

lemma windowOf_eq_none_iff {txId : TransactionId} {events : List SyscallTraceEvent} :
    windowOf txId events = none ↔ events = [] := by
  rcases events with _ | ⟨first, rest⟩
  · simp
  · simp [windowOf, List.getLast?_cons]

lemma windowOf_eq_some_iff {txId : TransactionId} {events : List SyscallTraceEvent}
    {w : ExecutionWindow} :
    windowOf txId events = some w ↔ w.transactionId = txId ∧ w.events = events ∧
      events.head?.map SyscallTraceEvent.slot = some w.slot ∧
      events.head?.map SyscallTraceEvent.timestampNs = some w.startTs ∧
      events.getLast?.map SyscallTraceEvent.timestampNs = some w.endTs := by
  rcases events with _ | ⟨first, rest⟩
  · simp
  · obtain ⟨txId', slot, events', startTs, endTs⟩ := w
    simp only [windowOf, List.head?_cons, List.getLast?_cons, Option.some.injEq,
      ExecutionWindow.mk.injEq, Option.map_some]
    constructor
    · rintro ⟨rfl, rfl, rfl, rfl, rfl⟩
      exact ⟨rfl, rfl, rfl, rfl, rfl⟩
    · rintro ⟨rfl, rfl, rfl, rfl, rfl⟩
      exact ⟨rfl, rfl, rfl, rfl, rfl⟩

variable {b}

lemma finalize_fst (txId : TransactionId) :
    (b.finalize txId).1 = windowOf txId ((b.pending.lookup txId).getD []) := by
  rw [finalize]
  rcases b.pending.lookup txId with _ | _ | ⟨first, rest⟩
  · rfl
  · rfl
  · simp [windowOf, List.getLast?_cons]

lemma finalize_snd_lookup (txId t : TransactionId) :
    (b.finalize txId).2.pending.lookup t = if t = txId then none else b.pending.lookup t := by
  rw [finalize]
  cases hl : b.pending.lookup txId with
  | none =>
    by_cases ht : t = txId
    · rw [if_pos ht, ht]
      exact hl
    · rw [if_neg ht]
  | some events =>
    have herase := HashMap.lookup_erase_eq b.pending txId t
    rcases events with _ | ⟨first, rest⟩
    · exact herase
    · exact herase

@[simp] lemma finalize_snd_maxWindowSize (txId : TransactionId) :
    (b.finalize txId).2.maxWindowSize = b.maxWindowSize := by
  rw [finalize]
  rcases b.pending.lookup txId with _ | _ | ⟨first, rest⟩ <;> rfl

/-! ## Finalising several transactions -/

/-- Each of the keys gives its window, however the map has shrunk in the meantime. -/
lemma finalizeAll_fst {ks : List TransactionId} (hnodup : ks.Nodup) :
    (b.finalizeAll ks).1 =
      ks.filterMap fun t => windowOf t ((b.pending.lookup t).getD []) := by
  induction ks generalizing b with
  | nil => rfl
  | cons k ks ih =>
    obtain ⟨hk, hks⟩ := List.nodup_cons.mp hnodup
    have hrest : ks.filterMap (fun t =>
        windowOf t (((b.finalize k).2.pending.lookup t).getD [])) =
          ks.filterMap fun t => windowOf t ((b.pending.lookup t).getD []) := by
      refine List.filterMap_congr fun t ht => ?_
      have hne : t ≠ k := fun h => hk (h ▸ ht)
      rw [finalize_snd_lookup, if_neg hne]
    have hunfold : (b.finalizeAll (k :: ks)).1 =
        (b.finalize k).1.toList ++ ((b.finalize k).2.finalizeAll ks).1 := rfl
    rw [hunfold, ih hks, hrest, finalize_fst, List.filterMap_cons]
    cases windowOf k ((b.pending.lookup k).getD []) <;> rfl

lemma finalizeAll_snd_lookup (ks : List TransactionId) (t : TransactionId) :
    (b.finalizeAll ks).2.pending.lookup t =
      if t ∈ ks then none else b.pending.lookup t := by
  induction ks generalizing b with
  | nil => rfl
  | cons k ks ih =>
    have hunfold : (b.finalizeAll (k :: ks)).2 = ((b.finalize k).2.finalizeAll ks).2 := rfl
    rw [hunfold, ih, finalize_snd_lookup]
    by_cases hks : t ∈ ks
    · simp [hks]
    · by_cases hk : t = k <;> simp [hks, hk]

@[simp] lemma finalizeAll_snd_maxWindowSize (ks : List TransactionId) :
    (b.finalizeAll ks).2.maxWindowSize = b.maxWindowSize := by
  induction ks generalizing b with
  | nil => rfl
  | cons k ks ih => exact ih.trans (finalize_snd_maxWindowSize k)

variable (order : IterationOrder TransactionId)

/-- A drain returns the windows of the pending transactions, in the order of iteration. -/
lemma drainAll_fst :
    (b.drainAll order).1 = (order.keys b.pending.keys).filterMap
      fun t => windowOf t ((b.pending.lookup t).getD []) :=
  finalizeAll_fst ((order.perm _).nodup_iff.mpr (AList.keys_nodup _))

/-- A drain leaves nothing pending. -/
lemma drainAll_snd_lookup (t : TransactionId) :
    (b.drainAll order).2.pending.lookup t = none := by
  rw [drainAll, finalizeAll_snd_lookup]
  split
  · rfl
  · next hmem =>
    rw [(order.perm _).mem_iff, HashMap.mem_keys_iff] at hmem
    cases hl : b.pending.lookup t with
    | none => rfl
    | some events => exact absurd ⟨events, hl⟩ hmem

lemma mem_drainAll_iff {w : ExecutionWindow} :
    w ∈ (b.drainAll order).1 ↔ (b.finalize w.transactionId).1 = some w := by
  rw [drainAll_fst, List.mem_filterMap, finalize_fst]
  constructor
  · rintro ⟨t, -, hw⟩
    rw [(windowOf_eq_some_iff.mp hw).1]
    exact hw
  · intro hw
    refine ⟨w.transactionId, ?_, hw⟩
    rw [(order.perm _).mem_iff, HashMap.mem_keys_iff]
    cases hl : b.pending.lookup w.transactionId with
    | none => simp [hl] at hw
    | some events => exact ⟨events, rfl⟩

/-- A drain returns at most one window for each transaction. -/
lemma drainAll_nodup : ((b.drainAll order).1.map ExecutionWindow.transactionId).Nodup := by
  rw [drainAll_fst, List.map_filterMap]
  have hsub : ∀ ks : List TransactionId, (ks.filterMap fun t =>
      (windowOf t ((b.pending.lookup t).getD [])).map ExecutionWindow.transactionId).Sublist
        ks := by
    intro ks
    induction ks with
    | nil => exact List.Sublist.slnil
    | cons k ks ih =>
      rw [List.filterMap_cons]
      cases hw : windowOf k ((b.pending.lookup k).getD []) with
      | none => exact ih.cons k
      | some w =>
        have hk := (windowOf_eq_some_iff.mp hw).1
        simp only [Option.map_some, hk]
        exact ih.cons_cons k
  exact (hsub _).nodup ((order.perm _).nodup_iff.mpr (AList.keys_nodup _))

end WindowBuilder

end SyscallMind
