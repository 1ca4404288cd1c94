/-
# What the windows contain

The abstract state of a window builder gives for each transaction the events that were
ingested since it was last finalised or drained.  The builder represents it: what is pending
for a transaction is the beginning of its events, up to the maximal window size, and a
transaction without events is not pending at all.

Every operation keeps this relation, so that the window of a transaction depends on the
operations on that transaction only.
-/
import SyscallMind.Lib.Run
import SyscallMind.Pipeline.WindowBuilder

namespace SyscallMind

namespace WindowBuilder

open Lib

inductive Op
  | ingest (event : SyscallTraceEvent)
  | finalize (txId : TransactionId)
  | drainAll (order : IterationOrder TransactionId)

/-- The windows that an operation returns, and the builder after it. -/
def step (b : WindowBuilder) : Op → List ExecutionWindow × WindowBuilder
  | .ingest event => ([], b.ingest event)
  | .finalize txId => ((b.finalize txId).1.toList, (b.finalize txId).2)
  | .drainAll order => b.drainAll order

/-- The builder after a run. -/
def after (b : WindowBuilder) (ops : List Op) : WindowBuilder :=
  Run.after (fun b op => (b.step op).2) b ops

/-- The windows that a run returns, in order. -/
def windows : WindowBuilder → List Op → List ExecutionWindow
  | _, [] => []
  | b, op :: ops => (b.step op).1 ++ windows (b.step op).2 ops

/-! ## The abstract model -/

/-- The events of each transaction since it was last finalised or drained. -/
abbrev Ingested := TransactionId → List SyscallTraceEvent

def Ingested.step (evs : Ingested) : Op → Ingested
  | .ingest event =>
      Function.update evs event.transactionId (evs event.transactionId ++ [event])
  | .finalize txId => Function.update evs txId []
  | .drainAll _ => fun _ => []

/-- The events that a run leaves to each transaction. -/
def since (ops : List Op) : Ingested := Run.after Ingested.step (fun _ => []) ops

/-- The window of the transaction `t` on the first `m` of its events. -/
structure IsWindow (m : ℕ) (t : TransactionId) (evs : List SyscallTraceEvent)
    (w : ExecutionWindow) : Prop where
  transactionId : w.transactionId = t
  events : w.events = evs.take m
  slot : w.events.head?.map SyscallTraceEvent.slot = some w.slot
  startTs : w.events.head?.map SyscallTraceEvent.timestampNs = some w.startTs
  endTs : w.events.getLast?.map SyscallTraceEvent.timestampNs = some w.endTs

lemma windowOf_take_iff {m : ℕ} {t : TransactionId} {evs : List SyscallTraceEvent}
    {w : ExecutionWindow} : windowOf t (evs.take m) = some w ↔ IsWindow m t evs w := by
  rw [windowOf_eq_some_iff]
  constructor
  · rintro ⟨hid, hevents, hslot, hstart, hend⟩
    rw [← hevents] at hslot hstart hend
    exact ⟨hid, hevents, hslot, hstart, hend⟩
  · rintro ⟨hid, hevents, hslot, hstart, hend⟩
    rw [hevents] at hslot hstart hend
    exact ⟨hid, hevents, hslot, hstart, hend⟩

/-- The builder holds the first `m` events of every transaction that has some. -/
structure Represents (m : ℕ) (b : WindowBuilder) (evs : Ingested) : Prop where
  size : b.maxWindowSize = m
  lookup : ∀ t, b.pending.lookup t = if evs t = [] then none else some ((evs t).take m)

section Refinement

variable {m : ℕ} {b : WindowBuilder} {evs : Ingested}

lemma represents_new (m : ℕ) : Represents m (new m) fun _ => [] where
  size := rfl
  lookup t := AList.lookup_empty t

lemma Represents.pending (h : Represents m b evs) (t : TransactionId) :
    (b.pending.lookup t).getD [] = (evs t).take m := by
  rw [h.lookup]
  by_cases ht : evs t = []
  · simp [ht]
  · simp [ht]

/-- The bounded window follows the unbounded list. -/
lemma take_append_singleton (l : List SyscallTraceEvent) (e : SyscallTraceEvent) :
    (if (l.take m).length < m then l.take m ++ [e] else l.take m) = (l ++ [e]).take m := by
  rw [List.length_take]
  by_cases hlt : l.length < m
  · rw [if_pos (by omega), List.take_of_length_le (by omega : l.length ≤ m),
      List.take_of_length_le]
    rw [List.length_append, List.length_singleton]
    omega
  · rw [if_neg (by omega), List.take_append_of_le_length (by omega)]

lemma Represents.ingest (h : Represents m b evs) (event : SyscallTraceEvent) :
    Represents m (b.ingest event) (evs.step (.ingest event)) := by
  refine ⟨h.size, fun t => ?_⟩
  have hins : (b.ingest event).pending.lookup t =
      if t = event.transactionId then
        some ((evs event.transactionId ++ [event]).take m)
      else b.pending.lookup t := by
    rw [← take_append_singleton, ← h.pending, ← h.size]
    exact HashMap.lookup_insert_eq _ _ _ _
  rw [hins]
  by_cases ht : t = event.transactionId
  · subst ht
    simp [Ingested.step]
  · rw [if_neg ht, h.lookup, Ingested.step, Function.update_of_ne ht]

/-- Every operation of the builder is the operation of the abstract model. -/
lemma Represents.step (h : Represents m b evs) (op : Op) :
    Represents m (b.step op).2 (evs.step op) := by
  cases op with
  | ingest event => exact h.ingest event
  | finalize txId =>
    refine ⟨(finalize_snd_maxWindowSize txId).trans h.size, fun t => ?_⟩
    refine (finalize_snd_lookup txId t).trans ?_
    by_cases ht : t = txId
    · subst ht
      simp [Ingested.step]
    · rw [if_neg ht, h.lookup, Ingested.step, Function.update_of_ne ht]
  | drainAll order =>
    refine ⟨(finalizeAll_snd_maxWindowSize _).trans h.size, fun t => ?_⟩
    exact (drainAll_snd_lookup order t).trans (by simp [Ingested.step])

lemma represents_after (m : ℕ) (ops : List Op) :
    Represents m (after (new m) ops) (since ops) :=
  Run.simulation (R := Represents m) (fun _ _ op h => h.step op) (represents_new m) ops

/-! ## The windows of one transaction -/

/-- An operation as one transaction sees it. -/
inductive OwnOp
  | ingest (event : SyscallTraceEvent)
  | close
deriving DecidableEq, Repr

/-- What the operation does to the transaction `t`, if anything. -/
def ownOp (t : TransactionId) : Op → Option OwnOp
  | .ingest event => if event.transactionId = t then some (.ingest event) else none
  | .finalize txId => if txId = t then some .close else none
  | .drainAll _ => some .close

def ownOps (t : TransactionId) (ops : List Op) : List OwnOp := ops.filterMap (ownOp t)

/-- The windows of the transaction `t`. -/
def windowsFor (t : TransactionId) (ws : List ExecutionWindow) : List ExecutionWindow :=
  ws.filter fun w => w.transactionId = t

/-- The windows that the operations on the transaction `t` alone return. -/
def ownWindows (m : ℕ) (t : TransactionId) :
    List SyscallTraceEvent → List OwnOp → List ExecutionWindow
  | _, [] => []
  | evs, .ingest event :: ops => ownWindows m t (evs ++ [event]) ops
  | evs, .close :: ops => (windowOf t (evs.take m)).toList ++ ownWindows m t [] ops

lemma windowsFor_toList_windowOf (t t' : TransactionId) (evs : List SyscallTraceEvent) :
    windowsFor t (windowOf t' evs).toList =
      if t' = t then (windowOf t evs).toList else [] := by
  cases hw : windowOf t' evs with
  | none =>
    by_cases ht : t' = t
    · rw [if_pos ht, ← ht, hw]
      rfl
    · rw [if_neg ht]
      rfl
  | some w =>
    have hid := (windowOf_eq_some_iff.mp hw).1
    by_cases ht : t' = t
    · rw [if_pos ht, ← ht, hw]
      simp [windowsFor, hid]
    · simp [windowsFor, hid, ht]

/-- Among the windows of distinct transactions there is the one of `t`. -/
lemma windowsFor_filterMap (t : TransactionId) (f : Ingested) {ks : List TransactionId}
    (hnodup : ks.Nodup) :
    windowsFor t (ks.filterMap fun t' => windowOf t' (f t')) =
      if t ∈ ks then (windowOf t (f t)).toList else [] := by
  induction ks with
  | nil => rfl
  | cons k ks ih =>
    obtain ⟨hk, hks⟩ := List.nodup_cons.mp hnodup
    have hcons : (k :: ks).filterMap (fun t' => windowOf t' (f t')) =
        (windowOf k (f k)).toList ++ ks.filterMap fun t' => windowOf t' (f t') := by
      rw [List.filterMap_cons]
      cases windowOf k (f k) <;> rfl
    have happend : windowsFor t ((k :: ks).filterMap fun t' => windowOf t' (f t')) =
        windowsFor t (windowOf k (f k)).toList ++
          windowsFor t (ks.filterMap fun t' => windowOf t' (f t')) := by
      rw [hcons]
      exact List.filter_append _ _
    rw [happend, windowsFor_toList_windowOf, ih hks]
    by_cases ht : k = t
    · subst ht
      simp [hk]
    · have hne : t ≠ k := fun h => ht h.symm
      simp [ht, hne]

/-- What one operation returns for the transaction `t`. -/
lemma Represents.windowsFor_step (h : Represents m b evs) (op : Op) (t : TransactionId) :
    windowsFor t (b.step op).1 =
      if ownOp t op = some .close then (windowOf t ((evs t).take m)).toList else [] := by
  cases op with
  | ingest event =>
    have hne : ownOp t (.ingest event) ≠ some .close := by
      rw [ownOp]
      split <;> simp
    rw [if_neg hne]
    rfl
  | finalize txId =>
    have hfst : (b.step (.finalize txId)).1 = (windowOf txId ((evs txId).take m)).toList := by
      rw [← h.pending, ← finalize_fst]
      rfl
    rw [hfst, windowsFor_toList_windowOf, ownOp]
    by_cases ht : txId = t
    · subst ht
      simp
    · simp [ht]
  | drainAll order =>
    have hfst : (b.step (.drainAll order)).1 = (order.keys b.pending.keys).filterMap
        fun t => windowOf t ((evs t).take m) := by
      simp only [← h.pending]
      exact drainAll_fst order
    rw [hfst, windowsFor_filterMap t (fun t => (evs t).take m)
      ((order.perm _).nodup_iff.mpr (AList.keys_nodup _)), ownOp, if_pos rfl]
    split
    · rfl
    · next hmem =>
      -- a transaction that is not pending has no events
      rw [(order.perm _).mem_iff, HashMap.mem_keys_iff, h.lookup] at hmem
      by_cases ht : evs t = []
      · simp [ht]
      · exact absurd ⟨_, if_neg ht⟩ hmem

lemma Ingested.step_apply (evs : Ingested) (op : Op) (t : TransactionId) :
    evs.step op t = match ownOp t op with
      | some (.ingest event) => evs t ++ [event]
      | some .close => []
      | none => evs t := by
  cases op with
  | ingest event =>
    by_cases ht : event.transactionId = t
    · subst ht
      simp [Ingested.step, ownOp]
    · have hne : t ≠ event.transactionId := fun h => ht h.symm
      simp [Ingested.step, ownOp, ht, Function.update_of_ne hne]
  | finalize txId =>
    by_cases ht : txId = t
    · subst ht
      simp [Ingested.step, ownOp]
    · have hne : t ≠ txId := fun h => ht h.symm
      simp [Ingested.step, ownOp, ht, Function.update_of_ne hne]
  | drainAll order => rfl

/-- The windows of a transaction are those of its own operations. -/
lemma Represents.windowsFor_windows (h : Represents m b evs) (t : TransactionId)
    (ops : List Op) :
    windowsFor t (b.windows ops) = ownWindows m t (evs t) (ownOps t ops) := by
  induction ops generalizing b evs with
  | nil => rfl
  | cons op ops ih =>
    have happend : windowsFor t (b.windows (op :: ops)) =
        windowsFor t (b.step op).1 ++ windowsFor t ((b.step op).2.windows ops) :=
      List.filter_append _ _
    rw [happend, h.windowsFor_step, ih (h.step op), Ingested.step_apply]
    rw [ownOps, ownOps, List.filterMap_cons]
    rcases ownOp t op with _ | event | _
    · simp
    · simp [ownWindows]
    · simp [ownWindows]

end Refinement

/-- **Window building loses, mixes and duplicates nothing.**  In every run, `finalize` returns
the window of the first `m` events that were ingested for the transaction since it was last
finalised or drained; a drain returns exactly one such window for each transaction that has
one; and the windows of a transaction are the same in every run with the same operations on
this transaction. -/
theorem windows_exact (m : ℕ) (ops : List Op) :
    (∀ t, ((after (new m) ops).finalize t).1 = none ↔ m = 0 ∨ since ops t = []) ∧
    (∀ t w, ((after (new m) ops).finalize t).1 = some w → IsWindow m t (since ops t) w) ∧
    (∀ order,
      (((after (new m) ops).drainAll order).1.map ExecutionWindow.transactionId).Nodup ∧
      (∀ w, w ∈ ((after (new m) ops).drainAll order).1 ↔ ∃ t, IsWindow m t (since ops t) w) ∧
      ((after (new m) ops).drainAll order).2.pending = ∅) ∧
    (∀ t ops', ownOps t ops = ownOps t ops' →
      windowsFor t ((new m).windows ops) = windowsFor t ((new m).windows ops')) := by
  have h := represents_after m ops
  have hfin : ∀ t, ((after (new m) ops).finalize t).1 = windowOf t ((since ops t).take m) := by
    intro t
    rw [finalize_fst, h.pending]
  refine ⟨fun t => ?_, fun t w hw => ?_, fun order => ⟨drainAll_nodup order, fun w => ?_, ?_⟩,
    fun t ops' hown => ?_⟩
  · rw [hfin, windowOf_eq_none_iff, List.take_eq_nil_iff]
  · rw [hfin] at hw
    exact windowOf_take_iff.mp hw
  · rw [mem_drainAll_iff, hfin, windowOf_take_iff]
    constructor
    · exact fun hw => ⟨w.transactionId, hw⟩
    · rintro ⟨t, hw⟩
      rw [hw.transactionId]
      exact hw
  · exact HashMap.eq_empty_of_lookup _ (drainAll_snd_lookup order)
  · rw [(represents_new m).windowsFor_windows, (represents_new m).windowsFor_windows, hown]

end WindowBuilder

end SyscallMind
