/-
# The time span of a window

A window starts at the timestamp of its first event and ends at the timestamp of its last one,
in the order of arrival.  Nothing sorts the events, and their timestamps come from a clock that
can step back and from several threads, so the span need not contain the events between.

All windows of a run span their events exactly if, whenever a transaction is closed, the first
of its kept events is the earliest and the last one the latest (`windows_span`).  This is so
for a transaction whose events arrive in the order of their timestamps.
-/
import SyscallMind.Pipeline.WindowHistory

namespace SyscallMind

namespace WindowBuilder

open Lib

/-- Every event of the window lies within its time span. -/
def Spans (w : ExecutionWindow) : Prop :=
  ∀ e ∈ w.events, w.startTs ≤ e.timestampNs ∧ e.timestampNs ≤ w.endTs

/-- No event is earlier than the first one or later than the last one. -/
def Bracketed (events : List SyscallTraceEvent) : Prop :=
  ∀ first ∈ events.head?, ∀ last ∈ events.getLast?, ∀ e ∈ events,
    first.timestampNs ≤ e.timestampNs ∧ e.timestampNs ≤ last.timestampNs

/-- The timestamps do not decrease. -/
def Ordered (events : List SyscallTraceEvent) : Prop :=
  events.Pairwise fun e e' => e.timestampNs ≤ e'.timestampNs

/-- The event that the operation ingests for the transaction. -/
def ingested (t : TransactionId) : Op → Option SyscallTraceEvent
  | .ingest event => if event.transactionId = t then some event else none
  | .finalize _ => none
  | .drainAll _ => none

/-- All events of a transaction, in the order of their arrival. -/
def arrivals (t : TransactionId) (ops : List Op) : List SyscallTraceEvent :=
  ops.filterMap (ingested t)

/-! ## The windows of a run -/

/-- A window of a run is returned by one of its operations. -/
lemma mem_windows_iff {b : WindowBuilder} {ops : List Op} {w : ExecutionWindow} :
    w ∈ b.windows ops ↔
      ∃ pre op post, ops = pre ++ op :: post ∧ w ∈ ((b.after pre).step op).1 := by
  induction ops generalizing b with
  | nil => simp [windows]
  | cons op ops ih =>
    rw [windows, List.mem_append, ih]
    constructor
    · rintro (hw | ⟨pre, op', post, rfl, hw⟩)
      · exact ⟨[], op, ops, rfl, hw⟩
      · exact ⟨op :: pre, op', post, rfl, hw⟩
    · rintro ⟨pre, op', post, heq, hw⟩
      cases pre with
      | nil =>
        obtain ⟨rfl, rfl⟩ : op = op' ∧ ops = post := by simpa using heq
        exact Or.inl hw
      | cons op₁ pre =>
        obtain ⟨rfl, rfl⟩ : op = op₁ ∧ ops = pre ++ op' :: post := by simpa using heq
        exact Or.inr ⟨pre, op', post, rfl, hw⟩

lemma Represents.mem_step_iff {m : ℕ} {b : WindowBuilder} {evs : Ingested}
    (h : Represents m b evs) {op : Op} {w : ExecutionWindow} :
    w ∈ (b.step op).1 ↔
      ownOp w.transactionId op = some .close ∧
        IsWindow m w.transactionId (evs w.transactionId) w := by
  have hown : w ∈ (b.step op).1 ↔ w ∈ windowsFor w.transactionId (b.step op).1 := by
    simp [windowsFor]
  rw [hown, h.windowsFor_step]
  split
  · next hclose => rw [Option.mem_toList, windowOf_take_iff, and_iff_right hclose]
  · next hopen => exact iff_of_false (by simp) fun hw => hopen hw.1

/-- The windows of a run are those of the closed transactions. -/
lemma mem_windows_new_iff {m : ℕ} {ops : List Op} {w : ExecutionWindow} :
    w ∈ (new m).windows ops ↔
      ∃ pre op post, ops = pre ++ op :: post ∧ ownOp w.transactionId op = some .close ∧
        IsWindow m w.transactionId (since pre w.transactionId) w := by
  simp only [mem_windows_iff, (represents_after m _).mem_step_iff]

/-! ## Ordered arrivals -/

/-- What a run leaves to a transaction is a part of its arrivals. -/
lemma since_sublist_arrivals (t : TransactionId) (ops : List Op) :
    (since ops t).Sublist (arrivals t ops) := by
  induction ops using List.reverseRecOn with
  | nil => exact List.Sublist.slnil
  | append_singleton ops op ih =>
    have hsince : since (ops ++ [op]) = (since ops).step op := Run.after_append _ _ ops [op]
    have harrivals : arrivals t (ops ++ [op]) = arrivals t ops ++ (ingested t op).toList := by
      rw [arrivals, List.filterMap_append]
      cases hop : ingested t op <;> simp [arrivals, hop]
    have hkeep : (since ops t).Sublist (arrivals t ops ++ (ingested t op).toList) :=
      ih.trans (List.sublist_append_left _ _)
    rw [hsince, Ingested.step_apply, harrivals]
    cases op with
    | ingest event =>
      by_cases ht : event.transactionId = t
      · simpa [ownOp, ingested, ht] using ih
      · simpa [ownOp, ht] using hkeep
    | finalize txId =>
      by_cases ht : txId = t
      · simp [ownOp, ht]
      · simpa [ownOp, ht] using hkeep
    | drainAll order => simp [ownOp]

lemma bracketed_of_ordered {events : List SyscallTraceEvent} (h : Ordered events) :
    Bracketed events := by
  intro first hfirst last hlast e he
  constructor
  · obtain ⟨rest, rfl⟩ := List.head?_eq_some_iff.mp hfirst
    rcases List.mem_cons.mp he with rfl | he
    · exact UInt64.le_refl _
    · exact List.rel_of_pairwise_cons h he
  · obtain ⟨front, rfl⟩ := List.getLast?_eq_some_iff.mp hlast
    rcases List.mem_append.mp he with he | he
    · exact (List.pairwise_append.mp h).2.2 e he last (by simp)
    · rw [List.mem_singleton.mp he]
      exact UInt64.le_refl _

/-! ## The span of a window -/

section Span

variable {m : ℕ} {t : TransactionId} {evs : List SyscallTraceEvent} {w : ExecutionWindow}

lemma spans_iff (h : IsWindow m t evs w) : Spans w ↔ Bracketed (evs.take m) := by
  obtain ⟨first, hfirst, hstart⟩ := Option.map_eq_some_iff.mp h.startTs
  obtain ⟨last, hlast, hend⟩ := Option.map_eq_some_iff.mp h.endTs
  rw [← h.events, Spans, Bracketed, hfirst, hlast, ← hstart, ← hend]
  simp

/-- A window is not empty, so its span is an interval. -/
lemma startTs_le_endTs (h : IsWindow m t evs w) (hspans : Spans w) : w.startTs ≤ w.endTs := by
  obtain ⟨first, hfirst, -⟩ := Option.map_eq_some_iff.mp h.startTs
  obtain ⟨hle, hge⟩ := hspans first (List.mem_of_head? hfirst)
  exact UInt64.le_trans hle hge

end Span

/-- **What the time spans of the windows contain.**  In every run, a window starts at its first
event and ends at its last one; all windows span their events exactly if no transaction is
closed with a kept event before its first or after its last one; and a window of a transaction
whose events have arrived in the order of their timestamps spans its events. -/
theorem windows_span (m : ℕ) (ops : List Op) :
    (∀ w ∈ (new m).windows ops,
      w.events.head?.map SyscallTraceEvent.timestampNs = some w.startTs ∧
        w.events.getLast?.map SyscallTraceEvent.timestampNs = some w.endTs) ∧
    ((∀ w ∈ (new m).windows ops, Spans w) ↔
      ∀ pre op post t, ops = pre ++ op :: post → ownOp t op = some .close →
        Bracketed ((since pre t).take m)) ∧
    (∀ w ∈ (new m).windows ops, Ordered (arrivals w.transactionId ops) →
      Spans w ∧ w.startTs ≤ w.endTs) := by
  refine ⟨fun w hw => ?_, ⟨fun h pre op post t heq hclose => ?_, fun h w hw => ?_⟩,
    fun w hw hordered => ?_⟩
  · obtain ⟨pre, op, post, -, -, hwin⟩ := mem_windows_new_iff.mp hw
    exact ⟨hwin.startTs, hwin.endTs⟩
  · cases hwin : windowOf t ((since pre t).take m) with
    | none =>
      rw [windowOf_eq_none_iff.mp hwin]
      exact fun first hfirst => absurd hfirst (by simp)
    | some w =>
      have hw := windowOf_take_iff.mp hwin
      have hmem : w ∈ (new m).windows ops := by
        refine mem_windows_new_iff.mpr ⟨pre, op, post, heq, ?_, ?_⟩
        · rw [hw.transactionId]
          exact hclose
        · rw [hw.transactionId]
          exact hw
      exact (spans_iff hw).mp (h w hmem)
  · obtain ⟨pre, op, post, heq, hclose, hwin⟩ := mem_windows_new_iff.mp hw
    exact (spans_iff hwin).mpr (h pre op post w.transactionId heq hclose)
  · obtain ⟨pre, op, post, rfl, -, hwin⟩ := mem_windows_new_iff.mp hw
    have hpre : Ordered (arrivals w.transactionId pre) := by
      refine hordered.sublist ?_
      rw [arrivals, arrivals, List.filterMap_append]
      exact List.sublist_append_left _ _
    have hkept : Ordered ((since pre w.transactionId).take m) :=
      hpre.sublist ((List.take_sublist _ _).trans (since_sublist_arrivals _ _))
    have hspans := (spans_iff hwin).mpr (bracketed_of_ordered hkept)
    exact ⟨hspans, startTs_le_endTs hwin hspans⟩

/-- An event with the given timestamp. -/
def stamped (timestampNs : UInt64) : SyscallTraceEvent :=
  ⟨zeroPubkey, 1, 0, timestampNs, 1, zeroTxId, 0⟩

/-- The clock has stepped back between two events. -/
theorem clock_steps_back :
    let ops := [Op.ingest (stamped 2), Op.ingest (stamped 1), Op.finalize zeroTxId]
    ∃ w ∈ (new 64).windows ops, w.endTs < w.startTs ∧ ¬ Spans w := by
  refine ⟨⟨zeroTxId, 1, [stamped 2, stamped 1], 2, 1⟩, by decide, by decide, fun h => ?_⟩
  have hlast := (h (stamped 1) (by simp)).1
  exact absurd hlast (by decide)

end WindowBuilder

end SyscallMind
