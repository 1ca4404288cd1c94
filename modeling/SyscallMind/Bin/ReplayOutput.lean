/-
# What a replay writes

The builder of `replay_harness` is empty between two lines, so what is written for a line does
not depend on the other lines, not even if two lines have the same transaction id: what is
written for a text is the list of the windows of the lines that have an `events` array with an
element (`replay_eq`), whatever else stands in the text.  Nothing is left to drain at the end.

All values that the harness makes up are made up again from its own output.  So a replay of the
output of a replay changes nothing (`replay_idempotent`).
-/
import SyscallMind.Bin.ReplayHarness

namespace SyscallMind

open Lib TraceJson ArrowSerializer

namespace ReplayHarness

/-- The window that is made of the value of a line. -/
def replayedValue (window : Json) : Option ExecutionWindow :=
  match (window.index eventsKey).bind Json.asArray with
  | none => none
  | some events =>
      WindowBuilder.windowOf (txIdOf window)
        ((events.map (eventOf window (txIdOf window))).take 128)

/-- The window that is written for a line. -/
def replayedLine (fromStr : List Char → Option Json) (line : List Char) :
    Option ExecutionWindow :=
  if (trim line).isEmpty then none else (fromStr (trim line)).bind replayedValue

/-! ## One line -/

/-- Events of one transaction are collected and finalised, and the builder is empty again. -/
lemma finalize_collected {wb : WindowBuilder} (h : Idle wb) {t : TransactionId}
    {events : List SyscallTraceEvent} (hown : ∀ e ∈ events, e.transactionId = t) :
    ((events.foldl WindowBuilder.ingest wb).finalize t).1 =
        WindowBuilder.windowOf t (events.take 128) ∧
      Idle ((events.foldl WindowBuilder.ingest wb).finalize t).2 := by
  have hfull := represents_foldl_ingest events hown h
  refine ⟨?_, ?_⟩
  · rw [WindowBuilder.finalize_fst, hfull.pending, Function.update_self, List.nil_append]
  · have hclosed : WindowBuilder.Represents 128
        ((events.foldl WindowBuilder.ingest wb).finalize t).2 _ := hfull.step (.finalize t)
    have hnothing : (WindowBuilder.Ingested.step (Function.update (fun _ => []) t
        ([] ++ events)) (.finalize t)) = fun _ => [] := by
      simp [WindowBuilder.Ingested.step]
    rwa [hnothing] at hclosed

section Loop

variable {fromStr : List Char → Option Json}
variable {toString : ExecutionWindow → Option ByteArray}

/-- One turn of the loop. -/
lemma replayLines_cons (fromStr : List Char → Option Json) (hToString : EmitsJson toString)
    {wb : WindowBuilder} (h : Idle wb)
    (done : List ExecutionWindow) (line : List Char) (rest : List (List Char)) :
    ∃ wb', Idle wb' ∧ replayLines fromStr toString wb (fileOf done) (line :: rest) =
      replayLines fromStr toString wb'
        (fileOf (done ++ (replayedLine fromStr line).toList)) rest := by
  rw [replayLines, replayedLine]
  by_cases hblank : (trim line).isEmpty = true
  · refine ⟨wb, h, ?_⟩
    simp [hblank]
  cases hvalue : fromStr (trim line) with
  | none =>
    refine ⟨wb, h, ?_⟩
    simp [hblank]
  | some window =>
    cases hevents : (window.index eventsKey).bind Json.asArray with
    | none =>
      refine ⟨wb, h, ?_⟩
      simp [hblank, hevents, replayedValue]
    | some events =>
      have hown : ∀ e ∈ events.map (eventOf window (txIdOf window)),
          e.transactionId = txIdOf window := by
        intro e he
        obtain ⟨ev, -, rfl⟩ := List.mem_map.mp he
        rfl
      obtain ⟨hfst, hidle⟩ := finalize_collected h hown
      refine ⟨_, hidle, ?_⟩
      rw [List.foldl_map] at hfst hidle ⊢
      simp only [hblank, hevents, replayedValue, Option.bind_some]
      rcases hfin : (events.foldl (fun wb ev => wb.ingest (eventOf window (txIdOf window) ev))
        wb).finalize (txIdOf window) with ⟨_ | w, wb'⟩
      · rw [hfin] at hfst
        simp [← hfst, hfin]
      · rw [hfin] at hfst
        simp [← hfst, hfin, hToString w, fileOf_concat]

/-- **What the loop writes.**  The windows of the lines, in order. -/
theorem replayLines_eq (fromStr : List Char → Option Json) (hToString : EmitsJson toString)
    {wb : WindowBuilder} (h : Idle wb)
    (done : List ExecutionWindow) (lines : List (List Char)) :
    ∃ wb', Idle wb' ∧ replayLines fromStr toString wb (fileOf done) lines =
      (some wb', fileOf (done ++ lines.filterMap (replayedLine fromStr))) := by
  induction lines generalizing wb done with
  | nil => exact ⟨wb, h, by rw [List.filterMap_nil, List.append_nil]; rfl⟩
  | cons line lines ih =>
    obtain ⟨wb₁, h₁, hline⟩ := replayLines_cons fromStr hToString h done line lines
    obtain ⟨wb₂, h₂, hlines⟩ := ih h₁ (done ++ (replayedLine fromStr line).toList)
    refine ⟨wb₂, h₂, ?_⟩
    have hcons : (line :: lines).filterMap (replayedLine fromStr) =
        (replayedLine fromStr line).toList ++ lines.filterMap (replayedLine fromStr) := by
      rw [List.filterMap_cons]
      cases replayedLine fromStr line <;> rfl
    rw [hline, hlines, hcons, List.append_assoc]

/-- **What a replay writes.**  The windows of the lines of the snapshot; if the snapshot is no
text, the replay fails and writes nothing. -/
theorem replay_eq (hToString : EmitsJson toString) (order : IterationOrder TransactionId)
    (snapshot : ByteArray) :
    replay fromStr toString order snapshot =
      match snapshot.utf8Decode? with
      | none => (none, fileOf [])
      | some content =>
          (some 0, fileOf ((lines content.toList).filterMap (replayedLine fromStr))) := by
  rw [replay]
  cases snapshot.utf8Decode? with
  | none => rw [fileOf_nil]
  | some content =>
    have hidle : Idle (WindowBuilder.new 128) := WindowBuilder.represents_new 128
    obtain ⟨wb, h, hlines⟩ := replayLines_eq fromStr hToString hidle []
      (lines content.toList)
    simp only [← fileOf_nil, hlines, drainAll_of_idle h, writeWindows, List.nil_append]

end Loop

/-! ## A replay of a replay -/

/-- The window of a line is its own replay, and it has at least one event and at most 128. -/
lemma replayedWindow_of_replayedValue {window : Json} {w : ExecutionWindow}
    (h : replayedValue window = some w) :
    replayedWindow w = some w ∧ w.events.length ≤ 128 ∧ w.events ≠ [] := by
  unfold replayedValue at h
  split at h
  · exact absurd h (by simp)
  next events _ =>
  obtain ⟨htx, hevents, hslot, -, -⟩ := WindowBuilder.windowOf_eq_some_iff.mp h
  have hself : w.events.map (replayedEvent w) = w.events := by
    -- every event of the line has the slot of the line, and so has the window
    have hslots : ∀ e ∈ w.events, ∃ ev, e = eventOf window (txIdOf window) ev := by
      intro e he
      rw [hevents] at he
      obtain ⟨ev, -, rfl⟩ := List.mem_map.mp (List.mem_of_mem_take he)
      exact ⟨ev, rfl⟩
    have hwslot : w.slot = UInt64.ofNat (numberOr 0 slotKey window) := by
      cases hw : w.events with
      | nil =>
        rw [← hevents, hw] at hslot
        exact absurd hslot (by simp)
      | cons e rest =>
        obtain ⟨ev, rfl⟩ := hslots e (by rw [hw]; exact List.mem_cons_self)
        rw [← hevents, hw] at hslot
        exact (Option.some.inj hslot).symm
    refine (List.map_congr_left fun e he => ?_).trans (List.map_id _)
    obtain ⟨ev, rfl⟩ := hslots e he
    simp only [replayedEvent, htx, hwslot]
    rfl
  refine ⟨?_, ?_, ?_⟩
  · rw [replayedWindow, hself, htx, hevents]
    exact h
  · rw [hevents]
    exact List.length_take_le _ _
  · intro hnil
    rw [← hevents, hnil] at hslot
    exact absurd hslot (by simp)

lemma of_mem_filterMap_replayedLine {fromStr : List Char → Option Json}
    {lines : List (List Char)} {w : ExecutionWindow}
    (hw : w ∈ lines.filterMap (replayedLine fromStr)) :
    replayedWindow w = some w ∧ w.events.length ≤ 128 ∧ w.events ≠ [] := by
  obtain ⟨line, -, hline⟩ := List.mem_filterMap.mp hw
  rw [replayedLine] at hline
  split at hline
  · exact absurd hline (by simp)
  · obtain ⟨window, -, hvalue⟩ := Option.bind_eq_some_iff.mp hline
    exact replayedWindow_of_replayedValue hvalue

section Main

variable {fromStr : List Char → Option Json}
variable {toString : ExecutionWindow → Option ByteArray}

/-- **A replay of a replay changes nothing.**  For every snapshot that is a text, the replay
succeeds, its output is read back as windows that a builder could have made, and replaying the
output succeeds and writes the same bytes. -/
theorem replay_idempotent (hToString : EmitsJson toString) (hValue : DecodesValue fromStr)
    {fromStrWindow : List Char → Option ExecutionWindow} (hWindow : DecodesJson fromStrWindow)
    (order order' : IterationOrder TransactionId) (content : List Char) :
    let output := (replay fromStr toString order content.utf8Encode).2
    replay fromStr toString order content.utf8Encode = (some 0, output) ∧
      (∃ windows, readWindows fromStrWindow output = some windows ∧
        ∀ w ∈ windows, w.events.length ≤ 128 ∧ (∀ e ∈ w.events, MadeUp e) ∧
          (∀ e ∈ w.events, e.transactionId = w.transactionId ∧ e.slot = w.slot) ∧
          WindowBuilder.windowOf w.transactionId w.events = some w) ∧
      replay fromStr toString order' output = (some 0, output) := by
  obtain ⟨windows, hout, hwindows⟩ : ∃ windows,
      replay fromStr toString order content.utf8Encode = (some 0, fileOf windows) ∧
        ∀ w ∈ windows, replayedWindow w = some w ∧ w.events.length ≤ 128 ∧ w.events ≠ [] := by
    refine ⟨(lines content).filterMap (replayedLine fromStr), ?_, fun w hw =>
      of_mem_filterMap_replayedLine hw⟩
    rw [replay_eq hToString, List.utf8Decode?_utf8Encode]
  dsimp only
  rw [hout]
  refine ⟨rfl, ⟨windows, readWindows_fileOf hWindow windows, fun w hw => ?_⟩, ?_⟩
  · obtain ⟨hself, hlen, -⟩ := hwindows w hw
    obtain ⟨-, hevents, -⟩ := WindowBuilder.windowOf_eq_some_iff.mp hself
    have hevent : ∀ e ∈ w.events, ∃ e', e = replayedEvent w e' := by
      intro e he
      rw [hevents] at he
      obtain ⟨e', -, rfl⟩ := List.mem_map.mp he
      exact ⟨e', rfl⟩
    refine ⟨hlen, fun e he => ?_, fun e he => ?_, ?_⟩
    · obtain ⟨e', rfl⟩ := hevent e he
      exact ⟨rfl, rfl, rfl⟩
    · obtain ⟨e', rfl⟩ := hevent e he
      exact ⟨rfl, rfl⟩
    · rw [replayedWindow, ← hevents] at hself
      exact hself
  · refine replay_fileOf hToString hValue order' (fun w hw => (hwindows w hw).2.1) ?_
    exact List.forall₂_same.mpr fun w hw => (hwindows w hw).1

end Main

/-- A call at depth one, a line that is no value, and a second window of the transaction. -/
theorem replay_idempotent_of_noValue :
    let w : ExecutionWindow := ⟨zeroTxId, 7, [readEvent 5 1, readEvent 6 0], 5, 6⟩
    let w' : ExecutionWindow := ⟨zeroTxId, 7, [readEvent 9 0], 9, 9⟩
    let content := windowText w ++ "\nno value\n".toList ++ windowText w'
    let toString := fun w => some (windowText w).utf8Encode
    let fromStr := Json.parse recursionLimit
    let output := (replay fromStr toString (.stored _) content.utf8Encode).2
    replay fromStr toString (.stored _) content.utf8Encode = (some 0, output) ∧
      replay fromStr toString (.stored _) output = (some 0, output) := by
  intro w w' content toString fromStr output
  obtain ⟨hfirst, -, hagain⟩ := replay_idempotent (fun _ => rfl) (fun _ _ h => h)
    decodesJson_parse (.stored _) (.stored _) content
  exact ⟨hfirst, hagain⟩

end ReplayHarness

end SyscallMind
