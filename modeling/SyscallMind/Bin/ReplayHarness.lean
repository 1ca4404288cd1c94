/-
# Replayed traces

`replay_harness` reads a trace file line by line as untyped JSON, feeds the events of a line to
a window builder and writes the window that the builder makes of them.  It reads the id and the
timestamp of an event, the slot and the transaction id of the window, and nothing else: the
program id becomes zero, the argument hash a multiple of the id and the depth zero.

The builder is empty between two lines, so the windows stay apart and in order, and none of at
most 128 events is cut (`replayLines_fileText`).  A trace is therefore replayed faithfully if
and only if all its events have the values that the harness makes up (`replay_faithful_iff`).
-/
import SyscallMind.Lib.JsonValue
import SyscallMind.Pipeline.TraceFile
import SyscallMind.Pipeline.WindowSpan

namespace SyscallMind

open Lib TraceJson ArrowSerializer

namespace ReplayHarness

/-! ## The harness -/

def transactionIdKey : Key := ⟨"transaction_id".toList, by decide⟩

def eventsKey : Key := ⟨"events".toList, by decide⟩

def slotKey : Key := ⟨"slot".toList, by decide⟩

def syscallIdKey : Key := ⟨"syscall_id".toList, by decide⟩

def timestampNsKey : Key := ⟨"timestamp_ns".toList, by decide⟩

/-- The number under the key, or the default. -/
def numberOr (default : ℕ) (key : Key) (j : Json) : ℕ :=
  ((j.index key).bind Json.asU64).getD default

/-- The transaction id of a window: the first 32 numbers, and zeros for those that are missing. -/
def txIdOf (window : Json) : TransactionId :=
  match (window.index transactionIdKey).bind Json.asArray with
  | some items => Vector.ofFn fun i : Fin 32 =>
      UInt8.ofNat ((items[i.val]?.bind Json.asU64).getD 0)
  | none => zeroTxId

def eventOf (window : Json) (txId : TransactionId) (ev : Json) : SyscallTraceEvent :=
  let id := UInt32.ofNat (numberOr 1 syscallIdKey ev)
  let ts := UInt64.ofNat (numberOr 0 timestampNsKey ev)
  let slot := UInt64.ofNat (numberOr 0 slotKey window)
  { programId := zeroPubkey
    syscallId := id
    argsHash := id.toUInt64 * 7919
    timestampNs := ts
    slot := slot
    transactionId := txId
    depth := 0 }

section Code

variable (fromStr : List Char → Option Json)
variable (toString : ExecutionWindow → Option ByteArray)

/-- Replay the lines, and write a window for each line that gives one.  The first failure to
write ends the loop. -/
def replayLines : WindowBuilder → ByteArray → List (List Char) → Option WindowBuilder × ByteArray
  | wb, file, [] => (some wb, file)
  | wb, file, line :: lines =>
      let line := trim line
      if line.isEmpty then replayLines wb file lines
      else
        match fromStr line with
        | none => replayLines wb file lines
        | some window =>
            match (window.index eventsKey).bind Json.asArray with
            | none => replayLines wb file lines
            | some events =>
                let txId := txIdOf window
                let wb := events.foldl (fun wb ev => wb.ingest (eventOf window txId ev)) wb
                match wb.finalize txId with
                | (none, wb) => replayLines wb file lines
                | (some w, wb) =>
                    match toString w with
                    | none => (none, file)
                    | some text => replayLines wb (file ++ text ++ newline) lines

/-- The bytes that are written for a snapshot, whether the replay succeeds, and the number of
windows that were drained at its end. -/
def replay (order : IterationOrder TransactionId) (snapshot : ByteArray) :
    Option ℕ × ByteArray :=
  match snapshot.utf8Decode? with
  -- the snapshot is read as a text before the output is created: nothing is written
  | none => (none, ByteArray.empty)
  | some content =>
      match replayLines fromStr toString (WindowBuilder.new 128) ByteArray.empty
          (lines content.toList) with
      | (none, file) => (none, file)
      | (some wb, file) =>
          -- drain any remaining open windows
          writeWindows toString 0 file (wb.drainAll order).1

end Code

/-! ## What is expected of a replay -/

structure SameEvent (e e' : SyscallTraceEvent) : Prop where
  programId : e'.programId = e.programId
  syscallId : e'.syscallId = e.syscallId
  argsHash : e'.argsHash = e.argsHash
  timestampNs : e'.timestampNs = e.timestampNs
  depth : e'.depth = e.depth

structure SameWindow (w w' : ExecutionWindow) : Prop where
  transactionId : w'.transactionId = w.transactionId
  slot : w'.slot = w.slot
  events : List.Forall₂ SameEvent w.events w'.events

/-- The replayed file is read back as the same windows in the same order. -/
def Faithful (fromStr : List Char → Option ExecutionWindow) (windows : List ExecutionWindow)
    (file : ByteArray) : Prop :=
  ∃ replayed, readWindows fromStr file = some replayed ∧
    List.Forall₂ SameWindow windows replayed

/-- `from_str` to an untyped value gives the value of a text. -/
def DecodesValue (fromStr : List Char → Option Json) : Prop :=
  ∀ s j, Json.parse recursionLimit s = some j → fromStr s = some j

/-- The values that the harness makes up. -/
def MadeUp (e : SyscallTraceEvent) : Prop :=
  e.programId = zeroPubkey ∧ e.argsHash = e.syscallId.toUInt64 * 7919 ∧ e.depth = 0

/-! ## One window -/

/-- What the harness makes of an event. -/
def replayedEvent (w : ExecutionWindow) (e : SyscallTraceEvent) : SyscallTraceEvent :=
  ⟨zeroPubkey, e.syscallId, e.syscallId.toUInt64 * 7919, e.timestampNs, w.slot, w.transactionId, 0⟩

/-- What the harness makes of a window. -/
def replayedWindow (w : ExecutionWindow) : Option ExecutionWindow :=
  WindowBuilder.windowOf w.transactionId (w.events.map (replayedEvent w))

lemma index_window (w : ExecutionWindow) :
    (windowToJson w).index transactionIdKey = some (bytesToJson w.transactionId) ∧
      (windowToJson w).index slotKey = some (.num w.slot.toNat) ∧
      (windowToJson w).index eventsKey = some (eventsToJson w.events) :=
  ⟨rfl, rfl, rfl⟩

lemma index_event (e : SyscallTraceEvent) :
    (eventToJson e).index syscallIdKey = some (.num e.syscallId.toNat) ∧
      (eventToJson e).index timestampNsKey = some (.num e.timestampNs.toNat) :=
  ⟨rfl, rfl⟩

lemma asU64_of_lt {n : ℕ} (h : n < 2 ^ 64) : (Json.num n).asU64 = some n := if_pos h

lemma txIdOf_windowToJson (w : ExecutionWindow) : txIdOf (windowToJson w) = w.transactionId := by
  obtain ⟨htx, -, -⟩ := index_window w
  rw [txIdOf, htx]
  refine Vector.ext fun i hi => ?_
  have hlt := (w.transactionId[i]).toNat_lt
  have hget : (w.transactionId.toList.map fun b => Json.num b.toNat)[i]? =
      some (.num w.transactionId[i].toNat) := by
    rw [List.getElem?_map, Vector.getElem?_toList, Vector.getElem?_eq_getElem hi]
    rfl
  simp only [bytesToJson, Option.bind_some, Json.asArray, Vector.getElem_ofFn, hget]
  rw [asU64_of_lt (by omega), Option.getD_some, UInt8.ofNat_toNat]

lemma eventOf_eventToJson (w : ExecutionWindow) (e : SyscallTraceEvent) :
    eventOf (windowToJson w) w.transactionId (eventToJson e) = replayedEvent w e := by
  obtain ⟨-, hslot, -⟩ := index_window w
  obtain ⟨hid, hts⟩ := index_event e
  have hidlt := e.syscallId.toNat_lt
  rw [eventOf, numberOr, numberOr, numberOr, hid, hts, hslot, Option.bind_some, Option.bind_some,
    Option.bind_some, asU64_of_lt (by omega), asU64_of_lt e.timestampNs.toNat_lt,
    asU64_of_lt w.slot.toNat_lt, Option.getD_some, Option.getD_some, Option.getD_some,
    UInt32.ofNat_toNat, UInt64.ofNat_toNat, UInt64.ofNat_toNat]
  rfl

/-! ## One line -/

open WindowBuilder in
/-- Events of one transaction are collected. -/
lemma represents_foldl_ingest {m : ℕ} {t : TransactionId} (events : List SyscallTraceEvent)
    (hown : ∀ e ∈ events, e.transactionId = t) {wb : WindowBuilder} {evs : Ingested}
    (h : Represents m wb evs) :
    Represents m (events.foldl ingest wb) (Function.update evs t (evs t ++ events)) := by
  induction events generalizing wb evs with
  | nil => simpa using h
  | cons e events ih =>
    have hstep := h.ingest e
    rw [Ingested.step, hown e (by simp)] at hstep
    have hrest := ih (fun e' he' => hown e' (by simp [he'])) hstep
    simpa using hrest

/-- The builder holds nothing. -/
def Idle (wb : WindowBuilder) : Prop := wb.Represents 128 fun _ => []

/-- The events of a line are collected and finalised, and the builder holds nothing again. -/
lemma finalize_of_idle {wb : WindowBuilder} (h : Idle wb) {w : ExecutionWindow}
    (hlen : w.events.length ≤ 128) :
    let wb' := (w.events.map (replayedEvent w)).foldl WindowBuilder.ingest wb
    (wb'.finalize w.transactionId).1 = replayedWindow w ∧
      Idle (wb'.finalize w.transactionId).2 := by
  intro wb'
  have hown : ∀ e ∈ w.events.map (replayedEvent w), e.transactionId = w.transactionId := by
    intro e he
    obtain ⟨e', -, rfl⟩ := List.mem_map.mp he
    rfl
  have hfull := represents_foldl_ingest _ hown h
  refine ⟨?_, ?_⟩
  · rw [WindowBuilder.finalize_fst, hfull.pending, Function.update_self, List.nil_append,
      List.take_of_length_le (by rwa [List.length_map]), replayedWindow]
  · have hclosed : WindowBuilder.Represents 128 (wb'.finalize w.transactionId).2 _ :=
      hfull.step (.finalize w.transactionId)
    have hnothing : (WindowBuilder.Ingested.step (Function.update (fun _ => []) w.transactionId
        ([] ++ w.events.map (replayedEvent w))) (.finalize w.transactionId)) = fun _ => [] := by
      simp [WindowBuilder.Ingested.step]
    rwa [hnothing] at hclosed

lemma trim_windowText (w : ExecutionWindow) : trim (windowText w) = windowText w := by
  rw [windowText, windowToJson, Json.compact_obj]
  exact trim_of_ends (by decide) (by decide)

lemma isEmpty_windowText (w : ExecutionWindow) : (windowText w).isEmpty = false := by
  rw [windowText, windowToJson, Json.compact_obj, List.cons_append]
  rfl

section Replay

variable {toString : ExecutionWindow → Option ByteArray}
variable {fromStrValue : List Char → Option Json}

/-- The line of a window adds the replayed window to the file. -/
lemma replayLines_windowText (hToString : EmitsJson toString) (hValue : DecodesValue fromStrValue)
    {wb : WindowBuilder} (h : Idle wb) {w w' : ExecutionWindow} (hlen : w.events.length ≤ 128)
    (hreplayed : replayedWindow w = some w') (done : List ExecutionWindow)
    (rest : List (List Char)) :
    ∃ wb', Idle wb' ∧ replayLines fromStrValue toString wb (fileOf done) (windowText w :: rest) =
      replayLines fromStrValue toString wb' (fileOf (done ++ [w'])) rest := by
  obtain ⟨-, -, hevents⟩ := index_window w
  obtain ⟨hfst, hidle⟩ := finalize_of_idle h hlen
  have hparse : Json.parse recursionLimit (windowText w) = some (windowToJson w) :=
    Json.parse_compact (nested_windowToJson 123 w)
  have harray : (eventsToJson w.events).asArray = some (w.events.map eventToJson) := rfl
  have hfold : (w.events.map eventToJson).foldl
      (fun wb ev => wb.ingest (eventOf (windowToJson w) w.transactionId ev)) wb =
        (w.events.map (replayedEvent w)).foldl WindowBuilder.ingest wb := by
    rw [List.foldl_map, List.foldl_map]
    simp only [eventOf_eventToJson]
  rw [hreplayed] at hfst
  refine ⟨_, hidle, ?_⟩
  rw [replayLines, trim_windowText, isEmpty_windowText, hValue _ _ hparse, fileOf_concat]
  simp only [Bool.false_eq_true, if_false, hevents, Option.bind_some, harray,
    txIdOf_windowToJson, hfold]
  rcases hfin : ((w.events.map (replayedEvent w)).foldl WindowBuilder.ingest wb).finalize
    w.transactionId with ⟨_ | w'', wb'⟩
  · rw [hfin] at hfst
    exact absurd hfst (by simp)
  · rw [hfin] at hfst
    obtain rfl := Option.some.inj hfst
    simp only [hToString w'']

/-- **What the loop writes.**  The replayed windows, in order, one for each line. -/
theorem replayLines_fileText (hToString : EmitsJson toString)
    (hValue : DecodesValue fromStrValue) {windows replayed : List ExecutionWindow}
    (hlen : ∀ w ∈ windows, w.events.length ≤ 128)
    (hreplayed : List.Forall₂ (fun w w' => replayedWindow w = some w') windows replayed)
    {wb : WindowBuilder} (h : Idle wb) (done : List ExecutionWindow) :
    ∃ wb', Idle wb' ∧
      replayLines fromStrValue toString wb (fileOf done) (lines (fileText windows)) =
        (some wb', fileOf (done ++ replayed)) := by
  induction hreplayed generalizing wb done with
  | nil => exact ⟨wb, h, by rw [List.append_nil]; rfl⟩
  | @cons w w' windows replayed hw hrest ih =>
    have htext : fileText (w :: windows) = windowText w ++ '\n' :: fileText windows := by
      simp [fileText]
    obtain ⟨wb₁, h₁, hline⟩ := replayLines_windowText hToString hValue h (hlen w (by simp)) hw
      done (lines (fileText windows))
    obtain ⟨wb₂, h₂, hlines⟩ := ih (fun v hv => hlen v (by simp [hv])) h₁ (done ++ [w'])
    refine ⟨wb₂, h₂, ?_⟩
    rw [htext, lines_windowText_append, hline, hlines, List.append_assoc, List.singleton_append]

/-- Nothing is left to drain. -/
lemma drainAll_of_idle {wb : WindowBuilder} (h : Idle wb) (order : IterationOrder TransactionId) :
    (wb.drainAll order).1 = [] := by
  have hempty : wb.pending = ∅ := HashMap.eq_empty_of_lookup _ fun t => by simp [h.lookup t]
  have hkeys : order.keys [] = [] := (order.perm []).eq_nil
  rw [WindowBuilder.drainAll_fst, hempty, AList.keys_empty, hkeys]
  rfl

lemma replay_fileOf (hToString : EmitsJson toString) (hValue : DecodesValue fromStrValue)
    (order : IterationOrder TransactionId) {windows replayed : List ExecutionWindow}
    (hlen : ∀ w ∈ windows, w.events.length ≤ 128)
    (hreplayed : List.Forall₂ (fun w w' => replayedWindow w = some w') windows replayed) :
    replay fromStrValue toString order (fileOf windows) = (some 0, fileOf replayed) := by
  have hidle : Idle (WindowBuilder.new 128) := WindowBuilder.represents_new 128
  obtain ⟨wb, h, hlines⟩ := replayLines_fileText hToString hValue hlen hreplayed hidle []
  rw [replay, fileOf, List.utf8Decode?_utf8Encode]
  simp only [← fileOf_nil, hlines, drainAll_of_idle h, writeWindows, List.nil_append]

end Replay

/-! ## Which traces survive -/

/-- The window of a builder is replayed as a window. -/
lemma exists_replayedWindow {w : ExecutionWindow} (hne : w.events ≠ []) :
    ∃ w', replayedWindow w = some w' := by
  rw [← Option.isSome_iff_exists, Option.isSome_iff_ne_none, replayedWindow, Ne,
    WindowBuilder.windowOf_eq_none_iff, List.map_eq_nil_iff]
  exact hne

/-- A replayed window is the same exactly if its events have the values that are made up. -/
lemma sameWindow_iff {w w' : ExecutionWindow} (h : replayedWindow w = some w') :
    SameWindow w w' ↔ ∀ e ∈ w.events, MadeUp e := by
  obtain ⟨htx, hevents, hslot, -, -⟩ := WindowBuilder.windowOf_eq_some_iff.mp h
  have hslot' : w'.slot = w.slot := by
    cases hw : w.events with
    | nil => simp [hw] at hslot
    | cons e events => simpa [hw, replayedEvent] using hslot.symm
  have hsame : ∀ e, SameEvent e (replayedEvent w e) ↔ MadeUp e := by
    intro e
    constructor
    · exact fun hs => ⟨hs.programId.symm, hs.argsHash.symm, hs.depth.symm⟩
    · exact fun hm => ⟨hm.1.symm, rfl, hm.2.1.symm, rfl, hm.2.2.symm⟩
  have hforall : List.Forall₂ SameEvent w.events w'.events ↔ ∀ e ∈ w.events, MadeUp e := by
    rw [hevents, List.forall₂_map_right_iff, List.forall₂_same]
    simp only [hsame]
  rw [← hforall]
  exact ⟨fun hs => hs.events, fun he => ⟨htx, hslot', he⟩⟩

/-- Windows with events are replayed one by one. -/
lemma exists_replayed {windows : List ExecutionWindow} (hne : ∀ w ∈ windows, w.events ≠ []) :
    ∃ replayed, List.Forall₂ (fun w w' => replayedWindow w = some w') windows replayed ∧
      (List.Forall₂ SameWindow windows replayed ↔ ∀ w ∈ windows, ∀ e ∈ w.events, MadeUp e) := by
  induction windows with
  | nil => exact ⟨[], .nil, by simp⟩
  | cons w windows ih =>
    obtain ⟨w', hw'⟩ := exists_replayedWindow (hne w (by simp))
    obtain ⟨replayed, hreplayed, hsame⟩ := ih fun v hv => hne v (by simp [hv])
    refine ⟨w' :: replayed, .cons hw' hreplayed, ?_⟩
    rw [List.forall₂_cons, sameWindow_iff hw', hsame, List.forall_mem_cons]

/-- A window of a builder has events, and no more than fit. -/
lemma events_of_built {w : ExecutionWindow} {m : ℕ} {ops : List WindowBuilder.Op}
    (h : w ∈ (WindowBuilder.new m).windows ops) : w.events ≠ [] ∧ w.events.length ≤ m := by
  obtain ⟨pre, op, post, -, -, hw⟩ := WindowBuilder.mem_windows_new_iff.mp h
  refine ⟨?_, ?_⟩
  · intro hnil
    have hslot := hw.slot
    rw [hnil] at hslot
    exact absurd hslot (by simp)
  · rw [hw.events]
    exact List.length_take_le _ _

section Main

variable {toVec toString : ExecutionWindow → Option ByteArray}
variable {fromStr : List Char → Option ExecutionWindow}
variable {fromStrValue : List Char → Option Json}

lemma faithful_writeBatches_iff (hToVec : EmitsJson toVec) (hToString : EmitsJson toString)
    (hValue : DecodesValue fromStrValue) (hFromStr : DecodesJson fromStr)
    (order : IterationOrder TransactionId) {batches : List (List ExecutionWindow)}
    (hevents : ∀ w ∈ batches.flatten, w.events ≠ [] ∧ w.events.length ≤ 128) :
    Faithful fromStr batches.flatten
        (replay fromStrValue toString order (writeBatches toVec ByteArray.empty batches).2).2 ↔
      ∀ w ∈ batches.flatten, ∀ e ∈ w.events, MadeUp e := by
  have hwrite := writeBatches_fileOf hToVec [] batches
  rw [List.nil_append] at hwrite
  obtain ⟨replayed, hreplayed, hsame⟩ := exists_replayed fun w hw => (hevents w hw).1
  rw [← fileOf_nil, hwrite,
    replay_fileOf hToString hValue order (fun w hw => (hevents w hw).2) hreplayed, Faithful,
    readWindows_fileOf hFromStr, ← hsame]
  constructor
  · rintro ⟨replayed', hread, hsame'⟩
    rwa [Option.some.inj hread]
  · exact fun hsame' => ⟨replayed, rfl, hsame'⟩

/-- **When a replay is faithful.**  Exactly if every event of the trace has the program id, the
argument hash and the depth that the harness makes up. -/
theorem replay_faithful_iff (hToVec : EmitsJson toVec) (hToString : EmitsJson toString)
    (hValue : DecodesValue fromStrValue) (hFromStr : DecodesJson fromStr)
    (order : IterationOrder TransactionId) (batches : List (List ExecutionWindow))
    (hbuilt : ∀ w ∈ batches.flatten, ∃ m ≤ 128, ∃ ops,
      w ∈ (WindowBuilder.new m).windows ops) :
    Faithful fromStr batches.flatten
        (replay fromStrValue toString order (writeBatches toVec ByteArray.empty batches).2).2 ↔
      ∀ w ∈ batches.flatten, ∀ e ∈ w.events, MadeUp e := by
  refine faithful_writeBatches_iff hToVec hToString hValue hFromStr order fun w hw => ?_
  obtain ⟨m, hm, ops, hops⟩ := hbuilt w hw
  obtain ⟨hne, hlen⟩ := events_of_built hops
  exact ⟨hne, hlen.trans hm⟩

end Main

/-- A sysvar read in slot 7. -/
def readEvent (timestampNs : UInt64) (depth : UInt8) : SyscallTraceEvent :=
  ⟨zeroPubkey, 1, 7919, timestampNs, 7, zeroTxId, depth⟩

/-- Two windows of the same transaction on two lines. -/
theorem replay_faithful_repeated :
    let w : ExecutionWindow := ⟨zeroTxId, 7, [readEvent 5 0, readEvent 6 0], 5, 6⟩
    let w' : ExecutionWindow := ⟨zeroTxId, 7, [readEvent 9 0], 9, 9⟩
    let toVec := fun w => some (windowText w).utf8Encode
    let fromStrValue := Json.parse recursionLimit
    let fromStr := fun s => (Json.parse recursionLimit s).bind windowOfJson
    Faithful fromStr [w, w'] (replay fromStrValue toVec (.stored _)
      (writeBatches toVec ByteArray.empty [[w, w']]).2).2 := by
  intro w w' toVec fromStrValue fromStr
  have hbuilt : ∀ v ∈ [[w, w']].flatten, ∃ m ≤ 128, ∃ ops,
      v ∈ (WindowBuilder.new m).windows ops := by
    intro v hv
    refine ⟨2, by omega, [.ingest (readEvent 5 0), .ingest (readEvent 6 0), .finalize zeroTxId,
      .ingest (readEvent 9 0), .finalize zeroTxId], ?_⟩
    have hwindows : (WindowBuilder.new 2).windows [.ingest (readEvent 5 0),
        .ingest (readEvent 6 0), .finalize zeroTxId, .ingest (readEvent 9 0),
        .finalize zeroTxId] = [w, w'] := by decide
    rw [hwindows]
    simpa using hv
  refine (replay_faithful_iff (fun _ => rfl) (fun _ => rfl) (fun _ _ h => h)
    decodesJson_parse (.stored _) [[w, w']] hbuilt).mpr ?_
  simp only [MadeUp]
  decide

/-- A call at depth one, which is replayed at depth zero. -/
theorem replay_loses_depth :
    let w : ExecutionWindow := ⟨zeroTxId, 7, [readEvent 5 1], 5, 5⟩
    let toVec := fun w => some (windowText w).utf8Encode
    let fromStrValue := Json.parse recursionLimit
    let fromStr := fun s => (Json.parse recursionLimit s).bind windowOfJson
    (WindowBuilder.new 128).windows [.ingest (readEvent 5 1), .finalize zeroTxId] = [w] ∧
      ¬ Faithful fromStr [w]
        (replay fromStrValue toVec (.stored _) (writeBatches toVec ByteArray.empty [[w]]).2).2 := by
  intro w toVec fromStrValue fromStr
  refine ⟨by decide, fun h => ?_⟩
  have hevents : ∀ v ∈ [[w]].flatten, v.events ≠ [] ∧ v.events.length ≤ 128 := by decide
  have hmade := (faithful_writeBatches_iff (fun _ => rfl) (fun _ => rfl) (fun _ _ h => h)
    decodesJson_parse (.stored _) hevents).mp h
  have hdepth := (hmade w (by simp) (readEvent 5 1) (by simp [w])).2.2
  exact absurd hdepth (by decide)

end ReplayHarness

end SyscallMind
