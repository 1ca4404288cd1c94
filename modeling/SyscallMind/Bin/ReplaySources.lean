/-
# Replays of generated data

Without a snapshot `replay_harness` makes one up, and a snapshot may also be a file of
`workload_generator`.  Both are objects of other shapes than `ExecutionWindow`: the first has
neither the span of a window nor the slot of an event, and neither has a program id.  A replay
needs only what both of them have.

So every line becomes a window: the made-up snapshot one for each of its transactions, even if
two of them have drawn the same id (`replay_mock`), and a generated workload, which
`read_windows` itself rejects, a trace file with the ids, the times and the slots of the
workload (`replay_workload`).
-/
import SyscallMind.Bin.ReplayOutput
import SyscallMind.Bin.WorkloadGenerator

namespace SyscallMind

open Lib SyscallIds TraceJson ArrowSerializer

namespace ReplayHarness

/-! ## The snapshot that is made up -/

def mockPool : Vector SyscallId 6 :=
  #v[solGetClockSysvar, solGetRentSysvar, solSha256, solKeccak256, solLog, solInvokeSigned]

/-- The outcomes of the draws for one transaction. -/
structure MockDraws where
  txId : TransactionId
  picks : List (Fin 6)
  picks_length : 3 ≤ picks.length ∧ picks.length < 10

def mockTs (txIdx : UInt64) (i : ℕ) : UInt64 := txIdx * 1000000 + UInt64.ofNat i * 400000

def mockEventNames : List Key :=
  keys ["syscall_id", "timestamp_ns", "args_hash", "depth"] (by decide)

def mockEventValue (txIdx : UInt64) (i : ℕ) (pick : Fin 6) : Json :=
  let id := mockPool[pick]
  .object (mockEventNames.zip [.num id.toNat, .num (mockTs txIdx i).toNat,
    .num ((id.toUInt64 * 7919) ^^^ txIdx).toNat, .num 0])

def mockWindowNames : List Key := keys ["transaction_id", "slot", "events"] (by decide)

def mockSlot (txIdx : UInt64) : UInt64 := txIdx / 432 + 280000000

def mockWindowValue (txIdx : UInt64) (d : MockDraws) : Json :=
  .object (mockWindowNames.zip [bytesToJson d.txId, .num (mockSlot txIdx).toNat,
    .arr (d.picks.mapIdx (mockEventValue txIdx))])

/-- The text of the snapshot; there is none if a value cannot be written. -/
def generateMockSnapshot (toText : Json → Option String) (draws : List MockDraws) :
    Option String := do
  let lines ← (draws.mapIdx fun k d => mockWindowValue (UInt64.ofNat k) d).mapM toText
  return String.ofList (['\n'].intercalate (lines.map String.toList))

/-- `to_string` gives the compact text of a value. -/
def GivesText (toText : Json → Option String) : Prop :=
  ∀ j, toText j = some (String.ofList j.compact)

/-! ## Values that a replay can use -/

/-- What the harness reads of an event. -/
structure EventValue (ev : Json) (id : SyscallId) (ts : UInt64) : Prop where
  syscallId : ev.index syscallIdKey = some (.num id.toNat)
  timestampNs : ev.index timestampNsKey = some (.num ts.toNat)

/-- What the harness reads of a window. -/
structure WindowValue (window : Json) (txId : TransactionId) (slot : UInt64) (events : List Json) :
    Prop where
  transactionId : window.index transactionIdKey = some (bytesToJson txId)
  slot : window.index slotKey = some (.num slot.toNat)
  events : window.index eventsKey = some (.arr events)

/-- The event that is made of an id and a time. -/
def madeUpEvent (txId : TransactionId) (slot : UInt64) (id : SyscallId) (ts : UInt64) :
    SyscallTraceEvent :=
  ⟨zeroPubkey, id, id.toUInt64 * 7919, ts, slot, txId, 0⟩

lemma WindowValue.txIdOf_eq {window : Json} {txId : TransactionId} {slot : UInt64}
    {events : List Json} (h : WindowValue window txId slot events) : txIdOf window = txId := by
  have hwindow := txIdOf_windowToJson ⟨txId, 0, [], 0, 0⟩
  rw [txIdOf, (index_window _).1] at hwindow
  rw [txIdOf, h.transactionId]
  exact hwindow

lemma WindowValue.eventOf_eq {window : Json} {txId : TransactionId} {slot : UInt64}
    {events : List Json} (h : WindowValue window txId slot events) {ev : Json} {id : SyscallId}
    {ts : UInt64} (hev : EventValue ev id ts) :
    eventOf window txId ev = madeUpEvent txId slot id ts := by
  have hidlt := id.toNat_lt
  rw [eventOf, numberOr, numberOr, numberOr, hev.syscallId, hev.timestampNs, h.slot,
    Option.bind_some, Option.bind_some, Option.bind_some, asU64_of_lt (by omega),
    asU64_of_lt ts.toNat_lt, asU64_of_lt slot.toNat_lt, Option.getD_some, Option.getD_some,
    Option.getD_some, UInt32.ofNat_toNat, UInt64.ofNat_toNat, UInt64.ofNat_toNat]
  rfl

/-- The window of a list of ids with their times. -/
lemma WindowValue.replayedValue_eq {window : Json} {txId : TransactionId} {slot : UInt64}
    {events : List Json} (h : WindowValue window txId slot events)
    {calls : List (SyscallId × UInt64)}
    (hevents : List.Forall₂ (fun ev c => EventValue ev c.1 c.2) events calls)
    (hlen : calls.length ≤ 128) :
    replayedValue window =
      WindowBuilder.windowOf txId (calls.map fun c => madeUpEvent txId slot c.1 c.2) := by
  have hmap : events.map (eventOf window txId) =
      calls.map fun c => madeUpEvent txId slot c.1 c.2 := by
    refine List.forall₂_eq_eq_eq.le _ _ ?_
    rw [List.forall₂_map_left_iff, List.forall₂_map_right_iff]
    exact hevents.imp fun ev c hev => h.eventOf_eq hev
  rw [replayedValue, h.events]
  simp only [Option.bind_some, Json.asArray, h.txIdOf_eq, hmap]
  rw [List.take_of_length_le (by rwa [List.length_map])]

/-! ## Windows from ids and times -/

/-- The window of the ids, in which the call `i` has the time `ts i`. -/
def spanWindow (txId : TransactionId) (slot : UInt64) (ids : List SyscallId) (ts : ℕ → UInt64) :
    ExecutionWindow where
  transactionId := txId
  slot := slot
  events := ids.mapIdx fun i id => madeUpEvent txId slot id (ts i)
  startTs := ts 0
  endTs := ts (ids.length - 1)

lemma windowOf_spanWindow {ids : List SyscallId} (hne : ids ≠ []) (txId : TransactionId)
    (slot : UInt64) (ts : ℕ → UInt64) :
    WindowBuilder.windowOf txId (spanWindow txId slot ids ts).events =
      some (spanWindow txId slot ids ts) := by
  obtain ⟨id, rest, rfl⟩ := List.exists_cons_of_ne_nil hne
  refine WindowBuilder.windowOf_eq_some_iff.mpr ⟨rfl, rfl, ?_, ?_, ?_⟩
  · rw [spanWindow, List.mapIdx_cons]
    rfl
  · rw [spanWindow, List.mapIdx_cons]
    rfl
  · rw [spanWindow, List.getLast?_mapIdx, List.getLast?_cons]
    rfl

lemma forall₂_mapIdx {A B C D : Type*} {R : C → D → Prop} {f : ℕ → A → C} {g : ℕ → B → D}
    {k : A → B} (h : ∀ i a, R (f i a) (g i (k a))) (l : List A) :
    List.Forall₂ R (l.mapIdx f) ((l.map k).mapIdx g) := by
  induction l generalizing f g with
  | nil => exact .nil
  | cons a l ih =>
    rw [List.map_cons, List.mapIdx_cons, List.mapIdx_cons]
    exact .cons (h 0 a) (ih fun i a => h (i + 1) a)

lemma filterMap_mapIdx {A B C : Type*} {f : ℕ → A → B} {g : B → Option C} {k : ℕ → A → C}
    (h : ∀ i a, g (f i a) = some (k i a)) (l : List A) : (l.mapIdx f).filterMap g = l.mapIdx k := by
  induction l generalizing f k with
  | nil => rfl
  | cons a l ih =>
    rw [List.mapIdx_cons, List.mapIdx_cons, List.filterMap_cons, h, ih fun i a => h (i + 1) a]

/-- A window with the events of a list of items, each of which stands for a call. -/
lemma WindowValue.replayedValue_span {A : Type*} {window : Json} {txId : TransactionId}
    {slot : UInt64} {items : List A} {value : ℕ → A → Json} {f : A → SyscallId}
    {ts : ℕ → UInt64} (h : WindowValue window txId slot (items.mapIdx value))
    (hvalue : ∀ i a, EventValue (value i a) (f a) (ts i)) (hne : items ≠ [])
    (hlen : items.length ≤ 128) :
    replayedValue window = some (spanWindow txId slot (items.map f) ts) := by
  have hevents : List.Forall₂ (fun ev c => EventValue ev c.1 c.2) (items.mapIdx value)
      ((items.map f).mapIdx fun i id => (id, ts i)) :=
    forall₂_mapIdx (R := fun ev (c : SyscallId × UInt64) => EventValue ev c.1 c.2) hvalue items
  have hmap : ((items.map f).mapIdx fun i id => (id, ts i)).map
      (fun c => madeUpEvent txId slot c.1 c.2) =
        (spanWindow txId slot (items.map f) ts).events := by
    refine List.ext_getElem? fun i => ?_
    rw [spanWindow, List.getElem?_map, List.getElem?_mapIdx, List.getElem?_mapIdx, Option.map_map]
    rfl
  rw [h.replayedValue_eq hevents (by simpa using hlen), hmap]
  exact windowOf_spanWindow (by simpa using hne) txId slot ts

/-- The line of an object. -/
lemma replayedLine_object {fromStr : List Char → Option Json} (hValue : DecodesValue fromStr)
    {members : List (Key × Json)} (hnested : (Json.object members).Nested 127) :
    replayedLine fromStr (Json.object members).compact =
      replayedValue (Json.object members) := by
  obtain ⟨members', -, hobject⟩ := Json.object_perm members
  have htrim : trim (Json.object members).compact = (Json.object members).compact := by
    rw [hobject, Json.compact_obj]
    exact trim_of_ends (by decide) (by decide)
  have hne : (Json.object members).compact.isEmpty = false := by
    rw [hobject, Json.compact_obj, List.cons_append]
    rfl
  rw [replayedLine, htrim, hne, hValue _ _ (Json.parse_compact hnested)]
  rfl

/-! ## The replay of the made-up snapshot -/

/-- What a replay makes of a transaction of the snapshot. -/
def mockWindow (k : ℕ) (d : MockDraws) : ExecutionWindow :=
  spanWindow d.txId (mockSlot (UInt64.ofNat k)) (d.picks.map fun pick => mockPool[pick])
    (mockTs (UInt64.ofNat k))

lemma eventValue_mock (txIdx : UInt64) (i : ℕ) (pick : Fin 6) :
    EventValue (mockEventValue txIdx i pick) mockPool[pick] (mockTs txIdx i) where
  syscallId := Json.index_object_zip (by decide) rfl (i := 0) (by decide) rfl
  timestampNs := Json.index_object_zip (by decide) rfl (i := 1) (by decide) rfl

lemma windowValue_mock (txIdx : UInt64) (d : MockDraws) :
    WindowValue (mockWindowValue txIdx d) d.txId (mockSlot txIdx)
      (d.picks.mapIdx (mockEventValue txIdx)) where
  transactionId := Json.index_object_zip (by decide) rfl (i := 0) (by decide) rfl
  slot := Json.index_object_zip (by decide) rfl (i := 1) (by decide) rfl
  events := Json.index_object_zip (by decide) rfl (i := 2) (by decide) rfl

lemma nested_mockWindowValue (txIdx : UInt64) (d : MockDraws) :
    (mockWindowValue txIdx d).Nested 127 := by
  refine Json.nested_object (Json.nested_of_mem_zip ?_)
  simp only [List.forall_mem_cons, List.not_mem_nil, IsEmpty.forall_iff, implies_true, and_true]
  refine ⟨nested_bytesToJson _ _, .num _, .arr fun v hv => ?_⟩
  obtain ⟨i, hi, rfl⟩ := List.mem_mapIdx.mp hv
  refine Json.nested_object (Json.nested_of_mem_zip ?_)
  simp only [List.forall_mem_cons, List.not_mem_nil, IsEmpty.forall_iff, implies_true, and_true]
  exact ⟨.num _, .num _, .num _, .num _⟩

lemma replayedLine_mock {fromStr : List Char → Option Json} (hValue : DecodesValue fromStr)
    (k : ℕ) (d : MockDraws) :
    replayedLine fromStr (mockWindowValue (UInt64.ofNat k) d).compact = some (mockWindow k d) := by
  have hpicks := d.picks_length
  rw [mockWindowValue, replayedLine_object hValue (nested_mockWindowValue _ d)]
  refine (windowValue_mock _ d).replayedValue_span (eventValue_mock _) ?_ (by omega)
  exact List.ne_nil_of_length_pos (by omega)

/-- The values of the snapshot. -/
def mockValues (draws : List MockDraws) : List Json :=
  draws.mapIdx fun k d => mockWindowValue (UInt64.ofNat k) d

/-- The snapshot has the texts of its values as its lines. -/
lemma lines_generateMockSnapshot {toText : Json → Option String} (hToText : GivesText toText)
    (draws : List MockDraws) :
    ∃ snapshot, generateMockSnapshot toText draws = some snapshot ∧
      lines snapshot.toList = (mockValues draws).map Json.compact := by
  have hmap : ∀ values : List Json,
      values.mapM toText = some (values.map fun j => String.ofList j.compact) := by
    intro values
    induction values with
    | nil => rfl
    | cons j values ih =>
      rw [List.mapM_cons, hToText, ih]
      rfl
  refine ⟨_, by rw [generateMockSnapshot, hmap]; rfl, ?_⟩
  have hchars : ∀ l ∈ (mockValues draws).map Json.compact, ∀ c ∈ l, 0x20 ≤ c.toNat := by
    intro l hl
    obtain ⟨j, hj, rfl⟩ := List.mem_map.mp hl
    obtain ⟨i, hi, rfl⟩ := List.mem_mapIdx.mp hj
    exact Json.le_toNat_of_mem_compact (nested_mockWindowValue _ _)
  have hlines := @lines_intercalate ((mockValues draws).map Json.compact) ?_
    (fun l hl h => absurd (hchars l hl _ h) (by decide))
    (fun l hl h => absurd (hchars l hl _ h) (by decide))
  · have hback : ((mockValues draws).map fun j => String.ofList j.compact).map String.toList =
        (mockValues draws).map Json.compact := by
      rw [List.map_map]
      exact List.map_congr_left fun j _ => String.toList_ofList
    rw [String.toList_ofList]
    show lines (['\n'].intercalate
      (((mockValues draws).map fun j => String.ofList j.compact).map String.toList)) = _
    rw [hback]
    exact hlines
  · intro l hl
    obtain ⟨j, hj, rfl⟩ := List.mem_map.mp hl
    obtain ⟨i, hi, rfl⟩ := List.mem_mapIdx.mp hj
    obtain ⟨members, -, hobject⟩ := Json.object_perm (mockWindowNames.zip
      [bytesToJson draws[i].txId, .num (mockSlot (UInt64.ofNat i)).toNat,
        .arr (draws[i].picks.mapIdx (mockEventValue (UInt64.ofNat i)))])
    rw [mockWindowValue, hobject, Json.compact_obj]
    simp

/-- **The made-up snapshot is replayed whole.**  Its replay succeeds and is read back as one
window for each transaction, in order and with its own events, whatever ids were drawn. -/
theorem replay_mock {toText : Json → Option String} (hToText : GivesText toText)
    {toString : ExecutionWindow → Option ByteArray} (hToString : EmitsJson toString)
    {fromStr : List Char → Option Json} (hValue : DecodesValue fromStr)
    {fromStrWindow : List Char → Option ExecutionWindow} (hWindow : DecodesJson fromStrWindow)
    (order : IterationOrder TransactionId) (draws : List MockDraws) :
    ∃ snapshot, generateMockSnapshot toText draws = some snapshot ∧
      (replay fromStr toString order snapshot.toUTF8).1 = some 0 ∧
      readWindows fromStrWindow (replay fromStr toString order snapshot.toUTF8).2 =
        some (draws.mapIdx mockWindow) := by
  obtain ⟨snapshot, hsnapshot, hlines⟩ := lines_generateMockSnapshot hToText draws
  have hdecode : snapshot.toUTF8.utf8Decode? = some snapshot.toList.toArray := by
    rw [String.toUTF8, ← String.utf8Encode_toList, List.utf8Decode?_utf8Encode]
  have hwindows : ((mockValues draws).map Json.compact).filterMap (replayedLine fromStr) =
      draws.mapIdx mockWindow := by
    rw [List.filterMap_map, mockValues]
    exact filterMap_mapIdx (g := replayedLine fromStr ∘ Json.compact)
      (replayedLine_mock hValue) draws
  refine ⟨snapshot, hsnapshot, ?_⟩
  rw [replay_eq hToString, hdecode]
  dsimp only
  rw [hlines, hwindows]
  exact ⟨rfl, readWindows_fileOf hWindow _⟩

/-- Two transactions with the same id. -/
theorem replay_mock_of_two :
    let d : MockDraws := ⟨zeroTxId, [0, 2, 4], by decide⟩
    let d' : MockDraws := ⟨zeroTxId, [1, 1, 5, 3], by decide⟩
    let toText := fun j : Json => some (String.ofList j.compact)
    let toString := fun w => some (windowText w).utf8Encode
    let fromStr := Json.parse recursionLimit
    let fromStrWindow := fun s => (Json.parse recursionLimit s).bind windowOfJson
    ∃ snapshot, generateMockSnapshot toText [d, d'] = some snapshot ∧
      readWindows fromStrWindow (replay fromStr toString (.stored _) snapshot.toUTF8).2 =
        some [mockWindow 0 d, mockWindow 1 d'] := by
  intro d d' toText toString fromStr fromStrWindow
  obtain ⟨snapshot, hsnapshot, -, hread⟩ := @replay_mock toText (fun _ => rfl) toString
    (fun _ => rfl) fromStr (fun _ _ h => h) fromStrWindow decodesJson_parse (.stored _) [d, d']
  exact ⟨snapshot, hsnapshot, hread⟩

end ReplayHarness

/-! ## The replay of a generated workload -/

namespace WorkloadGenerator

open ReplayHarness

/-- The time that passes from the first call of a transaction to that of the next one. -/
def gap (d : Draws) : UInt64 :=
  UInt64.ofNat (generateSyscallSequence (pickProfile d) d).length * interval + 50000

/-- The slot of the transaction `k`. -/
def slotOf (k : ℕ) : UInt64 := 280000000 + UInt64.ofNat ((k + 431) / 432)

/-- The time of the first call of the transaction `k`. -/
def startOf (draws : List Draws) (k : ℕ) : UInt64 :=
  (draws.take k).foldl (fun ts d => ts + gap d) 1700000000000000000

/-- What a replay makes of a transaction. -/
def workloadWindow (slot ts : UInt64) (d : Draws) : ExecutionWindow :=
  spanWindow d.txId slot (generateSyscallSequence (pickProfile d) d) (eventTs ts)

/-- The lines of the workload. -/
def workloadLines (draws : List Draws) : List (List Char) :=
  draws.mapIdx fun k d => lineOf (UInt64.ofNat k) (slotOf k) (startOf draws k) d

lemma length_syscallSequence (profile : WorkloadProfile) (d : Draws) :
    5 ≤ (generateSyscallSequence profile d).length ∧
      (generateSyscallSequence profile d).length ≤ 13 := by
  have hcrypto := d.crypto_length
  have hreads := d.nReads_range
  cases profile with
  | deFi =>
    simp only [generateSyscallSequence, List.length_append, List.length_map, List.length_cons,
      List.length_nil]
    omega
  | nft =>
    simp only [generateSyscallSequence, List.length_append, List.length_replicate,
      List.length_cons, List.length_nil]
    omega
  | tokenTransfer =>
    have hfive : (generateSyscallSequence .tokenTransfer d).length = 5 := rfl
    omega

lemma slotOf_succ {k : ℕ} (hk : k < 2 ^ 64) :
    slotOf (k + 1) = if UInt64.ofNat k % 432 = 0 then slotOf k + 1 else slotOf k := by
  have hmod : UInt64.ofNat k % 432 = 0 ↔ k % 432 = 0 := by
    rw [← UInt64.toNat_inj, UInt64.toNat_mod, UInt64.toNat_ofNat_of_lt' hk]
    rfl
  rw [slotOf, slotOf]
  simp only [hmod]
  split
  · rw [show (k + 1 + 431) / 432 = (k + 431) / 432 + 1 by omega, UInt64.ofNat_add,
      ← UInt64.add_assoc]
    rfl
  · rw [show (k + 1 + 431) / 432 = (k + 431) / 432 by omega]

lemma startOf_succ {draws : List Draws} {k : ℕ} {d : Draws} (hd : draws[k]? = some d) :
    startOf draws (k + 1) = startOf draws k + gap d := by
  rw [startOf, List.take_add_one, hd, List.foldl_append]
  rfl

section File

variable {toString : Json → Option ByteArray}

/-- The loop writes the lines from the transaction `k` on. -/
lemma writeTransactions_drop (hToString : EmitsText toString) {draws : List Draws}
    (hlen : draws.length < 2 ^ 64) {k : ℕ} (rest : List Draws) (hrest : draws.drop k = rest)
    (text : List Char) :
    writeTransactions toString (UInt64.ofNat k) (slotOf k) (startOf draws k) text.utf8Encode rest =
      (some (), (text ++ ((workloadLines draws).drop k).flatMap (· ++ ['\n'])).utf8Encode) := by
  induction rest generalizing k text with
  | nil =>
    have hshort : (workloadLines draws).length ≤ k := by
      rw [workloadLines, List.length_mapIdx]
      exact List.drop_eq_nil_iff.mp hrest
    rw [writeTransactions, List.drop_of_length_le hshort]
    simp
  | cons d rest ih =>
    have hd : draws[k]? = some d := by
      have hhead := List.head?_drop (l := draws) (i := k)
      rw [hrest] at hhead
      exact hhead.symm
    have hk := (List.getElem?_eq_some_iff.mp hd).1
    have hline : (workloadLines draws)[k]? =
        some (lineOf (UInt64.ofNat k) (slotOf k) (startOf draws k) d) := by
      rw [workloadLines, List.getElem?_mapIdx, hd]
      rfl
    have hlines : (workloadLines draws).drop k =
        lineOf (UInt64.ofNat k) (slotOf k) (startOf draws k) d ::
          (workloadLines draws).drop (k + 1) := by
      obtain ⟨hlt, hget⟩ := List.getElem?_eq_some_iff.mp hline
      rw [List.drop_eq_getElem_cons hlt, hget]
    have hnewline : ['\n'].utf8Encode = newline := by rfl
    have hnext := ih (k := k + 1) (by rw [← List.drop_drop, hrest]; rfl)
      (text ++ lineOf (UInt64.ofNat k) (slotOf k) (startOf draws k) d ++ ['\n'])
    rw [slotOf_succ (by omega), startOf_succ hd, UInt64.ofNat_add, List.utf8Encode_append,
      List.utf8Encode_append, hnewline] at hnext
    rw [writeTransactions, hToString]
    refine hnext.trans ?_
    rw [hlines, List.flatMap_cons, List.append_assoc, List.append_assoc, List.append_assoc]

/-- The file of a workload. -/
lemma workload_eq (hToString : EmitsText toString) {draws : List Draws}
    (hlen : draws.length < 2 ^ 64) :
    workload toString draws = ((workloadLines draws).flatMap (· ++ ['\n'])).utf8Encode := by
  have hwrite := writeTransactions_drop hToString hlen (k := 0) draws rfl []
  rw [List.nil_append, List.utf8Encode_nil] at hwrite
  rw [workload]
  exact congrArg Prod.snd hwrite

lemma le_toNat_of_mem_workloadLines {draws : List Draws} :
    ∀ l ∈ workloadLines draws, ∀ c ∈ l, 0x20 ≤ c.toNat := by
  intro l hl
  obtain ⟨i, hi, rfl⟩ := List.mem_mapIdx.mp hl
  exact Json.le_toNat_of_mem_compact (nested_windowValue _ _ _ _)

lemma lines_workload (draws : List Draws) :
    lines ((workloadLines draws).flatMap (· ++ ['\n'])) = workloadLines draws := by
  have hchars := @le_toNat_of_mem_workloadLines draws
  have hlines := lines_flatMap (fun l hl h => absurd (hchars l hl _ h) (by decide))
    (fun l hl h => absurd (hchars l hl _ h) (by decide)) []
  rwa [List.append_nil, lines_nil, List.append_nil] at hlines

lemma eventValue_workload (txIdx slot ts : UInt64) (i : ℕ) (id : SyscallId) :
    EventValue (eventValue txIdx slot ts i id) id (eventTs ts i) where
  syscallId := Json.index_object_zip (by decide) rfl (i := 0) (by decide) rfl
  timestampNs := Json.index_object_zip (by decide) rfl (i := 2) (by decide) rfl

lemma windowValue_workload (txIdx slot ts : UInt64) (d : Draws) :
    WindowValue (windowValue txIdx slot ts d) d.txId slot
      ((generateSyscallSequence (pickProfile d) d).mapIdx (eventValue txIdx slot ts)) where
  transactionId := Json.index_object_zip (by decide) rfl (i := 0) (by decide) rfl
  slot := Json.index_object_zip (by decide) rfl (i := 1) (by decide) rfl
  events := Json.index_object_zip (by decide) rfl (i := 2) (by decide) rfl

lemma replayedLine_workload {fromStr : List Char → Option Json} (hValue : DecodesValue fromStr)
    (txIdx slot ts : UInt64) (d : Draws) :
    replayedLine fromStr (lineOf txIdx slot ts d) = some (workloadWindow slot ts d) := by
  obtain ⟨hmin, hmax⟩ := length_syscallSequence (pickProfile d) d
  have hspan := (windowValue_workload txIdx slot ts d).replayedValue_span (f := id)
    (eventValue_workload txIdx slot ts) (List.ne_nil_of_length_pos (by omega)) (by omega)
  rw [List.map_id] at hspan
  rw [lineOf, windowValue, replayedLine_object hValue (nested_windowValue txIdx slot ts d)]
  exact hspan

/-- The output of a replay. -/
lemma replay_workload_eq (hToValueString : EmitsText toString)
    {toWindowString : ExecutionWindow → Option ByteArray} (hToString : EmitsJson toWindowString)
    {fromStr : List Char → Option Json} (hValue : DecodesValue fromStr)
    (order : IterationOrder TransactionId) {draws : List Draws} (hlen : draws.length < 2 ^ 64) :
    replay fromStr toWindowString order (workload toString draws) =
      (some 0, fileOf (draws.mapIdx fun k d => workloadWindow (slotOf k) (startOf draws k) d)) := by
  have hwindows : (workloadLines draws).filterMap (replayedLine fromStr) =
      draws.mapIdx fun k d => workloadWindow (slotOf k) (startOf draws k) d :=
    filterMap_mapIdx (fun k d => replayedLine_workload hValue _ _ _ d) draws
  rw [replay_eq hToString, workload_eq hToValueString hlen, List.utf8Decode?_utf8Encode]
  dsimp only
  rw [lines_workload, hwindows]

end File

/-- **A replayed workload is a trace file.**  For every number of transactions and all draws,
the replay of a generated workload succeeds, and its output is read back as one window for each
transaction, in order: with the id that was drawn, the calls of its profile, their times and
its slot. -/
theorem replay_workload {toValueString : Json → Option ByteArray}
    (hToValueString : EmitsText toValueString) {toString : ExecutionWindow → Option ByteArray}
    (hToString : EmitsJson toString) {fromStr : List Char → Option Json}
    (hValue : DecodesValue fromStr) {fromStrWindow : List Char → Option ExecutionWindow}
    (hWindow : DecodesJson fromStrWindow) (order : IterationOrder TransactionId)
    (draws : List Draws) (hlen : draws.length < 2 ^ 64) :
    let output := replay fromStr toString order (workload toValueString draws)
    output.1 = some 0 ∧
      readWindows fromStrWindow output.2 = some (draws.mapIdx fun k d =>
        workloadWindow (slotOf k) (startOf draws k) d) ∧
      Readable fromStrWindow output.2 draws.length := by
  have hread := readWindows_fileOf hWindow
    (draws.mapIdx fun k d => workloadWindow (slotOf k) (startOf draws k) d)
  dsimp only
  rw [replay_workload_eq hToValueString hToString hValue order hlen]
  refine ⟨rfl, hread, _, hread, List.length_mapIdx, fun w hw => ?_⟩
  obtain ⟨i, hi, rfl⟩ := List.mem_mapIdx.mp hw
  obtain ⟨hmin, -⟩ := length_syscallSequence (pickProfile draws[i]) draws[i]
  refine ⟨fun e he => ?_, ?_⟩
  · obtain ⟨j, hj, rfl⟩ := List.mem_mapIdx.mp he
    rfl
  · exact windowOf_spanWindow (List.ne_nil_of_length_pos (by omega)) _ _ _

/-- A token transfer and a mint, which `read_windows` rejects before they are replayed. -/
theorem replay_workload_two :
    let toValueString := fun j : Json => some j.compact.utf8Encode
    let toString := fun w => some (windowText w).utf8Encode
    let fromStr := Json.parse recursionLimit
    let fromStrWindow := fun s => (Json.parse recursionLimit s).bind windowOfJson
    Readable fromStrWindow (replay fromStr toString (.stored _)
      (workload toValueString [transferDraws, mintDraws])).2 2 := by
  intro toValueString toString fromStr fromStrWindow
  exact (replay_workload (fun _ => rfl) (fun _ => rfl) (fun _ _ h => h) decodesJson_parse
    (.stored _) [transferDraws, mintDraws] (by decide)).2.2

end WorkloadGenerator

end SyscallMind
