/-
# Generated workloads

`workload_generator` writes trace files with a JSON writer of its own.  Its events have five
fields: the program id is drawn, but neither it nor the transaction id is written into the
event.  `read_windows` reads the seven fields of `SyscallTraceEvent` and rejects an event that
lacks one, so it rejects every file with at least one line (`workload_readable_iff`).

The end of a window is also not the time of its last event but one interval later
(`endTs_ne_last`).
-/
import SyscallMind.Lib.JsonValue
import SyscallMind.Pipeline.TraceFile

namespace SyscallMind

open Lib SyscallIds TraceJson ArrowSerializer

namespace WorkloadGenerator

/-! ## The generator -/

/-- Workload profiles that mimic DeFi, NFT, and token transfer patterns. -/
inductive WorkloadProfile
  | deFi
  | nft
  | tokenTransfer
deriving DecidableEq, Repr

/-- The outcomes of the random draws for one transaction. -/
structure Draws where
  /-- The number `r / 2 ^ 53` picks the profile. -/
  r : Fin (2 ^ 53)
  /-- The cryptographic calls, by their position. -/
  crypto : List (Fin 3)
  crypto_length : 2 ≤ crypto.length ∧ crypto.length < 8
  nReads : ℕ
  nReads_range : 3 ≤ nReads ∧ nReads < 10
  txId : TransactionId
  /-- The first four bytes of the program id, which are not used. -/
  programId : Vector UInt8 4

def cryptoPool : Vector SyscallId 3 := #v[solSha256, solKeccak256, solSecp256k1Recover]

def generateSyscallSequence (profile : WorkloadProfile) (d : Draws) : List SyscallId :=
  match profile with
  | .deFi =>
      [solGetClockSysvar, solGetRentSysvar] ++ d.crypto.map (fun i => cryptoPool[i]) ++
        [solInvokeSigned, solLog]
  | .nft =>
      [solGetClockSysvar] ++ List.replicate d.nReads solLog ++
        [solSha256, solInvokeSigned, solSetReturnData]
  | .tokenTransfer =>
      [solGetClockSysvar, solGetRentSysvar, solLog, solInvokeSigned, solSetReturnData]

/-- Pick the profile by weight: below `0.5`, below `0.5 + 0.3` as the sum is rounded, or above. -/
def pickProfile (d : Draws) : WorkloadProfile :=
  if d.r.val < 4503599627370496 then .deFi
  else if d.r.val < 7205759403792794 then .nft
  else .tokenTransfer

/-- 400µs per syscall. -/
def interval : UInt64 := 400000

def eventNames : List Key :=
  keys ["syscall_id", "args_hash", "timestamp_ns", "slot", "depth"] (by decide)

def eventTs (ts : UInt64) (i : ℕ) : UInt64 := ts + UInt64.ofNat i * interval

def eventValue (txIdx slot ts : UInt64) (i : ℕ) (id : SyscallId) : Json :=
  .object (eventNames.zip [.num id.toNat, .num ((id.toUInt64 * 7919) ^^^ (txIdx * 31)).toNat,
    .num (eventTs ts i).toNat, .num slot.toNat, .num 0])

def windowValue (txIdx slot ts : UInt64) (d : Draws) : Json :=
  let syscallIds := generateSyscallSequence (pickProfile d) d
  let events := syscallIds.mapIdx (eventValue txIdx slot ts)
  .object (windowFields.zip [bytesToJson d.txId, .num slot.toNat, .arr events, .num ts.toNat,
    .num (ts + UInt64.ofNat syscallIds.length * interval).toNat])

/-- Write the windows of the remaining transactions.  The first failure ends the loop. -/
def writeTransactions (toString : Json → Option ByteArray) :
    UInt64 → UInt64 → UInt64 → ByteArray → List Draws → Option Unit × ByteArray
  | _, _, _, file, [] => (some (), file)
  | txIdx, slot, ts, file, d :: ds =>
      let syscallIds := generateSyscallSequence (pickProfile d) d
      match toString (windowValue txIdx slot ts d) with
      | none => (none, file)
      | some line =>
          -- inter-tx gap
          let ts := ts + (UInt64.ofNat syscallIds.length * interval + 50000)
          -- ~432 txs per slot
          let slot := if txIdx % 432 = 0 then slot + 1 else slot
          writeTransactions toString (txIdx + 1) slot ts (file ++ line ++ newline) ds

/-- The file of a run with the given draws, one for each transaction. -/
def workload (toString : Json → Option ByteArray) (draws : List Draws) : ByteArray :=
  (writeTransactions toString 0 280000000 1700000000000000000 ByteArray.empty draws).2

/-! ## What is expected of the file -/

/-- What `finalize` guarantees of a window. -/
structure Finalized (w : ExecutionWindow) : Prop where
  transactionId : ∀ e ∈ w.events, e.transactionId = w.transactionId
  window : WindowBuilder.windowOf w.transactionId w.events = some w

/-- All lines are read, each as a window that a builder could have made. -/
def Readable (fromStr : List Char → Option ExecutionWindow) (file : ByteArray)
    (transactions : ℕ) : Prop :=
  ∃ windows, readWindows fromStr file = some windows ∧
    windows.length = transactions ∧ ∀ w ∈ windows, Finalized w

/-- `to_string` emits the compact text of a value. -/
def EmitsText (toString : Json → Option ByteArray) : Prop :=
  ∀ j, toString j = some j.compact.utf8Encode

/-! ## A missing field -/

lemma field_perm {members members' : List (Key × Json)} (h : members'.Perm members)
    (name : Key) : field members' name = field members name := by
  have hfilter := h.filter fun m => m.1 = name
  rw [field, field]
  cases hm : members.filter fun m => m.1 = name with
  | nil =>
    rw [hm] at hfilter
    rw [hfilter.eq_nil]
  | cons m ms =>
    rw [hm] at hfilter
    cases ms with
    | nil => rw [List.perm_singleton.mp hfilter]
    | cons m' ms =>
      -- two members or more, in whichever order
      have hlen := hfilter.length_eq
      rcases hm' : members'.filter fun m => m.1 = name with _ | ⟨a, _ | ⟨b, rest⟩⟩
      · rw [hm'] at hlen
        exact absurd hlen (by simp)
      · rw [hm'] at hlen
        exact absurd hlen (by simp)
      · rw [hm']

lemma fields_object (names : List Key) (members : List (Key × Json)) :
    fields names (.object members) = fields names (.obj members) := by
  obtain ⟨members', hperm, heq⟩ := Json.object_perm members
  rw [heq, fields, fields]
  congr 1
  funext name
  exact field_perm hperm name

/-- An object without one of the fields is rejected. -/
lemma fields_eq_none {names : List Key} {members : List (Key × Json)} {name : Key}
    (hname : name ∈ names) (hmissing : ∀ m ∈ members, m.1 ≠ name) :
    fields names (.obj members) = none := by
  have hfield : field members name = none := by
    have hnil : (members.filter fun m => m.1 = name) = [] :=
      List.filter_eq_nil_iff.mpr fun m hm => by simpa using hmissing m hm
    rw [field, hnil]
  rw [fields]
  induction names with
  | nil => exact absurd hname (by simp)
  | cons name' names ih =>
    rw [List.mapM_cons]
    rcases List.mem_cons.mp hname with rfl | hname
    · rw [hfield]
      rfl
    · rw [ih hname]
      cases field members name' <;> rfl

lemma program_id_mem : (⟨"program_id".toList, by decide⟩ : Key) ∈ eventFields := by decide

/-- The generator writes no program id, so its events are rejected. -/
lemma eventOfJson_eventValue (txIdx slot ts : UInt64) (i : ℕ) (id : SyscallId) :
    eventOfJson (eventValue txIdx slot ts i id) = none := by
  rw [eventOfJson, eventValue, fields_object, fields_eq_none program_id_mem]
  intro m hm
  have hnames : ∀ name ∈ eventNames, name ≠ (⟨"program_id".toList, by decide⟩ : Key) := by decide
  exact hnames m.1 (List.of_mem_zip hm).1

/-! ## The file -/

variable (txIdx slot ts : UInt64) (d : Draws)

/-- No transaction is without calls. -/
lemma exists_syscallSequence :
    ∃ id ids, generateSyscallSequence (pickProfile d) d = id :: ids := by
  cases pickProfile d <;> exact ⟨_, _, rfl⟩

/-- Neither is a list of events that has one. -/
lemma eventsOfJson_cons (id : SyscallId) (ids : List SyscallId) :
    eventsOfJson (.arr ((id :: ids).mapIdx (eventValue txIdx slot ts))) = none := by
  rw [List.mapIdx_cons, eventsOfJson, List.mapM_cons, eventOfJson_eventValue]
  rfl

/-- Neither is any window. -/
lemma windowOfJson_windowValue : windowOfJson (windowValue txIdx slot ts d) = none := by
  obtain ⟨id, ids, hids⟩ := exists_syscallSequence d
  have hevents := eventsOfJson_cons txIdx slot ts id ids
  rw [← hids] at hevents
  rw [windowOfJson, windowValue, fields_object, fields_zip (by decide) rfl]
  simp only [bytesOfJson_bytesToJson, u64OfJson_toNat, hevents]
  rfl

lemma nested_eventValue (n : ℕ) (i : ℕ) (id : SyscallId) :
    (eventValue txIdx slot ts i id).Nested (n + 1) := by
  refine Json.nested_object (Json.nested_of_mem_zip ?_)
  simp only [List.forall_mem_cons, List.not_mem_nil, IsEmpty.forall_iff, implies_true, and_true]
  exact ⟨.num _, .num _, .num _, .num _, .num _⟩

lemma nested_windowValue : (windowValue txIdx slot ts d).Nested 127 := by
  refine Json.nested_object (Json.nested_of_mem_zip ?_)
  simp only [List.forall_mem_cons, List.not_mem_nil, IsEmpty.forall_iff, implies_true, and_true]
  refine ⟨nested_bytesToJson _ _, .num _, .arr fun v hv => ?_, .num _, .num _⟩
  obtain ⟨i, hi, rfl⟩ := List.mem_mapIdx.mp hv
  exact nested_eventValue txIdx slot ts 124 i _

/-- The line of a window. -/
def lineOf : List Char := (windowValue txIdx slot ts d).compact

lemma lines_lineOf_append (rest : List Char) :
    lines (lineOf txIdx slot ts d ++ '\n' :: rest) = lineOf txIdx slot ts d :: lines rest := by
  have hchars := Json.le_toNat_of_mem_compact (nested_windowValue txIdx slot ts d)
  refine lines_append (fun h => ?_) fun h => ?_
  · exact absurd (hchars _ h) (by decide)
  · exact absurd (hchars _ h) (by decide)

lemma isBlank_lineOf : isBlank (lineOf txIdx slot ts d) = false := by
  obtain ⟨members, -, hobject⟩ := Json.object_perm (windowFields.zip
    [bytesToJson d.txId, .num slot.toNat, .arr ((generateSyscallSequence (pickProfile d) d).mapIdx
      (eventValue txIdx slot ts)), .num ts.toNat,
      .num (ts + UInt64.ofNat (generateSyscallSequence (pickProfile d) d).length *
        interval).toNat])
  rw [lineOf, windowValue, hobject, Json.compact_obj, List.cons_append]
  rfl

variable {toString : Json → Option ByteArray}
variable {fromStr : List Char → Option ExecutionWindow}

/-- One transaction adds one line. -/
lemma exists_writeTransactions_cons (hToString : EmitsText toString) (text : List Char)
    (draws : List Draws) :
    ∃ txIdx' slot' ts', writeTransactions toString txIdx slot ts text.utf8Encode (d :: draws) =
      writeTransactions toString txIdx' slot' ts'
        (text ++ lineOf txIdx slot ts d ++ ['\n']).utf8Encode draws := by
  have hnewline : ['\n'].utf8Encode = newline := by rfl
  rw [writeTransactions, hToString, List.utf8Encode_append, List.utf8Encode_append, hnewline]
  exact ⟨_, _, _, rfl⟩

/-- The loop appends text to the file. -/
lemma exists_writeTransactions (hToString : EmitsText toString) (text : List Char)
    (draws : List Draws) :
    ∃ rest, (writeTransactions toString txIdx slot ts text.utf8Encode draws).2 =
      (text ++ rest).utf8Encode := by
  induction draws generalizing txIdx slot ts text with
  | nil => exact ⟨[], by rw [List.append_nil]; rfl⟩
  | cons d draws ih =>
    obtain ⟨txIdx', slot', ts', hstep⟩ :=
      exists_writeTransactions_cons txIdx slot ts d hToString text draws
    obtain ⟨rest, hrest⟩ := ih txIdx' slot' ts' (text ++ lineOf txIdx slot ts d ++ ['\n'])
    refine ⟨lineOf txIdx slot ts d ++ ['\n'] ++ rest, ?_⟩
    rw [hstep, hrest]
    simp only [List.append_assoc]

/-- The first line of a file with at least one is not accepted. -/
lemma readWindows_workload (hToString : EmitsText toString) (hFromStr : DecodesJson fromStr)
    (draws : List Draws) :
    readWindows fromStr (workload toString (d :: draws)) = none := by
  have hempty : ByteArray.empty = ([] : List Char).utf8Encode := List.utf8Encode_nil.symm
  obtain ⟨txIdx', slot', ts', hstep⟩ := exists_writeTransactions_cons 0 280000000
    1700000000000000000 d hToString [] draws
  obtain ⟨rest, hrest⟩ := exists_writeTransactions txIdx' slot' ts' hToString
    ([] ++ lineOf 0 280000000 1700000000000000000 d ++ ['\n']) draws
  have hparse : Json.parse recursionLimit (lineOf 0 280000000 1700000000000000000 d) =
      some (windowValue 0 280000000 1700000000000000000 d) :=
    Json.parse_compact (nested_windowValue _ _ _ d)
  rw [workload, hempty, hstep, hrest, readWindows, List.utf8Decode?_utf8Encode]
  simp only [List.append_assoc, List.singleton_append, List.nil_append]
  rw [lines_lineOf_append, readLines, isBlank_lineOf, hFromStr _ _ hparse,
    windowOfJson_windowValue]
  rfl

/-- **When a generated workload is readable.**  Only if it is empty. -/
theorem workload_readable_iff (hToString : EmitsText toString) (hFromStr : DecodesJson fromStr)
    (draws : List Draws) :
    Readable fromStr (workload toString draws) draws.length ↔ draws.length = 0 := by
  constructor
  · rintro ⟨windows, hread, -⟩
    cases draws with
    | nil => rfl
    | cons d draws =>
      rw [readWindows_workload d hToString hFromStr draws] at hread
      exact absurd hread (by simp)
  · intro h
    obtain rfl := List.length_eq_zero_iff.mp h
    refine ⟨[], ?_, rfl, by simp⟩
    have hempty : workload toString [] = ([] : List Char).utf8Encode := List.utf8Encode_nil.symm
    rw [hempty, readWindows, List.utf8Decode?_utf8Encode]
    rfl

/-- Nor would a file with the missing fields be right: the end of a window is one interval after
its last event. -/
theorem endTs_ne_last (ts : UInt64) {n : ℕ} (hn : 0 < n) :
    ts + UInt64.ofNat n * interval ≠ eventTs ts (n - 1) := by
  obtain ⟨k, rfl⟩ : ∃ k, n = k + 1 := ⟨n - 1, by omega⟩
  intro h
  rw [eventTs, Nat.add_sub_cancel, UInt64.ofNat_add, UInt64.add_mul, UInt64.add_right_inj] at h
  have hone : UInt64.ofNat 1 * interval = 0 := by simpa using h
  exact absurd hone (by decide)

/-- A token transfer. -/
def transferDraws : Draws where
  r := 9007199254740991
  crypto := [0, 0]
  crypto_length := by decide
  nReads := 3
  nReads_range := by decide
  txId := Vector.replicate 32 7
  programId := Vector.replicate 4 1

/-- A mint with four reads. -/
def mintDraws : Draws where
  r := 5000000000000000
  crypto := [0, 0]
  crypto_length := by decide
  nReads := 4
  nReads_range := by decide
  txId := Vector.replicate 32 8
  programId := Vector.replicate 4 2

/-- A workload of no transactions, and one of two. -/
theorem workload_readable_two :
    let toString := fun j : Json => some j.compact.utf8Encode
    let fromStr := fun s => (Json.parse recursionLimit s).bind windowOfJson
    Readable fromStr (workload toString []) 0 ∧
      ¬ Readable fromStr (workload toString [transferDraws, mintDraws]) 2 := by
  intro toString fromStr
  have htwo := workload_readable_iff (fun _ => rfl : EmitsText toString) decodesJson_parse
    [transferDraws, mintDraws]
  exact ⟨(workload_readable_iff (fun _ => rfl) decodesJson_parse []).mpr rfl,
    fun h => absurd (htwo.mp h) (by decide)⟩

/-- A workload of one token transfer is not read. -/
theorem workload_unreadable_transfer :
    let toString := fun j : Json => some j.compact.utf8Encode
    let fromStr := fun s => (Json.parse recursionLimit s).bind windowOfJson
    readWindows fromStr (workload toString [transferDraws]) = none ∧
      ¬ Readable fromStr (workload toString [transferDraws]) 1 := by
  intro toString fromStr
  have hnone : readWindows fromStr (workload toString [transferDraws]) = none :=
    readWindows_workload transferDraws (fun _ => rfl) decodesJson_parse []
  refine ⟨hnone, ?_⟩
  rintro ⟨windows, hread, -⟩
  rw [hnone] at hread
  exact absurd hread (by simp)

end WorkloadGenerator

end SyscallMind
