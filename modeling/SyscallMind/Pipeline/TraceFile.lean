/-
# Trace files

`ArrowSerializer` of `pipeline/src/arrow_serializer.rs`: a trace file holds one JSON text of an
execution window a line.  Batches of windows are appended to the file, and all windows are read
back from it.

The functions `to_vec` and `from_str` of `serde_json` are parameters here.  What the code
relies on is that the first emits the compact text of the JSON value of a window, and that
the second decodes the value of a text; a text may be nested at most 127 deep.
-/
import SyscallMind.Lib.Lines
import SyscallMind.Pipeline.TraceJson

namespace SyscallMind

open Lib TraceJson

namespace ArrowSerializer

section Code

variable (toVec : ExecutionWindow → Option ByteArray)
variable (fromStr : List Char → Option ExecutionWindow)

def serializeWindow (window : ExecutionWindow) : Option ByteArray := toVec window

def newline : ByteArray := ⟨#[10]⟩

/-- Append the windows to the file and count them.  The first failure ends the loop. -/
def writeWindows : ℕ → ByteArray → List ExecutionWindow → Option ℕ × ByteArray
  | count, file, [] => (some count, file)
  | count, file, window :: windows =>
      match serializeWindow toVec window with
      | none => (none, file)
      | some bytes => writeWindows (count + 1) (file ++ bytes ++ newline) windows

/-- The number of windows written, and the file after it. -/
def writeBatch (file : ByteArray) (windows : List ExecutionWindow) : Option ℕ × ByteArray :=
  writeWindows toVec 0 file windows

/-- Read the windows of the lines, after those already read. -/
def readLines : List ExecutionWindow → List (List Char) → Option (List ExecutionWindow)
  | windows, [] => some windows
  | windows, line :: lines =>
      if isBlank line then readLines windows lines
      else
        match fromStr line with
        | none => none
        | some w => readLines (windows ++ [w]) lines

def readWindows (file : ByteArray) : Option (List ExecutionWindow) :=
  match file.utf8Decode? with
  | none => none
  | some content => readLines fromStr [] (lines content.toList)

/-- Write the batches one after the other. -/
def writeBatches : ByteArray → List (List ExecutionWindow) → List (Option ℕ) × ByteArray
  | file, [] => ([], file)
  | file, batch :: batches =>
      let (count, file) := writeBatch toVec file batch
      let (counts, file) := writeBatches file batches
      (count :: counts, file)

end Code

/-! ## What the code relies on -/

/-- The text of a window. -/
def windowText (w : ExecutionWindow) : List Char := (windowToJson w).compact

/-- Arrays and objects are read up to this depth. -/
def recursionLimit : ℕ := 127

/-- `to_vec` emits the compact text of a window. -/
def EmitsJson (toVec : ExecutionWindow → Option ByteArray) : Prop :=
  ∀ w, toVec w = some (windowText w).utf8Encode

/-- `from_str` decodes the value of a text. -/
def DecodesJson (fromStr : List Char → Option ExecutionWindow) : Prop :=
  ∀ s j, Json.parse recursionLimit s = some j → fromStr s = windowOfJson j

/-- The reader that parses the text and decodes the value. -/
lemma decodesJson_parse :
    DecodesJson fun s => (Json.parse recursionLimit s).bind windowOfJson := by
  intro s j hj
  show (Json.parse recursionLimit s).bind windowOfJson = windowOfJson j
  rw [hj, Option.bind_some]

/-! ## The lines of a file -/

/-- No text of a window has a control character. -/
lemma le_toNat_of_mem_windowText (w : ExecutionWindow) : ∀ c ∈ windowText w, 0x20 ≤ c.toNat :=
  Json.le_toNat_of_mem_compact (nested_windowToJson 0 w)

lemma lines_windowText_append (w : ExecutionWindow) (rest : List Char) :
    lines (windowText w ++ '\n' :: rest) = windowText w :: lines rest := by
  refine lines_append (fun h => ?_) fun h => ?_
  · exact absurd (le_toNat_of_mem_windowText w _ h) (by decide)
  · exact absurd (le_toNat_of_mem_windowText w _ h) (by decide)

lemma isBlank_windowText (w : ExecutionWindow) : isBlank (windowText w) = false := by
  rw [windowText, windowToJson, Json.compact_obj, List.cons_append]
  rfl

variable {toVec : ExecutionWindow → Option ByteArray}
variable {fromStr : List Char → Option ExecutionWindow}

/-- The text of a window is decoded to the window. -/
lemma fromStr_windowText (hFromStr : DecodesJson fromStr) (w : ExecutionWindow) :
    fromStr (windowText w) = some w := by
  have hparse : Json.parse recursionLimit (windowText w) = some (windowToJson w) :=
    Json.parse_compact (nested_windowToJson 123 w)
  rw [hFromStr _ _ hparse, windowOfJson_windowToJson]

/-! ## Files of windows -/

def fileText (windows : List ExecutionWindow) : List Char :=
  windows.flatMap fun w => windowText w ++ ['\n']

/-- The file that holds the windows. -/
noncomputable def fileOf (windows : List ExecutionWindow) : ByteArray :=
  (fileText windows).utf8Encode

lemma fileOf_nil : fileOf [] = ByteArray.empty := List.utf8Encode_nil

lemma fileOf_concat (windows : List ExecutionWindow) (w : ExecutionWindow) :
    fileOf (windows ++ [w]) = fileOf windows ++ (windowText w).utf8Encode ++ newline := by
  have hnewline : ['\n'].utf8Encode = newline := by rfl
  rw [fileOf, fileText, List.flatMap_append, List.utf8Encode_append, List.flatMap_singleton,
    List.utf8Encode_append, hnewline, ByteArray.append_assoc]
  rfl

/-- The loop of `write_batch` appends its windows. -/
lemma writeWindows_fileOf (hToVec : EmitsJson toVec) (count : ℕ)
    (windows batch : List ExecutionWindow) :
    writeWindows toVec count (fileOf windows) batch =
      (some (count + batch.length), fileOf (windows ++ batch)) := by
  induction batch generalizing count windows with
  | nil => simp [writeWindows]
  | cons w batch ih =>
    rw [writeWindows, serializeWindow, hToVec w]
    show writeWindows toVec (count + 1)
      (fileOf windows ++ (windowText w).utf8Encode ++ newline) batch = _
    rw [← fileOf_concat, ih, List.append_assoc, List.singleton_append, List.length_cons,
      Nat.add_assoc, Nat.add_comm 1]

lemma writeBatches_fileOf (hToVec : EmitsJson toVec) (windows : List ExecutionWindow)
    (batches : List (List ExecutionWindow)) :
    writeBatches toVec (fileOf windows) batches =
      (batches.map fun b => some b.length, fileOf (windows ++ batches.flatten)) := by
  induction batches generalizing windows with
  | nil => simp [writeBatches]
  | cons batch batches ih =>
    simp only [writeBatches, writeBatch, writeWindows_fileOf hToVec, ih]
    simp

/-- The loop of `read_windows` takes one window from each line. -/
lemma readLines_fileText (hFromStr : DecodesJson fromStr) (windows rest : List ExecutionWindow) :
    readLines fromStr windows (lines (fileText rest)) = some (windows ++ rest) := by
  induction rest generalizing windows with
  | nil => simp [fileText, readLines]
  | cons w rest ih =>
    have htext : fileText (w :: rest) = windowText w ++ '\n' :: fileText rest := by
      simp [fileText]
    rw [htext, lines_windowText_append, readLines, isBlank_windowText,
      fromStr_windowText hFromStr]
    show readLines fromStr (windows ++ [w]) (lines (fileText rest)) = _
    rw [ih, List.append_assoc, List.singleton_append]

lemma readWindows_fileOf (hFromStr : DecodesJson fromStr) (windows : List ExecutionWindow) :
    readWindows fromStr (fileOf windows) = some windows := by
  rw [readWindows, fileOf, List.utf8Decode?_utf8Encode]
  exact readLines_fileText hFromStr [] windows

/-- **Trace files round-trip.**  The batches written to an empty file are read back in their
order, and each write counts its batch. -/
theorem readWindows_writeBatches (hToVec : EmitsJson toVec) (hFromStr : DecodesJson fromStr)
    (batches : List (List ExecutionWindow)) :
    (writeBatches toVec ByteArray.empty batches).1 = batches.map (fun b => some b.length) ∧
      readWindows fromStr (writeBatches toVec ByteArray.empty batches).2 =
        some batches.flatten := by
  have hwrite := writeBatches_fileOf hToVec [] batches
  rw [fileOf_nil, List.nil_append] at hwrite
  rw [hwrite]
  exact ⟨rfl, readWindows_fileOf hFromStr _⟩

/-- An event of the largest values. -/
def fullEvent : SyscallTraceEvent :=
  ⟨Vector.replicate 32 255, 4294967295, 18446744073709551615, 18446744073709551615, 7,
    Vector.replicate 32 9, 255⟩

/-- A window without events, an empty batch, and a window with an event. -/
theorem readWindows_writeBatches_three :
    let w : ExecutionWindow := ⟨zeroTxId, 0, [], 0, 0⟩
    let w' : ExecutionWindow := ⟨Vector.replicate 32 9, 7, [fullEvent], 1, 18446744073709551615⟩
    let toVec := fun w => some (windowText w).utf8Encode
    let fromStr := fun s => (Json.parse recursionLimit s).bind windowOfJson
    (writeBatches toVec ByteArray.empty [[w], [], [w', w]]).1 = [some 1, some 0, some 2] ∧
      readWindows fromStr (writeBatches toVec ByteArray.empty [[w], [], [w', w]]).2 =
        some [w, w', w] := by
  intro w w' toVec fromStr
  exact readWindows_writeBatches (fun _ => rfl) decodesJson_parse [[w], [], [w', w]]

end ArrowSerializer

end SyscallMind
