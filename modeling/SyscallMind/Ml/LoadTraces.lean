/-
# The readers of the trainers

`train.py` and `isolation_forest.py` read the trace files that `write_batch` writes.  Both take
the file line by line and skip a line that `json.loads` refuses, so neither of them fails on a
torn file as `read_windows` does: they read the windows whose texts are complete
(`loadTraces_torn`).  If the file is continued behind the tear, the torn window is lost, and
with it the first window that is written next, on the same line (`loadTraces_append_torn`).

A line that is JSON but no trace is another matter.  `load_traces` catches the missing key of an
event, but not the errors that Python raises for a value of the wrong type.

About `json.loads` only its behaviour on such lines is relied on: the text of an object is read,
and a beginning of one, or one behind a beginning of another, is a `JSONDecodeError`.
-/
import SyscallMind.Bin.ReplayHarness
import SyscallMind.Pipeline.TornTrace

namespace SyscallMind

open Lib TraceJson ArrowSerializer ReplayHarness

namespace Training

/-! ## The readers -/

inductive PyError
  | jsonDecode
  | key
  | attribute
  | type
  | unicodeDecode
deriving DecidableEq, Repr

/-- What `str.strip` removes. -/
def isSpaceChar (c : Char) : Bool :=
  isWhitespace c ∨ (0x1c ≤ c.toNat ∧ c.toNat ≤ 0x1f)

def strip (line : List Char) : List Char :=
  ((line.dropWhile isSpaceChar).reverse.dropWhile isSpaceChar).reverse

/-- A file opened as text has line feeds as its only line breaks. -/
def translateNewlines : List Char → List Char
  | '\r' :: '\n' :: s => '\n' :: translateNewlines s
  | c :: s => (if c = '\r' then '\n' else c) :: translateNewlines s
  | [] => []

def textLines (s : List Char) : List (List Char) := lines (translateNewlines s)

/-- Give the lines of a text file to the loop. -/
def forLines {A : Type} (step : A → List Char → Except PyError A) (start : A)
    (file : ByteArray) : Except PyError A :=
  match file.utf8Decode? with
  | none => .error .unicodeDecode
  | some content => (textLines content.toList).foldlM step start

/-- `window.get("events", [])`. -/
def getEvents : Json → Except PyError Json
  | .obj members => .ok (((Json.obj members).index eventsKey).getD (.arr []))
  | _ => .error .attribute

/-- `e["syscall_id"]`. -/
def subscriptId : Json → Except PyError Json
  | .obj members =>
      match (Json.obj members).index syscallIdKey with
      | some v => .ok v
      | none => .error .key
  | _ => .error .type

/-- `[e["syscall_id"] for e in events]`; the keys of an object are strings. -/
def idsOf : Json → Except PyError (List Json)
  | .arr items => items.mapM subscriptId
  | .obj members => if members.isEmpty then .ok [] else .error .type
  | .num _ => .error .type

section Code

variable (loads : List Char → Except PyError Json)

/-- One turn of `load_traces`. -/
def loadTrace (sequences : List (List Json)) (line : List Char) :
    Except PyError (List (List Json)) :=
  let line := strip line
  if line.isEmpty then .ok sequences
  else
    match loads line >>= getEvents >>= idsOf with
    | .ok ids => .ok (if 2 ≤ ids.length then sequences ++ [ids] else sequences)
    | .error .jsonDecode => .ok sequences
    | .error .key => .ok sequences
    | .error e => .error e

/-- Load JSON-lines execution windows, extracting syscall id sequences. -/
def loadTraces (file : ByteArray) : Except PyError (List (List Json)) :=
  forLines (loadTrace loads) [] file

/-- One turn of `load_windows`. -/
def loadWindow (windows : List Json) (line : List Char) : Except PyError (List Json) :=
  let line := strip line
  if line.isEmpty then .ok windows
  else
    match loads line with
    | .ok window => .ok (windows ++ [window])
    | .error .jsonDecode => .ok windows
    | .error e => .error e

def loadWindows (file : ByteArray) : Except PyError (List Json) :=
  forLines (loadWindow loads) [] file

end Code

/-! ## What the code relies on -/

/-- An object with numbers of at most 64 bits, nested at most 63 deep. -/
structure Ordinary (j : Json) : Prop where
  object : ∃ members, j = .obj members
  nested : j.Nested 63
  numbers : j.NumbersBelow UInt64.size

/-- A line with a beginning of an object, and perhaps another object behind it. -/
def BrokenLine (s : List Char) : Prop :=
  ¬ Json.OneValue s ∧ ∃ j p q, Ordinary j ∧ j.compact = p ++ q ∧
    (s = p ∨ ∃ j', Ordinary j' ∧ s = p ++ j'.compact)

/-- `json.loads` reads the text of an object, and refuses what is left of one. -/
structure LoadsJson (loads : List Char → Except PyError Json) : Prop where
  read : ∀ j, Ordinary j → loads j.compact = .ok j
  refuse : ∀ s, BrokenLine s → loads s = .error .jsonDecode

/-- The reader that parses the text. -/
def parseLoads (s : List Char) : Except PyError Json :=
  match Json.parse recursionLimit s with
  | some j => .ok j
  | none => .error .jsonDecode

/-- A text with an opening bracket in front is no number. -/
lemma parse_ne_num (s : List Char) (n : ℕ) :
    Json.parse recursionLimit ('{' :: s) ≠ some (.num n) := by
  have hread : Json.readValue recursionLimit ('{' :: s) =
      (Json.readList (Json.readMember (Json.readValue 126)) '}' s).map
        fun r => (.obj r.1, r.2) := rfl
  rw [Json.parse, hread]
  cases Json.readList (Json.readMember (Json.readValue 126)) '}' s with
  | none => simp
  | some r =>
    simp only [Option.map_some]
    split <;> simp

/-- A broken line has an opening bracket in front, if it has anything. -/
lemma Ordinary.starts {j : Json} (hj : Ordinary j) : ∃ t, j.compact = '{' :: t := by
  obtain ⟨members, rfl⟩ := hj.object
  exact ⟨_, by rw [Json.compact_obj, List.cons_append]⟩

lemma BrokenLine.starts {s : List Char} (h : BrokenLine s) : s = [] ∨ ∃ t, s = '{' :: t := by
  obtain ⟨-, j, p, q, hj, heq, hs⟩ := h
  obtain ⟨t, ht⟩ := hj.starts
  cases p with
  | nil =>
    rcases hs with rfl | ⟨j', hj', rfl⟩
    · exact Or.inl rfl
    · exact Or.inr hj'.starts
  | cons c p =>
    rw [ht, List.cons_append] at heq
    obtain ⟨rfl, -⟩ := List.cons.inj heq
    rcases hs with rfl | ⟨j', -, rfl⟩
    · exact Or.inr ⟨p, rfl⟩
    · exact Or.inr ⟨p ++ j'.compact, rfl⟩

lemma loadsJson_parseLoads : LoadsJson parseLoads := by
  refine ⟨fun j hj => ?_, fun s hs => ?_⟩
  · rw [parseLoads, Json.parse_compact (hj.nested.mono (by decide))]
  · cases hparse : Json.parse recursionLimit s with
    | none => rw [parseLoads, hparse]
    | some j =>
      refine absurd (Json.oneValue_of_parse hparse ?_) hs.1
      rintro n rfl
      rcases hs.starts with rfl | ⟨t, rfl⟩
      · have hnil : Json.parse recursionLimit [] = none := rfl
        rw [hnil] at hparse
        exact absurd hparse (by simp)
      · exact parse_ne_num t n hparse

/-! ## The lines of a trace file -/

lemma isSpaceChar_of_lt {c : Char} (hlow : 0x20 < c.toNat) (hhigh : c.toNat < 0x7f) :
    isSpaceChar c = false := by
  simp only [isSpaceChar, isWhitespace, decide_eq_false_iff_not, decide_eq_true_eq]
  omega

/-- A line without white space. -/
lemma strip_of_forall {line : List Char} (h : ∀ c ∈ line, isSpaceChar c = false) :
    strip line = line := by
  have hdrop : ∀ l : List Char, (∀ c ∈ l, isSpaceChar c = false) →
      l.dropWhile isSpaceChar = l := by
    intro l hl
    cases l with
    | nil => rfl
    | cons c l => rw [List.dropWhile_cons_of_neg (by simp [hl c (by simp)])]
  rw [strip, hdrop line h, hdrop line.reverse fun c hc => h c (List.mem_reverse.mp hc),
    List.reverse_reverse]

lemma translateNewlines_of_notMem {s : List Char} (h : '\r' ∉ s) : translateNewlines s = s := by
  induction s with
  | nil => rfl
  | cons c s ih =>
    obtain ⟨hc, hs⟩ : ¬ '\r' = c ∧ '\r' ∉ s := by simpa using h
    have hcons : translateNewlines (c :: s) = c :: translateNewlines s := by
      rw [translateNewlines]
      · rw [if_neg (Ne.symm hc)]
      · rintro s' rfl -
        exact hc rfl
    rw [hcons, ih hs]

/-- The loop over the lines of a text without carriage returns. -/
lemma forLines_utf8Encode {A : Type} (step : A → List Char → Except PyError A) (start : A)
    {s : List Char} (hcr : '\r' ∉ s) :
    forLines step start s.utf8Encode = (lines s).foldlM step start := by
  rw [forLines, List.utf8Decode?_utf8Encode]
  show (textLines s).foldlM step start = _
  rw [textLines, translateNewlines_of_notMem hcr]

/-- Lines each of which adds at most one item. -/
lemma foldlM_lines {A B : Type} {step : List A → List Char → Except PyError (List A)}
    {text : B → List Char} {item : B → Option A} {bs : List B}
    (h : ∀ done, ∀ b ∈ bs, step done (text b) = .ok (done ++ (item b).toList)) (done : List A) :
    (bs.map text).foldlM step done = .ok (done ++ bs.filterMap item) := by
  induction bs generalizing done with
  | nil =>
    rw [List.filterMap_nil, List.append_nil]
    rfl
  | cons b bs ih =>
    rw [List.map_cons, List.foldlM_cons, h done b (by simp)]
    refine (ih (fun done b hb => h done b (by simp [hb])) _).trans ?_
    rw [List.filterMap_cons, List.append_assoc]
    cases item b <;> rfl

/-- A line with a torn text, which a reader skips. -/
structure TornLine (s : List Char) : Prop where
  broken : BrokenLine s
  noSpace : ∀ c ∈ s, isSpaceChar c = false
  ne_nil : s ≠ []

section Readers

variable {loads : List Char → Except PyError Json}

lemma loadTrace_of_read {line : List Char} (hspace : ∀ c ∈ line, isSpaceChar c = false)
    (hne : line ≠ []) {ids : List Json} (hids : loads line >>= getEvents >>= idsOf = .ok ids)
    (done : List (List Json)) :
    loadTrace loads done line =
      .ok (done ++ (if 2 ≤ ids.length then some ids else none).toList) := by
  rw [loadTrace, strip_of_forall hspace, List.isEmpty_eq_false_iff.mpr hne, hids]
  show Except.ok (if 2 ≤ ids.length then done ++ [ids] else done) = _
  split_ifs
  · rfl
  · rw [Option.toList_none, List.append_nil]

lemma loadTrace_of_torn (hLoads : LoadsJson loads) {line : List Char} (h : TornLine line)
    (done : List (List Json)) : loadTrace loads done line = .ok done := by
  rw [loadTrace, strip_of_forall h.noSpace, List.isEmpty_eq_false_iff.mpr h.ne_nil,
    hLoads.refuse line h.broken]
  rfl

lemma loadWindow_of_read {line : List Char} (hspace : ∀ c ∈ line, isSpaceChar c = false)
    (hne : line ≠ []) {window : Json} (hwindow : loads line = .ok window) (done : List Json) :
    loadWindow loads done line = .ok (done ++ [window]) := by
  rw [loadWindow, strip_of_forall hspace, List.isEmpty_eq_false_iff.mpr hne, hwindow]
  rfl

lemma loadWindow_of_torn (hLoads : LoadsJson loads) {line : List Char} (h : TornLine line)
    (done : List Json) : loadWindow loads done line = .ok done := by
  rw [loadWindow, strip_of_forall h.noSpace, List.isEmpty_eq_false_iff.mpr h.ne_nil,
    hLoads.refuse line h.broken]
  rfl

end Readers

/-! ## The text of a window -/

lemma numbersBelow_bytesToJson (bytes : Vector UInt8 32) :
    (bytesToJson bytes).NumbersBelow UInt64.size := by
  refine .arr fun v hv => ?_
  obtain ⟨b, -, rfl⟩ := List.mem_map.mp hv
  exact .num (Nat.lt_trans b.toNat_lt_size (by decide))

lemma numbersBelow_u64 (x : UInt64) : (Json.num x.toNat).NumbersBelow UInt64.size :=
  .num x.toNat_lt_size

lemma numbersBelow_u32 (x : UInt32) : (Json.num x.toNat).NumbersBelow UInt64.size :=
  .num (Nat.lt_trans x.toNat_lt_size (by decide))

lemma numbersBelow_eventToJson (e : SyscallTraceEvent) :
    (eventToJson e).NumbersBelow UInt64.size := by
  refine .obj (Json.numbersBelow_of_mem_zip ?_)
  simp only [List.forall_mem_cons, List.not_mem_nil, IsEmpty.forall_iff, implies_true, and_true]
  exact ⟨numbersBelow_bytesToJson _, numbersBelow_u32 _, numbersBelow_u64 _, numbersBelow_u64 _,
    numbersBelow_u64 _, numbersBelow_bytesToJson _,
    .num (Nat.lt_trans e.depth.toNat_lt_size (by decide))⟩

lemma ordinary_windowToJson (w : ExecutionWindow) : Ordinary (windowToJson w) where
  object := ⟨_, rfl⟩
  nested := nested_windowToJson 59 w
  numbers := by
    refine .obj (Json.numbersBelow_of_mem_zip ?_)
    simp only [List.forall_mem_cons, List.not_mem_nil, IsEmpty.forall_iff, implies_true,
      and_true]
    refine ⟨numbersBelow_bytesToJson _, numbersBelow_u64 _, .arr fun v hv => ?_,
      numbersBelow_u64 _, numbersBelow_u64 _⟩
    obtain ⟨e, -, rfl⟩ := List.mem_map.mp hv
    exact numbersBelow_eventToJson e

/-- What a trainer takes from the ids of a window. -/
def trainingSequence (w : ExecutionWindow) : Option (List Json) :=
  let ids := w.events.map fun e => Json.num e.syscallId.toNat
  if 2 ≤ ids.length then some ids else none

lemma idsOf_arr {A : Type} {f : A → Json} {g : A → Json} {items : List A}
    (h : ∀ a ∈ items, subscriptId (f a) = .ok (g a)) :
    idsOf (.arr (items.map f)) = .ok (items.map g) := by
  rw [idsOf]
  induction items with
  | nil => rfl
  | cons a items ih =>
    rw [List.map_cons, List.mapM_cons, h a (by simp), ih fun b hb => h b (by simp [hb])]
    rfl

/-- No key of the trace format has white space in it, so no text has. -/
lemma isSpaceChar_compact {j : Json}
    (h : j.KeysSatisfy fun k => ∀ c ∈ k.chars, isSpaceChar c = false) :
    ∀ c ∈ j.compact, isSpaceChar c = false := by
  refine Json.forall_mem_compact (fun c hc => ?_) (fun c hc => ?_) h
  · have hbounds := Char.isDigit_iff_toNat.mp hc
    exact isSpaceChar_of_lt (Nat.lt_of_lt_of_le (by decide) hbounds.1)
      (Nat.lt_of_le_of_lt hbounds.2 (by decide))
  · have hpunct : ['[', ']', '{', '}', ',', ':', '"'].all
        (fun c => isSpaceChar c = false) = true := rfl
    exact of_decide_eq_true (List.all_eq_true.mp hpunct c hc)

lemma noSpace_fields :
    ∀ k ∈ windowFields ++ eventFields, ∀ c ∈ k.chars, isSpaceChar c = false := by
  have hkeys : (windowFields ++ eventFields).all
      (fun k => k.chars.all fun c => isSpaceChar c = false) = true := rfl
  intro k hk c hc
  exact of_decide_eq_true (List.all_eq_true.mp (List.all_eq_true.mp hkeys k hk) c hc)

lemma isSpaceChar_windowText (w : ExecutionWindow) :
    ∀ c ∈ windowText w, isSpaceChar c = false :=
  isSpaceChar_compact (keysSatisfy_windowToJson noSpace_fields w)

lemma windowText_ne_nil (w : ExecutionWindow) : windowText w ≠ [] := by
  obtain ⟨t, ht⟩ := (ordinary_windowToJson w).starts
  rw [windowText, ht]
  exact List.cons_ne_nil _ _

section Windows

variable {loads : List Char → Except PyError Json}

lemma loadTrace_windowText (hLoads : LoadsJson loads) (done : List (List Json))
    (w : ExecutionWindow) :
    loadTrace loads done (windowText w) = .ok (done ++ (trainingSequence w).toList) := by
  refine loadTrace_of_read (isSpaceChar_windowText w) (windowText_ne_nil w) ?_ done
  rw [windowText, hLoads.read _ (ordinary_windowToJson w)]
  exact idsOf_arr fun e _ => rfl

lemma loadWindow_windowText (hLoads : LoadsJson loads) (done : List Json) (w : ExecutionWindow) :
    loadWindow loads done (windowText w) = .ok (done ++ [windowToJson w]) :=
  loadWindow_of_read (isSpaceChar_windowText w) (windowText_ne_nil w)
    (hLoads.read _ (ordinary_windowToJson w)) done

end Windows

/-! ## Torn files -/

lemma tornLine_of_cut {w : ExecutionWindow} {p q : List Char} (hw : windowText w = p ++ q)
    (hp : p ≠ []) (hq : q ≠ []) : TornLine p where
  broken := ⟨not_oneValue_of_cut hw hp hq, _, p, q, ordinary_windowToJson w, hw, Or.inl rfl⟩
  noSpace := fun c hc => isSpaceChar_windowText w c (hw ▸ List.mem_append_left q hc)
  ne_nil := hp

lemma tornLine_of_joined {w w' : ExecutionWindow} {p q : List Char} (hw : windowText w = p ++ q)
    (hp : p ≠ []) : TornLine (p ++ windowText w') where
  broken := ⟨not_oneValue_of_joined hw hp, _, p, q, ordinary_windowToJson w, hw,
    Or.inr ⟨_, ordinary_windowToJson w', rfl⟩⟩
  noSpace := by
    intro c hc
    rcases List.mem_append.mp hc with hc | hc
    · exact isSpaceChar_windowText w c (hw ▸ List.mem_append_left q hc)
    · exact isSpaceChar_windowText w' c hc
  ne_nil := List.append_ne_nil_of_left_ne_nil hp _

lemma fileText_eq_flatMap (windows : List ExecutionWindow) :
    fileText windows = (windows.map windowText).flatMap (· ++ ['\n']) :=
  (List.flatMap_map windowText (· ++ ['\n']) windows).symm

lemma lines_fileText_append (windows : List ExecutionWindow) (rest : List Char) :
    lines (fileText windows ++ rest) = windows.map windowText ++ lines rest := by
  have hchars : ∀ l ∈ windows.map windowText, ∀ c ∈ l, 0x20 ≤ c.toNat := by
    intro l hl
    obtain ⟨w, -, rfl⟩ := List.mem_map.mp hl
    exact le_toNat_of_mem_windowText w
  rw [fileText_eq_flatMap]
  exact lines_flatMap (fun l hl h => absurd (hchars l hl _ h) (by decide))
    (fun l hl h => absurd (hchars l hl _ h) (by decide)) rest

/-- The lines of a file that is cut: those of the windows whose texts are complete, and perhaps
a torn one. -/
lemma lines_torn (windows : List ExecutionWindow) {n : ℕ} (hn : n ≤ (fileText windows).length) :
    ∃ k ≤ windows.length, (∀ i < windows.length, i < k ↔ offset windows (i + 1) ≤ n + 1) ∧
      ∃ torn, lines ((fileText windows).take n) = (windows.take k).map windowText ++ torn ∧
        ∀ s ∈ torn, TornLine s := by
  obtain ⟨k, p, hk, htake, hnk, hcut⟩ := exists_cut windows hn
  by_cases hp : p = []
  · subst hp
    rw [List.length_nil, Nat.add_zero] at hnk
    refine ⟨k, hk, fun i hi => lt_iff_offset_le hi hk (by omega) fun hlt => ?_, [], ?_, by simp⟩
    · have hnext : offset windows k + 3 ≤ offset windows (k + 1) :=
        offset_lt (Nat.lt_add_one k) hlt
      omega
    · rw [htake, lines_fileText_append, lines_nil]
  · obtain ⟨w, q, hw, htext⟩ := hcut.resolve_left hp
    obtain ⟨-, hlf, -⟩ := line_of_cut htext hp []
    have hplen := List.length_pos_iff.mpr hp
    have hsucc := offset_succ hw
    have hklt : k < windows.length := (List.getElem?_eq_some_iff.mp hw).1
    rw [htake, lines_fileText_append, lines_of_notMem hp hlf]
    by_cases hq : q = []
    · -- only the line feed is missing
      obtain rfl : windowText w = p := by rw [htext, hq, List.append_nil]
      refine ⟨k + 1, hklt, fun i hi => lt_iff_offset_le hi hklt (by omega) fun hlt => ?_, [], ?_,
        by simp⟩
      · have hnext : offset windows (k + 1) + 3 ≤ offset windows (k + 1 + 1) :=
          offset_lt (Nat.lt_add_one _) hlt
        omega
      · rw [List.take_add_one, hw, List.map_append, List.append_nil]
        rfl
    · have hlen := congrArg List.length htext
      have hqlen := List.length_pos_iff.mpr hq
      rw [List.length_append] at hlen
      refine ⟨k, hk, fun i hi => lt_iff_offset_le hi hk (by omega) fun _ => by omega, [p], rfl,
        ?_⟩
      rw [List.forall_mem_singleton]
      exact tornLine_of_cut htext hp hq

/-- The lines of a file that is cut and continued: those of the windows whose lines are
complete, and those of the new windows, the first of which is lost on a torn line. -/
lemma lines_append_torn (windows : List ExecutionWindow) {n : ℕ}
    (hn : n ≤ (fileText windows).length) {batch : List ExecutionWindow} (hbatch : batch ≠ []) :
    ∃ k ≤ windows.length, (∀ i < windows.length, i < k ↔ offset windows (i + 1) ≤ n) ∧
      ∃ torn, lines ((fileText windows).take n ++ fileText batch) =
          (windows.take k).map windowText ++ torn ++
            (if offset windows k = n then batch else batch.tail).map windowText ∧
        ∀ s ∈ torn, TornLine s := by
  obtain ⟨k, p, hk, htake, hnk, hcut⟩ := exists_cut windows hn
  rw [htake, List.append_assoc, lines_fileText_append]
  by_cases hp : p = []
  · subst hp
    rw [List.length_nil, Nat.add_zero] at hnk
    refine ⟨k, hk, fun i hi => lt_iff_offset_le hi hk (by omega) fun hlt => ?_, [], ?_, by simp⟩
    · have hnext : offset windows k + 3 ≤ offset windows (k + 1) :=
        offset_lt (Nat.lt_add_one k) hlt
      omega
    · have hlines := lines_fileText_append batch []
      rw [List.append_nil, lines_nil, List.append_nil] at hlines
      rw [List.nil_append, hlines, if_pos hnk.symm, List.append_nil]
  · obtain ⟨w, q, hw, htext⟩ := hcut.resolve_left hp
    obtain ⟨w', batch, rfl⟩ := List.exists_cons_of_ne_nil hbatch
    have htorn : TornLine (p ++ windowText w') := tornLine_of_joined htext hp
    have hbreak : '\n' ∉ p ++ windowText w' ∧ '\r' ∉ p ++ windowText w' :=
      ⟨fun h => absurd (htorn.noSpace _ h) (by decide),
        fun h => absurd (htorn.noSpace _ h) (by decide)⟩
    have hjoin : p ++ fileText (w' :: batch) =
        (p ++ windowText w') ++ '\n' :: fileText batch := by
      simp [fileText]
    have hrest := lines_fileText_append batch []
    rw [List.append_nil, lines_nil, List.append_nil] at hrest
    have hlen := congrArg List.length htext
    have hplen := List.length_pos_iff.mpr hp
    have hsucc := offset_succ hw
    rw [List.length_append] at hlen
    refine ⟨k, hk, fun i hi => lt_iff_offset_le hi hk (by omega) fun _ => by omega,
      [p ++ windowText w'], ?_, ?_⟩
    · rw [hjoin, lines_append hbreak.1 hbreak.2, hrest, if_neg (by omega), List.append_assoc]
      rfl
    · rw [List.forall_mem_singleton]
      exact htorn

/-! ## What the trainers read -/

/-- A loop that takes an item from each window's line and skips the torn ones. -/
lemma foldlM_torn {A : Type} {step : List A → List Char → Except PyError (List A)}
    {f : ExecutionWindow → Option A}
    (hread : ∀ done w, step done (windowText w) = .ok (done ++ (f w).toList))
    (hskip : ∀ done s, TornLine s → step done s = .ok done)
    {torn : List (List Char)} (htorn : ∀ s ∈ torn, TornLine s) (ws ws' : List ExecutionWindow) :
    (ws.map windowText ++ torn ++ ws'.map windowText).foldlM step [] =
      .ok ((ws ++ ws').filterMap f) := by
  have hlost : ∀ done, torn.foldlM step done = .ok done := by
    intro done
    induction torn with
    | nil => rfl
    | cons s torn ih =>
      rw [List.foldlM_cons, hskip done s (htorn s (by simp))]
      exact ih fun s hs => htorn s (by simp [hs])
  rw [List.foldlM_append, List.foldlM_append, foldlM_lines fun done w _ => hread done w]
  refine (congrArg (· >>= _) (hlost _)).trans ?_
  refine (foldlM_lines (fun done w _ => hread done w) _).trans ?_
  rw [List.nil_append, List.filterMap_append]

lemma return_notMem_fileText (windows : List ExecutionWindow) : '\r' ∉ fileText windows := by
  intro h
  obtain ⟨w, -, hw⟩ := List.mem_flatMap.mp h
  rcases List.mem_append.mp hw with hw | hw
  · exact absurd (le_toNat_of_mem_windowText w _ hw) (by decide)
  · exact absurd (List.mem_singleton.mp hw) (by decide)

variable {toVec : ExecutionWindow → Option ByteArray}
variable {loads : List Char → Except PyError Json}

/-- **What the trainers read from a torn file.**  From the first `n` bytes of a trace file both
trainers read the windows whose texts are complete, with or without their line feeds, and
neither fails. -/
theorem loadTraces_torn (hToVec : EmitsJson toVec) (hLoads : LoadsJson loads)
    (batches : List (List ExecutionWindow)) (n : ℕ)
    (hn : n ≤ (writeBatches toVec ByteArray.empty batches).2.size) :
    let windows := batches.flatten
    let file := (writeBatches toVec ByteArray.empty batches).2.extract 0 n
    ∃ k ≤ windows.length, (∀ i < windows.length, i < k ↔ offset windows (i + 1) ≤ n + 1) ∧
      loadTraces loads file = .ok ((windows.take k).filterMap trainingSequence) ∧
      loadWindows loads file = .ok ((windows.take k).map windowToJson) := by
  intro windows file
  have hfile : file = ((fileText windows).take n).utf8Encode ∧
      n ≤ (fileText windows).length := by
    rw [writeBatches_empty hToVec] at hn
    obtain ⟨hn, hextract⟩ := extract_fileOf windows hn
    refine ⟨?_, hn⟩
    rw [← hextract, ← writeBatches_empty hToVec]
  obtain ⟨k, hk, hiff, torn, hlines, htorn⟩ := lines_torn windows hfile.2
  have hcr : '\r' ∉ (fileText windows).take n := fun h =>
    return_notMem_fileText windows (List.mem_of_mem_take h)
  refine ⟨k, hk, hiff, ?_, ?_⟩
  · have hfold := foldlM_torn (loadTrace_windowText hLoads)
      (fun done s hs => loadTrace_of_torn hLoads hs done) htorn (windows.take k) []
    rw [List.map_nil, List.append_nil, List.append_nil] at hfold
    rw [loadTraces, hfile.1, forLines_utf8Encode _ _ hcr, hlines, hfold]
  · have hfold := foldlM_torn (f := fun w => some (windowToJson w)) (loadWindow_windowText hLoads)
      (fun done s hs => loadWindow_of_torn hLoads hs done) htorn (windows.take k) []
    rw [List.map_nil, List.append_nil, List.append_nil] at hfold
    rw [loadWindows, hfile.1, forLines_utf8Encode _ _ hcr, hlines, hfold,
      List.filterMap_eq_map']

/-- The file of two windows of two events each, without its last line feed. -/
theorem loadTraces_torn_of_two :
    let w : ExecutionWindow := ⟨zeroTxId, 0, [fullEvent, fullEvent], 1, 2⟩
    let w' : ExecutionWindow := ⟨Vector.replicate 32 9, 7, [fullEvent, fullEvent], 1, 2⟩
    let toVec := fun w => some (windowText w).utf8Encode
    loadTraces parseLoads ((writeBatches toVec ByteArray.empty [[w, w']]).2.extract 0
      (offset [w, w'] 2 - 1)) =
        .ok (List.replicate 2 [.num 4294967295, .num 4294967295]) := by
  intro w w' toVec
  have hlt := @offset_lt [w, w'] 0 2 (by omega) (Nat.le_refl _)
  obtain ⟨k, hk, hiff, htraces, -⟩ := loadTraces_torn (fun _ => rfl) loadsJson_parseLoads [[w, w']]
    (offset [w, w'] 2 - 1) (by rw [writeBatches_empty fun _ => rfl]; exact Nat.sub_le _ _)
  have hone : 1 < k := by
    refine (hiff 1 (Nat.lt_succ_self 1)).mpr ?_
    show offset [w, w'] 2 ≤ offset [w, w'] 2 - 1 + 1
    omega
  obtain rfl : k = 2 := Nat.le_antisymm hk hone
  exact htraces

/-- **What the trainers read from a torn file that is continued.**  After a nonempty batch is
appended to the first `n` bytes of a trace file, both trainers read the windows whose lines are
complete, and the batch; if the bytes do not end at the end of a line, the first window of the
batch is lost. -/
theorem loadTraces_append_torn (hToVec : EmitsJson toVec) (hLoads : LoadsJson loads)
    (batches : List (List ExecutionWindow)) (n : ℕ)
    (hn : n ≤ (writeBatches toVec ByteArray.empty batches).2.size)
    (batch : List ExecutionWindow) (hbatch : batch ≠ []) :
    let windows := batches.flatten
    let file := (writeBatch toVec
      ((writeBatches toVec ByteArray.empty batches).2.extract 0 n) batch).2
    ∃ k ≤ windows.length, (∀ i < windows.length, i < k ↔ offset windows (i + 1) ≤ n) ∧
      let kept := windows.take k ++ if offset windows k = n then batch else batch.tail
      loadTraces loads file = .ok (kept.filterMap trainingSequence) ∧
        loadWindows loads file = .ok (kept.map windowToJson) := by
  intro windows file
  have hfile : file = ((fileText windows).take n ++ fileText batch).utf8Encode ∧
      n ≤ (fileText windows).length := by
    rw [writeBatches_empty hToVec] at hn
    obtain ⟨hn, hextract⟩ := extract_fileOf windows hn
    refine ⟨?_, hn⟩
    rw [List.utf8Encode_append, ← hextract, ← writeBatches_empty hToVec]
    exact congrArg Prod.snd (writeBatch_append hToVec _ batch)
  obtain ⟨k, hk, hiff, torn, hlines, htorn⟩ := lines_append_torn windows hfile.2 hbatch
  have hcr : '\r' ∉ (fileText windows).take n ++ fileText batch := by
    rw [List.mem_append, not_or]
    exact ⟨fun h => return_notMem_fileText windows (List.mem_of_mem_take h),
      return_notMem_fileText batch⟩
  refine ⟨k, hk, hiff, ?_, ?_⟩
  · rw [loadTraces, hfile.1, forLines_utf8Encode _ _ hcr, hlines]
    exact foldlM_torn (loadTrace_windowText hLoads)
      (fun done s hs => loadTrace_of_torn hLoads hs done) htorn _ _
  · rw [loadWindows, hfile.1, forLines_utf8Encode _ _ hcr, hlines]
    refine (foldlM_torn (f := fun w => some (windowToJson w)) (loadWindow_windowText hLoads)
      (fun done s hs => loadWindow_of_torn hLoads hs done) htorn _ _).trans ?_
    rw [List.filterMap_eq_map']

/-- A window whose line feed is missing, and two more: the first two are lost. -/
theorem loadTraces_append_torn_of_three :
    let w : ExecutionWindow := ⟨zeroTxId, 0, [fullEvent, fullEvent], 1, 2⟩
    let toVec := fun w => some (windowText w).utf8Encode
    loadWindows parseLoads (writeBatch toVec ((writeBatches toVec ByteArray.empty
      [[w]]).2.extract 0 (offset [w] 1 - 1)) [w, w]).2 = .ok [windowToJson w] := by
  intro w toVec
  have hlt := @offset_lt [w] 0 1 Nat.zero_lt_one (Nat.le_refl _)
  obtain ⟨k, hk, hiff, -, hwindows⟩ := loadTraces_append_torn (fun _ => rfl)
    loadsJson_parseLoads [[w]] (offset [w] 1 - 1)
    (by rw [writeBatches_empty fun _ => rfl]; exact Nat.sub_le _ _) [w, w] (by simp)
  have hzero : ¬ 0 < k := by
    rw [hiff 0 Nat.zero_lt_one]
    show ¬ offset [w] 1 ≤ offset [w] 1 - 1
    omega
  obtain rfl : k = 0 := Nat.eq_zero_of_not_pos hzero
  rw [hwindows]
  have hnot : ¬ offset [w] 0 = offset [w] 1 - 1 := by omega
  simp only [List.flatten_cons, List.flatten_nil, List.append_nil, if_neg hnot]
  rfl

end Training

end SyscallMind
