/-
# Torn trace files

A writer that dies in the middle of `write_batch` leaves some beginning of the bytes that it
would have written.  Whether such a file can be read depends on where it ends: at the end of a
line, or just before the line feed of one, it holds the windows up to there, and everywhere
else `read_windows` fails (`readWindows_torn_iff`).

The next `write_batch` opens the file for appending and writes its first window where the torn
line ends.  If that is not the end of a line, there is a line then with the texts of two
windows, one of them perhaps torn, and `read_windows` fails, whatever is appended: only a file
that ends with a whole line can be continued (`readWindows_append_torn_iff`).

About `from_str` one thing more is relied on here: it accepts no text with open brackets or
strings, and none with two values.
-/
import SyscallMind.Lib.JsonScan
import SyscallMind.Pipeline.TraceFile

namespace SyscallMind

open Lib TraceJson

namespace ArrowSerializer

variable {toVec : ExecutionWindow → Option ByteArray}
variable {fromStr : List Char → Option ExecutionWindow}

/-- `from_str` accepts the text of one value only. -/
def AcceptsOneValue (fromStr : List Char → Option ExecutionWindow) : Prop :=
  ∀ s w, fromStr s = some w → Json.OneValue s

/-- The reader that parses the text and decodes the value. -/
lemma acceptsOneValue_parse :
    AcceptsOneValue fun s => (Json.parse recursionLimit s).bind windowOfJson := by
  intro s w h
  obtain ⟨j, hj, hw⟩ := Option.bind_eq_some_iff.mp h
  refine Json.oneValue_of_parse hj ?_
  rintro n rfl
  exact absurd hw (by simp [windowOfJson, fields])

/-! ## The text of a window -/

/-- Not a backslash, and encoded in one byte. -/
def Simple (c : Char) : Prop := c.toNat < 128 ∧ c ≠ '\\'

instance (c : Char) : Decidable (Simple c) :=
  inferInstanceAs (Decidable (c.toNat < 128 ∧ c ≠ '\\'))

lemma simple_of_isDigit {c : Char} (h : c.isDigit = true) : Simple c := by
  have hbound := (Char.isDigit_iff_toNat.mp h).2
  refine ⟨Nat.lt_of_le_of_lt hbound (by decide), ?_⟩
  rintro rfl
  exact absurd h (by decide)

lemma keysSatisfy_bytesToJson {P : Key → Prop} (bytes : Vector UInt8 32) :
    (bytesToJson bytes).KeysSatisfy P := by
  refine .arr fun v hv => ?_
  obtain ⟨b, -, rfl⟩ := List.mem_map.mp hv
  exact .num _

lemma keysSatisfy_eventToJson {P : Key → Prop} (hP : ∀ k ∈ eventFields, P k)
    (e : SyscallTraceEvent) : (eventToJson e).KeysSatisfy P := by
  refine .obj (fun m hm => hP _ (List.of_mem_zip hm).1) fun m hm => ?_
  have hvalue := (List.of_mem_zip hm).2
  simp only [List.mem_cons, List.not_mem_nil, or_false] at hvalue
  rcases hvalue with h | h | h | h | h | h | h <;> rw [h]
  · exact keysSatisfy_bytesToJson _
  · exact .num _
  · exact .num _
  · exact .num _
  · exact .num _
  · exact keysSatisfy_bytesToJson _
  · exact .num _

lemma keysSatisfy_windowToJson {P : Key → Prop} (hP : ∀ k ∈ windowFields ++ eventFields, P k)
    (w : ExecutionWindow) : (windowToJson w).KeysSatisfy P := by
  refine .obj (fun m hm => hP _ (List.mem_append_left _ (List.of_mem_zip hm).1)) fun m hm => ?_
  have hvalue := (List.of_mem_zip hm).2
  simp only [List.mem_cons, List.not_mem_nil, or_false] at hvalue
  rcases hvalue with h | h | h | h | h <;> rw [h]
  · exact keysSatisfy_bytesToJson _
  · exact .num _
  · refine .arr fun v hv => ?_
    obtain ⟨e, -, rfl⟩ := List.mem_map.mp hv
    exact keysSatisfy_eventToJson (fun k hk => hP k (List.mem_append_right _ hk)) e
  · exact .num _
  · exact .num _

lemma simple_of_all {s : List Char} (h : s.all (fun c => decide (Simple c)) = true) :
    ∀ c ∈ s, Simple c := by
  intro c hc
  exact of_decide_eq_true (List.all_eq_true.mp h c hc)

lemma simple_of_mem_windowText (w : ExecutionWindow) : ∀ c ∈ windowText w, Simple c := by
  refine Json.forall_mem_compact (fun c hc => simple_of_isDigit hc) (simple_of_all rfl) ?_
  have hkeys : (windowFields ++ eventFields).all
      (fun k => k.chars.all fun c => decide (Simple c)) = true := rfl
  exact keysSatisfy_windowToJson (fun k hk => simple_of_all (List.all_eq_true.mp hkeys k hk)) w

/-- The brackets of a window's text and what stands between them. -/
lemma windowText_eq (w : ExecutionWindow) :
    ∃ inner, windowText w = '{' :: inner ++ ['}'] ∧ Json.Level inner :=
  Json.exists_inner_of_obj (nested_windowToJson 0 w)

lemma level_windowText (w : ExecutionWindow) : Json.Level (windowText w) :=
  Json.level_compact (nested_windowToJson 0 w)

lemma isSpace_windowText (w : ExecutionWindow) : (windowText w).all Json.isSpace = false := by
  obtain ⟨inner, heq, -⟩ := windowText_eq w
  rw [heq]
  rfl

lemma backslash_notMem_windowText (w : ExecutionWindow) : '\\' ∉ windowText w :=
  fun h => (simple_of_mem_windowText w _ h).2 rfl

lemma simple_of_mem_fileText (windows : List ExecutionWindow) :
    ∀ c ∈ fileText windows, Simple c := by
  intro c hc
  obtain ⟨w, -, hcw⟩ := List.mem_flatMap.mp hc
  rcases List.mem_append.mp hcw with hcw | hcw
  · exact simple_of_mem_windowText w c hcw
  · rw [List.mem_singleton.mp hcw]
    decide

/-! ## Bytes and characters -/

lemma size_utf8Encode {s : List Char} (h : ∀ c ∈ s, Simple c) : s.utf8Encode.size = s.length := by
  induction s with
  | nil => rfl
  | cons c s ih =>
    have hc : c.utf8Size = 1 := by
      have hlt := (h c (by simp)).1
      refine Char.utf8Size_eq_one_iff.mpr (UInt32.le_iff_toNat_le.mpr ?_)
      exact Nat.le_of_lt_succ hlt
    have hrest := ih fun c' hc' => h c' (List.mem_cons_of_mem _ hc')
    have hsingle : [c].utf8Encode.size = 1 := by
      rw [List.utf8Encode_singleton, List.size_toByteArray, String.length_utf8EncodeChar, hc]
    rw [← List.singleton_append, List.utf8Encode_append, ByteArray.size_append, hsingle, hrest]
    simp [Nat.add_comm]

/-- Cutting the bytes is cutting the characters. -/
lemma extract_utf8Encode {s : List Char} (h : ∀ c ∈ s, Simple c) {n : ℕ} (hn : n ≤ s.length) :
    s.utf8Encode.extract 0 n = (s.take n).utf8Encode := by
  have hsize := size_utf8Encode (s := s.take n) fun c hc => h c (List.mem_of_mem_take hc)
  rw [List.length_take, Nat.min_eq_left hn] at hsize
  conv_lhs => rw [← List.take_append_drop n s, List.utf8Encode_append]
  exact ByteArray.extract_append_eq_left hsize.symm

/-- Where the first `k` windows end in the file. -/
noncomputable def offset (windows : List ExecutionWindow) (k : ℕ) : ℕ :=
  (fileOf (windows.take k)).size

lemma offset_eq (windows : List ExecutionWindow) (k : ℕ) :
    offset windows k = (fileText (windows.take k)).length :=
  size_utf8Encode (simple_of_mem_fileText _)

lemma fileText_append (ws ws' : List ExecutionWindow) :
    fileText (ws ++ ws') = fileText ws ++ fileText ws' := List.flatMap_append

lemma offset_succ {windows : List ExecutionWindow} {k : ℕ} {w : ExecutionWindow}
    (hw : windows[k]? = some w) :
    offset windows (k + 1) = offset windows k + (windowText w).length + 1 := by
  rw [offset_eq, offset_eq, List.take_add_one, hw, fileText_append]
  simp [fileText]
  omega

/-! ## Where a file is cut -/

/-- A cut of the text: some whole lines, and a part of the text of the next window, which may
be empty and may be the whole text without its line feed. -/
lemma exists_cut (windows : List ExecutionWindow) {n : ℕ} (hn : n ≤ (fileText windows).length) :
    ∃ k p, k ≤ windows.length ∧ (fileText windows).take n = fileText (windows.take k) ++ p ∧
      n = offset windows k + p.length ∧
      (p = [] ∨ ∃ w q, windows[k]? = some w ∧ windowText w = p ++ q) := by
  induction windows generalizing n with
  | nil =>
    have hzero : n = 0 := by simpa [fileText] using hn
    exact ⟨0, [], by simp, by simp [fileText], by simp [offset_eq, fileText, hzero], Or.inl rfl⟩
  | cons w windows ih =>
    have htext : fileText (w :: windows) = (windowText w ++ ['\n']) ++ fileText windows := by
      simp [fileText]
    rcases Nat.lt_or_ge (windowText w).length n with hlong | hshort
    · -- the first line is whole
      obtain ⟨m, rfl⟩ : ∃ m, n = (windowText w ++ ['\n']).length + m :=
        ⟨n - (windowText w ++ ['\n']).length, by simp; omega⟩
      have hm : m ≤ (fileText windows).length := by
        have hlen : (fileText (w :: windows)).length =
            (windowText w ++ ['\n']).length + (fileText windows).length := by
          rw [htext, List.length_append]
        exact Nat.add_le_add_iff_left.mp (hlen ▸ hn)
      obtain ⟨k, p, hk, htake, hm, hp⟩ := ih hm
      refine ⟨k + 1, p, by simpa using hk, ?_, ?_, hp⟩
      · rw [htext, List.take_length_add_append, htake]
        simp [fileText]
      · rw [offset_eq, List.take_succ_cons] at *
        simp [fileText] at *
        omega
    · refine ⟨0, (windowText w).take n, by simp, ?_, ?_, Or.inr ⟨w, (windowText w).drop n, rfl, ?_⟩⟩
      · rw [htext, List.append_assoc, List.take_append_of_le_length hshort]
        simp [fileText]
      · rw [offset_eq, List.length_take, Nat.min_eq_left hshort]
        simp [fileText]
      · exact (List.take_append_drop n _).symm

/-! ## Reading and writing after a cut -/

/-- `write_batch` appends to whatever the file holds. -/
lemma writeBatch_append (hToVec : EmitsJson toVec) (file : ByteArray)
    (batch : List ExecutionWindow) :
    writeBatch toVec file batch = (some batch.length, file ++ fileOf batch) := by
  have hgen : ∀ count file, writeWindows toVec count file batch =
      (some (count + batch.length), file ++ fileOf batch) := by
    induction batch with
    | nil => simp [writeWindows, fileOf_nil]
    | cons w batch ih =>
      intro count file
      have hcons : fileOf (w :: batch) = (windowText w).utf8Encode ++ newline ++ fileOf batch := by
        have hw := fileOf_concat [] w
        rw [fileOf_nil, ByteArray.empty_append, List.nil_append] at hw
        rw [← hw, fileOf, fileOf, fileOf, ← List.utf8Encode_append, ← fileText_append]
        rfl
      rw [writeWindows, serializeWindow, hToVec w, hcons]
      dsimp only
      rw [ih, List.length_cons]
      simp [ByteArray.append_assoc, Nat.add_comm, Nat.add_left_comm]
  rw [writeBatch, hgen, Nat.zero_add]

/-- The lines of whole windows are read, whatever follows. -/
lemma readLines_fileText_append (hFromStr : DecodesJson fromStr)
    (windows rest : List ExecutionWindow) (s : List Char) :
    readLines fromStr windows (lines (fileText rest ++ s)) =
      readLines fromStr (windows ++ rest) (lines s) := by
  induction rest generalizing windows with
  | nil => simp [fileText]
  | cons w rest ih =>
    have htext : fileText (w :: rest) ++ s = windowText w ++ '\n' :: (fileText rest ++ s) := by
      simp [fileText]
    rw [htext, lines_windowText_append, readLines, isBlank_windowText,
      fromStr_windowText hFromStr]
    show readLines fromStr (windows ++ [w]) (lines (fileText rest ++ s)) = _
    rw [ih, List.append_assoc, List.singleton_append]

/-- A part of a window's text with its first bracket is not blank, and fits on one line. -/
lemma line_of_cut {w : ExecutionWindow} {p q : List Char} (hw : windowText w = p ++ q)
    (hp : p ≠ []) (t : List Char) : isBlank (p ++ t) = false ∧ '\n' ∉ p ∧ '\r' ∉ p := by
  have hchar := le_toNat_of_mem_windowText w
  have hmem : ∀ c ∈ p, c ∈ windowText w := fun c hc => hw ▸ List.mem_append_left q hc
  refine ⟨?_, fun h => ?_, fun h => ?_⟩
  · obtain ⟨inner, heq, -⟩ := windowText_eq w
    cases p with
    | nil => exact absurd rfl hp
    | cons c p =>
      rw [heq, List.cons_append, List.cons_append] at hw
      rw [← (List.cons.inj hw).1]
      rfl
  · exact absurd (hchar _ (hmem _ h)) (by decide)
  · exact absurd (hchar _ (hmem _ h)) (by decide)

/-- A part of a window's text is not one value. -/
lemma not_oneValue_of_cut {w : ExecutionWindow} {p q : List Char} (hw : windowText w = p ++ q)
    (hp : p ≠ []) (hq : q ≠ []) : ¬ Json.OneValue p := by
  obtain ⟨inner, heq, hinner⟩ := windowText_eq w
  have hpos := Json.not_closed_of_cut (o := '{') (c := '}') rfl hinner (heq ▸ hw) hp hq
  rintro ⟨hclosed, -⟩
  have hzero : Json.scan ⟨0, .plain⟩ p = ⟨0, .plain⟩ := hclosed
  rw [hzero] at hpos
  exact absurd hpos (by simp)

/-- Neither is a text, or a part of it, with another text on the same line. -/
lemma not_oneValue_of_joined {w w' : ExecutionWindow} {p q : List Char}
    (hw : windowText w = p ++ q) (hp : p ≠ []) : ¬ Json.OneValue (p ++ windowText w') := by
  obtain ⟨inner, heq, hinner⟩ := windowText_eq w
  have hback : '\\' ∉ p := fun h =>
    backslash_notMem_windowText w (hw ▸ List.mem_append_left q h)
  exact Json.not_oneValue_append (o := '{') (c := '}') rfl hinner (heq ▸ hw) hp hback
    (level_windowText w') (backslash_notMem_windowText w') (isSpace_windowText w')

lemma fromStr_eq_none (hone : AcceptsOneValue fromStr) {s : List Char}
    (h : ¬ Json.OneValue s) : fromStr s = none := by
  cases hfrom : fromStr s with
  | none => rfl
  | some w => exact absurd (hone s w hfrom) h

/-- Every line takes some bytes. -/
lemma offset_lt {windows : List ExecutionWindow} {k k' : ℕ} (hlt : k < k')
    (hk' : k' ≤ windows.length) : offset windows k + 3 ≤ offset windows k' := by
  induction k', hlt using Nat.le_induction with
  | base =>
    show offset windows k + 3 ≤ offset windows (k + 1)
    obtain ⟨inner, heq, -⟩ := windowText_eq windows[k]
    have hsucc := offset_succ (List.getElem?_eq_getElem hk')
    rw [heq, List.length_append, List.length_cons, List.length_singleton] at hsucc
    omega
  | succ k' hle ih =>
    have hsucc := offset_succ (List.getElem?_eq_getElem hk')
    have hprev := ih (by omega)
    omega

lemma offset_inj {windows : List ExecutionWindow} {k k' : ℕ} (hk : k ≤ windows.length)
    (hk' : k' ≤ windows.length) (h : offset windows k' = offset windows k) : k' = k := by
  rcases Nat.lt_trichotomy k' k with hlt | heq | hlt
  · have := offset_lt hlt hk
    omega
  · exact heq
  · have := offset_lt hlt hk'
    omega

/-- The end of a line is not the place before another end. -/
lemma offset_ne_succ {windows : List ExecutionWindow} {k k' : ℕ} (hk : k ≤ windows.length)
    (hk' : k' ≤ windows.length) : offset windows k' ≠ offset windows k + 1 := by
  rcases Nat.lt_trichotomy k' k with hlt | rfl | hlt
  · have := offset_lt hlt hk
    omega
  · omega
  · have := offset_lt hlt hk'
    omega

/-- The next end of a line. -/
lemma offset_succ_le {windows : List ExecutionWindow} {k k' : ℕ} (hk : k ≤ windows.length)
    (hk' : k' ≤ windows.length) (h : offset windows k < offset windows k') :
    offset windows (k + 1) ≤ offset windows k' := by
  rcases Nat.lt_trichotomy k' k with hlt | rfl | hlt
  · have := offset_lt hlt hk
    omega
  · omega
  · rcases Nat.eq_or_lt_of_le (Nat.succ_le_of_lt hlt) with rfl | hlt'
    · exact Nat.le_refl _
    · exact Nat.le_of_add_right_le (offset_lt hlt' hk')

/-- How many lines end in the first `m` bytes. -/
lemma lt_iff_offset_le {windows : List ExecutionWindow} {i k m : ℕ} (hi : i < windows.length)
    (hk : k ≤ windows.length) (hle : offset windows k ≤ m)
    (hlt : k < windows.length → m < offset windows (k + 1)) :
    i < k ↔ offset windows (i + 1) ≤ m := by
  constructor
  · intro hik
    rcases Nat.eq_or_lt_of_le (Nat.succ_le_of_lt hik) with rfl | hik
    · exact hle
    · exact Nat.le_trans (Nat.le_of_add_right_le (offset_lt hik hk)) hle
  · intro hoffset
    by_contra hge
    rcases Nat.eq_or_lt_of_le (Nat.le_of_not_lt hge) with rfl | hki
    · exact absurd (hlt hi) (Nat.not_lt.mpr hoffset)
    · have hnext : offset windows (k + 1) + 3 ≤ offset windows (i + 1) :=
        offset_lt (Nat.succ_lt_succ hki) hi
      have hm := hlt (by omega)
      omega

/-- The bytes of a cut file. -/
lemma extract_fileOf (windows : List ExecutionWindow) {n : ℕ} (hn : n ≤ (fileOf windows).size) :
    n ≤ (fileText windows).length ∧
      (fileOf windows).extract 0 n = ((fileText windows).take n).utf8Encode := by
  have hsize : (fileOf windows).size = (fileText windows).length :=
    size_utf8Encode (simple_of_mem_fileText windows)
  rw [hsize] at hn
  exact ⟨hn, extract_utf8Encode (simple_of_mem_fileText windows) hn⟩

lemma writeBatches_empty (hToVec : EmitsJson toVec) (batches : List (List ExecutionWindow)) :
    (writeBatches toVec ByteArray.empty batches).2 = fileOf batches.flatten := by
  have hwrite := writeBatches_fileOf hToVec [] batches
  rw [fileOf_nil, List.nil_append] at hwrite
  rw [hwrite]

/-- **Which torn files can be read.**  The first `n` bytes of a trace file are read exactly when
they end at the end of a line or just before its line feed, and then as the windows of these
lines. -/
theorem readWindows_torn_iff (hToVec : EmitsJson toVec) (hFromStr : DecodesJson fromStr)
    (hone : AcceptsOneValue fromStr) (batches : List (List ExecutionWindow)) (n : ℕ)
    (hn : n ≤ (writeBatches toVec ByteArray.empty batches).2.size) (ws : List ExecutionWindow) :
    readWindows fromStr ((writeBatches toVec ByteArray.empty batches).2.extract 0 n) = some ws ↔
      ∃ k ≤ batches.flatten.length, ws = batches.flatten.take k ∧
        (offset batches.flatten k = n ∨ offset batches.flatten k = n + 1) := by
  rw [writeBatches_empty hToVec] at hn ⊢
  generalize batches.flatten = windows at hn ⊢
  obtain ⟨hn, hextract⟩ := extract_fileOf windows hn
  obtain ⟨k, p, hk, htake, hnk, hcut⟩ := exists_cut windows hn
  rw [hextract, htake, readWindows, List.utf8Decode?_utf8Encode]
  dsimp only
  rw [readLines_fileText_append hFromStr, List.nil_append]
  by_cases hp : p = []
  · subst hp
    rw [List.length_nil, Nat.add_zero] at hnk
    rw [lines_nil, readLines, Option.some.injEq]
    constructor
    · rintro rfl
      exact ⟨k, hk, rfl, Or.inl hnk.symm⟩
    · rintro ⟨k', hk', rfl, hoffset⟩
      rw [hnk] at hoffset
      rw [offset_inj hk hk' (hoffset.resolve_right (offset_ne_succ hk hk'))]
  · obtain ⟨w, q, hw, htext⟩ := hcut.resolve_left hp
    obtain ⟨hblank, hlf, -⟩ := line_of_cut htext hp []
    rw [List.append_nil] at hblank
    have hplen := List.length_pos_iff.mpr hp
    have hsucc := offset_succ hw
    have hklt : k < windows.length := (List.getElem?_eq_some_iff.mp hw).1
    rw [lines_of_notMem hp hlf, readLines, hblank]
    by_cases hq : q = []
    · -- the whole text, without its line feed
      obtain rfl : windowText w = p := by rw [htext, hq, List.append_nil]
      have htake' : windows.take k ++ [w] = windows.take (k + 1) := by
        rw [List.take_add_one, hw]
        rfl
      rw [fromStr_windowText hFromStr]
      show some (windows.take k ++ [w]) = some ws ↔ _
      rw [htake', Option.some.injEq]
      constructor
      · rintro rfl
        exact ⟨k + 1, hklt, rfl, Or.inr (by omega)⟩
      · rintro ⟨k', hk', rfl, hoffset⟩
        have hle := offset_succ_le hk hk' (by omega)
        have hnext : k' = k + 1 := offset_inj hklt hk' (by omega)
        rw [hnext]
    · have hlen := congrArg List.length htext
      have hqlen := List.length_pos_iff.mpr hq
      rw [List.length_append] at hlen
      rw [fromStr_eq_none hone (not_oneValue_of_cut htext hp hq)]
      refine iff_of_false (by simp) ?_
      rintro ⟨k', hk', rfl, hoffset⟩
      have hle := offset_succ_le hk hk' (by omega)
      omega

/-- The file of two batches of a window each, without its last line feed. -/
theorem readWindows_torn_of_two :
    let w : ExecutionWindow := ⟨zeroTxId, 0, [fullEvent, fullEvent], 1, 2⟩
    let w' : ExecutionWindow := ⟨Vector.replicate 32 9, 7, [fullEvent], 1, 2⟩
    let toVec := fun w => some (windowText w).utf8Encode
    let fromStr := fun s => (Json.parse recursionLimit s).bind windowOfJson
    readWindows fromStr ((writeBatches toVec ByteArray.empty [[w], [w']]).2.extract 0
      (offset [w, w'] 2 - 1)) = some [w, w'] := by
  intro w w' toVec fromStr
  have hlt := @offset_lt [w, w'] 0 2 (by omega) (Nat.le_refl _)
  refine (readWindows_torn_iff (fun _ => rfl) decodesJson_parse acceptsOneValue_parse [[w], [w']]
    (offset [w, w'] 2 - 1) ?_ [w, w']).mpr ⟨2, Nat.le_refl _, rfl, Or.inr ?_⟩
  · rw [writeBatches_empty fun _ => rfl]
    exact Nat.sub_le _ _
  · show offset [w, w'] 2 = offset [w, w'] 2 - 1 + 1
    omega

/-- **Which torn files can be continued.**  After another batch is appended to the first `n`
bytes of a trace file, the file is read exactly when the bytes end at the end of a line; then
the windows of these lines come before those of the batch. -/
theorem readWindows_append_torn_iff (hToVec : EmitsJson toVec) (hFromStr : DecodesJson fromStr)
    (hone : AcceptsOneValue fromStr) (batches : List (List ExecutionWindow)) (n : ℕ)
    (hn : n ≤ (writeBatches toVec ByteArray.empty batches).2.size)
    (batch : List ExecutionWindow) (hbatch : batch ≠ []) (ws : List ExecutionWindow) :
    readWindows fromStr (writeBatch toVec
        ((writeBatches toVec ByteArray.empty batches).2.extract 0 n) batch).2 = some ws ↔
      ∃ k ≤ batches.flatten.length, ws = batches.flatten.take k ++ batch ∧
        offset batches.flatten k = n := by
  rw [writeBatches_empty hToVec] at hn ⊢
  generalize batches.flatten = windows at hn ⊢
  obtain ⟨hn, hextract⟩ := extract_fileOf windows hn
  obtain ⟨k, p, hk, htake, hnk, hcut⟩ := exists_cut windows hn
  rw [writeBatch_append hToVec, hextract, htake, fileOf, ← List.utf8Encode_append, readWindows,
    List.utf8Decode?_utf8Encode]
  dsimp only
  rw [List.append_assoc, readLines_fileText_append hFromStr, List.nil_append]
  by_cases hp : p = []
  · subst hp
    rw [List.length_nil, Nat.add_zero] at hnk
    rw [List.nil_append, readLines_fileText hFromStr, Option.some.injEq]
    constructor
    · rintro rfl
      exact ⟨k, hk, rfl, hnk.symm⟩
    · rintro ⟨k', hk', rfl, hoffset⟩
      rw [offset_inj hk hk' (hoffset.trans hnk)]
  · -- the first appended window is written on the torn line
    obtain ⟨w, q, hw, htext⟩ := hcut.resolve_left hp
    obtain ⟨w', batch, rfl⟩ := List.exists_cons_of_ne_nil hbatch
    obtain ⟨hblank, hlf, hcr⟩ := line_of_cut htext hp (windowText w')
    have hjoin : p ++ fileText (w' :: batch) =
        (p ++ windowText w') ++ '\n' :: fileText batch := by
      simp [fileText]
    have hlen := congrArg List.length htext
    have hplen := List.length_pos_iff.mpr hp
    have hsucc := offset_succ hw
    rw [List.length_append] at hlen
    have hbreak : '\n' ∉ p ++ windowText w' ∧ '\r' ∉ p ++ windowText w' := by
      have hchar := le_toNat_of_mem_windowText w'
      rw [List.mem_append, List.mem_append, not_or, not_or]
      refine ⟨⟨hlf, fun h => ?_⟩, hcr, fun h => ?_⟩
      · exact absurd (hchar _ h) (by decide)
      · exact absurd (hchar _ h) (by decide)
    rw [hjoin, lines_append hbreak.1 hbreak.2, readLines, hblank,
      fromStr_eq_none hone (not_oneValue_of_joined htext hp)]
    refine iff_of_false (by simp) ?_
    rintro ⟨k', hk', -, hoffset⟩
    have hle := offset_succ_le hk hk' (by omega)
    omega

/-- Two batches, with the end of the first one as the cut. -/
theorem readWindows_append_torn_of_two :
    let w : ExecutionWindow := ⟨zeroTxId, 0, [], 0, 0⟩
    let w' : ExecutionWindow := ⟨Vector.replicate 32 9, 7, [fullEvent], 1, 2⟩
    let toVec := fun w => some (windowText w).utf8Encode
    let fromStr := fun s => (Json.parse recursionLimit s).bind windowOfJson
    readWindows fromStr (writeBatch toVec ((writeBatches toVec ByteArray.empty
      [[w]]).2.extract 0 (offset [w] 1)) [w']).2 = some [w, w'] := by
  intro w w' toVec fromStr
  refine (readWindows_append_torn_iff (fun _ => rfl) decodesJson_parse acceptsOneValue_parse
    [[w]] (offset [w] 1) ?_ [w'] (by simp) [w, w']).mpr ⟨1, Nat.le_refl _, rfl, rfl⟩
  rw [writeBatches_empty fun _ => rfl]
  exact Nat.le_refl _

end ArrowSerializer

end SyscallMind
