/-
# Compact JSON texts and their reader

A fragment of JSON: natural numbers, arrays, and objects whose keys need no escapes.  A value
is written without any white space.  The reader allows white space between the tokens, reads
values that are nested at most as deep as a given limit, and gives up on every text outside
the fragment.

What is written is read back (`parse_compact`), and it has no control characters
(`le_toNat_of_mem_compact`), so it fits on one line.
-/
import Mathlib.Data.List.Basic

namespace Lib

/-- The characters that a string literal shows as they are. -/
def isPlain (c : Char) : Bool := c ≠ '"' ∧ c ≠ '\\' ∧ 0x20 ≤ c.toNat

/-- A key of an object. -/
structure Key where
  chars : List Char
  plain : chars.all isPlain = true
deriving DecidableEq

lemma Key.plain_of_mem (k : Key) {c : Char} (h : c ∈ k.chars) : c ≠ '"' ∧ 0x20 ≤ c.toNat := by
  have hplain := List.all_eq_true.mp k.plain c h
  rw [isPlain, decide_eq_true_iff] at hplain
  exact ⟨hplain.1, hplain.2.2⟩

inductive Json
  | num (n : ℕ)
  | arr (items : List Json)
  | obj (members : List (Key × Json))

namespace Json

/-- Values nested at most `d` deep. -/
inductive Nested : ℕ → Json → Prop
  | num {d : ℕ} (n : ℕ) : Nested d (num n)
  | arr {d : ℕ} {items : List Json} (h : ∀ v ∈ items, Nested d v) : Nested (d + 1) (arr items)
  | obj {d : ℕ} {members : List (Key × Json)} (h : ∀ m ∈ members, Nested d m.2) :
      Nested (d + 1) (obj members)

/-- Members are as deep as their values. -/
lemma nested_of_mem_zip {d : ℕ} {names : List Key} {values : List Json}
    (h : ∀ v ∈ values, Nested d v) : ∀ m ∈ names.zip values, Nested d m.2 :=
  fun m hm => h m.2 (List.of_mem_zip hm).2

lemma Nested.mono {d e : ℕ} {j : Json} (h : Nested d j) (hle : d ≤ e) : Nested e j := by
  induction h generalizing e with
  | num n => exact .num n
  | arr _ ih =>
    obtain ⟨e, rfl⟩ : ∃ e', e = e' + 1 := ⟨e - 1, by omega⟩
    exact .arr fun v hv => ih v hv (by omega)
  | obj _ ih =>
    obtain ⟨e, rfl⟩ : ∃ e', e = e' + 1 := ⟨e - 1, by omega⟩
    exact .obj fun m hm => ih m hm (by omega)

/-! ## Writing -/

mutual

def compact : Json → List Char
  | num n => Nat.toDigits 10 n
  | arr items => '[' :: compactItems items ++ [']']
  | obj members => '{' :: compactMembers members ++ ['}']

def compactItems : List Json → List Char
  | [] => []
  | [v] => compact v
  | v :: w :: vs => compact v ++ [','] ++ compactItems (w :: vs)

def compactMembers : List (Key × Json) → List Char
  | [] => []
  | [(k, v)] => '"' :: k.chars ++ '"' :: ':' :: compact v
  | (k, v) :: m :: ms =>
      '"' :: k.chars ++ '"' :: ':' :: compact v ++ [','] ++ compactMembers (m :: ms)

end

def compactMember (m : Key × Json) : List Char := '"' :: m.1.chars ++ '"' :: ':' :: m.2.compact

/-- The texts of the elements, with commas between them. -/
def commaSep {A : Type*} (text : A → List Char) (l : List A) : List Char :=
  [','].intercalate (l.map text)

@[simp] lemma commaSep_nil {A : Type*} (text : A → List Char) : commaSep text [] = [] := rfl

@[simp] lemma commaSep_singleton {A : Type*} (text : A → List Char) (a : A) :
    commaSep text [a] = text a :=
  List.intercalate_singleton

@[simp] lemma commaSep_cons_cons {A : Type*} (text : A → List Char) (a b : A) (l : List A) :
    commaSep text (a :: b :: l) = text a ++ ',' :: commaSep text (b :: l) := by
  rw [commaSep, List.map_cons, List.map_cons, List.intercalate_cons_cons, List.append_assoc]
  rfl

lemma compactItems_eq (items : List Json) : compactItems items = commaSep compact items := by
  induction items with
  | nil => rfl
  | cons v vs ih =>
    cases vs with
    | nil => simp [compactItems]
    | cons w vs => rw [compactItems, ih, commaSep_cons_cons, List.append_assoc]; rfl

lemma compactMembers_eq (members : List (Key × Json)) :
    compactMembers members = commaSep compactMember members := by
  induction members with
  | nil => rfl
  | cons m ms ih =>
    cases ms with
    | nil => simp [compactMembers, compactMember]
    | cons m' ms => rw [compactMembers, ih, commaSep_cons_cons, List.append_assoc]; rfl

lemma compact_arr (items : List Json) :
    (arr items).compact = '[' :: commaSep compact items ++ [']'] := by
  rw [compact, compactItems_eq]

lemma compact_obj (members : List (Key × Json)) :
    (obj members).compact = '{' :: commaSep compactMember members ++ ['}'] := by
  rw [compact, compactMembers_eq]

lemma mem_commaSep {A : Type*} {text : A → List Char} {l : List A} {c : Char}
    (h : c ∈ commaSep text l) : c = ',' ∨ ∃ a ∈ l, c ∈ text a := by
  induction l with
  | nil => exact absurd h (by simp)
  | cons a l ih =>
    cases l with
    | nil => exact Or.inr ⟨a, by simp, by simpa using h⟩
    | cons b l =>
      rw [commaSep_cons_cons, List.mem_append, List.mem_cons] at h
      rcases h with h | h | h
      · exact Or.inr ⟨a, by simp, h⟩
      · exact Or.inl h
      · rcases ih h with hc | ⟨a', ha', hc⟩
        · exact Or.inl hc
        · exact Or.inr ⟨a', List.mem_cons_of_mem _ ha', hc⟩

/-- No text of a value has a control character. -/
lemma le_toNat_of_mem_compact {d : ℕ} {j : Json} (h : Nested d j) :
    ∀ c ∈ j.compact, 0x20 ≤ c.toNat := by
  induction h with
  | num n =>
    intro c hc
    have hdigit : c.isDigit := Nat.isDigit_of_mem_toDigits (by omega) (by omega) hc
    exact Nat.le_trans (by decide) (Char.isDigit_iff_toNat.mp hdigit).1
  | arr _ ih =>
    intro c hc
    rw [compact_arr, List.cons_append, List.mem_cons, List.mem_append, List.mem_singleton] at hc
    rcases hc with rfl | hc | rfl
    · decide
    · rcases mem_commaSep hc with rfl | ⟨v, hv, hc⟩
      · decide
      · exact ih v hv c hc
    · decide
  | obj _ ih =>
    intro c hc
    rw [compact_obj, List.cons_append, List.mem_cons, List.mem_append, List.mem_singleton] at hc
    rcases hc with rfl | hc | rfl
    · decide
    · rcases mem_commaSep hc with rfl | ⟨m, hm, hc⟩
      · decide
      · rw [compactMember, List.cons_append, List.mem_cons, List.mem_append, List.mem_cons,
          List.mem_cons] at hc
        rcases hc with rfl | hc | rfl | rfl | hc
        · decide
        · exact (m.1.plain_of_mem hc).2
        · decide
        · decide
        · exact ih m hm c hc
    · decide

/-! ## Reading -/

/-- A reader takes a value off the front of a text. -/
abbrev Reader (A : Type*) := List Char → Option (A × List Char)

def isSpace (c : Char) : Bool := c = ' ' ∨ c = '\n' ∨ c = '\t' ∨ c = '\r'

def skipSpace (s : List Char) : List Char := s.dropWhile isSpace

/-- A natural number without leading zeros. -/
def readNum : Reader Json
  | '0' :: s => some (num 0, s)
  | s =>
      match s.takeWhile Char.isDigit with
      | [] => none
      | ds => some (num (Nat.ofDigitChars 10 ds 0), s.dropWhile Char.isDigit)

def readKey (s : List Char) : Option (Key × List Char) :=
  let chars := s.takeWhile (· ≠ '"')
  match s.dropWhile (· ≠ '"') with
  | [] => none
  | _ :: s => if h : chars.all isPlain then some (⟨chars, h⟩, s) else none

def readMember (value : Reader Json) (s : List Char) : Option ((Key × Json) × List Char) :=
  match skipSpace s with
  | '"' :: s =>
      match readKey s with
      | none => none
      | some (k, s) =>
          match skipSpace s with
          | ':' :: s => (value s).map fun (v, s) => ((k, v), s)
          | _ => none
  | _ => none

/-- At most `n` elements, but one at least, with commas between them. -/
def readItems {A : Type*} (elem : Reader A) (close : Char) : ℕ → Reader (List A)
  | 0, _ => none
  | n + 1, s =>
      match elem s with
      | none => none
      | some (a, s) =>
          match skipSpace s with
          | [] => none
          | c :: s =>
              if c = close then some ([a], s)
              else if c = ',' then (readItems elem close n s).map fun (l, s) => (a :: l, s)
              else none

/-- The elements up to the closing bracket, if any. -/
def readList {A : Type*} (elem : Reader A) (close : Char) (s : List Char) :
    Option (List A × List Char) :=
  match skipSpace s with
  | [] => none
  | c :: t => if c = close then some ([], t) else readItems elem close s.length s

/-- A value that is nested at most `d` deep. -/
def readValue : ℕ → Reader Json
  | 0, s => readNum (skipSpace s)
  | d + 1, s =>
      match skipSpace s with
      | '[' :: s => (readList (readValue d) ']' s).map fun (items, s) => (arr items, s)
      | '{' :: s =>
          (readList (readMember (readValue d)) '}' s).map fun (members, s) => (obj members, s)
      | s => readNum s

/-- The value of a text that is nested at most `limit` deep. -/
def parse (limit : ℕ) (s : List Char) : Option Json :=
  match readValue limit s with
  | none => none
  | some (v, rest) => if (skipSpace rest).isEmpty then some v else none

/-! ## Reading what was written -/

/-- The text does not go on with a digit. -/
def NoDigit (s : List Char) : Prop := ∀ c ∈ s.head?, c.isDigit = false

lemma noDigit_nil : NoDigit [] := fun _ h => absurd h (by simp)

lemma noDigit_cons {c : Char} {s : List Char} (h : c.isDigit = false) : NoDigit (c :: s) := by
  intro c' hc'
  rcases (by simpa using hc' : c = c') with rfl
  exact h

/-- The reader takes exactly the text of the value. -/
def Reads {A : Type*} (elem : Reader A) (text : A → List Char) (a : A) : Prop :=
  ∀ rest, NoDigit rest → elem (text a ++ rest) = some (a, rest)

lemma skipSpace_cons {c : Char} {s : List Char} (h : isSpace c = false) :
    skipSpace (c :: s) = c :: s :=
  List.dropWhile_cons_of_neg (by simp [h])

/-- The text of a positive number does not begin with a zero. -/
lemma toDigits_ne_zero_cons {n : ℕ} (hn : n ≠ 0) (s : List Char) :
    Nat.toDigits 10 n ≠ '0' :: s := by
  induction n using Nat.strongRecOn generalizing s with
  | ind n ih =>
    rw [Nat.toDigits_eq_if (by omega)]
    split
    · intro h
      exact hn (Nat.digitChar_eq_zero.mp (List.cons.inj h).1)
    · intro h
      cases hds : Nat.toDigits 10 (n / 10) with
      | nil => exact Nat.toDigits_ne_nil hds
      | cons c ds =>
        rw [hds, List.cons_append] at h
        rw [(List.cons.inj h).1] at hds
        exact ih (n / 10) (by omega) (by omega) ds hds

lemma takeWhile_dropWhile_append {p : Char → Bool} {l rest : List Char} (hl : ∀ c ∈ l, p c)
    (hrest : ∀ c ∈ rest.head?, p c = false) :
    (l ++ rest).takeWhile p = l ∧ (l ++ rest).dropWhile p = rest := by
  rw [List.takeWhile_append_of_pos hl, List.dropWhile_append_of_pos hl]
  cases rest with
  | nil => simp
  | cons c s =>
    have hc : p c = false := hrest c rfl
    simp [hc]

lemma reads_num (n : ℕ) : Reads readNum compact (num n) := by
  intro rest hrest
  rw [compact]
  -- zero has a branch of its own in the reader
  by_cases hn : n = 0
  · subst hn
    rfl
  · obtain ⟨htake, hdrop⟩ := takeWhile_dropWhile_append
      (fun c hc => Nat.isDigit_of_mem_toDigits (b := 10) (n := n) (by omega) (by omega) hc) hrest
    cases hds : Nat.toDigits 10 n with
    | nil => exact absurd hds Nat.toDigits_ne_nil
    | cons c ds =>
      have hc : c ≠ '0' := by
        rintro rfl
        exact toDigits_ne_zero_cons hn ds hds
      rw [hds] at htake hdrop
      have hvalue : Nat.ofDigitChars 10 (c :: ds) 0 = n := by
        rw [← hds, Nat.ofDigitChars_ten_toDigits]
      rw [List.cons_append] at htake hdrop ⊢
      rw [readNum]
      · rw [htake, hdrop]
        show some (num (Nat.ofDigitChars 10 (c :: ds) 0), rest) = _
        rw [hvalue]
      · intro s hs
        exact hc (List.cons.inj hs).1

lemma readKey_append (k : Key) (rest : List Char) :
    readKey (k.chars ++ '"' :: rest) = some (k, rest) := by
  have hquote : ∀ c ∈ ('"' :: rest).head?, decide (c ≠ '"') = false := by simp
  obtain ⟨htake, hdrop⟩ := takeWhile_dropWhile_append (p := (· ≠ '"')) (l := k.chars)
    (fun c hc => by simpa using (k.plain_of_mem hc).1) hquote
  rw [readKey]
  simp only [htake, hdrop]
  rw [dif_pos k.plain]

lemma reads_member {value : Reader Json} {m : Key × Json} (h : Reads value compact m.2) :
    Reads (readMember value) compactMember m := by
  intro rest hrest
  have hquote : skipSpace ('"' :: (m.1.chars ++ '"' :: (':' :: (m.2.compact ++ rest)))) =
      '"' :: (m.1.chars ++ '"' :: (':' :: (m.2.compact ++ rest))) := skipSpace_cons rfl
  have hcolon : skipSpace (':' :: (m.2.compact ++ rest)) = ':' :: (m.2.compact ++ rest) :=
    skipSpace_cons rfl
  have htext : compactMember m ++ rest =
      '"' :: (m.1.chars ++ '"' :: (':' :: (m.2.compact ++ rest))) := by
    simp [compactMember]
  rw [htext, readMember, hquote]
  simp only [readKey_append, hcolon]
  rw [h rest hrest]
  rfl

section List

variable {A : Type*} {elem : Reader A} {text : A → List Char} {close : Char}

lemma readItems_commaSep (hcomma : close ≠ ',') (hspace : isSpace close = false)
    (hdigit : close.isDigit = false) {l : List A} (hl : ∀ a ∈ l, Reads elem text a) (hne : l ≠ [])
    {n : ℕ} (hn : l.length ≤ n) (rest : List Char) :
    readItems elem close n (commaSep text l ++ close :: rest) = some (l, rest) := by
  induction l generalizing n with
  | nil => exact absurd rfl hne
  | cons a l ih =>
    obtain ⟨m, rfl⟩ : ∃ m, n = m + 1 := ⟨n - 1, by simp at hn; omega⟩
    have ha := hl a (by simp)
    -- what follows the element is the closing bracket or a comma, and neither is a digit
    cases l with
    | nil =>
      rw [commaSep_singleton, readItems, ha _ (noDigit_cons hdigit)]
      simp [skipSpace_cons hspace]
    | cons b l =>
      have hcommaDigit : NoDigit (',' :: (commaSep text (b :: l) ++ close :: rest)) :=
        noDigit_cons (by decide)
      have hskip : skipSpace (',' :: (commaSep text (b :: l) ++ close :: rest)) =
          ',' :: (commaSep text (b :: l) ++ close :: rest) := skipSpace_cons rfl
      have htail := ih (fun a ha => hl a (List.mem_cons_of_mem _ ha)) (by simp)
        (n := m) (by simpa using hn)
      rw [commaSep_cons_cons, List.append_assoc, List.cons_append, readItems, ha _ hcommaDigit]
      simp only [hskip]
      rw [if_neg (Ne.symm hcomma), if_pos trivial, htail]
      rfl

/-- A text of an element that the reader of lists does not mistake for white space or for the
end of the list. -/
def Starts (close : Char) (s : List Char) : Prop :=
  ∃ c t, s = c :: t ∧ isSpace c = false ∧ c ≠ close

lemma length_le_commaSep {l : List A} (hl : ∀ a ∈ l, Starts close (text a)) :
    l.length ≤ (commaSep text l).length := by
  induction l with
  | nil => simp
  | cons a l ih =>
    obtain ⟨c, t, ha, -, -⟩ := hl a (by simp)
    have htail := ih fun b hb => hl b (List.mem_cons_of_mem _ hb)
    cases l with
    | nil => simp [ha]
    | cons b l =>
      simp only [commaSep_cons_cons, List.length_append, List.length_cons] at htail ⊢
      omega

lemma readList_commaSep (hcomma : close ≠ ',') (hspace : isSpace close = false)
    (hdigit : close.isDigit = false) {l : List A} (hl : ∀ a ∈ l, Reads elem text a)
    (hstart : ∀ a ∈ l, Starts close (text a)) (rest : List Char) :
    readList elem close (commaSep text l ++ close :: rest) = some (l, rest) := by
  cases l with
  | nil => simp [readList, skipSpace_cons hspace]
  | cons a l =>
    have hlength : (a :: l).length ≤ (commaSep text (a :: l) ++ close :: rest).length := by
      have := length_le_commaSep hstart
      rw [List.length_append]
      omega
    have hitems := readItems_commaSep hcomma hspace hdigit hl (by simp) hlength rest
    obtain ⟨c, t, hc, hcspace, hcclose⟩ : Starts close (commaSep text (a :: l)) := by
      obtain ⟨c, t, ha, hc⟩ := hstart a (by simp)
      cases l with
      | nil => exact ⟨c, t, by simpa using ha, hc⟩
      | cons b l => exact ⟨c, _, by rw [commaSep_cons_cons, ha, List.cons_append], hc⟩
    rw [hc, List.cons_append] at hitems ⊢
    simp only [readList, skipSpace_cons hcspace]
    rw [if_neg hcclose, hitems]

end List

lemma exists_toDigits_eq_cons (n : ℕ) : ∃ c ds, Nat.toDigits 10 n = c :: ds ∧ c.isDigit := by
  cases hds : Nat.toDigits 10 n with
  | nil => exact absurd hds Nat.toDigits_ne_nil
  | cons c ds =>
    have hc : c ∈ Nat.toDigits 10 n := by simp [hds]
    exact ⟨c, ds, rfl, Nat.isDigit_of_mem_toDigits (by omega) (by omega) hc⟩

lemma isSpace_of_isDigit {c : Char} (h : c.isDigit) : isSpace c = false := by
  by_contra hspace
  rw [Bool.not_eq_false, isSpace, decide_eq_true_iff] at hspace
  rcases hspace with rfl | rfl | rfl | rfl <;> exact absurd h (by decide)

/-- A value begins with a digit or a bracket. -/
lemma starts_compact (j : Json) {close : Char} (hdigit : close.isDigit = false)
    (harr : close ≠ '[') (hobj : close ≠ '{') : Starts close j.compact := by
  cases j with
  | num n =>
    obtain ⟨c, ds, hds, hc⟩ := exists_toDigits_eq_cons n
    refine ⟨c, ds, by rw [compact, hds], isSpace_of_isDigit hc, ?_⟩
    rintro rfl
    exact absurd hc (by simp [hdigit])
  | arr items => exact ⟨'[', _, by rw [compact_arr, List.cons_append], rfl, harr.symm⟩
  | obj members => exact ⟨'{', _, by rw [compact_obj, List.cons_append], rfl, hobj.symm⟩

lemma starts_compactMember (m : Key × Json) : Starts '}' (compactMember m) :=
  ⟨'"', _, by rw [compactMember, List.cons_append], rfl, by decide⟩

/-- Where a digit comes first there is a number. -/
lemma readValue_of_isDigit (d : ℕ) {c : Char} {s : List Char} (h : c.isDigit) :
    readValue d (c :: s) = readNum (c :: s) := by
  have hskip := skipSpace_cons (s := s) (isSpace_of_isDigit h)
  cases d with
  | zero => rw [readValue, hskip]
  | succ d =>
    rw [readValue, hskip]
    split
    · next heq => exact absurd ((List.cons.inj heq).1 ▸ h) (by decide)
    · next heq => exact absurd ((List.cons.inj heq).1 ▸ h) (by decide)
    · rfl

/-- What is written is read back, at every place of a text. -/
lemma reads_value {d : ℕ} {j : Json} (h : Nested d j) : Reads (readValue d) compact j := by
  induction h with
  | @num d n =>
    intro rest hrest
    obtain ⟨c, ds, hds, hc⟩ := exists_toDigits_eq_cons n
    have htext : (num n).compact ++ rest = c :: (ds ++ rest) := by
      rw [compact, hds, List.cons_append]
    rw [← reads_num n rest hrest, htext, readValue_of_isDigit d hc]
  | @arr d items _ ih =>
    intro rest _
    have hlist : readList (readValue d) ']' (commaSep compact items ++ ']' :: rest) =
        some (items, rest) :=
      readList_commaSep (by decide) rfl rfl ih
        (fun v _ => starts_compact v rfl (by decide) (by decide)) rest
    have htext : (arr items).compact ++ rest = '[' :: (commaSep compact items ++ ']' :: rest) := by
      simp [compact_arr]
    rw [htext, readValue, skipSpace_cons rfl]
    simp only [hlist, Option.map_some]
  | @obj d members _ ih =>
    intro rest _
    have hlist : readList (readMember (readValue d)) '}'
        (commaSep compactMember members ++ '}' :: rest) = some (members, rest) :=
      readList_commaSep (by decide) rfl rfl (fun m hm => reads_member (ih m hm))
        (fun m _ => starts_compactMember m) rest
    have htext : (obj members).compact ++ rest =
        '{' :: (commaSep compactMember members ++ '}' :: rest) := by
      simp [compact_obj]
    rw [htext, readValue, skipSpace_cons rfl]
    simp only [hlist, Option.map_some]

/-- **What is written is read back.** -/
theorem parse_compact {limit : ℕ} {j : Json} (h : Nested limit j) :
    parse limit j.compact = some j := by
  have hread := reads_value h [] noDigit_nil
  rw [List.append_nil] at hread
  rw [parse, hread]
  rfl

example : (arr [num 1, arr [num 20, num 0]]).compact = "[1,[20,0]]".toList := by decide

end Json

end Lib
