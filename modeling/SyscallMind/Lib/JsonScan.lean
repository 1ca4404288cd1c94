/-
# The brackets of a JSON text

A scan of a text counts the open brackets outside of the string literals.  In every JSON text
each bracket is closed and each string is ended, and when the text is an array or an object,
nothing but white space follows its last bracket (`OneValue`).  This is said of any text, with
escapes in its strings, and without a grammar; the reader of this library accepts no other
arrays and objects (`oneValue_of_parse`).

The text of an object has an open bracket at every place inside (`not_closed_of_cut`).  So
no beginning of it is a JSON text, and if such a beginning is followed by the text of another
object, the two together are not one either (`not_oneValue_append`).
-/
import SyscallMind.Lib.Json

namespace Lib

namespace Json

/-! ## The scan -/

/-- Outside of the strings, in a string, or in a string after a backslash. -/
inductive Mode
  | plain
  | string
  | escape
deriving DecidableEq, Repr

structure Scan where
  depth : ℕ
  mode : Mode
deriving DecidableEq, Repr

def Scan.step (st : Scan) (c : Char) : Scan :=
  match st.mode with
  | .plain =>
      if c = '"' then ⟨st.depth, .string⟩
      else if c = '[' ∨ c = '{' then ⟨st.depth + 1, .plain⟩
      else if c = ']' ∨ c = '}' then ⟨st.depth - 1, .plain⟩
      else st
  | .string =>
      if c = '"' then ⟨st.depth, .plain⟩
      else if c = '\\' then ⟨st.depth, .escape⟩
      else st
  | .escape => ⟨st.depth, .string⟩

def scan (st : Scan) (s : List Char) : Scan := s.foldl Scan.step st

/-- All brackets are closed, and all strings are ended. -/
def Closed (s : List Char) : Prop := scan ⟨0, .plain⟩ s = ⟨0, .plain⟩

instance (s : List Char) : Decidable (Closed s) :=
  inferInstanceAs (Decidable (scan ⟨0, .plain⟩ s = ⟨0, .plain⟩))

/-- The text is closed, and wherever it is cut into two closed texts, one of them is blank. -/
def OneValue (s : List Char) : Prop :=
  Closed s ∧ ∀ p q, s = p ++ q → Closed p → p.all isSpace = true ∨ q.all isSpace = true

lemma scan_append (st : Scan) (s t : List Char) : scan st (s ++ t) = scan (scan st s) t :=
  List.foldl_append

lemma scan_cons (st : Scan) (c : Char) (s : List Char) : scan st (c :: s) = scan (st.step c) s :=
  rfl

/-! ## Texts that keep the depth -/

/-- From every depth, the scan comes back to this depth and is never below it. -/
structure Level (s : List Char) : Prop where
  ends : ∀ d, scan ⟨d, .plain⟩ s = ⟨d, .plain⟩
  le : ∀ d p q, s = p ++ q → d ≤ (scan ⟨d, .plain⟩ p).depth

/-- Neither a quotation mark nor a bracket. -/
def isOrdinary (c : Char) : Bool := c ≠ '"' ∧ c ≠ '[' ∧ c ≠ '{' ∧ c ≠ ']' ∧ c ≠ '}'

lemma step_ordinary {c : Char} (h : isOrdinary c = true) (d : ℕ) :
    Scan.step ⟨d, .plain⟩ c = ⟨d, .plain⟩ := by
  rw [isOrdinary, decide_eq_true_iff] at h
  obtain ⟨hquote, harr, hobj, harr', hobj'⟩ := h
  simp [Scan.step, hquote, harr, hobj, harr', hobj']

lemma scan_ordinary {s : List Char} (h : ∀ c ∈ s, isOrdinary c = true) (d : ℕ) :
    scan ⟨d, .plain⟩ s = ⟨d, .plain⟩ := by
  induction s with
  | nil => rfl
  | cons c s ih =>
    rw [scan_cons, step_ordinary (h c (by simp))]
    exact ih fun c' hc' => h c' (List.mem_cons_of_mem _ hc')

lemma level_of_ordinary {s : List Char} (h : ∀ c ∈ s, isOrdinary c = true) : Level s := by
  refine ⟨scan_ordinary h, fun d p q heq => ?_⟩
  have hscan := scan_ordinary (fun c hc => h c (by rw [heq]; exact List.mem_append_left _ hc)) d
  exact Nat.le_of_eq (congrArg Scan.depth hscan.symm)

lemma level_nil : Level [] := level_of_ordinary fun c hc => absurd hc (by simp)

lemma level_char {c : Char} (h : isOrdinary c = true) : Level [c] :=
  level_of_ordinary fun c' hc' => by rwa [List.mem_singleton.mp hc']

lemma level_space {s : List Char} (h : s.all isSpace = true) : Level s := by
  refine level_of_ordinary fun c hc => ?_
  have hc' := List.all_eq_true.mp h c hc
  rw [isSpace, decide_eq_true_iff] at hc'
  rcases hc' with rfl | rfl | rfl | rfl <;> rfl

lemma Level.append {s t : List Char} (hs : Level s) (ht : Level t) : Level (s ++ t) := by
  refine ⟨fun d => by rw [scan_append, hs.ends, ht.ends], fun d p q heq => ?_⟩
  rcases List.append_eq_append_iff.mp heq with ⟨r, rfl, hr⟩ | ⟨r, hr, rfl⟩
  · rw [scan_append, hs.ends]
    exact ht.le d r q hr
  · exact hs.le d p r hr

/-- A character of a string literal that is shown as it is. -/
lemma scan_string {s : List Char} (h : s.all isPlain = true) (d : ℕ) :
    scan ⟨d, .string⟩ s = ⟨d, .string⟩ := by
  induction s with
  | nil => rfl
  | cons c s ih =>
    rw [List.all_cons, Bool.and_eq_true, isPlain, decide_eq_true_iff] at h
    obtain ⟨⟨hquote, hback, -⟩, hs⟩ := h
    rw [scan_cons]
    simp only [Scan.step, if_neg hquote, if_neg hback]
    exact ih hs

lemma level_string {chars : List Char} (h : chars.all isPlain = true) :
    Level ('"' :: chars ++ ['"']) := by
  have hopen : ∀ d, Scan.step ⟨d, .plain⟩ '"' = ⟨d, .string⟩ := fun d => rfl
  refine ⟨fun d => ?_, fun d p q heq => ?_⟩
  · rw [List.cons_append, scan_cons, hopen, scan_append, scan_string h]
    rfl
  · cases p with
    | nil => exact Nat.le_refl d
    | cons c p =>
      obtain ⟨rfl, hp⟩ : '"' = c ∧ chars ++ ['"'] = p ++ q := by simpa using heq
      rw [scan_cons, hopen]
      rcases List.append_eq_append_iff.mp hp with ⟨r, rfl, hr⟩ | ⟨r, rfl, -⟩
      · rw [scan_append, scan_string h]
        cases r with
        | nil => exact Nat.le_refl d
        | cons c r =>
          obtain ⟨rfl, hr'⟩ : '"' = c ∧ [] = r ++ q := by simpa using hr
          rw [(List.append_eq_nil_iff.mp hr'.symm).1]
          exact Nat.le_refl d
      · rw [List.all_append, Bool.and_eq_true] at h
        exact Nat.le_of_eq (congrArg Scan.depth (scan_string h.1 d).symm)

/-- A closing bracket goes with an opening one. -/
def isPair (o c : Char) : Bool := (o = '[' ∧ c = ']') ∨ (o = '{' ∧ c = '}')

lemma step_open {o c : Char} (h : isPair o c = true) (d : ℕ) :
    Scan.step ⟨d, .plain⟩ o = ⟨d + 1, .plain⟩ := by
  rw [isPair, decide_eq_true_iff] at h
  rcases h with ⟨rfl, -⟩ | ⟨rfl, -⟩ <;> rfl

lemma step_close {o c : Char} (h : isPair o c = true) (d : ℕ) :
    Scan.step ⟨d + 1, .plain⟩ c = ⟨d, .plain⟩ := by
  rw [isPair, decide_eq_true_iff] at h
  rcases h with ⟨-, rfl⟩ | ⟨-, rfl⟩ <;> rfl

section Brackets

variable {o c : Char} {inner : List Char}

/-- Inside of a pair of brackets, the depth is positive. -/
lemma lt_depth_of_cut (hpair : isPair o c = true) (hinner : Level inner) (d : ℕ)
    {p q : List Char} (heq : inner ++ [c] = p ++ q) (hq : q ≠ []) :
    d < (scan ⟨d, .plain⟩ (o :: p)).depth := by
  rw [scan_cons, step_open hpair]
  rcases List.append_eq_append_iff.mp heq with ⟨r, rfl, hr⟩ | ⟨r, rfl, -⟩
  · cases r with
    | nil =>
      rw [List.append_nil]
      exact hinner.le (d + 1) inner [] (by simp)
    | cons c' r =>
      obtain ⟨rfl, hr'⟩ : c = c' ∧ [] = r ++ q := by simpa using hr
      exact absurd (List.append_eq_nil_iff.mp hr'.symm).2 hq
  · exact hinner.le (d + 1) p r rfl

lemma level_brackets (hpair : isPair o c = true) (hinner : Level inner) :
    Level (o :: inner ++ [c]) := by
  have hends : ∀ d, scan ⟨d, .plain⟩ (o :: inner ++ [c]) = ⟨d, .plain⟩ := by
    intro d
    rw [List.cons_append, scan_cons, step_open hpair, scan_append, hinner.ends]
    exact step_close hpair d
  refine ⟨hends, fun d p q heq => ?_⟩
  rcases List.eq_nil_or_concat q with rfl | ⟨q', c', rfl⟩
  · rw [List.append_nil] at heq
    exact Nat.le_of_eq (congrArg Scan.depth (heq ▸ (hends d).symm))
  · cases p with
    | nil => exact Nat.le_refl d
    | cons o' p =>
      obtain ⟨rfl, hp⟩ : o = o' ∧ inner ++ [c] = p ++ q'.concat c' := by simpa using heq
      exact Nat.le_of_lt (lt_depth_of_cut hpair hinner d hp (by simp))

/-- **No beginning of a bracketed text is closed.** -/
theorem not_closed_of_cut (hpair : isPair o c = true) (hinner : Level inner)
    {p q : List Char} (heq : o :: inner ++ [c] = p ++ q) (hp : p ≠ []) (hq : q ≠ []) :
    0 < (scan ⟨0, .plain⟩ p).depth := by
  cases p with
  | nil => exact absurd rfl hp
  | cons o' p =>
    obtain ⟨rfl, hp'⟩ : o = o' ∧ inner ++ [c] = p ++ q := by simpa using heq
    exact lt_depth_of_cut hpair hinner 0 hp' hq

/-- A bracketed text with white space around it is one value. -/
lemma oneValue_brackets (hpair : isPair o c = true) (hinner : Level inner) {sp sp' : List Char}
    (hsp : sp.all isSpace = true) (hsp' : sp'.all isSpace = true) :
    OneValue (sp ++ (o :: inner ++ [c]) ++ sp') := by
  have hbracket := level_brackets hpair hinner
  refine ⟨(((level_space hsp).append hbracket).append (level_space hsp')).ends 0,
    fun p q heq hclosed => ?_⟩
  rw [List.append_assoc] at heq
  rcases List.append_eq_append_iff.mp heq with ⟨r, rfl, hr⟩ | ⟨r, rfl, -⟩
  · -- the cut is behind the opening bracket, or just before it
    rw [Closed, scan_append, (level_space hsp).ends] at hclosed
    rcases List.append_eq_append_iff.mp hr with ⟨t, rfl, ht⟩ | ⟨t, ht, -⟩
    · refine Or.inr ?_
      rw [ht, List.all_append, Bool.and_eq_true] at hsp'
      exact hsp'.2
    · rcases List.eq_nil_or_concat r with rfl | ⟨r', c', rfl⟩
      · exact Or.inl (by rwa [List.append_nil])
      rcases List.eq_nil_or_concat t with rfl | ⟨t', c'', rfl⟩
      · rw [List.append_nil] at ht
        rw [ht] at hr
        rw [List.append_cancel_left_eq] at hr
        exact Or.inr (hr ▸ hsp')
      · have hpos := not_closed_of_cut hpair hinner ht (by simp) (by simp)
        rw [hclosed] at hpos
        exact absurd hpos (by simp)
  · rw [List.all_append, Bool.and_eq_true] at hsp
    exact Or.inl hsp.1

end Brackets

/-! ## The texts that are written -/

lemma level_commaSep {A : Type*} {text : A → List Char} {l : List A}
    (h : ∀ a ∈ l, Level (text a)) : Level (commaSep text l) := by
  induction l with
  | nil => exact level_nil
  | cons a l ih =>
    have ha := h a (by simp)
    cases l with
    | nil => rwa [commaSep_singleton]
    | cons b l =>
      rw [commaSep_cons_cons]
      exact ha.append ((level_char rfl).append (ih fun b hb => h b (List.mem_cons_of_mem _ hb)))

lemma isOrdinary_of_isDigit {c : Char} (h : c.isDigit = true) : isOrdinary c = true := by
  rw [isOrdinary, decide_eq_true_iff]
  refine ⟨?_, ?_, ?_, ?_, ?_⟩ <;> rintro rfl <;> exact absurd h (by decide)

lemma level_digits {s : List Char} (h : ∀ c ∈ s, c.isDigit = true) : Level s :=
  level_of_ordinary fun c hc => isOrdinary_of_isDigit (h c hc)

lemma level_key (k : Key) : Level ('"' :: k.chars ++ ['"']) := level_string k.plain

lemma level_compact {d : ℕ} {j : Json} (h : Nested d j) : Level j.compact := by
  induction h with
  | num n =>
    rw [compact]
    exact level_digits fun c hc => Nat.isDigit_of_mem_toDigits (by omega) (by omega) hc
  | arr _ ih =>
    rw [compact_arr]
    exact level_brackets rfl (level_commaSep ih)
  | obj _ ih =>
    rw [compact_obj]
    refine level_brackets rfl (level_commaSep fun m hm => ?_)
    have hmember : compactMember m = ('"' :: m.1.chars ++ ['"']) ++ ([':'] ++ m.2.compact) := by
      simp [compactMember]
    rw [hmember]
    exact (level_key m.1).append ((level_char rfl).append (ih m hm))

/-- An object's text, with what stands between its brackets. -/
lemma exists_inner_of_obj {d : ℕ} {members : List (Key × Json)} (h : Nested d (obj members)) :
    ∃ inner, (obj members).compact = '{' :: inner ++ ['}'] ∧ Level inner := by
  refine ⟨commaSep compactMember members, compact_obj members, level_commaSep fun m hm => ?_⟩
  cases h with
  | obj hmembers =>
    have hmember : compactMember m = ('"' :: m.1.chars ++ ['"']) ++ ([':'] ++ m.2.compact) := by
      simp [compactMember]
    rw [hmember]
    exact (level_key m.1).append ((level_char rfl).append (level_compact (hmembers m hm)))

/-- All keys of the value satisfy the predicate. -/
inductive KeysSatisfy (P : Key → Prop) : Json → Prop
  | num (n : ℕ) : KeysSatisfy P (num n)
  | arr {items : List Json} (h : ∀ v ∈ items, KeysSatisfy P v) : KeysSatisfy P (arr items)
  | obj {members : List (Key × Json)} (hkeys : ∀ m ∈ members, P m.1)
      (hvalues : ∀ m ∈ members, KeysSatisfy P m.2) : KeysSatisfy P (obj members)

/-- A text has no other characters than its digits, its keys and its punctuation. -/
lemma forall_mem_compact {P : Char → Prop} (hdigit : ∀ c, c.isDigit = true → P c)
    (hpunct : ∀ c ∈ ['[', ']', '{', '}', ',', ':', '"'], P c) {j : Json}
    (h : KeysSatisfy (fun k => ∀ c ∈ k.chars, P c) j) : ∀ c ∈ j.compact, P c := by
  induction h with
  | num n =>
    intro c hc
    exact hdigit c (Nat.isDigit_of_mem_toDigits (by omega) (by omega) hc)
  | arr _ ih =>
    intro c hc
    rw [compact_arr, List.cons_append, List.mem_cons, List.mem_append, List.mem_singleton] at hc
    rcases hc with rfl | hc | rfl
    · exact hpunct _ (by simp)
    · rcases mem_commaSep hc with rfl | ⟨v, hv, hc⟩
      · exact hpunct _ (by simp)
      · exact ih v hv c hc
    · exact hpunct _ (by simp)
  | obj hkeys _ ih =>
    intro c hc
    rw [compact_obj, List.cons_append, List.mem_cons, List.mem_append, List.mem_singleton] at hc
    rcases hc with rfl | hc | rfl
    · exact hpunct _ (by simp)
    · rcases mem_commaSep hc with rfl | ⟨m, hm, hc⟩
      · exact hpunct _ (by simp)
      · rw [compactMember, List.cons_append, List.mem_cons, List.mem_append, List.mem_cons,
          List.mem_cons] at hc
        rcases hc with rfl | hc | rfl | rfl | hc
        · exact hpunct _ (by simp)
        · exact hkeys m hm c hc
        · exact hpunct _ (by simp)
        · exact hpunct _ (by simp)
        · exact ih m hm c hc
    · exact hpunct _ (by simp)

/-! ## Two texts one after the other -/

def Mode.flip : Mode → Mode
  | .plain => .string
  | .string => .plain
  | .escape => .escape

/-- Without a backslash the mode depends on the quotation marks only, and a scan that begins in
the other mode is always in the other mode. -/
lemma mode_flip {s : List Char} (hs : '\\' ∉ s) (st st' : Scan) (hst : st.mode ≠ .escape)
    (hmode : st'.mode = st.mode.flip) :
    (scan st s).mode ≠ .escape ∧ (scan st' s).mode = (scan st s).mode.flip := by
  induction s generalizing st st' with
  | nil => exact ⟨hst, hmode⟩
  | cons c s ih =>
    obtain ⟨hc, hs⟩ : ¬ '\\' = c ∧ '\\' ∉ s := by simpa using hs
    obtain ⟨d, m⟩ := st
    obtain ⟨d', m'⟩ := st'
    dsimp only at hst hmode
    subst hmode
    refine ih hs _ _ ?_ ?_
    · cases m with
      | plain =>
        simp only [Scan.step]
        split_ifs <;> simp
      | string =>
        simp only [Scan.step, if_neg (Ne.symm hc)]
        split_ifs <;> simp
      | escape => exact absurd rfl hst
    · cases m with
      | plain =>
        simp only [Scan.step, Mode.flip, if_neg (Ne.symm hc)]
        split_ifs <;> rfl
      | string =>
        simp only [Scan.step, Mode.flip, if_neg (Ne.symm hc)]
        split_ifs <;> rfl
      | escape => exact absurd rfl hst

/-- **The beginning of one object and the text of another are not one value**, whether the
beginning is cut inside of a string or not, or not cut at all. -/
theorem not_oneValue_append {o c : Char} {inner p q t : List Char} (hpair : isPair o c = true)
    (hinner : Level inner) (heq : o :: inner ++ [c] = p ++ q) (hp : p ≠ []) (hback : '\\' ∉ p)
    (ht : Level t) (hback' : '\\' ∉ t) (hblank : t.all isSpace = false) :
    ¬ OneValue (p ++ t) := by
  rintro ⟨hclosed, hcut⟩
  rcases List.eq_nil_or_concat q with rfl | ⟨q', c', rfl⟩
  · -- both texts are complete
    rw [List.append_nil] at heq
    have hwhole : Closed p := heq ▸ (level_brackets hpair hinner).ends 0
    rcases hcut p t rfl hwhole with hspace | hspace
    · have ho : isSpace o = true :=
        List.all_eq_true.mp hspace o (by rw [← heq, List.cons_append]; exact List.mem_cons_self)
      rw [isPair, decide_eq_true_iff] at hpair
      rcases hpair with ⟨rfl, -⟩ | ⟨rfl, -⟩ <;> exact absurd ho (by decide)
    · exact absurd hspace (by simp [hblank])
  · have hpos := not_closed_of_cut hpair hinner heq hp (by simp)
    obtain ⟨hescape, -⟩ := mode_flip hback ⟨0, .plain⟩ ⟨0, .string⟩ (by simp) rfl
    rw [Closed, scan_append] at hclosed
    generalize scan ⟨0, .plain⟩ p = st at hpos hescape hclosed
    obtain ⟨d, m⟩ := st
    cases m with
    | plain =>
      rw [ht.ends d, Scan.mk.injEq] at hclosed
      exact absurd hclosed.1 (Nat.ne_of_gt hpos)
    | string =>
      -- the second text ends in the string that the first one has begun
      obtain ⟨-, hflip⟩ := mode_flip hback' ⟨d, .plain⟩ ⟨d, .string⟩ (by simp) rfl
      rw [ht.ends d, hclosed] at hflip
      exact absurd hflip (by simp [Mode.flip])
    | escape => exact hescape rfl

/-! ## The texts that the reader accepts -/

/-- What the reader takes off the text is level. -/
def Consumes {A : Type*} (elem : Reader A) : Prop :=
  ∀ s a rest, elem s = some (a, rest) → ∃ used, s = used ++ rest ∧ Level used

lemma exists_space (s : List Char) :
    ∃ sp, s = sp ++ skipSpace s ∧ sp.all isSpace = true := by
  exact ⟨s.takeWhile isSpace, List.takeWhile_append_dropWhile.symm, List.all_takeWhile⟩

lemma consumes_readNum : Consumes readNum := by
  intro s j rest h
  unfold readNum at h
  split at h
  · next t =>
    obtain ⟨-, rfl⟩ := Prod.mk.inj (Option.some.inj h)
    exact ⟨['0'], rfl, level_char rfl⟩
  · split at h
    · exact absurd h (by simp)
    · obtain ⟨-, rfl⟩ := Prod.mk.inj (Option.some.inj h)
      refine ⟨s.takeWhile Char.isDigit, List.takeWhile_append_dropWhile.symm, ?_⟩
      exact level_digits (List.all_eq_true.mp List.all_takeWhile)

lemma readKey_eq_some {s rest : List Char} {k : Key} (h : readKey s = some (k, rest)) :
    s = k.chars ++ '"' :: rest := by
  unfold readKey at h
  split at h
  · exact absurd h (by simp)
  · next c t hdrop =>
    dsimp only at h
    split at h
    · obtain ⟨rfl, rfl⟩ := Prod.mk.inj (Option.some.inj h)
      have hc : c = '"' := by
        have hhead := List.head?_dropWhile_not (· ≠ '"') s
        rw [hdrop] at hhead
        simpa using hhead
      subst hc
      show s = s.takeWhile (· ≠ '"') ++ '"' :: t
      rw [← hdrop]
      exact List.takeWhile_append_dropWhile.symm
    · exact absurd h (by simp)

lemma Consumes.readMember {value : Reader Json} (hvalue : Consumes value) :
    Consumes (readMember value) := by
  intro s m rest h
  obtain ⟨sp, hs, hsp⟩ := exists_space s
  unfold Json.readMember at h
  split at h
  · next t ht =>
    split at h
    · exact absurd h (by simp)
    · next k u hkey =>
      obtain ⟨sp', hu, hsp'⟩ := exists_space u
      split at h
      · next w hw =>
        obtain ⟨⟨v, rest'⟩, hv, heq⟩ := Option.map_eq_some_iff.mp h
        obtain ⟨-, rfl⟩ := Prod.mk.inj heq
        obtain ⟨used, rfl, hused⟩ := hvalue w v rest' hv
        refine ⟨sp ++ (('"' :: k.chars ++ ['"']) ++ (sp' ++ ([':'] ++ used))), ?_, ?_⟩
        · rw [hs, ht, readKey_eq_some hkey, hu, hw]
          simp
        · exact (level_space hsp).append ((level_key k).append
            ((level_space hsp').append ((level_char rfl).append hused)))
      · exact absurd h (by simp)
  · exact absurd h (by simp)

section List

variable {A : Type*} {elem : Reader A} {close : Char}

lemma Consumes.readItems (helem : Consumes elem) {n : ℕ} {s rest : List Char} {l : List A}
    (h : readItems elem close n s = some (l, rest)) :
    ∃ used, s = used ++ close :: rest ∧ Level used := by
  induction n generalizing s l with
  | zero => exact absurd h (by simp [Json.readItems])
  | succ n ih =>
    unfold Json.readItems at h
    split at h
    · exact absurd h (by simp)
    next a t ha =>
    obtain ⟨used, rfl, hused⟩ := helem s a t ha
    obtain ⟨sp, ht, hsp⟩ := exists_space t
    split at h
    · exact absurd h (by simp)
    next c u hu =>
    rw [hu] at ht
    split at h
    · next hc =>
      obtain ⟨-, rfl⟩ := Prod.mk.inj (Option.some.inj h)
      exact ⟨used ++ sp, by rw [ht, hc, List.append_assoc], hused.append (level_space hsp)⟩
    · split at h
      · next hc =>
        obtain ⟨⟨l', rest'⟩, hl', heq⟩ := Option.map_eq_some_iff.mp h
        obtain ⟨-, rfl⟩ := Prod.mk.inj heq
        obtain ⟨used', hu', hused'⟩ := ih hl'
        refine ⟨used ++ (sp ++ ([','] ++ used')), ?_, ?_⟩
        · rw [ht, hc, hu']
          simp
        · exact hused.append ((level_space hsp).append ((level_char rfl).append hused'))
      · exact absurd h (by simp)

lemma Consumes.readList (helem : Consumes elem) {s rest : List Char} {l : List A}
    (h : readList elem close s = some (l, rest)) :
    ∃ used, s = used ++ close :: rest ∧ Level used := by
  obtain ⟨sp, hs, hsp⟩ := exists_space s
  unfold Json.readList at h
  split at h
  · exact absurd h (by simp)
  next c t ht =>
  split at h
  · next hc =>
    obtain ⟨-, rfl⟩ := Prod.mk.inj (Option.some.inj h)
    exact ⟨sp, by rw [← hc, ← ht]; exact hs, level_space hsp⟩
  · exact helem.readItems h

end List

/-- An array or an object with its brackets, after some white space. -/
def Bracketed (s rest : List Char) : Prop :=
  ∃ sp o inner c, s = sp ++ (o :: inner ++ [c]) ++ rest ∧ sp.all isSpace = true ∧
    isPair o c = true ∧ Level inner

/-- A number, or a text in brackets. -/
lemma readValue_cases {d : ℕ} (ih : ∀ d', d' < d → Consumes (readValue d')) {s rest : List Char}
    {j : Json} (h : readValue d s = some (j, rest)) :
    (∃ n, j = num n) ∧ (∃ used, s = used ++ rest ∧ Level used) ∨ Bracketed s rest := by
  obtain ⟨sp, hs, hsp⟩ := exists_space s
  have hnum : ∀ {t}, skipSpace s = t → readNum t = some (j, rest) →
      (∃ n, j = num n) ∧ ∃ used, s = used ++ rest ∧ Level used := by
    intro t ht hread
    refine ⟨?_, ?_⟩
    · unfold readNum at hread
      split at hread
      · exact ⟨0, (Prod.mk.inj (Option.some.inj hread)).1.symm⟩
      · split at hread
        · exact absurd hread (by simp)
        · exact ⟨_, (Prod.mk.inj (Option.some.inj hread)).1.symm⟩
    · obtain ⟨used, hused, hlevel⟩ := consumes_readNum t j rest hread
      refine ⟨sp ++ used, ?_, (level_space hsp).append hlevel⟩
      rw [List.append_assoc, ← hused, ← ht]
      exact hs
  cases d with
  | zero => exact Or.inl (hnum rfl h)
  | succ d =>
    have hvalue := ih d (Nat.lt_succ_self d)
    unfold readValue at h
    split at h
    · next t ht =>
      obtain ⟨⟨items, rest'⟩, hlist, heq⟩ := Option.map_eq_some_iff.mp h
      obtain ⟨-, rfl⟩ := Prod.mk.inj heq
      obtain ⟨used, hused, hlevel⟩ := hvalue.readList hlist
      exact Or.inr ⟨sp, '[', used, ']', by rw [hs, ht, hused]; simp, hsp, rfl, hlevel⟩
    · next t ht =>
      obtain ⟨⟨members, rest'⟩, hlist, heq⟩ := Option.map_eq_some_iff.mp h
      obtain ⟨-, rfl⟩ := Prod.mk.inj heq
      obtain ⟨used, hused, hlevel⟩ := hvalue.readMember.readList hlist
      exact Or.inr ⟨sp, '{', used, '}', by rw [hs, ht, hused]; simp, hsp, rfl, hlevel⟩
    · exact Or.inl (hnum rfl h)

lemma consumes_readValue (d : ℕ) : Consumes (readValue d) := by
  induction d using Nat.strongRecOn with
  | ind d ih =>
    intro s j rest h
    rcases readValue_cases ih h with ⟨-, hused⟩ | ⟨sp, o, inner, c, hs, hsp, hpair, hinner⟩
    · exact hused
    · exact ⟨_, hs, (level_space hsp).append (level_brackets hpair hinner)⟩

/-- **An array or an object that is accepted is one value.** -/
theorem oneValue_of_parse {limit : ℕ} {s : List Char} {j : Json} (h : parse limit s = some j)
    (hj : ∀ n, j ≠ num n) : OneValue s := by
  unfold parse at h
  split at h
  · exact absurd h (by simp)
  next v rest hread =>
  split at h
  · next hrest =>
    obtain rfl := Option.some.inj h
    rcases readValue_cases (fun d _ => consumes_readValue d) hread with
      ⟨⟨n, hn⟩, -⟩ | ⟨sp, o, inner, c, hs, hsp, hpair, hinner⟩
    · exact absurd hn (hj n)
    · obtain ⟨sp', hsp', hblank⟩ := exists_space rest
      rw [List.isEmpty_iff] at hrest
      rw [hrest, List.append_nil] at hsp'
      rw [hs, hsp']
      exact oneValue_brackets hpair hinner hsp hblank
  · exact absurd h (by simp)

end Json

end Lib
