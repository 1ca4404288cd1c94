/-
# The lines of a text

A line ends with a line feed, which is not part of it, and neither is a carriage return just
before it.  What follows the last line feed is a line too, unless it is empty.
-/
import Mathlib.Data.List.Basic

namespace Lib

def stripCr (line : List Char) : List Char :=
  if line.getLast? = some '\r' then line.dropLast else line

/-- The lines of a text that continues the given line. -/
def linesFrom : List Char → List Char → List (List Char)
  | line, [] => if line.isEmpty then [] else [line]
  | line, c :: s => if c = '\n' then stripCr line :: linesFrom [] s else linesFrom (line ++ [c]) s

def lines (s : List Char) : List (List Char) := linesFrom [] s

/-- The white space of Unicode. -/
def isWhitespace (c : Char) : Bool :=
  let n := c.toNat
  (0x9 ≤ n ∧ n ≤ 0xd) ∨ n = 0x20 ∨ n = 0x85 ∨ n = 0xa0 ∨ n = 0x1680 ∨
    (0x2000 ≤ n ∧ n ≤ 0x200a) ∨ n = 0x2028 ∨ n = 0x2029 ∨ n = 0x202f ∨ n = 0x205f ∨ n = 0x3000

/-- There is nothing but white space on the line. -/
def isBlank (line : List Char) : Bool := line.all isWhitespace

/-- The line without the white space at both ends. -/
def trim (line : List Char) : List Char :=
  ((line.dropWhile isWhitespace).reverse.dropWhile isWhitespace).reverse

@[simp] lemma lines_nil : lines [] = [] := rfl

lemma stripCr_of_notMem {line : List Char} (h : '\r' ∉ line) : stripCr line = line :=
  if_neg fun hlast => h (List.mem_of_getLast? hlast)

lemma linesFrom_append (line s rest : List Char) (h : '\n' ∉ s) :
    linesFrom line (s ++ '\n' :: rest) = stripCr (line ++ s) :: lines rest := by
  induction s generalizing line with
  | nil => simp [linesFrom, lines]
  | cons c s ih =>
    obtain ⟨hc, hs⟩ : ¬ '\n' = c ∧ '\n' ∉ s := by simpa using h
    rw [List.cons_append, linesFrom, if_neg (Ne.symm hc), ih (line ++ [c]) hs, List.append_assoc,
      List.singleton_append]

/-- A line without line breaks is split off as it is. -/
lemma lines_append {s rest : List Char} (hlf : '\n' ∉ s) (hcr : '\r' ∉ s) :
    lines (s ++ '\n' :: rest) = s :: lines rest := by
  rw [lines, linesFrom_append [] s rest hlf, List.nil_append, stripCr_of_notMem hcr]

lemma linesFrom_of_notMem (line s : List Char) (hlf : '\n' ∉ s) :
    linesFrom line s = if (line ++ s).isEmpty then [] else [line ++ s] := by
  induction s generalizing line with
  | nil => rw [linesFrom, List.append_nil]
  | cons c s ih =>
    obtain ⟨hc, hs⟩ : ¬ '\n' = c ∧ '\n' ∉ s := by simpa using hlf
    rw [linesFrom, if_neg (Ne.symm hc), ih (line ++ [c]) hs, List.append_assoc,
      List.singleton_append]

/-- What follows the last line feed. -/
lemma lines_of_notMem {s : List Char} (hs : s ≠ []) (hlf : '\n' ∉ s) : lines s = [s] := by
  rw [lines, linesFrom_of_notMem [] s hlf, List.nil_append, if_neg (by simpa using hs)]

/-- Lines that are joined with line feeds are split again. -/
lemma lines_intercalate {ls : List (List Char)} (hne : ∀ l ∈ ls, l ≠ [])
    (hlf : ∀ l ∈ ls, '\n' ∉ l) (hcr : ∀ l ∈ ls, '\r' ∉ l) :
    lines (['\n'].intercalate ls) = ls := by
  induction ls with
  | nil => rfl
  | cons l ls ih =>
    cases ls with
    | nil =>
      rw [List.intercalate_singleton]
      exact lines_of_notMem (hne l (by simp)) (hlf l (by simp))
    | cons l' ls =>
      rw [List.intercalate_cons_cons, List.append_assoc, List.singleton_append,
        lines_append (hlf l (by simp)) (hcr l (by simp)),
        ih (fun k hk => hne k (by simp [hk])) (fun k hk => hlf k (by simp [hk]))
          (fun k hk => hcr k (by simp [hk]))]

/-- A text in which every line is ended. -/
lemma lines_flatMap {ls : List (List Char)} (hlf : ∀ l ∈ ls, '\n' ∉ l)
    (hcr : ∀ l ∈ ls, '\r' ∉ l) (rest : List Char) :
    lines (ls.flatMap (· ++ ['\n']) ++ rest) = ls ++ lines rest := by
  induction ls with
  | nil => rfl
  | cons l ls ih =>
    rw [List.flatMap_cons, List.append_assoc, List.append_assoc, List.singleton_append,
      lines_append (hlf l (by simp)) (hcr l (by simp)),
      ih (fun k hk => hlf k (by simp [hk])) fun k hk => hcr k (by simp [hk]), List.cons_append]

/-- A line with no white space at its ends. -/
lemma trim_of_ends {first last : Char} {middle : List Char} (hfirst : isWhitespace first = false)
    (hlast : isWhitespace last = false) :
    trim (first :: middle ++ [last]) = first :: middle ++ [last] := by
  have hreverse : (first :: middle ++ [last]).reverse = last :: (first :: middle).reverse := by
    simp
  rw [trim, List.cons_append, List.dropWhile_cons_of_neg (by simp [hfirst]), ← List.cons_append,
    hreverse, List.dropWhile_cons_of_neg (by simp [hlast]), ← hreverse, List.reverse_reverse]

end Lib
