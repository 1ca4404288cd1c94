/-
# Untyped JSON values

A program that does not declare the shape of its JSON builds objects member by member and looks
members up by their names.  An object is a sorted map, so its text has the members in the order
of their names whatever the order in which they were given.  A lookup finds the last member of
the name, and nothing in a value that is not an object.
-/
import Mathlib.Algebra.Group.Nat.Defs
import Mathlib.Data.Char
import Mathlib.Data.List.Lex
import Mathlib.Data.List.Sort
import SyscallMind.Lib.Json

namespace Lib

namespace Json

/-- The object with the given members, of different names, in the order of the names. -/
def object (members : List (Key × Json)) : Json :=
  .obj (members.insertionSort fun m m' => m.1.chars ≤ m'.1.chars)

/-- The member of the name, the last one if there are several. -/
def index (name : Key) : Json → Option Json
  | .obj members => (members.reverse.find? fun m => decide (m.1 = name)).map Prod.snd
  | _ => none

/-- The numbers that fit 64 bits. -/
def asU64 : Json → Option ℕ
  | .num n => if n < 2 ^ 64 then some n else none
  | _ => none

def asArray : Json → Option (List Json)
  | .arr items => some items
  | _ => none

lemma object_perm (members : List (Key × Json)) :
    ∃ members' : List (Key × Json), members'.Perm members ∧ object members = .obj members' :=
  ⟨_, List.perm_insertionSort _ _, rfl⟩

/-- A member of an object whose names are different is found under its name. -/
lemma index_obj {members : List (Key × Json)} (hnodup : (members.map Prod.fst).Nodup) {name : Key}
    {v : Json} (hmem : (name, v) ∈ members) : (obj members).index name = some v := by
  have hsome : (members.reverse.find? fun m => decide (m.1 = name)) = some (name, v) := by
    cases hfind : members.reverse.find? fun m => decide (m.1 = name) with
    | none =>
      have hnot := List.find?_eq_none.mp hfind (name, v) (List.mem_reverse.mpr hmem)
      exact absurd (decide_eq_true rfl) hnot
    | some m =>
      have hm : m ∈ members := List.mem_reverse.mp (List.mem_of_find?_eq_some hfind)
      have hname : m.1 = name :=
        of_decide_eq_true (List.find?_some (p := fun m : Key × Json => decide (m.1 = name)) hfind)
      rw [List.inj_on_of_nodup_map hnodup hm hmem hname]
  rw [index, hsome]
  rfl

lemma index_object {members : List (Key × Json)} (hnodup : (members.map Prod.fst).Nodup)
    {name : Key} {v : Json} (hmem : (name, v) ∈ members) :
    (object members).index name = some v := by
  obtain ⟨members', hperm, heq⟩ := object_perm members
  rw [heq]
  exact index_obj ((hperm.map Prod.fst).nodup_iff.mpr hnodup) (hperm.mem_iff.mpr hmem)

/-- The members of an object that is built from names and values. -/
lemma index_object_zip {names : List Key} {vs : List Json} (hnodup : names.Nodup)
    (hlen : vs.length = names.length) {i : ℕ} {name : Key} {v : Json}
    (hname : names[i]? = some name) (hv : vs[i]? = some v) :
    (object (names.zip vs)).index name = some v := by
  refine index_object ?_ ?_
  · rwa [List.map_fst_zip (by omega)]
  · have hzip : (names.zip vs)[i]? = some (name, v) := by
      rw [List.getElem?_zip_eq_some]
      exact ⟨hname, hv⟩
    exact List.mem_of_getElem? hzip

lemma nested_object {d : ℕ} {members : List (Key × Json)} (h : ∀ m ∈ members, Nested d m.2) :
    Nested (d + 1) (object members) := by
  obtain ⟨members', hperm, heq⟩ := object_perm members
  rw [heq]
  exact .obj fun m hm => h m (hperm.mem_iff.mp hm)

/-! ## The size of the numbers -/

/-- All numbers of the value are below the bound. -/
inductive NumbersBelow (bound : ℕ) : Json → Prop
  | num {n : ℕ} (h : n < bound) : NumbersBelow bound (num n)
  | arr {items : List Json} (h : ∀ v ∈ items, NumbersBelow bound v) : NumbersBelow bound (arr items)
  | obj {members : List (Key × Json)} (h : ∀ m ∈ members, NumbersBelow bound m.2) :
      NumbersBelow bound (obj members)

lemma numbersBelow_of_mem_zip {bound : ℕ} {names : List Key} {values : List Json}
    (h : ∀ v ∈ values, NumbersBelow bound v) : ∀ m ∈ names.zip values, NumbersBelow bound m.2 :=
  fun m hm => h m.2 (List.of_mem_zip hm).2

lemma numbersBelow_object {bound : ℕ} {members : List (Key × Json)}
    (h : ∀ m ∈ members, NumbersBelow bound m.2) : NumbersBelow bound (object members) := by
  obtain ⟨members', hperm, heq⟩ := object_perm members
  rw [heq]
  exact .obj fun m hm => h m (hperm.mem_iff.mp hm)

end Json

end Lib
