/-
# Hash maps

A hash map is an association list with pairwise distinct keys, Mathlib's `AList`.  The order
of the entries means nothing: a lookup does not depend on it, and a program that iterates
over the keys takes an `IterationOrder`, which may be any permutation of them.

On top of what `AList` has, this file gives the operations `insertAll` (one value under many
keys), `retain` and `truncate`, and says what a lookup gives after an operation, so that a
proof about a program that reads its map never has to look at the entries.
-/
import Mathlib.Algebra.BigOperators.Group.Finset.Basic
import Mathlib.Algebra.Order.BigOperators.Group.List
import Mathlib.Algebra.Order.Ring.Nat
import Mathlib.Data.List.AList

namespace Lib

/-- A hash map from `K` to `V`: an association list with pairwise distinct keys. -/
abbrev HashMap (K V : Type*) := AList (fun _ : K => V)

/-- An order of iteration: how the keys of a map are permuted. -/
structure IterationOrder (K : Type*) where
  keys : List K → List K
  perm : ∀ ks, (keys ks).Perm ks

/-- The keys as they are stored. -/
def IterationOrder.stored (K : Type*) : IterationOrder K := ⟨id, fun ks => List.Perm.refl ks⟩

namespace HashMap

variable {K V : Type*} [DecidableEq K] (m : HashMap K V)

lemma lookup_insert_eq (k k' : K) (v : V) :
    (m.insert k v).lookup k' = if k' = k then some v else m.lookup k' := by
  by_cases h : k' = k
  · subst h
    rw [if_pos rfl]
    exact AList.lookup_insert m
  · rw [if_neg h]
    exact AList.lookup_insert_ne h

lemma lookup_erase_eq (k k' : K) :
    (m.erase k).lookup k' = if k' = k then none else m.lookup k' := by
  by_cases h : k' = k
  · subst h
    rw [if_pos rfl]
    exact AList.lookup_erase _ m
  · rw [if_neg h]
    exact AList.lookup_erase_ne h

/-- What holds of every entry, and of the new one, holds after an insertion. -/
lemma forall_lookup_insert {P : K → V → Prop} (h : ∀ k v, m.lookup k = some v → P k v) {k : K}
    {v : V} (hv : P k v) : ∀ k' v', (m.insert k v).lookup k' = some v' → P k' v' := by
  intro k' v' hl
  rw [lookup_insert_eq] at hl
  split at hl
  · next heq => rwa [heq, ← Option.some.inj hl]
  · exact h k' v' hl

/-- What is there after a removal was there before. -/
lemma lookup_of_lookup_erase {k k' : K} {v : V} (h : (m.erase k).lookup k' = some v) :
    m.lookup k' = some v := by
  rw [lookup_erase_eq] at h
  split at h
  · exact absurd h (by simp)
  · exact h

lemma mem_entries_iff {k : K} {v : V} :
    (⟨k, v⟩ : Sigma fun _ : K => V) ∈ m.entries ↔ m.lookup k = some v :=
  (AList.mem_lookup_iff (s := m)).symm

lemma mem_keys_iff {k : K} : k ∈ m.keys ↔ ∃ v, m.lookup k = some v := by
  rw [← AList.mem_keys, ← AList.lookup_isSome, Option.isSome_iff_exists]

lemma eq_empty_of_lookup (h : ∀ k, m.lookup k = none) : m = ∅ := by
  refine AList.ext (List.eq_nil_iff_forall_not_mem.mpr ?_)
  rintro ⟨k, v⟩ hmem
  rw [mem_entries_iff, h k] at hmem
  exact absurd hmem (by simp)

/-! ## Inserting one value under many keys -/

/-- Insert the value `v` under every key of the list, from left to right. -/
def insertAll (ks : List K) (v : V) : HashMap K V :=
  ks.foldl (fun m k => m.insert k v) m

/-! ## Keeping a part of the entries -/

omit [DecidableEq K] in
lemma nodupKeys_of_sublist {l : List (Sigma fun _ : K => V)} (h : l.Sublist m.entries) :
    l.NodupKeys :=
  List.NodupKeys.sublist h m.nodupKeys

/-- Keep the entries that satisfy the predicate. -/
def retain (p : K → V → Bool) : HashMap K V :=
  ⟨m.entries.filter fun e => p e.1 e.2, nodupKeys_of_sublist m List.filter_sublist⟩

/-- Keep the first `n` entries. -/
def truncate (n : ℕ) : HashMap K V :=
  ⟨m.entries.take n, nodupKeys_of_sublist m (List.take_sublist n m.entries)⟩

lemma lookup_retain (p : K → V → Bool) (k : K) :
    (retain m p).lookup k = (m.lookup k).filter (p k) := by
  ext v
  rw [← mem_entries_iff, Option.filter_eq_some_iff, ← mem_entries_iff]
  exact List.mem_filter

lemma lookup_of_lookup_truncate {n : ℕ} {k : K} {v : V}
    (h : (truncate m n).lookup k = some v) : m.lookup k = some v := by
  rw [← mem_entries_iff] at h ⊢
  exact List.mem_of_mem_take h

omit [DecidableEq K] in
lemma truncate_of_le {n : ℕ} (h : m.entries.length ≤ n) : truncate m n = m :=
  AList.ext (List.take_of_length_le h)

/-- Removing a key keeps the entries of all other keys, in their order. -/
lemma entries_erase (k : K) :
    (m.erase k).entries = m.entries.filter fun e => decide (e.1 ≠ k) := by
  have hgen : ∀ l : List (Sigma fun _ : K => V), l.NodupKeys →
      l.kerase k = l.filter fun e => decide (e.1 ≠ k) := by
    intro l hl
    induction l with
    | nil => rfl
    | cons e l ih =>
      obtain ⟨hnot, hnodup⟩ := List.nodupKeys_cons.mp hl
      by_cases hk : k = e.1
      · rw [List.kerase_cons_eq hk, List.filter_cons_of_neg (by simp [hk])]
        refine (List.filter_eq_self.mpr fun e' he' => ?_).symm
        rw [decide_eq_true_eq, hk]
        rintro heq
        exact hnot (heq ▸ List.mem_map_of_mem he')
      · rw [List.kerase_cons_ne hk, List.filter_cons_of_pos (by simp [Ne.symm hk]), ih hnodup]
  exact hgen m.entries m.nodupKeys

/-! ## The number of entries -/

omit [DecidableEq K] in
lemma length_keys : m.keys.length = m.entries.length := by
  simp [AList.keys, List.keys]

lemma length_erase (k : K) :
    (m.erase k).entries.length =
      if k ∈ m.keys then m.entries.length - 1 else m.entries.length := by
  rw [← length_keys, ← length_keys, AList.keys_erase, List.length_erase]

lemma length_erase_le (k : K) : (m.erase k).entries.length ≤ m.entries.length := by
  rw [length_erase]
  split <;> omega

lemma length_insert_le (k : K) (v : V) :
    (m.insert k v).entries.length ≤ m.entries.length + 1 := by
  rw [← length_keys, ← length_keys, AList.keys_insert, List.length_cons]
  exact Nat.succ_le_succ List.length_erase_le

lemma length_insert_of_mem {k : K} (h : k ∈ m) (v : V) :
    (m.insert k v).entries.length = m.entries.length := by
  have hk : k ∈ m.keys := AList.mem_keys.mp h
  rw [← length_keys, ← length_keys, AList.keys_insert, List.length_cons,
    List.length_erase_of_mem hk]
  have := List.length_pos_of_mem hk
  omega

/-! ## Sums over the values -/

/-- The sum of `f` over the values. -/
def weight (f : V → ℕ) : ℕ := (m.entries.map fun e => f e.2).sum

/-- What `f` gives for the value of a key, zero if there is none. -/
def valueAt (f : V → ℕ) (k : K) : ℕ := ((m.lookup k).map f).getD 0

lemma weight_erase (f : V → ℕ) (k : K) :
    weight (m.erase k) f + valueAt m f k = weight m f := by
  cases hl : m.lookup k with
  | none =>
    have hk : k ∉ m.entries.keys := fun h => AList.lookup_eq_none.mp hl h
    have herase : (m.erase k).entries = m.entries := List.kerase_of_notMem_keys hk
    rw [weight, herase, valueAt, hl]
    rfl
  | some v =>
    have hk : k ∈ m.entries.keys := (mem_keys_iff m).mpr ⟨v, hl⟩
    obtain ⟨w, l₁, l₂, -, hentries, herase⟩ := List.exists_of_kerase hk
    have hw : m.lookup k = some w := (mem_entries_iff m).mp (by rw [hentries]; simp)
    obtain rfl : v = w := Option.some.inj (hl.symm.trans hw)
    have herase' : (m.erase k).entries = l₁ ++ l₂ := herase
    rw [weight, weight, herase', hentries, valueAt, hl]
    simp only [List.map_append, List.map_cons, List.sum_append, List.sum_cons, Option.map_some,
      Option.getD_some]
    omega

lemma weight_insert (f : V → ℕ) (k : K) (v : V) :
    weight (m.insert k v) f + valueAt m f k = weight m f + f v := by
  have herase := weight_erase m f k
  have hinsert : weight (m.insert k v) f = f v + weight (m.erase k) f := rfl
  omega

lemma weight_insert_of_lookup (f : V → ℕ) {k : K} {w : V} (h : m.lookup k = some w) (v : V) :
    weight (m.insert k v) f + f w = weight m f + f v := by
  have hins := weight_insert m f k v
  rwa [valueAt, h] at hins

lemma weight_insert_of_none (f : V → ℕ) {k : K} (h : m.lookup k = none) (v : V) :
    weight (m.insert k v) f = weight m f + f v := by
  have hins := weight_insert m f k v
  rwa [valueAt, h] at hins

lemma weight_erase_of_lookup (f : V → ℕ) {k : K} {w : V} (h : m.lookup k = some w) :
    weight (m.erase k) f + f w = weight m f := by
  have herase := weight_erase m f k
  rwa [valueAt, h] at herase

omit [DecidableEq K] in
lemma weight_le_length {f : V → ℕ} (h : ∀ v, f v ≤ 1) : weight m f ≤ m.entries.length := by
  have hbound : ∀ n ∈ m.entries.map fun e => f e.2, n ≤ 1 := by
    intro n hn
    obtain ⟨e, -, rfl⟩ := List.mem_map.mp hn
    exact h e.2
  have hle := List.sum_le_card_nsmul (m.entries.map fun e => f e.2) 1 hbound
  rw [weight]
  simpa using hle

/-! ## Counting -/

section Counting

variable (c : HashMap K ℕ)

/-- Add one to the number under the key, which starts at zero. -/
def increment (k : K) : HashMap K ℕ := c.insert k ((c.lookup k).getD 0 + 1)

/-- The number under the key. -/
def count (k : K) : ℕ := (c.lookup k).getD 0

lemma count_increment (k k' : K) :
    count (increment c k) k' = count c k' + if k' = k then 1 else 0 := by
  rw [count, increment, lookup_insert_eq]
  by_cases hk : k' = k
  · subst hk
    rw [if_pos rfl, if_pos rfl]
    rfl
  · rw [if_neg hk, if_neg hk]
    rfl

lemma mem_increment {k k' : K} : k' ∈ increment c k ↔ k' = k ∨ k' ∈ c := AList.mem_insert c

lemma weight_increment (k : K) :
    weight (increment c k) (fun n => n) = weight c (fun n => n) + 1 := by
  have hins := weight_insert c (fun n => n) k ((c.lookup k).getD 0 + 1)
  have hval : valueAt c (fun n => n) k = (c.lookup k).getD 0 := by
    rw [valueAt]
    cases c.lookup k <;> rfl
  rw [increment]
  omega

/-- How often each key occurs in the list. -/
def countAll (ks : List K) : HashMap K ℕ := ks.foldl increment ∅

lemma count_foldl_increment (ks : List K) (k : K) :
    count (ks.foldl increment c) k = count c k + ks.count k := by
  induction ks generalizing c with
  | nil => simp
  | cons k₀ ks ih =>
    rw [List.foldl_cons, ih, count_increment, List.count_cons]
    simp only [beq_iff_eq, eq_comm (a := k₀)]
    omega

lemma mem_foldl_increment (ks : List K) (k : K) :
    k ∈ ks.foldl increment c ↔ k ∈ ks ∨ k ∈ c := by
  induction ks generalizing c with
  | nil => simp
  | cons k₀ ks ih =>
    rw [List.foldl_cons, ih, mem_increment, List.mem_cons]
    tauto

lemma lookup_countAll (ks : List K) (k : K) :
    (countAll ks).lookup k = if k ∈ ks then some (ks.count k) else none := by
  have hcount : ((countAll ks).lookup k).getD 0 = ks.count k := by
    have h := count_foldl_increment ∅ ks k
    rwa [count, count, AList.lookup_empty, Option.getD_none, Nat.zero_add] at h
  have hmem : k ∈ countAll ks ↔ k ∈ ks := by
    rw [countAll, mem_foldl_increment]
    simp
  by_cases hk : k ∈ ks
  · rw [if_pos hk]
    obtain ⟨n, hn⟩ := Option.isSome_iff_exists.mp (AList.lookup_isSome.mpr (hmem.mpr hk))
    rw [hn, Option.getD_some] at hcount
    rw [hn, hcount]
  · rw [if_neg hk]
    exact AList.lookup_eq_none.mpr fun h => hk (hmem.mp h)

/-- Keys under other names have the same counts. -/
lemma perm_entries_countAll_map {L : Type*} [DecidableEq L] {f : K → L}
    (hf : Function.Injective f) (ks : List K) :
    ((countAll (ks.map f)).entries.map (·.2)).Perm ((countAll ks).entries.map (·.2)) := by
  have hperm : (countAll (ks.map f)).entries.Perm
      ((countAll ks).entries.map fun e => (⟨f e.1, e.2⟩ : Sigma fun _ : L => ℕ)) := by
    have hinj : Function.Injective
        fun e : Sigma fun _ : K => ℕ => (⟨f e.1, e.2⟩ : Sigma fun _ : L => ℕ) := by
      rintro ⟨k, n⟩ ⟨k', n'⟩ h
      obtain ⟨hk, hn⟩ := Sigma.mk.inj h
      exact Sigma.ext (hf hk) hn
    refine (List.perm_ext_iff_of_nodup (countAll (ks.map f)).nodupKeys.nodup
      ((countAll ks).nodupKeys.nodup.map hinj)).mpr ?_
    rintro ⟨l, n⟩
    rw [mem_entries_iff, lookup_countAll]
    constructor
    · intro h
      split at h
      · next hl =>
        obtain ⟨k, hk, rfl⟩ := List.mem_map.mp hl
        rw [List.count_map_of_injective ks f hf] at h
        refine List.mem_map.mpr ⟨⟨k, n⟩, ?_, rfl⟩
        rw [mem_entries_iff, lookup_countAll, if_pos hk]
        exact h
      · exact absurd h (by simp)
    · intro h
      obtain ⟨⟨k, n'⟩, he, heq⟩ := List.mem_map.mp h
      obtain ⟨rfl, hn⟩ := Sigma.mk.inj heq
      obtain rfl := eq_of_heq hn
      rw [mem_entries_iff, lookup_countAll] at he
      split at he
      · next hk =>
        rw [if_pos (List.mem_map_of_mem hk), List.count_map_of_injective ks f hf]
        exact he
      · exact absurd he (by simp)
  have hmap := hperm.map (·.2)
  rwa [List.map_map] at hmap

end Counting

/-! ## Updating the keys of another map -/

/-- For every entry of `l`, the value under its key is replaced by `g` of the entry and of the
old value.  Each key is replaced once, so the order of the entries does not matter. -/
def mergeWith {W : Type*} (g : W → Option V → V) (l : HashMap K W) : HashMap K V :=
  l.entries.foldl (fun m e => m.insert e.1 (g e.2 (m.lookup e.1))) m

lemma lookup_mergeWith {W : Type*} (g : W → Option V → V) (l : HashMap K W) (k : K) :
    (mergeWith m g l).lookup k =
      match l.lookup k with
      | some w => some (g w (m.lookup k))
      | none => m.lookup k := by
  have hgen : ∀ (es : List (Sigma fun _ : K => W)) (m : HashMap K V), es.NodupKeys →
      (es.foldl (fun m e => m.insert e.1 (g e.2 (m.lookup e.1))) m).lookup k =
        match es.dlookup k with
        | some w => some (g w (m.lookup k))
        | none => m.lookup k := by
    intro es
    induction es with
    | nil => exact fun _ _ => rfl
    | cons e es ih =>
      intro m hnodup
      obtain ⟨hnot, hrest⟩ := List.nodupKeys_cons.mp hnodup
      rw [List.foldl_cons, ih _ hrest, lookup_insert_eq]
      by_cases hk : k = e.1
      · subst hk
        rw [List.dlookup_eq_none.mpr hnot, if_pos rfl, List.dlookup_cons_eq]
      · rw [if_neg hk, List.dlookup_cons_ne _ _ hk]
  exact hgen l.entries m l.nodupKeys

/-! ## All entries at once -/

omit [DecidableEq K] in
lemma keys_map {W : Type*} (f : V → W) :
    (m.entries.map fun e => (⟨e.1, f e.2⟩ : Sigma fun _ : K => W)).keys = m.keys := by
  rw [List.keys, List.map_map]
  rfl

/-- Apply a function to every value. -/
def mapValues {W : Type*} (f : V → W) : HashMap K W :=
  ⟨m.entries.map fun e => ⟨e.1, f e.2⟩, by
    show (m.entries.map fun e => (⟨e.1, f e.2⟩ : Sigma fun _ : K => W)).keys.Nodup
    rw [keys_map]
    exact m.keys_nodup⟩

omit [DecidableEq K] in
lemma keys_mapValues {W : Type*} (f : V → W) : (mapValues m f).keys = m.keys := keys_map m f

lemma lookup_mapValues {W : Type*} (f : V → W) (k : K) :
    (mapValues m f).lookup k = (m.lookup k).map f := by
  ext w
  rw [← mem_entries_iff, Option.map_eq_some_iff]
  constructor
  · intro h
    obtain ⟨⟨k', v⟩, he, heq⟩ := List.mem_map.mp h
    obtain ⟨rfl, hw⟩ : k' = k ∧ f v = w := by simpa using heq
    exact ⟨v, (mem_entries_iff m).mp he, hw⟩
  · rintro ⟨v, hv, rfl⟩
    exact List.mem_map.mpr ⟨⟨k, v⟩, (mem_entries_iff m).mpr hv, rfl⟩

/-- The entries in the order of an iteration. -/
def entriesIn (order : IterationOrder K) : List (K × V) :=
  (order.keys m.keys).filterMap fun k => (m.lookup k).map fun v => (k, v)

lemma perm_entriesIn (order : IterationOrder K) :
    (entriesIn m order).Perm (m.entries.map fun e => (e.1, e.2)) := by
  have hstored : (m.keys.filterMap fun k => (m.lookup k).map fun v => (k, v)) =
      m.entries.map fun e => (e.1, e.2) := by
    rw [AList.keys, List.keys, List.filterMap_map, ← List.filterMap_eq_map]
    refine List.filterMap_congr fun e he => ?_
    simp only [Function.comp_apply, (mem_entries_iff m).mp he, Option.map_some]
  rw [← hstored]
  exact (order.perm m.keys).filterMap _

/-- A sum over the entries is a sum over the keys. -/
lemma sum_entries {M : Type*} [AddCommMonoid M] (f : K → V → M) (g : K → M)
    (h : ∀ k v, m.lookup k = some v → f k v = g k) :
    (m.entries.map fun e => f e.1 e.2).sum = ∑ k ∈ m.keys.toFinset, g k := by
  rw [List.sum_toFinset g m.keys_nodup, AList.keys, List.keys, List.map_map]
  refine congrArg List.sum (List.map_congr_left ?_)
  rintro ⟨k, v⟩ he
  exact h k v ((mem_entries_iff m).mp he)

end HashMap

end Lib
