/-
# A bounded map with least-recently-used eviction

The map is kept in the order of use, the most recently used entry first.  Storing a key puts
it in front and drops the last entry if the map has outgrown its capacity; a `get` moves its
key to the front; a `peek` moves nothing.  The capacity is positive and is never exceeded,
and both facts are fields of the structure.

Every operation has one lemma that says what a later `peek` sees.  Eviction makes the map
lossy: after a `put` another key may be gone, but it never changes its value.

Of two caches that are used alike, the larger one holds what the smaller one holds.  The
relation that the operations keep is `Within`: the entries of the smaller cache stand in the
larger one in the same order, and the larger one has at most as many entries more as it has
places more.  It allows a key that only the larger cache holds to be used there, or popped.
-/
import SyscallMind.Lib.HashMap

namespace Lib

/-- A map of at most `cap` entries, the most recently used one first. -/
structure LruCache (K V : Type*) [DecidableEq K] where
  /-- The entries, in the order of use. -/
  map : HashMap K V
  /-- The capacity. -/
  cap : ℕ
  cap_pos : 0 < cap
  length_le : map.entries.length ≤ cap

namespace LruCache

variable {K V : Type*} [DecidableEq K]

/-- The empty cache. -/
def new (cap : ℕ) (h : 0 < cap) : LruCache K V := ⟨∅, cap, h, by simp⟩

variable (c : LruCache K V)

/-- The number of entries. -/
def len : ℕ := c.map.entries.length

/-- The keys, in the order of use. -/
def keys : List K := c.map.keys

/-- The value of a key; the order of use does not change. -/
def peek (k : K) : Option V := c.map.lookup k

/-- The cache with the present key `k`, whose value is `v`, moved to the front. -/
def promote (k : K) (v : V) (h : c.peek k = some v) : LruCache K V where
  map := c.map.insert k v
  cap := c.cap
  cap_pos := c.cap_pos
  length_le := by
    have hk : k ∈ c.map := AList.lookup_isSome.mp (by rw [peek] at h; simp [h])
    rw [HashMap.length_insert_of_mem c.map hk]
    exact c.length_le

/-- The value of a key; a key that is present moves to the front. -/
def get (k : K) : Option V × LruCache K V :=
  match h : c.peek k with
  | none => (none, c)
  | some v => (some v, c.promote k v h)

/-- Store a value in front; the last entry goes if there is one too many. -/
def put (k : K) (v : V) : LruCache K V where
  map := HashMap.truncate (c.map.insert k v) c.cap
  cap := c.cap
  cap_pos := c.cap_pos
  length_le := List.length_take_le c.cap _

/-- Remove a key. -/
def pop (k : K) : LruCache K V where
  map := c.map.erase k
  cap := c.cap
  cap_pos := c.cap_pos
  length_le := Nat.le_trans (HashMap.length_erase_le c.map k) c.length_le

/-- Remove the listed keys one after the other. -/
def popAll (ks : List K) : LruCache K V := ks.foldl pop c

/-- The keys whose entry satisfies the predicate, in the order of use. -/
def keysWhere (p : K → V → Bool) : List K :=
  (c.map.entries.filter fun e => p e.1 e.2).map Sigma.fst

lemma map_put (k : K) (v : V) :
    (c.put k v).map = HashMap.truncate (c.map.insert k v) c.cap := rfl

/-! ## What a later `peek` sees -/

@[simp] lemma peek_new (cap : ℕ) (h : 0 < cap) (k : K) :
    (new cap h : LruCache K V).peek k = none := AList.lookup_empty k

lemma peek_promote (k k' : K) (v : V) (h : c.peek k = some v) :
    (c.promote k v h).peek k' = c.peek k' := by
  rw [peek, promote, HashMap.lookup_insert_eq]
  by_cases hk : k' = k
  · subst hk
    rw [if_pos rfl, h]
  · rw [if_neg hk, peek]

@[simp] lemma get_fst (k : K) : (c.get k).1 = c.peek k := by
  unfold get
  split
  · next h => exact h.symm
  · next v h => exact h.symm

@[simp] lemma peek_get (k k' : K) : (c.get k).2.peek k' = c.peek k' := by
  unfold get
  split
  · rfl
  · next v h => exact c.peek_promote k k' v h

lemma peek_pop (k k' : K) : (c.pop k).peek k' = if k' = k then none else c.peek k' :=
  HashMap.lookup_erase_eq c.map k k'

lemma peek_popAll (ks : List K) (k : K) :
    (c.popAll ks).peek k = if k ∈ ks then none else c.peek k := by
  induction ks generalizing c with
  | nil => simp [popAll]
  | cons k₀ ks ih =>
    have h : c.popAll (k₀ :: ks) = (c.pop k₀).popAll ks := rfl
    rw [h, ih, peek_pop]
    by_cases hks : k ∈ ks
    · simp [hks]
    · by_cases hk : k = k₀ <;> simp [hks, hk]

lemma peek_put_self (k : K) (v : V) : (c.put k v).peek k = some v := by
  have hpos := c.cap_pos
  have hmem : (⟨k, v⟩ : Sigma fun _ : K => V) ∈
      (HashMap.truncate (c.map.insert k v) c.cap).entries := by
    obtain ⟨n, hn⟩ : ∃ n, c.cap = n + 1 := ⟨c.cap - 1, by omega⟩
    change _ ∈ (c.map.insert k v).entries.take c.cap
    rw [hn, AList.entries_insert, List.take_succ_cons]
    exact List.mem_cons_self
  exact (HashMap.mem_entries_iff _).mp hmem

/-- A `put` may drop another key, but never changes its value. -/
lemma peek_of_peek_put {k k' : K} {v w : V} (h : (c.put k v).peek k' = some w) :
    (k' = k ∧ w = v) ∨ c.peek k' = some w := by
  have h' : (c.map.insert k v).lookup k' = some w := HashMap.lookup_of_lookup_truncate _ h
  rw [HashMap.lookup_insert_eq] at h'
  by_cases hk : k' = k
  · rw [if_pos hk, Option.some.injEq] at h'
    exact Or.inl ⟨hk, h'.symm⟩
  · rw [if_neg hk] at h'
    exact Or.inr h'

/-- While there is room, a `put` drops nothing. -/
lemma peek_put_of_room {k k' : K} (v : V) (hroom : c.len < c.cap) (hk : k' ≠ k) :
    (c.put k v).peek k' = c.peek k' := by
  have hle : (c.map.insert k v).entries.length ≤ c.cap :=
    Nat.le_trans (HashMap.length_insert_le c.map k v) hroom
  rw [peek, map_put, HashMap.truncate_of_le _ hle, HashMap.lookup_insert_eq, if_neg hk, peek]

lemma mem_keysWhere_iff {p : K → V → Bool} {k : K} :
    k ∈ c.keysWhere p ↔ ∃ v, c.peek k = some v ∧ p k v = true := by
  rw [keysWhere, List.mem_map]
  constructor
  · rintro ⟨⟨k', v⟩, he, rfl⟩
    obtain ⟨hmem, hp⟩ := List.mem_filter.mp he
    exact ⟨v, (HashMap.mem_entries_iff c.map).mp hmem, hp⟩
  · rintro ⟨v, hv, hp⟩
    exact ⟨⟨k, v⟩, List.mem_filter.mpr ⟨(HashMap.mem_entries_iff c.map).mpr hv, hp⟩, rfl⟩

/-- Popping the keys of the entries that satisfy a predicate leaves the others. -/
lemma peek_popAll_keysWhere (p : K → V → Bool) (k : K) :
    (c.popAll (c.keysWhere p)).peek k = (c.peek k).filter fun v => !p k v := by
  rw [peek_popAll]
  cases hk : c.peek k with
  | none => simp
  | some v =>
    have hmem : k ∈ c.keysWhere p ↔ p k v = true := by simp [mem_keysWhere_iff, hk]
    by_cases hp : p k v = true
    · simp [hmem, hp, Option.filter]
    · simp [hmem, hp, Option.filter]

/-! ## The capacity and the number of entries -/

@[simp] lemma cap_new (cap : ℕ) (h : 0 < cap) : (new cap h : LruCache K V).cap = cap := rfl

@[simp] lemma len_new (cap : ℕ) (h : 0 < cap) : (new cap h : LruCache K V).len = 0 := rfl

@[simp] lemma cap_put (k : K) (v : V) : (c.put k v).cap = c.cap := rfl

@[simp] lemma cap_get (k : K) : (c.get k).2.cap = c.cap := by
  unfold get
  split <;> rfl

@[simp] lemma cap_popAll (ks : List K) : (c.popAll ks).cap = c.cap := by
  induction ks generalizing c with
  | nil => rfl
  | cons k ks ih => exact ih (c.pop k)

lemma len_put_le (k : K) (v : V) : (c.put k v).len ≤ c.len + 1 := by
  have h := HashMap.length_insert_le c.map k v
  simp only [len, map_put, HashMap.truncate, List.length_take]
  omega

@[simp] lemma len_get (k : K) : (c.get k).2.len = c.len := by
  unfold get
  split
  · rfl
  · next v h =>
    have hk : k ∈ c.map := AList.lookup_isSome.mp (by rw [peek] at h; simp [h])
    exact HashMap.length_insert_of_mem c.map hk v

/-! ## A larger cache -/

/-- The entries of `s` occur in `b` in the same order, and `b` has at most as many entries
more as it has places more. -/
structure Within (s b : LruCache K V) : Prop where
  sublist : s.map.entries.Sublist b.map.entries
  room : b.len + s.cap ≤ s.len + b.cap

/-- Cutting off at least as many elements from the shorter list. -/
lemma take_sublist_take {α : Type*} {xs ys : List α} (h : xs.Sublist ys) {m n : ℕ}
    (hlen : ys.length + m ≤ xs.length + n) : (xs.take m).Sublist (ys.take n) := by
  induction h generalizing m n with
  | slnil => simp
  | @cons xs ys a hsub ih =>
    have hle := hsub.length_le
    rw [List.length_cons] at hlen
    obtain ⟨n', rfl⟩ : ∃ n', n = n' + 1 := ⟨n - 1, by omega⟩
    rw [List.take_succ_cons]
    exact (ih (by omega)).cons a
  | @cons_cons xs ys a hsub ih =>
    have hle := hsub.length_le
    rw [List.length_cons, List.length_cons] at hlen
    cases m with
    | zero => simp
    | succ m =>
      obtain ⟨n', rfl⟩ : ∃ n', n = n' + 1 := ⟨n - 1, by omega⟩
      rw [List.take_succ_cons, List.take_succ_cons]
      exact (ih (by omega)).cons_cons a

lemma map_get_of_peek {k : K} {v : V} (h : c.peek k = some v) :
    (c.get k).2.map = c.map.insert k v := by
  unfold get
  split
  · next h' => exact absurd (h.symm.trans h') (by simp)
  · next w h' =>
    obtain rfl : v = w := Option.some.inj (h.symm.trans h')
    rfl

/-- Popping removes the entries of the popped keys. -/
lemma entries_popAll (ks : List K) :
    (c.popAll ks).map.entries = c.map.entries.filter fun e => decide (e.1 ∉ ks) := by
  induction ks generalizing c with
  | nil => simp [popAll]
  | cons k ks ih =>
    have h : c.popAll (k :: ks) = (c.pop k).popAll ks := rfl
    have hpop : (c.pop k).map.entries = c.map.entries.filter fun e => decide (e.1 ≠ k) :=
      HashMap.entries_erase c.map k
    rw [h, ih, hpop, List.filter_filter]
    refine List.filter_congr fun e _ => ?_
    simp only [List.mem_cons, not_or, ← Bool.decide_and]
    exact decide_eq_decide.mpr and_comm

lemma entries_popAll_keysWhere (p : K → V → Bool) :
    (c.popAll (c.keysWhere p)).map.entries = c.map.entries.filter fun e => !p e.1 e.2 := by
  rw [entries_popAll]
  refine List.filter_congr ?_
  rintro ⟨k, v⟩ he
  have hk : c.peek k = some v := (HashMap.mem_entries_iff c.map).mp he
  have hmem : k ∈ c.keysWhere p ↔ p k v = true := by simp [mem_keysWhere_iff, hk]
  cases hp : p k v <;> simp [hmem, hp]

namespace Within

variable {s b : LruCache K V}

lemma new {m n : ℕ} (hm : 0 < m) (hn : 0 < n) (h : m ≤ n) :
    Within (LruCache.new m hm : LruCache K V) (LruCache.new n hn) :=
  ⟨List.Sublist.refl _, by simpa using h⟩

lemma peek (h : Within s b) {k : K} {v : V} (hk : s.peek k = some v) : b.peek k = some v :=
  (HashMap.mem_entries_iff _).mp (h.sublist.subset ((HashMap.mem_entries_iff _).mpr hk))

lemma erase_sublist (h : Within s b) (k : K) :
    (s.map.erase k).entries.Sublist (b.map.erase k).entries := by
  rw [HashMap.entries_erase, HashMap.entries_erase]
  exact h.sublist.filter _

/-- A key that only the larger cache holds stands between the entries of the smaller one. -/
lemma sublist_erase (h : Within s b) {k : K} (hk : s.peek k = none) :
    s.map.entries.Sublist (b.map.erase k).entries := by
  have hself : (s.map.erase k).entries = s.map.entries := by
    rw [HashMap.entries_erase]
    refine List.filter_eq_self.mpr ?_
    rintro ⟨k', v⟩ he
    rw [decide_eq_true_eq]
    rintro rfl
    rw [HashMap.mem_entries_iff] at he
    exact absurd (hk.symm.trans he) (by simp)
  rw [← hself]
  exact h.erase_sublist k

lemma erase_room (h : Within s b) (k : K) :
    (b.map.erase k).entries.length + s.cap ≤ (s.map.erase k).entries.length + b.cap := by
  have hroom : b.map.entries.length + s.cap ≤ s.map.entries.length + b.cap := h.room
  rw [HashMap.length_erase, HashMap.length_erase]
  by_cases hs : k ∈ s.map.keys
  · have hb : k ∈ b.map.keys := (h.sublist.map Sigma.fst).subset hs
    have hspos : 0 < s.map.keys.length := List.length_pos_of_mem hs
    have hbpos : 0 < b.map.keys.length := List.length_pos_of_mem hb
    rw [HashMap.length_keys] at hspos hbpos
    rw [if_pos hs, if_pos hb]
    omega
  · rw [if_neg hs]
    split <;> omega

/-- A key stored in both is in front of both, and the larger one drops an entry only when the
smaller one does. -/
lemma put (h : Within s b) (k : K) (v : V) : Within (s.put k v) (b.put k v) := by
  have hroom := h.erase_room k
  have hs : (s.map.insert k v).entries.length = (s.map.erase k).entries.length + 1 := rfl
  have hb : (b.map.insert k v).entries.length = (b.map.erase k).entries.length + 1 := rfl
  refine ⟨?_, ?_⟩
  · show ((s.map.insert k v).entries.take s.cap).Sublist ((b.map.insert k v).entries.take b.cap)
    refine take_sublist_take ((h.erase_sublist k).cons_cons _) ?_
    show (b.map.insert k v).entries.length + s.cap ≤ (s.map.insert k v).entries.length + b.cap
    omega
  · show ((b.map.insert k v).entries.take b.cap).length + s.cap ≤
      ((s.map.insert k v).entries.take s.cap).length + b.cap
    rw [List.length_take, List.length_take]
    omega

lemma pop (h : Within s b) (k : K) : Within (s.pop k) (b.pop k) :=
  ⟨h.erase_sublist k, h.erase_room k⟩

lemma pop_right (h : Within s b) {k : K} (hk : s.peek k = none) : Within s (b.pop k) := by
  refine ⟨h.sublist_erase hk, ?_⟩
  have hroom := h.room
  have hle := HashMap.length_erase_le b.map k
  show (b.map.erase k).entries.length + s.cap ≤ s.len + b.cap
  have hlen : b.len = b.map.entries.length := rfl
  omega

lemma get (h : Within s b) {k : K} {v : V} (hk : s.peek k = some v) :
    Within (s.get k).2 (b.get k).2 := by
  refine ⟨?_, ?_⟩
  · rw [map_get_of_peek s hk, map_get_of_peek b (h.peek hk)]
    exact (h.erase_sublist k).cons_cons _
  · simpa using h.room

lemma get_right (h : Within s b) {k : K} (hk : s.peek k = none) : Within s (b.get k).2 := by
  cases hb : b.peek k with
  | none =>
    have hsame : (b.get k).2 = b := by
      unfold LruCache.get
      split
      · rfl
      · next v h' => exact absurd (hb.symm.trans h') (by simp)
    rw [hsame]
    exact h
  | some v =>
    refine ⟨?_, by simpa using h.room⟩
    rw [map_get_of_peek b hb]
    exact (h.sublist_erase hk).cons _

lemma popAll_keysWhere (h : Within s b) (p : K → V → Bool) :
    Within (s.popAll (s.keysWhere p)) (b.popAll (b.keysWhere p)) := by
  have hroom : b.map.entries.length + s.cap ≤ s.map.entries.length + b.cap := h.room
  have hpopped : (s.map.entries.filter fun e => p e.1 e.2).length ≤
      (b.map.entries.filter fun e => p e.1 e.2).length := (h.sublist.filter _).length_le
  have hs := List.length_eq_length_filter_add (l := s.map.entries) fun e => p e.1 e.2
  have hb := List.length_eq_length_filter_add (l := b.map.entries) fun e => p e.1 e.2
  refine ⟨?_, ?_⟩
  · rw [entries_popAll_keysWhere, entries_popAll_keysWhere]
    exact h.sublist.filter _
  · rw [len, len, entries_popAll_keysWhere, entries_popAll_keysWhere, cap_popAll, cap_popAll]
    omega

end Within

end LruCache

end Lib
