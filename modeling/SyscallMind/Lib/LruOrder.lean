/-
# The order of use in an LRU map

An LRU map keeps its entries in the order of use.  A `put` and a successful `get` put their key
in front, and nothing else moves an entry past another one.  So among the keys that the map
holds, each one was used again after the last use of those behind it (`InOrder`), and the one
that a full map drops for a new key is the last one.
-/
import SyscallMind.Lib.LruCache
import SyscallMind.Lib.Run

namespace Lib

namespace LruCache

variable {K V : Type*} [DecidableEq K] (c : LruCache K V)

/-- The entries of all keys but one, in the order of use. -/
def others (k : K) : List (Sigma fun _ : K => V) :=
  c.map.entries.filter fun e => decide (e.1 ≠ k)

/-! ## The entries after each operation -/

lemma entries_pop (k : K) : (c.pop k).map.entries = c.others k := HashMap.entries_erase c.map k

lemma entries_insert (k : K) (v : V) : (c.map.insert k v).entries = ⟨k, v⟩ :: c.others k := by
  rw [AList.entries_insert]
  exact congrArg _ (HashMap.entries_erase c.map k)

lemma entries_put (k : K) (v : V) :
    (c.put k v).map.entries = (⟨k, v⟩ :: c.others k).take c.cap :=
  congrArg (List.take c.cap) (c.entries_insert k v)

lemma entries_get {k : K} {v : V} (h : c.peek k = some v) :
    (c.get k).2.map.entries = ⟨k, v⟩ :: c.others k := by
  rw [map_get_of_peek c h, entries_insert]

lemma others_of_entries {d : LruCache K V} {k : K} {v : V}
    (h : d.map.entries = ⟨k, v⟩ :: c.others k) : d.others k = c.others k := by
  rw [others, h, List.filter_cons_of_neg (by simp), others, List.filter_filter]
  simp

lemma mem_others_iff {k k' : K} {v : V} :
    (⟨k', v⟩ : Sigma fun _ : K => V) ∈ c.others k ↔ k' ≠ k ∧ c.peek k' = some v := by
  rw [others, List.mem_filter, HashMap.mem_entries_iff, decide_eq_true_eq]
  exact and_comm

/-- A key that is not there has no entry to leave out. -/
lemma others_of_peek_none {k : K} (h : c.peek k = none) : c.others k = c.map.entries := by
  refine List.filter_eq_self.mpr ?_
  rintro ⟨k', v⟩ he
  rw [decide_eq_true_eq]
  rintro rfl
  rw [HashMap.mem_entries_iff] at he
  exact absurd (h.symm.trans he) (by simp)

/-! ## The order of use -/

/-- Among the keys that the map holds, each one was used after the last use of those behind
it. -/
def InOrder (uses : List K) : Prop :=
  c.map.entries.Pairwise fun e e' => Run.Since (· = e.1) (· = e'.1) uses

variable {c} {uses : List K}

lemma inOrder_new (cap : ℕ) (h : 0 < cap) : (new cap h : LruCache K V).InOrder uses :=
  List.Pairwise.nil

lemma InOrder.of_sublist {d : LruCache K V} (h : c.InOrder uses)
    (hsub : d.map.entries.Sublist c.map.entries) : d.InOrder uses :=
  List.Pairwise.sublist hsub h

/-- A key that is used now was used after all others. -/
lemma InOrder.use (h : c.InOrder uses) (k : K) (v : V) :
    (⟨k, v⟩ :: c.others k).Pairwise fun e e' => Run.Since (· = e.1) (· = e'.1) (uses ++ [k]) := by
  refine List.pairwise_cons.mpr ⟨fun e he => Run.since_concat.mpr (Or.inl rfl), ?_⟩
  refine (h.filter _).imp_of_mem fun {e e'} _ he' hsince => ?_
  have hne : e'.1 ≠ k := of_decide_eq_true (List.mem_filter.mp he').2
  exact Run.since_concat.mpr (Or.inr ⟨hsince, Ne.symm hne⟩)

lemma InOrder.put (h : c.InOrder uses) (k : K) (v : V) : (c.put k v).InOrder (uses ++ [k]) := by
  rw [InOrder, entries_put]
  exact (h.use k v).sublist (List.take_sublist _ _)

lemma InOrder.get (h : c.InOrder uses) {k : K} {v : V} (hk : c.peek k = some v) :
    (c.get k).2.InOrder (uses ++ [k]) := by
  rw [InOrder, entries_get c hk]
  exact h.use k v

lemma InOrder.pop (h : c.InOrder uses) (k : K) : (c.pop k).InOrder uses := by
  refine h.of_sublist ?_
  rw [entries_pop]
  exact List.filter_sublist

lemma InOrder.popAll_keysWhere (h : c.InOrder uses) (p : K → V → Bool) :
    (c.popAll (c.keysWhere p)).InOrder uses := by
  refine h.of_sublist ?_
  rw [entries_popAll_keysWhere]
  exact List.filter_sublist

/-! ## Eviction -/

section Lost

variable {k k' : K} {v w : V}

lemma ne_of_lost (hlost : (c.put k v).peek k' = none) : k' ≠ k := by
  rintro rfl
  rw [peek_put_self] at hlost
  exact absurd hlost (by simp)

lemma not_mem_take_of_lost (hlost : (c.put k v).peek k' = none) :
    (⟨k', w⟩ : Sigma fun _ : K => V) ∉ (⟨k, v⟩ :: c.others k).take c.cap := by
  rw [← entries_put, HashMap.mem_entries_iff]
  intro hin
  exact absurd (hlost.symm.trans hin) (by simp)

/-- A key is lost only when a new key is stored in a full map. -/
lemma full_of_lost (hk : c.peek k' = some w) (hlost : (c.put k v).peek k' = none) :
    c.peek k = none ∧ c.len = c.cap := by
  have hothers : (⟨k', w⟩ : Sigma fun _ : K => V) ∈ c.others k :=
    c.mem_others_iff.mpr ⟨ne_of_lost hlost, hk⟩
  have hle : c.len ≤ c.cap := c.length_le
  have hsub : (c.others k).length ≤ c.len := List.length_filter_le _ _
  -- otherwise nothing would be cut off
  have hlong : c.cap < (c.others k).length + 1 := by
    by_contra hshort
    have hgone := not_mem_take_of_lost (w := w) hlost
    rw [List.take_of_length_le (by rw [List.length_cons]; omega)] at hgone
    exact hgone (List.mem_cons_of_mem _ hothers)
  have hnone : c.peek k = none := by
    cases hpeek : c.peek k with
    | none => rfl
    | some u =>
      have hmem : (⟨k, u⟩ : Sigma fun _ : K => V) ∈ c.map.entries :=
        (HashMap.mem_entries_iff _).mpr hpeek
      have hlt : (c.others k).length < c.len :=
        List.length_filter_lt_length_iff_exists.mpr ⟨_, hmem, by simp⟩
      omega
  exact ⟨hnone, by omega⟩

/-- The lost entry is the last one. -/
lemma last_of_lost (hk : c.peek k' = some w) (hlost : (c.put k v).peek k' = none) :
    ∃ front, c.map.entries = front ++ [⟨k', w⟩] := by
  obtain ⟨hnone, hfull⟩ := full_of_lost hk hlost
  have hgone := not_mem_take_of_lost (w := w) hlost
  obtain ⟨n, hn⟩ : ∃ n, c.cap = n + 1 := ⟨c.cap - 1, by have := c.cap_pos; omega⟩
  rw [c.others_of_peek_none hnone, hn, List.take_succ_cons, List.mem_cons, not_or] at hgone
  have hmem := (HashMap.mem_entries_iff _).mpr hk
  rw [← List.take_append_drop n c.map.entries] at hmem
  have hlast := (List.mem_append.mp hmem).resolve_left hgone.2
  have hlen : (c.map.entries.drop n).length = 1 := by
    have hlen : c.map.entries.length = c.cap := hfull
    rw [List.length_drop]
    omega
  obtain ⟨e, he⟩ := List.length_eq_one_iff.mp hlen
  rw [he, List.mem_singleton] at hlast
  refine ⟨c.map.entries.take n, ?_⟩
  rw [hlast, ← he, List.take_append_drop]

/-- **What a `put` evicts.**  A key that is lost was not the one that was stored; that one is
new, the map is full, and all other keys have been used since the lost one. -/
theorem evicted (h : c.InOrder uses) (hk : c.peek k' = some w)
    (hlost : (c.put k v).peek k' = none) :
    c.peek k = none ∧ c.len = c.cap ∧
      ∀ k'' w', c.peek k'' = some w' → k'' ≠ k' → Run.Since (· = k'') (· = k') uses := by
  obtain ⟨hnone, hfull⟩ := full_of_lost hk hlost
  obtain ⟨front, hfront⟩ := last_of_lost hk hlost
  refine ⟨hnone, hfull, fun k'' w' hk'' hne => ?_⟩
  have hmem : (⟨k'', w'⟩ : Sigma fun _ : K => V) ∈ front := by
    have hmem := (HashMap.mem_entries_iff _).mpr hk''
    rw [hfront] at hmem
    refine (List.mem_append.mp hmem).resolve_right fun hlast => ?_
    exact hne (congrArg Sigma.fst (List.mem_singleton.mp hlast))
  rw [InOrder, hfront] at h
  exact (List.pairwise_append.mp h).2.2 _ hmem _ (List.mem_singleton_self _)

end Lost

end LruCache

end Lib
