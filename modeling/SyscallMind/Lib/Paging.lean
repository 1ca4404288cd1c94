/-
# Least-recently-used paging

The keys that were requested, the last one first, form a list that no capacity cuts off.  A
cache of `m` places that evicts the least recently used key holds the first `m` of them
(`take_use`), so a request hits exactly when fewer than `m` distinct other keys were requested
since the last request of its key (`mem_take_recency_iff`).

The rest is about how good that is.  An offline service of the requests knows them all and may
hold any `h` keys at a time; it pays for every key that it loads.  Cut the requests into
stretches in which the cache misses `m` times, the first one excepted.  In each stretch `m`
keys are requested that differ from each other and from the last key before it; the service
holds at most `h - 1` of them when the stretch begins and loads the others.  So `m - h + 1`
times the misses are at most `m` times the loads (`misses_le_of_serves`).
-/
import Mathlib.Data.Finset.Card
import Mathlib.Data.List.Induction
import Mathlib.Tactic.Ring
import SyscallMind.Lib.LruOrder

namespace Lib

namespace Paging

variable {K : Type*} [DecidableEq K]

/-! ## The order of the last requests -/

/-- A requested key moves to the front. -/
def use (l : List K) (k : K) : List K := k :: l.filter fun k' => decide (k' ≠ k)

/-- The keys in the order of their last requests, the last one first. -/
def recency (l s : List K) : List K := s.foldl use l

/-- How many requests do not find their key among the first `m` keys. -/
def misses (m : ℕ) : List K → List K → ℕ
  | _, [] => 0
  | l, k :: s => (if k ∈ l.take m then 0 else 1) + misses m (use l k) s

@[simp] lemma recency_nil (l : List K) : recency l [] = l := rfl

@[simp] lemma recency_cons (l : List K) (k : K) (s : List K) :
    recency l (k :: s) = recency (use l k) s := rfl

lemma recency_append (l a b : List K) : recency l (a ++ b) = recency (recency l a) b :=
  List.foldl_append

lemma recency_concat (l a : List K) (k : K) : recency l (a ++ [k]) = use (recency l a) k :=
  recency_append l a [k]

lemma misses_append (m : ℕ) (l a b : List K) :
    misses m l (a ++ b) = misses m l a + misses m (recency l a) b := by
  induction a generalizing l with
  | nil => simp [misses]
  | cons k a ih => rw [List.cons_append, misses, misses, ih, recency_cons, Nat.add_assoc]

lemma misses_concat (m : ℕ) (l a : List K) (k : K) :
    misses m l (a ++ [k]) = misses m l a + if k ∈ (recency l a).take m then 0 else 1 := by
  rw [misses_append]
  rfl

lemma mem_use_iff {l : List K} {k k' : K} : k' ∈ use l k ↔ k' = k ∨ k' ∈ l := by
  rw [use, List.mem_cons, List.mem_filter, decide_eq_true_eq]
  by_cases h : k' = k <;> simp [h]

lemma nodup_use {l : List K} (h : l.Nodup) (k : K) : (use l k).Nodup := by
  refine List.nodup_cons.mpr ⟨?_, h.filter _⟩
  simp

lemma nodup_recency {l : List K} (h : l.Nodup) (s : List K) : (recency l s).Nodup := by
  induction s generalizing l with
  | nil => exact h
  | cons k s ih => exact ih (nodup_use h k)

lemma toFinset_recency (l s : List K) : (recency l s).toFinset = s.toFinset ∪ l.toFinset := by
  induction s generalizing l with
  | nil => simp
  | cons k s ih =>
    rw [recency_cons, ih]
    ext k'
    simp only [Finset.mem_union, List.mem_toFinset, mem_use_iff, List.mem_cons]
    tauto

lemma mem_recency_iff {s : List K} {k : K} : k ∈ recency [] s ↔ k ∈ s := by
  have h := congrArg (k ∈ ·) (toFinset_recency [] s)
  simpa using h

/-! ## The cache is a prefix of the order -/

/-- Removing one key that is there at most once from a prefix shortens it by at most one. -/
lemma length_filter_take {l : List K} (hl : l.Nodup) (m : ℕ) (k : K) :
    (l.take m).length ≤ ((l.take m).filter fun k' => decide (k' ≠ k)).length + 1 := by
  have hcount : (l.take m).count k ≤ 1 :=
    List.nodup_iff_count_le_one.mp (hl.sublist (List.take_sublist m l)) k
  have hsplit := List.length_eq_length_filter_add (l := l.take m) fun k' => decide (k' ≠ k)
  have hrest : ((l.take m).filter fun k' => !decide (k' ≠ k)).length = (l.take m).count k := by
    rw [List.count_eq_length_filter]
    congr 1
    refine List.filter_congr fun k' _ => ?_
    by_cases h : k' = k <;> simp [h]
  omega

/-- **The contents after a request.**  Requesting a key in the first `m` places and cutting at
`m` gives the first `m` of the whole order. -/
theorem take_use {l : List K} (hl : l.Nodup) (m : ℕ) (k : K) :
    (use (l.take m) k).take m = (use l k).take m := by
  cases m with
  | zero => simp
  | succ n =>
    rw [use, use, List.take_succ_cons, List.take_succ_cons]
    congr 1
    have hlen := length_filter_take hl (n + 1) k
    have hsplit : (l.filter fun k' => decide (k' ≠ k)) =
        ((l.take (n + 1)).filter fun k' => decide (k' ≠ k)) ++
          (l.drop (n + 1)).filter fun k' => decide (k' ≠ k) := by
      rw [← List.filter_append, List.take_append_drop]
    rw [hsplit]
    rcases Nat.lt_or_ge n l.length with hn | hn
    · rw [List.length_take] at hlen
      exact (List.take_append_of_le_length (by omega)).symm
    · rw [List.drop_of_length_le (by omega), List.filter_nil, List.append_nil]

/-- Keys that are not requested keep their places behind the requested ones. -/
lemma recency_of_not_mem {l : List K} {k : K} {s : List K} (hk : k ∉ s) :
    ∃ rest, recency (k :: l) s = recency [] s ++ k :: rest := by
  induction s using List.reverseRecOn generalizing l with
  | nil => exact ⟨l, rfl⟩
  | append_singleton s k₁ ih =>
    rw [List.mem_append, List.mem_singleton, not_or] at hk
    obtain ⟨rest, hrest⟩ := ih (l := l) hk.1
    refine ⟨rest.filter fun k' => decide (k' ≠ k₁), ?_⟩
    rw [recency_concat, recency_concat, hrest, use, use, List.filter_append,
      List.filter_cons_of_pos (by simpa using hk.2), List.cons_append]

lemma length_recency_nil (s : List K) : (recency [] s).length = s.toFinset.card := by
  have hset := toFinset_recency [] s
  rw [List.toFinset_nil, Finset.union_empty] at hset
  rw [← hset, List.toFinset_card_of_nodup (nodup_recency List.nodup_nil s)]

omit [DecidableEq K] in
/-- A list that contains a key splits at the last occurrence of it. -/
lemma exists_last_split {s : List K} {k : K} (h : k ∈ s) :
    ∃ a b, s = a ++ k :: b ∧ k ∉ b := by
  obtain ⟨b, a, hsplit, hb⟩ := List.eq_append_cons_of_mem (List.mem_reverse.mpr h)
  refine ⟨a.reverse, b.reverse, ?_, by simpa using hb⟩
  rw [← List.reverse_reverse s, hsplit]
  simp

/-- The place of a key in the order: as many keys stand before it as were requested since. -/
lemma recency_split {a b : List K} {k : K} (hk : k ∉ b) :
    ∃ rest, recency [] (a ++ k :: b) = recency [] b ++ k :: rest := by
  rw [recency_append, recency_cons, use]
  exact recency_of_not_mem hk

/-- **When a request hits.**  The cache of `m` places holds a key exactly when it was requested
and fewer than `m` distinct keys were requested after its last request. -/
theorem mem_take_recency_iff {m : ℕ} {s : List K} {k : K} :
    k ∈ (recency [] s).take m ↔ ∃ a b, s = a ++ k :: b ∧ k ∉ b ∧ b.toFinset.card < m := by
  constructor
  · intro hmem
    obtain ⟨a, b, rfl, hk⟩ := exists_last_split (mem_recency_iff.mp (List.mem_of_mem_take hmem))
    refine ⟨a, b, rfl, hk, ?_⟩
    by_contra hlong
    obtain ⟨rest, hrest⟩ := recency_split (a := a) hk
    rw [hrest, List.take_append_of_le_length (by rw [length_recency_nil]; omega)] at hmem
    exact hk (mem_recency_iff.mp (List.mem_of_mem_take hmem))
  · rintro ⟨a, b, rfl, hk, hcard⟩
    obtain ⟨rest, hrest⟩ := recency_split (a := a) hk
    rw [hrest, List.take_append, length_recency_nil]
    refine List.mem_append_right _ ?_
    obtain ⟨n, hn⟩ : ∃ n, m - b.toFinset.card = n + 1 := ⟨m - b.toFinset.card - 1, by omega⟩
    rw [hn, List.take_succ_cons]
    exact List.mem_cons_self

/-! ## The misses of a stretch -/

/-- While no more than `m` distinct keys are in play, a key in play is hit, and only the first
request of another one misses. -/
lemma misses_le_of_young {m : ℕ} {young : List K} (hyoung : young.Nodup) (old s : List K)
    (hcard : (young.toFinset ∪ s.toFinset).card ≤ m) :
    misses m (young ++ old) s ≤ (s.toFinset \ young.toFinset).card := by
  induction s generalizing young old with
  | nil => simp [misses]
  | cons k s ih =>
    have huse : use (young ++ old) k =
        use young k ++ old.filter fun k' => decide (k' ≠ k) := by
      rw [use, use, List.filter_append, List.cons_append]
    have hset : (use young k).toFinset = insert k young.toFinset := by
      ext k'
      simp [mem_use_iff]
    have hunion : (use young k).toFinset ∪ s.toFinset =
        young.toFinset ∪ (k :: s).toFinset := by
      rw [hset, List.toFinset_cons, Finset.insert_union, Finset.union_insert]
    have hrest := ih (nodup_use hyoung k) (old.filter fun k' => decide (k' ≠ k))
      (by rw [hunion]; exact hcard)
    rw [misses, huse]
    by_cases hk : k ∈ young
    · -- the key is in play, and all keys in play are in the first `m` places
      have hlen : young.length ≤ m := by
        rw [← List.toFinset_card_of_nodup hyoung]
        exact Nat.le_trans (Finset.card_le_card Finset.subset_union_left) hcard
      have hhit : k ∈ (young ++ old).take m := by
        rw [List.take_append, List.take_of_length_le hlen]
        exact List.mem_append_left _ hk
      have hsame : (k :: s).toFinset \ young.toFinset =
          s.toFinset \ (use young k).toFinset := by
        rw [hset, List.toFinset_cons, Finset.insert_eq_of_mem (List.mem_toFinset.mpr hk),
          Finset.insert_sdiff_of_mem _ (List.mem_toFinset.mpr hk)]
      rw [if_pos hhit, hsame]
      omega
    · -- a key that comes into play: whether it hits or not, it is counted once
      have hnew : (k :: s).toFinset \ young.toFinset =
          insert k (s.toFinset \ (use young k).toFinset) := by
        ext k'
        simp only [hset, List.toFinset_cons, Finset.mem_sdiff, Finset.mem_insert,
          List.mem_toFinset]
        by_cases heq : k' = k
        · simp [heq, hk]
        · simp [heq]
      have hnot : k ∉ s.toFinset \ (use young k).toFinset := by
        simp [hset]
      rw [hnew, Finset.card_insert_of_notMem hnot]
      split <;> omega

/-- A stretch in which the cache misses `m` times after it was asked for `p` requests `m` keys
other than `p`. -/
lemma card_of_full_stretch {m : ℕ} {p : K} {l s : List K} (hmiss : misses m (p :: l) s = m) :
    m < (insert p s.toFinset).card := by
  by_contra hfew
  have hset : [p].toFinset ∪ s.toFinset = insert p s.toFinset := by simp
  have hle := misses_le_of_young (m := m) (List.nodup_singleton p) l s (by rw [hset]; omega)
  have hlt : (s.toFinset \ [p].toFinset).card < (insert p s.toFinset).card := by
    refine Finset.card_lt_card ⟨?_, fun hsub => ?_⟩
    · exact Finset.sdiff_subset.trans (Finset.subset_insert p _)
    · have hp := hsub (Finset.mem_insert_self p _)
      simp at hp
  rw [List.singleton_append, hmiss] at hle
  omega

/-- Before anything was requested, as many misses as fit into the cache are misses of distinct
keys. -/
lemma misses_le_card {m : ℕ} {s : List K} (hmiss : misses m [] s ≤ m) :
    misses m [] s ≤ s.toFinset.card := by
  rcases Nat.le_total s.toFinset.card m with hcard | hcard
  · have hle := misses_le_of_young (m := m) List.nodup_nil [] s (by simpa using hcard)
    simpa using hle
  · omega

/-- The requests can be cut at every number of misses. -/
lemma exists_cut {m : ℕ} {l s : List K} {x y : ℕ} (h : misses m l s = x + y) :
    ∃ a b, s = a ++ b ∧ misses m l a = x ∧ misses m (recency l a) b = y := by
  induction s generalizing l x with
  | nil =>
    rw [misses] at h
    exact ⟨[], [], rfl, by rw [misses]; omega, by rw [recency_nil, misses]; omega⟩
  | cons k s ih =>
    rw [misses] at h
    cases x with
    | zero => exact ⟨[], k :: s, rfl, rfl, by rw [recency_nil, misses]; omega⟩
    | succ x =>
      by_cases hk : k ∈ l.take m
      · rw [if_pos hk] at h
        obtain ⟨a, b, rfl, ha, hb⟩ := ih (x := x + 1) (l := use l k) (by omega)
        exact ⟨k :: a, b, rfl, by rw [misses, if_pos hk, ha]; omega, hb⟩
      · rw [if_neg hk] at h
        obtain ⟨a, b, rfl, ha, hb⟩ := ih (x := x) (l := use l k) (by omega)
        exact ⟨k :: a, b, rfl, by rw [misses, if_neg hk, ha]; omega, hb⟩

/-! ## Offline services -/

/-- A service of the requests by a cache of `h` places: its contents before and after, and how
many keys it loads.  At each request it may hold any `h` keys, the requested one among them. -/
inductive Serves (h : ℕ) : Finset K → List K → ℕ → Finset K → Prop
  | nil (S : Finset K) : Serves h S [] 0 S
  | cons {S M T : Finset K} {k : K} {s : List K} {n : ℕ} (hk : k ∈ M) (hcard : M.card ≤ h)
      (hs : Serves h M s n T) : Serves h S (k :: s) ((M \ S).card + n) T

variable {h : ℕ} {S T : Finset K} {s : List K} {n : ℕ}

lemma Serves.split {a b : List K} (hs : Serves h S (a ++ b) n T) :
    ∃ n₁ n₂ M, n = n₁ + n₂ ∧ Serves h S a n₁ M ∧ Serves h M b n₂ T := by
  induction a generalizing S n with
  | nil => exact ⟨0, n, S, by omega, Serves.nil S, hs⟩
  | cons k a ih =>
    cases hs with
    | cons hk hcard hs' =>
      obtain ⟨n₁, n₂, M, rfl, h₁, h₂⟩ := ih hs'
      exact ⟨_, n₂, M, by omega, Serves.cons hk hcard h₁, h₂⟩

/-- Every requested key that is not there at first is loaded. -/
lemma Serves.card_sdiff_le (hs : Serves h S s n T) : (s.toFinset \ S).card ≤ n := by
  induction hs with
  | nil S => simp
  | @cons S M T k s n hk hcard hs ih =>
    have hsub : (k :: s).toFinset \ S ⊆ (M \ S) ∪ (s.toFinset \ M) := by
      intro k' hk'
      simp only [List.toFinset_cons, Finset.mem_sdiff, Finset.mem_insert, Finset.mem_union]
        at hk' ⊢
      rcases hk' with ⟨rfl | hmem, hnot⟩
      · exact Or.inl ⟨hk, hnot⟩
      · by_cases hin : k' ∈ M
        · exact Or.inl ⟨hin, hnot⟩
        · exact Or.inr ⟨hmem, hin⟩
    have hle := Nat.le_trans (Finset.card_le_card hsub) (Finset.card_union_le _ _)
    omega

/-- After a request the service holds the requested key and at most `h` keys. -/
lemma Serves.last {a : List K} {k : K} (hs : Serves h S (a ++ [k]) n T) :
    k ∈ T ∧ T.card ≤ h := by
  obtain ⟨n₁, n₂, M, -, -, hlast⟩ := hs.split
  cases hlast with
  | cons hk hcard hnil =>
    cases hnil
    exact ⟨hk, hcard⟩

/-- In a full stretch the service loads all but the `h` keys that it holds. -/
lemma Serves.full_stretch {m : ℕ} {p : K} {l : List K} (hs : Serves h S s n T) (hp : p ∈ S)
    (hcard : S.card ≤ h) (hmiss : misses m (p :: l) s = m) : m + 1 ≤ n + h := by
  have hmany := card_of_full_stretch hmiss
  have hsub : insert p s.toFinset ⊆ (s.toFinset \ S) ∪ S := by
    intro k hk
    rcases Finset.mem_insert.mp hk with rfl | hk
    · exact Finset.mem_union_right _ hp
    · rw [Finset.mem_union, Finset.mem_sdiff]
      tauto
  have hle := Nat.le_trans (Finset.card_le_card hsub) (Finset.card_union_le _ _)
  have hload := hs.card_sdiff_le
  omega

/-- A list of requests that is not empty leaves its last key in front. -/
lemma recency_eq_cons {a : List K} (ha : a ≠ []) (l : List K) :
    ∃ a' k rest, a = a' ++ [k] ∧ recency l a = k :: rest := by
  rcases List.eq_nil_or_concat a with rfl | ⟨a', k, rfl⟩
  · exact absurd rfl ha
  · rw [List.concat_eq_append]
    exact ⟨a', k, _, rfl, recency_concat l a' k⟩

/-- Each of `q` full stretches costs the service at least `m + 1 - h` loads. -/
lemma Serves.full_stretches {m : ℕ} {p : K} {l : List K} (hs : Serves h S s n T) (hp : p ∈ S)
    (hcard : S.card ≤ h) (hm : 0 < m) {q : ℕ} (hmiss : misses m (p :: l) s = q * m) :
    q * (m + 1) ≤ n + q * h := by
  induction q generalizing S s n p l with
  | zero => omega
  | succ q ih =>
    obtain ⟨a, b, rfl, ha, hb⟩ := exists_cut (x := m) (y := q * m) (by rw [hmiss]; ring)
    obtain ⟨n₁, n₂, M, rfl, h₁, h₂⟩ := hs.split
    have hne : a ≠ [] := by
      rintro rfl
      rw [misses] at ha
      omega
    obtain ⟨a', k, rest, rfl, hrec⟩ := recency_eq_cons hne (p :: l)
    obtain ⟨hkM, hcardM⟩ := h₁.last
    rw [hrec] at hb
    have hfirst := h₁.full_stretch hp hcard ha
    have hothers := ih h₂ hkM hcardM hb
    rw [Nat.succ_mul, Nat.succ_mul]
    omega

/-- **How good the eviction is.**  Against any service by a cache of `h` of the `m` places that
is empty at first and knows all requests, the misses are at most `m / (m + 1 - h)` times the
loads. -/
theorem misses_le_of_serves {m : ℕ} (hpos : 0 < h) (hle : h ≤ m) (hs : Serves h ∅ s n T) :
    (m + 1 - h) * misses m [] s ≤ m * n := by
  rcases Nat.eq_zero_or_pos (misses m [] s) with hzero | hmiss
  · rw [hzero, Nat.mul_zero]
    exact Nat.zero_le _
  -- the first stretch takes what is left of the misses when full stretches are counted off
  obtain ⟨q, t, hsum, htpos, htm⟩ : ∃ q t, misses m [] s = t + q * m ∧ 0 < t ∧ t ≤ m := by
    have hdiv := Nat.mod_add_div (misses m [] s - 1) m
    have hmod := Nat.mod_lt (misses m [] s - 1) (by omega : 0 < m)
    refine ⟨(misses m [] s - 1) / m, (misses m [] s - 1) % m + 1, ?_, by omega, by omega⟩
    rw [Nat.mul_comm]
    omega
  obtain ⟨a, b, rfl, ha, hb⟩ := exists_cut hsum
  obtain ⟨n₁, n₂, M, rfl, h₁, h₂⟩ := hs.split
  have hne : a ≠ [] := by
    rintro rfl
    rw [misses] at ha
    omega
  obtain ⟨a', k, rest, rfl, hrec⟩ := recency_eq_cons hne []
  obtain ⟨hkM, hcardM⟩ := h₁.last
  rw [hrec] at hb
  have hstretches := h₂.full_stretches hkM hcardM (by omega) hb
  have hfirst : t ≤ n₁ := by
    have hdistinct := misses_le_card (m := m) (s := a' ++ [k]) (by omega)
    have hload := h₁.card_sdiff_le
    rw [Finset.sdiff_empty] at hload
    omega
  obtain ⟨d, rfl⟩ : ∃ d, m = h + d := ⟨m - h, by omega⟩
  rw [hsum, show h + d + 1 - h = d + 1 by omega]
  have hq : q * (d + 1) ≤ n₂ := by
    have hexpand : q * (h + d + 1) = q * (d + 1) + q * h := by ring
    omega
  calc (d + 1) * (t + q * (h + d))
      = (d + 1) * t + (h + d) * (q * (d + 1)) := by ring
    _ ≤ (h + d) * n₁ + (h + d) * n₂ :=
        Nat.add_le_add (Nat.mul_le_mul (by omega) hfirst) (Nat.mul_le_mul_left _ hq)
    _ = (h + d) * (n₁ + n₂) := (Nat.mul_add _ _ _).symm

end Paging

/-! ## The LRU map as such a cache -/

namespace LruCache

open Paging

variable {K V : Type*} [DecidableEq K] (c : LruCache K V)

lemma keys_eq_map : c.keys = c.map.entries.map Sigma.fst := rfl

lemma map_fst_others (k : K) :
    (c.others k).map Sigma.fst = c.keys.filter fun k' => decide (k' ≠ k) := by
  rw [others, keys_eq_map, List.filter_map]
  rfl

lemma keys_put (k : K) (v : V) : (c.put k v).keys = (use c.keys k).take c.cap := by
  rw [keys_eq_map, entries_put, List.map_take, List.map_cons, map_fst_others, use]

lemma keys_get {k : K} {v : V} (h : c.peek k = some v) : (c.get k).2.keys = use c.keys k := by
  rw [keys_eq_map, entries_get c h, List.map_cons, map_fst_others, use]

lemma mem_keys_iff {k : K} : k ∈ c.keys ↔ ∃ v, c.peek k = some v := HashMap.mem_keys_iff c.map

lemma length_keys_le : c.keys.length ≤ c.cap := by
  rw [keys_eq_map, List.length_map]
  exact c.length_le

variable {c} {s : List K} (hkeys : c.keys = (recency [] s).take c.cap)

include hkeys

/-- Storing a requested key keeps the map the beginning of the order of requests. -/
lemma keys_put_of_recency (k : K) (v : V) :
    (c.put k v).keys = (recency [] (s ++ [k])).take c.cap := by
  rw [keys_put, hkeys, recency_concat, take_use (nodup_recency List.nodup_nil s)]

/-- So does the use of a key that is there. -/
lemma keys_get_of_recency {k : K} {v : V} (h : c.peek k = some v) :
    (c.get k).2.keys = (recency [] (s ++ [k])).take c.cap := by
  have hle := (c.get k).2.length_keys_le
  rw [cap_get] at hle
  rw [← List.take_of_length_le hle, keys_get c h, hkeys, recency_concat,
    take_use (nodup_recency List.nodup_nil s)]

end LruCache

end Lib
