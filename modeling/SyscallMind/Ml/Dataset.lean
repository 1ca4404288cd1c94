/-
# The training samples of the next-call model

`SyscallDataset` of `ml/training/transformer/model.py`: from every position of a sequence but
the last one starts a sample, which takes the next `max_len + 1` ids as far as there are any.
An item is a sample padded with zeros, once without its last id and once without its first.

Every sample has an origin, a sequence and a start, and the origins are listed without
repetition (`origins`).  So all four slice boundaries come down to one fact: the item number
`i` of the input is the id at `start + i`, that of the target the next one, and zero where the
sequence has ended (`dataset_covers`).

`evaluate` looks at the last target only.  This is a call of the sample if the sequence goes on
for `max_len` more ids, and else the padding that the loss ignores, as for the last sample of
every sequence (`last_target_real_iff`).
-/
import Mathlib.Algebra.Order.Ring.Int
import Mathlib.Data.List.GetD
import Mathlib.Data.List.Nodup
import Mathlib.Tactic.Common

namespace SyscallMind

/-- Sliding-window dataset over syscall ID sequences. -/
structure SyscallDataset where
  maxLen : ℕ
  samples : List (List ℤ)

namespace SyscallDataset

/-- The overlapping windows of one sequence. -/
def windowsOf (maxLen : ℕ) (seq : List ℤ) : List (List ℤ) :=
  if seq.length < 2 then []
  else
    (List.range (max 1 (seq.length - 1))).filterMap fun start =>
      let stop := min (start + maxLen + 1) seq.length
      let window := (seq.take stop).drop start
      if 2 ≤ window.length then some window else none

def new (sequences : List (List ℤ)) (maxLen : ℕ) : SyscallDataset :=
  ⟨maxLen, sequences.flatMap (windowsOf maxLen)⟩

def len (d : SyscallDataset) : ℕ := d.samples.length

/-- Pad to `maxLen + 1`, and take all but the last and all but the first. -/
def pair (maxLen : ℕ) (ids : List ℤ) : List ℤ × List ℤ :=
  let padLen := maxLen + 1 - ids.length
  let ids := if 0 < padLen then ids ++ List.replicate padLen 0 else ids
  let ids := ids.take (maxLen + 1)
  (ids.dropLast, ids.tail)

/-- The input and the target of a sample. -/
def getItem (d : SyscallDataset) (idx : ℕ) : Option (List ℤ × List ℤ) :=
  d.samples[idx]?.map (pair d.maxLen)

/-- The target at the position at which `evaluate` computes the accuracy. -/
def evaluatedTarget (target : List ℤ) : Option ℤ := target.getLast?

/-- Where the samples start: the number of the sequence, and the position in it. -/
def origins (sequences : List (List ℤ)) : List (ℕ × ℕ) :=
  sequences.zipIdx.flatMap fun p => (List.range (p.1.length - 1)).map fun s => (p.2, s)

/-! ## One sequence -/

/-- The ids from a start on, at most `maxLen + 1` of them. -/
def window (maxLen : ℕ) (seq : List ℤ) (start : ℕ) : List ℤ := (seq.drop start).take (maxLen + 1)

lemma slice_eq_window (maxLen start : ℕ) (seq : List ℤ) :
    (seq.take (min (start + maxLen + 1) seq.length)).drop start = window maxLen seq start := by
  rw [List.drop_take, window, List.take_eq_take_iff, List.length_drop]
  omega

lemma windowsOf_eq {maxLen : ℕ} (hpos : 1 ≤ maxLen) (seq : List ℤ) :
    windowsOf maxLen seq = (List.range (seq.length - 1)).map (window maxLen seq) := by
  rw [windowsOf]
  split
  · next hshort =>
    have hzero : seq.length - 1 = 0 := by omega
    rw [hzero]
    rfl
  · next hlong =>
    have hmax : max 1 (seq.length - 1) = seq.length - 1 := by omega
    rw [hmax, ← List.filterMap_eq_map]
    refine List.filterMap_congr fun start hstart => ?_
    have hlt := List.mem_range.mp hstart
    have htwo : 2 ≤ (window maxLen seq start).length := by
      rw [window, List.length_take, List.length_drop]
      omega
    simp only [slice_eq_window, if_pos htwo, Function.comp_apply]

lemma getD_window {maxLen i : ℕ} (hi : i ≤ maxLen) (seq : List ℤ) (start : ℕ) :
    (window maxLen seq start).getD i 0 = seq.getD (start + i) 0 := by
  rw [List.getD_eq_getElem?_getD, window, List.getElem?_take, if_pos (by omega),
    List.getElem?_drop, ← List.getD_eq_getElem?_getD]

/-! ## One item -/

lemma getD_of_lt {q : List ℤ} {n : ℕ} (hn : n < q.length) : q[n]? = some (q.getD n 0) := by
  rw [List.getD_eq_getElem?_getD, List.getElem?_eq_getElem hn, Option.getD_some]

/-- The padded ids. -/
lemma getElem?_padded {maxLen i : ℕ} (hi : i < maxLen + 1) (ids : List ℤ) :
    ((if 0 < maxLen + 1 - ids.length then ids ++ List.replicate (maxLen + 1 - ids.length) 0
      else ids).take (maxLen + 1))[i]? = some (ids.getD i 0) := by
  rw [List.getElem?_take, if_pos hi]
  rcases lt_or_ge i ids.length with hlt | hge
  · split
    · rw [List.getElem?_append_left hlt, getD_of_lt hlt]
    · exact getD_of_lt hlt
  · rw [if_pos (by omega), List.getElem?_append_right hge, List.getElem?_replicate,
      if_pos (by omega), List.getD_eq_default _ _ hge]

lemma length_pair (maxLen : ℕ) (ids : List ℤ) :
    (pair maxLen ids).1.length = maxLen ∧ (pair maxLen ids).2.length = maxLen := by
  have hlen : ((if 0 < maxLen + 1 - ids.length then
      ids ++ List.replicate (maxLen + 1 - ids.length) 0 else ids).take (maxLen + 1)).length =
        maxLen + 1 := by
    rw [List.length_take]
    split
    · rw [List.length_append, List.length_replicate]
      omega
    · omega
  simp only [pair, List.length_dropLast, List.length_tail, hlen]
  omega

lemma getElem?_pair_fst {maxLen i : ℕ} (hi : i < maxLen) (ids : List ℤ) :
    (pair maxLen ids).1[i]? = some (ids.getD i 0) := by
  have hlen := (length_pair maxLen ids).1
  rw [pair, List.length_dropLast] at hlen
  rw [pair, List.getElem?_dropLast, if_pos (by rw [hlen]; exact hi)]
  exact getElem?_padded (by omega) ids

lemma getElem?_pair_snd {maxLen i : ℕ} (hi : i < maxLen) (ids : List ℤ) :
    (pair maxLen ids).2[i]? = some (ids.getD (i + 1) 0) := by
  rw [pair, List.getElem?_tail]
  exact getElem?_padded (by omega) ids

lemma getItem_of_samples {d : SyscallDataset} {j : ℕ} {ids : List ℤ}
    (h : d.samples[j]? = some ids) : d.getItem j = some (pair d.maxLen ids) := by
  rw [getItem, h, Option.map_some]

/-! ## Where the samples come from -/

lemma samples_eq {maxLen : ℕ} (hpos : 1 ≤ maxLen) (sequences : List (List ℤ)) :
    (new sequences maxLen).samples =
      (origins sequences).map fun o => window maxLen (sequences.getD o.1 []) o.2 := by
  have hnumbered : sequences.flatMap (windowsOf maxLen) =
      sequences.zipIdx.flatMap fun p => windowsOf maxLen p.1 := by
    conv_lhs => rw [← List.zipIdx_map_fst 0 sequences, List.flatMap_map]
  rw [new, hnumbered, origins, List.map_flatMap]
  refine List.flatMap_congr fun p hp => ?_
  have hget : sequences.getD p.2 [] = p.1 := by
    rw [List.getD_eq_getElem?_getD, List.mem_zipIdx_iff_getElem?.mp hp, Option.getD_some]
  rw [windowsOf_eq hpos, List.map_map]
  refine List.map_congr_left fun s _ => ?_
  simp only [Function.comp_apply, hget]

lemma mem_origins {sequences : List (List ℤ)} {k s : ℕ} :
    (k, s) ∈ origins sequences ↔ ∃ q, sequences[k]? = some q ∧ s + 1 < q.length := by
  simp only [origins, List.mem_flatMap, List.mem_map, List.mem_range, Prod.mk.injEq]
  constructor
  · rintro ⟨p, hp, s', hs', rfl, rfl⟩
    exact ⟨p.1, List.mem_zipIdx_iff_getElem?.mp hp, by omega⟩
  · rintro ⟨q, hq, hs⟩
    have hs' : s < q.length - 1 := by omega
    exact ⟨(q, k), List.mk_mem_zipIdx_iff_getElem?.mpr hq, s, hs', rfl, rfl⟩

lemma nodup_origins (sequences : List (List ℤ)) : (origins sequences).Nodup := by
  rw [origins, List.nodup_flatMap]
  refine ⟨fun p _ => List.nodup_range.map fun s s' h => (Prod.mk.inj h).2, ?_⟩
  have hnumbers : (sequences.zipIdx.map Prod.snd).Nodup := by
    rw [List.zipIdx_map_snd]
    exact List.nodup_range'
  refine (List.pairwise_map.mp hnumbers).imp fun {p p'} hne => ?_
  rw [Function.onFun_apply, List.disjoint_left]
  intro o ho ho'
  obtain ⟨s, _, rfl⟩ := List.mem_map.mp ho
  obtain ⟨s', _, heq⟩ := List.mem_map.mp ho'
  exact hne (Prod.mk.inj heq).1.symm

lemma length_origins (sequences : List (List ℤ)) :
    (origins sequences).length = (sequences.map fun q => q.length - 1).sum := by
  simp only [origins, List.length_flatMap, List.length_map, List.length_range]
  conv_rhs => rw [← List.zipIdx_map_fst 0 sequences, List.map_map]
  rfl

lemma len_eq {maxLen : ℕ} (hpos : 1 ≤ maxLen) (sequences : List (List ℤ)) :
    (new sequences maxLen).len = (origins sequences).length := by
  rw [len, samples_eq hpos, List.length_map]

/-- A sample is a window of the sequence that its origin names. -/
lemma sample_of_origin {maxLen : ℕ} (hpos : 1 ≤ maxLen) {sequences : List (List ℤ)} {j k s : ℕ}
    (ho : (origins sequences)[j]? = some (k, s)) : ∃ q, sequences[k]? = some q ∧
      s + 1 < q.length ∧ (new sequences maxLen).samples[j]? = some (window maxLen q s) := by
  obtain ⟨q, hq, hs⟩ := mem_origins.mp (List.mem_of_getElem? ho)
  refine ⟨q, hq, hs, ?_⟩
  rw [samples_eq hpos, List.getElem?_map, ho, Option.map_some, List.getD_eq_getElem?_getD, hq,
    Option.getD_some]

/-- The two sides of a sample, position by position. -/
lemma getElem?_getItem {maxLen i : ℕ} (hi : i < maxLen) (q : List ℤ) (s : ℕ) :
    (pair maxLen (window maxLen q s)).1[i]? = some (q.getD (s + i) 0) ∧
      (pair maxLen (window maxLen q s)).2[i]? = some (q.getD (s + i + 1) 0) := by
  rw [getElem?_pair_fst hi, getElem?_pair_snd hi, getD_window (by omega), getD_window (by omega)]
  exact ⟨rfl, rfl⟩

/-! ## Every transition, once -/

/-- The first pair of an input and its target. -/
def firstPair (item : List ℤ × List ℤ) : Option (ℤ × ℤ) := (item.1.zip item.2).head?

/-- The samples are the transitions of the sequences, and the targets are one id ahead. -/
structure Covers (sequences : List (List ℤ)) (maxLen : ℕ) : Prop where
  count : (new sequences maxLen).len = (sequences.map fun q => q.length - 1).sum
  origin : ∀ j < (new sequences maxLen).len, ∃ o, (origins sequences)[j]? = some o
  aligned : ∀ j k s, (origins sequences)[j]? = some (k, s) → ∃ q input target,
    sequences[k]? = some q ∧ (new sequences maxLen).getItem j = some (input, target) ∧
      input.length = maxLen ∧ target.length = maxLen ∧ ∀ i < maxLen,
        (s + i + 1 < q.length → input[i]? = q[s + i]? ∧ target[i]? = q[s + i + 1]?) ∧
          (q.length ≤ s + i + 1 ↔ target[i]? = some 0)
  covered : ∀ (k s : ℕ) (q : List ℤ), sequences[k]? = some q → s + 1 < q.length →
    ∃! j : ℕ, (origins sequences)[j]? = some (k, s)
  firsts : (List.range (new sequences maxLen).len).map
      (fun j => ((new sequences maxLen).getItem j).bind firstPair) =
    sequences.flatMap fun q => (q.zip q.tail).map some
  noSpan : ∀ (j i : ℕ) (input target : List ℤ) (x y : ℤ),
    (new sequences maxLen).getItem j = some (input, target) →
      input[i]? = some x → target[i]? = some y → y ≠ 0 →
        ∃ q ∈ sequences, ∃ t : ℕ, q[t]? = some x ∧ q[t + 1]? = some y

lemma getD_eq_zero_iff {q : List ℤ} (hids : (0 : ℤ) ∉ q) {n : ℕ} :
    q.getD n 0 = 0 ↔ q.length ≤ n := by
  constructor
  · intro hzero
    by_contra! hlt
    refine hids (List.mem_of_getElem? (i := n) ?_)
    rw [getD_of_lt hlt, hzero]
  · exact fun hge => List.getD_eq_default _ _ hge

lemma firstPair_window {maxLen : ℕ} (hpos : 1 ≤ maxLen) (q : List ℤ) (s : ℕ) :
    firstPair (pair maxLen (window maxLen q s)) = some (q.getD s 0, q.getD (s + 1) 0) := by
  obtain ⟨hinput, htarget⟩ := getElem?_getItem (i := 0) hpos q s
  rw [firstPair, List.head?_eq_getElem?]
  exact List.getElem?_zip_eq_some.mpr ⟨hinput, htarget⟩

/-- The adjacent pairs of a sequence, by their positions. -/
lemma adjacent_eq (q : List ℤ) :
    (List.range (q.length - 1)).map (fun s => (q.getD s 0, q.getD (s + 1) 0)) =
      q.zip q.tail := by
  refine List.ext_getElem? fun s => ?_
  rcases lt_or_ge s (q.length - 1) with hs | hs
  · have hpair : (q.zip q.tail)[s]? = some (q.getD s 0, q.getD (s + 1) 0) := by
      refine List.getElem?_zip_eq_some.mpr ⟨getD_of_lt (by omega), ?_⟩
      rw [List.getElem?_tail, getD_of_lt (by omega)]
    rw [hpair, List.getElem?_map, List.getElem?_range hs, Option.map_some]
  · rw [List.getElem?_eq_none, List.getElem?_eq_none]
    · simp only [List.length_zip, List.length_tail]
      omega
    · rw [List.length_map, List.length_range]
      exact hs

lemma firsts_eq {maxLen : ℕ} (hpos : 1 ≤ maxLen) (sequences : List (List ℤ)) :
    (List.range (new sequences maxLen).len).map
        (fun j => ((new sequences maxLen).getItem j).bind firstPair) =
      sequences.flatMap fun q => (q.zip q.tail).map some := by
  have hsamples : (List.range (new sequences maxLen).len).map
      (fun j => ((new sequences maxLen).getItem j).bind firstPair) =
        (new sequences maxLen).samples.map (firstPair ∘ pair maxLen) := by
    refine List.ext_getElem? fun j => ?_
    rcases lt_or_ge j (new sequences maxLen).len with hj | hj
    · have hitem : (new sequences maxLen).getItem j =
          some (pair maxLen ((new sequences maxLen).samples.get ⟨j, hj⟩)) :=
        getItem_of_samples (List.getElem?_eq_getElem hj)
      rw [List.getElem?_map, List.getElem?_range hj, Option.map_some, hitem, List.getElem?_map,
        List.getElem?_eq_getElem hj]
      rfl
    · rw [List.getElem?_eq_none, List.getElem?_eq_none]
      · rw [List.length_map]
        exact hj
      · rw [List.length_map, List.length_range]
        exact hj
  rw [hsamples, new, List.map_flatMap]
  refine List.flatMap_congr fun q _ => ?_
  rw [windowsOf_eq hpos, List.map_map, ← adjacent_eq, List.map_map]
  exact List.map_congr_left fun s _ => firstPair_window hpos q s

lemma exists_origin {maxLen : ℕ} (hpos : 1 ≤ maxLen) {sequences : List (List ℤ)} {j : ℕ}
    (hj : j < (new sequences maxLen).len) : ∃ o, (origins sequences)[j]? = some o := by
  rw [len_eq hpos] at hj
  exact ⟨_, List.getElem?_eq_getElem hj⟩

/-- Every origin is that of one sample. -/
lemma existsUnique_sample {sequences : List (List ℤ)} {k s : ℕ} {q : List ℤ}
    (hq : sequences[k]? = some q) (hs : s + 1 < q.length) :
    ∃! j : ℕ, (origins sequences)[j]? = some (k, s) := by
  obtain ⟨j, hj⟩ := List.mem_iff_getElem?.mp (mem_origins.mpr ⟨q, hq, hs⟩)
  refine ⟨j, hj, fun j' hj' => ?_⟩
  obtain ⟨hlt, _⟩ := List.getElem?_eq_some_iff.mp hj'
  exact (List.getElem?_inj hlt (nodup_origins sequences)).mp (hj'.trans hj.symm)

/-- An item comes from a place in a sequence. -/
lemma exists_of_getItem {maxLen : ℕ} (hpos : 1 ≤ maxLen) {sequences : List (List ℤ)} {j : ℕ}
    {input target : List ℤ} (hitem : (new sequences maxLen).getItem j = some (input, target)) :
    ∃ (k s : ℕ) (q : List ℤ), sequences[k]? = some q ∧
      (pair maxLen (window maxLen q s)).1 = input ∧
        (pair maxLen (window maxLen q s)).2 = target := by
  obtain ⟨ids, hids, hpair⟩ := Option.map_eq_some_iff.mp hitem
  obtain ⟨hlt, _⟩ := List.getElem?_eq_some_iff.mp hids
  obtain ⟨⟨k, s⟩, ho⟩ := exists_origin hpos hlt
  obtain ⟨q, hq, _, hsample⟩ := sample_of_origin hpos ho
  obtain rfl : ids = window maxLen q s := Option.some.inj (hids.symm.trans hsample)
  exact ⟨k, s, q, hq, congrArg Prod.fst hpair, congrArg Prod.snd hpair⟩

/-- A sample goes along with its sequence, and is padded where the sequence has ended. -/
lemma positions_of_window {maxLen i : ℕ} (hi : i < maxLen) {q : List ℤ} (hids : (0 : ℤ) ∉ q)
    (s : ℕ) :
    (s + i + 1 < q.length → (pair maxLen (window maxLen q s)).1[i]? = q[s + i]? ∧
        (pair maxLen (window maxLen q s)).2[i]? = q[s + i + 1]?) ∧
      (q.length ≤ s + i + 1 ↔ (pair maxLen (window maxLen q s)).2[i]? = some 0) := by
  obtain ⟨hfst, hsnd⟩ := getElem?_getItem hi q s
  rw [hfst, hsnd, Option.some.injEq, getD_eq_zero_iff hids]
  exact ⟨fun hlt => ⟨(getD_of_lt (by omega)).symm, (getD_of_lt hlt).symm⟩, Iff.rfl⟩

/-- **The dataset covers every transition once**, whatever the lengths of the sequences are
compared with `maxLen`: a sample starts at every id but the last one of a sequence, its two
sides have `maxLen` items, the target is one id ahead of the input as long as the sequence goes
on and zero afterwards, and the first pairs of the samples are, in order, the adjacent pairs of
the sequences.  No pair is made of ids of two sequences. -/
theorem dataset_covers (sequences : List (List ℤ)) (maxLen : ℕ) (hpos : 1 ≤ maxLen)
    (hids : ∀ q ∈ sequences, (0 : ℤ) ∉ q) : Covers sequences maxLen where
  count := by rw [len_eq hpos, length_origins]
  origin _ hj := exists_origin hpos hj
  aligned j k s ho := by
    obtain ⟨q, hq, hs, hsample⟩ := sample_of_origin hpos ho
    obtain ⟨hinput, htarget⟩ := length_pair maxLen (window maxLen q s)
    exact ⟨q, _, _, hq, getItem_of_samples hsample, hinput, htarget, fun i hi =>
      positions_of_window hi (hids q (List.mem_of_getElem? hq)) s⟩
  covered _ _ _ hq hs := existsUnique_sample hq hs
  firsts := firsts_eq hpos sequences
  noSpan j i input target x y hitem hx hy hne := by
    obtain ⟨k, s, q, hq, rfl, rfl⟩ := exists_of_getItem hpos hitem
    have hmem := List.mem_of_getElem? hq
    obtain ⟨hlt, _⟩ := List.getElem?_eq_some_iff.mp hy
    rw [(length_pair maxLen (window maxLen q s)).2] at hlt
    obtain ⟨hreal, hpadded⟩ := positions_of_window hlt (hids q hmem) s
    have hnext : s + i + 1 < q.length := by
      by_contra! hge
      exact hne (Option.some.inj (hy.symm.trans (hpadded.mp hge)))
    obtain ⟨hfst, hsnd⟩ := hreal hnext
    exact ⟨q, hmem, s + i, hfst.symm.trans hx, hsnd.symm.trans hy⟩

theorem dataset_covers_two : Covers [[1, 2, 10], [2, 10]] 2 :=
  dataset_covers [[1, 2, 10], [2, 10]] 2 (by decide) (by decide)

/-! ## The target that is scored -/

/-- The target at the scored position is an id of the sample, and not the padding. -/
def LastTargetReal (d : SyscallDataset) (j : ℕ) : Prop :=
  ∃ ids input target y, d.samples[j]? = some ids ∧ d.getItem j = some (input, target) ∧
    evaluatedTarget target = some y ∧ y ≠ 0 ∧ y ∈ ids

/-- The scored target is the id `maxLen` positions after the start. -/
lemma evaluatedTarget_window {maxLen : ℕ} (hpos : 1 ≤ maxLen) (q : List ℤ) (s : ℕ) :
    evaluatedTarget (pair maxLen (window maxLen q s)).2 = some (q.getD (s + maxLen) 0) := by
  rw [evaluatedTarget, List.getLast?_eq_getElem?, (length_pair maxLen (window maxLen q s)).2,
    (getElem?_getItem (by omega) q s).2]
  have hlast : s + (maxLen - 1) + 1 = s + maxLen := by omega
  rw [hlast]

lemma lastTargetReal_iff {maxLen : ℕ} (hpos : 1 ≤ maxLen) {sequences : List (List ℤ)}
    {j k s : ℕ} {q : List ℤ} (hids : (0 : ℤ) ∉ q)
    (ho : (origins sequences)[j]? = some (k, s)) (hq : sequences[k]? = some q) :
    LastTargetReal (new sequences maxLen) j ↔ s + maxLen < q.length := by
  obtain ⟨q', hq', _, hsample⟩ := sample_of_origin hpos ho
  obtain rfl : q = q' := Option.some.inj (hq.symm.trans hq')
  have hitem : (new sequences maxLen).getItem j = some (pair maxLen (window maxLen q s)) :=
    getItem_of_samples hsample
  constructor
  · rintro ⟨ids, input, target, y, _, hitem', hy, hne, _⟩
    obtain rfl : (pair maxLen (window maxLen q s)).2 = target :=
      congrArg Prod.snd (Option.some.inj (hitem.symm.trans hitem'))
    by_contra! hge
    rw [evaluatedTarget_window hpos, (getD_eq_zero_iff hids).mpr hge] at hy
    exact hne (Option.some.inj hy).symm
  · intro hlt
    refine ⟨_, _, _, _, hsample, hitem, evaluatedTarget_window hpos q s, ?_, ?_⟩
    · intro hzero
      have hge := (getD_eq_zero_iff hids).mp hzero
      omega
    · refine List.mem_of_getElem? (i := maxLen) ?_
      rw [window, List.getElem?_take, if_pos (by omega), List.getElem?_drop, getD_of_lt hlt]

/-- **The scored target is real where the sequence goes on for `max_len` more ids**, and is the
padding elsewhere, so that every collection with a sequence in it has a sample scored on the
padding: the last one of the sequence. -/
theorem last_target_real_iff (sequences : List (List ℤ))
    (hlen : ∀ q ∈ sequences, 2 ≤ q.length) (hids : ∀ q ∈ sequences, (0 : ℤ) ∉ q) :
    (∀ (j k s : ℕ) (q : List ℤ), (origins sequences)[j]? = some (k, s) →
      sequences[k]? = some q →
        (LastTargetReal (new sequences 64) j ↔ s + 64 < q.length)) ∧
    ((∀ j < (new sequences 64).len, LastTargetReal (new sequences 64) j) ↔
      sequences = []) := by
  have hpos : 1 ≤ 64 := by omega
  refine ⟨fun j k s q ho hq =>
    lastTargetReal_iff hpos (hids q (List.mem_of_getElem? hq)) ho hq, ?_⟩
  constructor
  · intro hall
    by_contra hne
    obtain ⟨q, rest, rfl⟩ := List.exists_cons_of_ne_nil hne
    have hlong := hlen q List.mem_cons_self
    -- the last sample of the first sequence
    have hmem : (0, q.length - 2) ∈ origins (q :: rest) :=
      mem_origins.mpr ⟨q, rfl, by omega⟩
    obtain ⟨j, hj⟩ := List.mem_iff_getElem?.mp hmem
    obtain ⟨hlt, _⟩ := List.getElem?_eq_some_iff.mp hj
    rw [← len_eq hpos] at hlt
    have hreal := (lastTargetReal_iff hpos (hids q List.mem_cons_self) hj rfl).mp (hall j hlt)
    omega
  · rintro rfl j hj
    exact absurd hj (Nat.not_lt_zero j)

theorem last_target_real_long : LastTargetReal (new [List.replicate 66 1] 64) 0 :=
  ((last_target_real_iff [List.replicate 66 1] (by simp) (by simp)).1 0 0 0 _ rfl rfl).mpr
    (by decide)

/-- The only sample of two ids is scored on the padding. -/
theorem last_target_padding : (new [[1, 2]] 64).samples = [[1, 2]] ∧
    ((new [[1, 2]] 64).getItem 0).bind (fun item => evaluatedTarget item.2) = some 0 ∧
    ¬ LastTargetReal (new [[1, 2]] 64) 0 := by
  refine ⟨rfl, rfl, fun hreal => ?_⟩
  have hlong := (lastTargetReal_iff (k := 0) (s := 0) (q := [1, 2]) (by omega) (by decide)
    rfl rfl).mp hreal
  exact absurd hlong (by decide)

end SyscallDataset

end SyscallMind
