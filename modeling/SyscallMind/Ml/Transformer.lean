/-
# The next-call model and its validation loss

`SyscallTransformer` of `ml/training/transformer/model.py` and the loss that `evaluate` of
`ml/training/transformer/train.py` computes for a batch, in evaluation mode, where the encoder
layers have no dropout.  The layers, the normalisation and the cross entropy are those of a
library; of the layers the code needs that a position attends only where its mask allows.

Because of the causal mask the logits at a position depend on the ids up to it only
(`forward_take`).  A sample is padded behind, and the loss ignores the targets in the padding,
so the loss of a batch of samples is the mean, over the transitions of the samples, of the loss
of the next id given the ids before it and nothing else (`batchLoss_eq`).
-/
import SyscallMind.Lib.Attention
import SyscallMind.Ml.WorkloadTraining

namespace SyscallMind

open Lib Attention TraceJson WorkloadGenerator Training

/-- Decoder-only Transformer for next-syscall prediction. -/
structure SyscallTransformer (H L : Type) where
  tokenEmb : List H
  posEmb : List H
  layers : List (Mask → List H → List H)
  norm : H → H
  head : H → L

namespace SyscallTransformer

variable {H L : Type} [Add H] (m : SyscallTransformer H L)

/-- The row of an embedding table; there is none for a negative index. -/
def embedding (table : List H) (id : ℤ) : Option H :=
  if 0 ≤ id then table[id.toNat]? else none

/-- The sum of the embeddings of an id and of its position. -/
def embedOne (p : ℤ × ℕ) : Option H := do
  let token ← embedding m.tokenEmb p.1
  let position ← m.posEmb[p.2]?
  some (token + position)

/-- The logits, by position; an id or a position without an embedding is an error. -/
def forward (x : List ℤ) : Option (List L) := do
  let h ← x.zipIdx.mapM m.embedOne
  let h := run m.layers causalMask h
  let h := h.map m.norm
  some (h.map m.head)

/-! ## The loss -/

variable {K : Type} [Field K] (crossEntropy : L → ℤ → Option K)

/-- Targets that are zero are ignored; without other targets the mean is nan, which is `none` as
the error for a target that is no class. -/
def criterion (pairs : List (L × ℤ)) : Option K := do
  let kept := pairs.filter fun p => decide (p.2 ≠ 0)
  let losses ← kept.mapM fun p => crossEntropy p.1 p.2
  if losses.isEmpty then none else some (losses.sum / (losses.length : K))

/-- The loss of a batch of inputs and targets. -/
def batchLoss (batch : List (List ℤ × List ℤ)) : Option K := do
  let logits ← batch.mapM fun item => m.forward item.1
  criterion crossEntropy (logits.flatten.zip (batch.flatMap (·.2)))

/-- The transitions of a sample: the ids so far, and the next one. -/
def transitions (ids : List ℤ) : List (List ℤ × ℤ) :=
  (List.range (ids.length - 1)).map fun i => (ids.take (i + 1), ids.getD (i + 1) 0)

/-- The last logits for the ids so far, with the next id as their target. -/
def nextPair (t : List ℤ × ℤ) : Option (L × ℤ) := do
  let logits ← m.forward t.1
  let last ← logits.getLast?
  some (last, t.2)

/-- The loss of the transitions of some samples, each by itself. -/
def transitionLoss (samples : List (List ℤ)) : Option K := do
  let pairs ← (samples.flatMap transitions).mapM m.nextPair
  criterion crossEntropy pairs

/-! ## Positions do not see later ones -/

lemma mapM_eq_some_iff {A B : Type} {f : A → Option B} {as : List A} {bs : List B} :
    as.mapM f = some bs ↔ List.Forall₂ (fun a b => f a = some b) as bs := by
  induction as generalizing bs with
  | nil => simp [eq_comm]
  | cons a as ih =>
    rw [List.mapM_cons, List.forall₂_cons_left_iff]
    constructor
    · intro h
      obtain ⟨b, hb, h⟩ := Option.bind_eq_some_iff.mp h
      obtain ⟨bs', hbs, h⟩ := Option.bind_eq_some_iff.mp h
      exact ⟨b, bs', hb, ih.mp hbs, (Option.some.inj h).symm⟩
    · rintro ⟨b, bs', hb, hbs, rfl⟩
      rw [hb, ih.mpr hbs]
      rfl

lemma exists_of_mapM {A B : Type} {f : A → Option B} {as : List A} {bs : List B}
    (h : as.mapM f = some bs) {a : A} (ha : a ∈ as) : ∃ b ∈ bs, f a = some b := by
  have hforall := mapM_eq_some_iff.mp h
  clear h
  induction hforall with
  | nil => exact absurd ha List.not_mem_nil
  | cons hab _ ih =>
    rcases List.mem_cons.mp ha with rfl | ha
    · exact ⟨_, List.mem_cons_self, hab⟩
    · obtain ⟨b, hb, h⟩ := ih ha
      exact ⟨b, List.mem_cons_of_mem _ hb, h⟩

lemma exists_of_mem_mapM {A B : Type} {f : A → Option B} {as : List A} {bs : List B}
    (h : as.mapM f = some bs) {b : B} (hb : b ∈ bs) : ∃ a ∈ as, f a = some b := by
  have hforall := mapM_eq_some_iff.mp h
  clear h
  induction hforall with
  | nil => exact absurd hb List.not_mem_nil
  | cons hab _ ih =>
    rcases List.mem_cons.mp hb with rfl | hb
    · exact ⟨_, List.mem_cons_self, hab⟩
    · obtain ⟨a, ha, h⟩ := ih hb
      exact ⟨a, List.mem_cons_of_mem _ ha, h⟩

lemma mapM_of_getElem? {A B : Type} {f : A → Option B} {as : List A} {bs : List B}
    (hlen : as.length = bs.length)
    (h : ∀ (i : ℕ) (a : A) (b : B), as[i]? = some a → bs[i]? = some b → f a = some b) :
    as.mapM f = some bs := by
  refine mapM_eq_some_iff.mpr (List.forall₂_iff_get.mpr ⟨hlen, fun i hi hi' => ?_⟩)
  exact h i _ _ (List.getElem?_eq_getElem hi) (List.getElem?_eq_getElem hi')

lemma embedOne_isSome_iff {p : ℤ × ℕ} :
    (m.embedOne p).isSome = true ↔
      (embedding m.tokenEmb p.1).isSome = true ∧ p.2 < m.posEmb.length := by
  rw [embedOne]
  cases htoken : embedding m.tokenEmb p.1 with
  | none => simp
  | some token =>
    cases hposition : m.posEmb[p.2]? with
    | none =>
      rw [List.getElem?_eq_none_iff] at hposition
      simpa using hposition
    | some position =>
      obtain ⟨hlt, -⟩ := List.getElem?_eq_some_iff.mp hposition
      simpa using hlt

lemma forward_eq_some_iff {x : List ℤ} {logits : List L} :
    m.forward x = some logits ↔ ∃ h, x.zipIdx.mapM m.embedOne = some h ∧
      logits = ((run m.layers causalMask h).map m.norm).map m.head := by
  rw [forward]
  constructor
  · intro hforward
    obtain ⟨h, hh, heq⟩ := Option.bind_eq_some_iff.mp hforward
    exact ⟨h, hh, (Option.some.inj heq).symm⟩
  · rintro ⟨h, hh, rfl⟩
    rw [hh]
    rfl

lemma mapM_isSome_iff {A B : Type} {f : A → Option B} {as : List A} :
    (as.mapM f).isSome = true ↔ ∀ a ∈ as, (f a).isSome = true := by
  induction as with
  | nil => simp
  | cons a as ih =>
    rw [List.mapM_cons, List.forall_mem_cons, ← ih]
    cases f a <;> cases as.mapM f <;> simp

/-- The forward pass fails for an id outside of the vocabulary, and for too many ids. -/
lemma forward_isSome_iff {x : List ℤ} :
    (m.forward x).isSome = true ↔
      (∀ id ∈ x, (embedding m.tokenEmb id).isSome = true) ∧ x.length ≤ m.posEmb.length := by
  have hforward : (m.forward x).isSome = (x.zipIdx.mapM m.embedOne).isSome := by
    rw [forward]
    cases x.zipIdx.mapM m.embedOne <;> rfl
  rw [hforward, mapM_isSome_iff]
  simp only [embedOne_isSome_iff]
  constructor
  · intro h
    refine ⟨fun id hid => ?_, ?_⟩
    · obtain ⟨i, hi⟩ := List.mem_iff_getElem?.mp hid
      exact (h (id, i) (List.mk_mem_zipIdx_iff_getElem?.mpr hi)).1
    · by_contra hlt
      have hpos : 0 < x.length := by omega
      have hlast : x[x.length - 1]? = some (x.get ⟨x.length - 1, by omega⟩) :=
        List.getElem?_eq_getElem (by omega)
      have hbound := (h _ (List.mk_mem_zipIdx_iff_getElem?.mpr hlast)).2
      dsimp only at hbound
      omega
  · rintro ⟨hids, hlen⟩ ⟨id, i⟩ hp
    have hi := List.mk_mem_zipIdx_iff_getElem?.mp hp
    obtain ⟨hlt, -⟩ := List.getElem?_eq_some_iff.mp hi
    exact ⟨hids id (List.mem_of_getElem? hi), hlt.trans_le hlen⟩

lemma zipIdx_take (x : List ℤ) (n : ℕ) : (x.take n).zipIdx = x.zipIdx.take n := by
  ext1 i
  rcases lt_or_ge i n with hi | hi
  · rw [List.getElem?_take_of_lt hi, List.getElem?_zipIdx, List.getElem?_zipIdx,
      List.getElem?_take_of_lt hi]
  · rw [List.getElem?_eq_none, List.getElem?_eq_none]
    · exact (List.length_take_le _ _).trans hi
    · rw [List.length_zipIdx]
      exact (List.length_take_le _ _).trans hi

/-- Up to the end of the sample, the input is the sample. -/
lemma take_pair_fst (maxLen : ℕ) {n : ℕ} {ids : List ℤ} (hn : n ≤ maxLen)
    (hids : n ≤ ids.length) : (SyscallDataset.pair maxLen ids).1.take n = ids.take n := by
  ext1 i
  rcases lt_or_ge i n with hi | hi
  · rw [List.getElem?_take_of_lt hi, List.getElem?_take_of_lt hi,
      SyscallDataset.getElem?_pair_fst (hi.trans_le hn),
      SyscallDataset.getD_of_lt (hi.trans_le hids)]
  · rw [List.getElem?_eq_none ((List.length_take_le _ _).trans hi),
      List.getElem?_eq_none ((List.length_take_le _ _).trans hi)]

/-- Behind the sample there are ignored targets only. -/
lemma filter_zip_pair (maxLen : ℕ) (ids : List ℤ) (logits : List L) :
    (logits.zip (SyscallDataset.pair maxLen ids).2).filter (fun p => decide (p.2 ≠ 0)) =
      ((logits.zip (SyscallDataset.pair maxLen ids).2).take (ids.length - 1)).filter
        fun p => decide (p.2 ≠ 0) := by
  have hsplit := List.take_append_drop (ids.length - 1)
    (logits.zip (SyscallDataset.pair maxLen ids).2)
  have hrest : ((logits.zip (SyscallDataset.pair maxLen ids).2).drop (ids.length - 1)).filter
      (fun p => decide (p.2 ≠ 0)) = [] := by
    refine List.filter_eq_nil_iff.mpr fun p hp => ?_
    obtain ⟨i, hi⟩ := List.mem_iff_getElem?.mp hp
    rw [List.getElem?_drop] at hi
    obtain ⟨-, htarget⟩ := List.getElem?_zip_eq_some.mp hi
    obtain ⟨hlt, -⟩ := List.getElem?_eq_some_iff.mp htarget
    rw [(SyscallDataset.length_pair maxLen ids).2] at hlt
    rw [SyscallDataset.getElem?_pair_snd hlt, Option.some.injEq,
      List.getD_eq_default _ _ (by omega)] at htarget
    simp [← htarget]
  conv_lhs => rw [← hsplit, List.filter_append, hrest, List.append_nil]

section Causal

variable {m} (hlayers : ∀ layer ∈ m.layers, AttendsWithin layer)
include hlayers

lemma length_forward {x : List ℤ} {logits : List L} (h : m.forward x = some logits) :
    logits.length = x.length := by
  obtain ⟨hidden, hmap, rfl⟩ := m.forward_eq_some_iff.mp h
  have hlen := (mapM_eq_some_iff.mp hmap).length_eq
  rw [List.length_map, List.length_map, length_run hlayers, ← hlen, List.length_zipIdx]

/-- **The logits at a position depend on the ids up to it only.** -/
theorem forward_take {x : List ℤ} {logits : List L} (h : m.forward x = some logits) (n : ℕ) :
    m.forward (x.take n) = some (logits.take n) := by
  obtain ⟨hidden, hmap, rfl⟩ := m.forward_eq_some_iff.mp h
  refine m.forward_eq_some_iff.mpr ⟨hidden.take n, mapM_eq_some_iff.mpr ?_, ?_⟩
  · rw [zipIdx_take]
    exact List.forall₂_take n (mapM_eq_some_iff.mp hmap)
  · rw [run_take hlayers, List.map_take, List.map_take]

/-! ## The transitions of a sample -/

section Sample

variable {maxLen : ℕ} {ids : List ℤ} (hlong : ids.length ≤ maxLen + 1)
include hlong

lemma nextPair_of_forward {logits : List L}
    (h : m.forward (SyscallDataset.pair maxLen ids).1 = some logits) {i : ℕ}
    (hi : i + 1 < ids.length) :
    m.nextPair (ids.take (i + 1), ids.getD (i + 1) 0) =
      (logits.zip (SyscallDataset.pair maxLen ids).2)[i]? := by
  have hlen := (length_forward hlayers h).trans (SyscallDataset.length_pair maxLen ids).1
  have hprefix := forward_take hlayers h (i + 1)
  rw [take_pair_fst maxLen (by omega) hi.le] at hprefix
  have hlogit : logits[i]? = some (logits.get ⟨i, by omega⟩) := List.getElem?_eq_getElem (by omega)
  have hlast : (logits.take (i + 1)).getLast? = logits[i]? := by
    rw [List.getLast?_take, if_neg (Nat.succ_ne_zero i), Nat.add_sub_cancel, hlogit,
      Option.some_or]
  have hzip : (logits.zip (SyscallDataset.pair maxLen ids).2)[i]? =
      some (logits.get ⟨i, by omega⟩, ids.getD (i + 1) 0) :=
    List.getElem?_zip_eq_some.mpr ⟨hlogit, SyscallDataset.getElem?_pair_snd (by omega) ids⟩
  rw [hzip, nextPair, hprefix]
  dsimp only [Option.bind_eq_bind, Option.bind_some]
  rw [hlast, hlogit]
  rfl

lemma mapM_nextPair_of_some {logits : List L}
    (h : m.forward (SyscallDataset.pair maxLen ids).1 = some logits) :
    (transitions ids).mapM m.nextPair =
      some ((logits.zip (SyscallDataset.pair maxLen ids).2).take (ids.length - 1)) := by
  have hlogits := (length_forward hlayers h).trans (SyscallDataset.length_pair maxLen ids).1
  have htarget := (SyscallDataset.length_pair maxLen ids).2
  refine mapM_of_getElem? ?_ fun i t p ht hp => ?_
  · rw [transitions, List.length_map, List.length_range, List.length_take, List.length_zip]
    omega
  · rw [transitions, List.getElem?_map, Option.map_eq_some_iff] at ht
    obtain ⟨j, hj, rfl⟩ := ht
    obtain ⟨hlt, hj⟩ := List.getElem?_eq_some_iff.mp hj
    rw [List.getElem_range] at hj
    rw [List.length_range] at hlt
    subst hj
    rw [List.getElem?_take_of_lt hlt] at hp
    rw [nextPair_of_forward hlayers hlong h (by omega), hp]

end Sample

/-! ## The loss of a batch -/

/-- The pairs of a batch, and those of its transitions. -/
lemma mapM_samples_of_some {maxLen : ℕ} {samples : List (List ℤ)}
    (hlong : ∀ ids ∈ samples, ids.length ≤ maxLen + 1) {logits : List (List L)}
    (h : (samples.map (SyscallDataset.pair maxLen)).mapM (fun item => m.forward item.1) =
      some logits) :
    ∃ pairs, (samples.flatMap transitions).mapM m.nextPair = some pairs ∧
      (logits.flatten.zip ((samples.map (SyscallDataset.pair maxLen)).flatMap (·.2))).filter
        (fun p => decide (p.2 ≠ 0)) = pairs.filter fun p => decide (p.2 ≠ 0) := by
  induction samples generalizing logits with
  | nil =>
    obtain rfl : logits = [] := by simpa using h.symm
    exact ⟨[], rfl, rfl⟩
  | cons ids samples ih =>
    rw [List.forall_mem_cons] at hlong
    rw [List.map_cons, List.mapM_cons] at h
    obtain ⟨row, hrow, h⟩ := Option.bind_eq_some_iff.mp h
    obtain ⟨rows, hrows, h⟩ := Option.bind_eq_some_iff.mp h
    obtain rfl : row :: rows = logits := Option.some.inj h
    obtain ⟨pairs, hpairs, hfilter⟩ := ih hlong.2 hrows
    have hlength : row.length = (SyscallDataset.pair maxLen ids).2.length := by
      rw [length_forward hlayers hrow, (SyscallDataset.length_pair maxLen ids).1,
        (SyscallDataset.length_pair maxLen ids).2]
    refine ⟨(row.zip (SyscallDataset.pair maxLen ids).2).take (ids.length - 1) ++ pairs, ?_, ?_⟩
    · rw [List.flatMap_cons, List.mapM_append, mapM_nextPair_of_some hlayers hlong.1 hrow, hpairs]
      rfl
    · rw [List.flatten_cons, List.map_cons, List.flatMap_cons, List.zip_append hlength,
        List.filter_append, List.filter_append, hfilter, ← filter_zip_pair]

end Causal

variable {m} {crossEntropy}

lemma criterion_congr {pairs pairs' : List (L × ℤ)}
    (h : pairs.filter (fun p => decide (p.2 ≠ 0)) = pairs'.filter fun p => decide (p.2 ≠ 0)) :
    criterion crossEntropy pairs = criterion crossEntropy pairs' := by
  rw [criterion, h, criterion]

/-- A target that is not ignored is a class. -/
lemma isSome_of_criterion {pairs : List (L × ℤ)}
    (h : (criterion crossEntropy pairs).isSome = true) {p : L × ℤ} (hp : p ∈ pairs)
    (hne : p.2 ≠ 0) : (crossEntropy p.1 p.2).isSome = true := by
  obtain ⟨loss, hloss⟩ := Option.isSome_iff_exists.mp h
  obtain ⟨losses, hlosses, -⟩ := Option.bind_eq_some_iff.mp hloss
  obtain ⟨x, -, hx⟩ := exists_of_mapM hlosses (List.mem_filter.mpr ⟨hp, decide_eq_true hne⟩)
  exact Option.isSome_iff_exists.mpr ⟨x, hx⟩

/-- Where the transitions have a loss, all ids of the samples are in the vocabulary. -/
lemma embedding_of_transitionLoss {samples : List (List ℤ)}
    (hclasses : ∀ l t, (crossEntropy l t).isSome = true →
      (embedding m.tokenEmb t).isSome = true)
    (hpad : (embedding m.tokenEmb 0).isSome = true)
    (h : (m.transitionLoss crossEntropy samples).isSome = true) {ids : List ℤ}
    (hids : ids ∈ samples) (htwo : 2 ≤ ids.length) {i : ℕ} (hi : i < ids.length) :
    (embedding m.tokenEmb (ids.getD i 0)).isSome = true := by
  obtain ⟨loss, hloss⟩ := Option.isSome_iff_exists.mp h
  obtain ⟨pairs, hpairs, hcriterion⟩ := Option.bind_eq_some_iff.mp hloss
  -- the pair of the transition to a position
  have hpair : ∀ k, k + 1 < ids.length → ∃ p ∈ pairs,
      m.nextPair (ids.take (k + 1), ids.getD (k + 1) 0) = some p := by
    intro k hk
    refine exists_of_mapM hpairs (List.mem_flatMap.mpr ⟨ids, hids, ?_⟩)
    exact List.mem_map.mpr ⟨k, List.mem_range.mpr (by omega), rfl⟩
  cases i with
  | zero =>
    obtain ⟨p, -, hp⟩ := hpair 0 htwo
    obtain ⟨logits, hlogits, -⟩ := Option.bind_eq_some_iff.mp hp
    refine (m.forward_isSome_iff.mp (Option.isSome_iff_exists.mpr ⟨logits, hlogits⟩)).1 _
      (List.mem_of_getElem? (i := 0) ?_)
    dsimp only
    rw [List.getElem?_take_of_lt Nat.one_pos, SyscallDataset.getD_of_lt hi]
  | succ k =>
    obtain ⟨p, hmem, hp⟩ := hpair k hi
    obtain ⟨logits, -, hp⟩ := Option.bind_eq_some_iff.mp hp
    obtain ⟨last, -, hp⟩ := Option.bind_eq_some_iff.mp hp
    have htarget : p.2 = ids.getD (k + 1) 0 := by rw [← Option.some.inj hp]
    rw [← htarget]
    by_cases hzero : p.2 = 0
    · rw [hzero]
      exact hpad
    · refine hclasses p.1 p.2 (isSome_of_criterion ?_ hmem hzero)
      exact Option.isSome_iff_exists.mpr ⟨loss, hcriterion⟩

/-- A sample is a piece of a sequence. -/
lemma exists_of_mem_samples {sequences : List (List ℤ)} {maxLen : ℕ} {ids : List ℤ}
    (h : ids ∈ (SyscallDataset.new sequences maxLen).samples) :
    2 ≤ ids.length ∧ ids.length ≤ maxLen + 1 ∧ ∃ seq ∈ sequences, ids ⊆ seq := by
  obtain ⟨seq, hseq, hids⟩ := List.mem_flatMap.mp h
  rw [SyscallDataset.windowsOf] at hids
  split at hids
  · exact absurd hids List.not_mem_nil
  · obtain ⟨start, -, hwindow⟩ := List.mem_filterMap.mp hids
    simp only [SyscallDataset.slice_eq_window] at hwindow
    obtain ⟨htwo, heq⟩ := Option.ite_none_right_eq_some.mp hwindow
    rw [← Option.some.inj heq]
    refine ⟨htwo, List.length_take_le _ _, seq, hseq, ?_⟩
    exact fun x hx => List.mem_of_mem_drop (List.mem_of_mem_take hx)

/-- **The loss of a batch is that of its transitions**, each with the ids before it and nothing
else: no logits of a padded position, and nothing of one sample in the loss of another. -/
theorem batchLoss_eq (hlayers : ∀ layer ∈ m.layers, AttendsWithin layer)
    (hclasses : ∀ l t, (crossEntropy l t).isSome = true →
      (embedding m.tokenEmb t).isSome = true)
    (hpad : (embedding m.tokenEmb 0).isSome = true) {maxLen : ℕ}
    (hpos : maxLen ≤ m.posEmb.length) (sequences : List (List ℤ)) (js : List ℕ) :
    m.batchLoss crossEntropy (js.filterMap (SyscallDataset.new sequences maxLen).getItem) =
      m.transitionLoss crossEntropy
        (js.filterMap fun j => (SyscallDataset.new sequences maxLen).samples[j]?) := by
  have hitems : js.filterMap (SyscallDataset.new sequences maxLen).getItem =
      (js.filterMap fun j => (SyscallDataset.new sequences maxLen).samples[j]?).map
        (SyscallDataset.pair maxLen) := (List.map_filterMap ..).symm
  have hsamples : ∀ ids ∈ js.filterMap fun j => (SyscallDataset.new sequences maxLen).samples[j]?,
      2 ≤ ids.length ∧ ids.length ≤ maxLen + 1 := by
    intro ids hids
    obtain ⟨j, -, hj⟩ := List.mem_filterMap.mp hids
    obtain ⟨htwo, hlong, -⟩ := exists_of_mem_samples (List.mem_of_getElem? hj)
    exact ⟨htwo, hlong⟩
  rw [hitems]
  generalize (js.filterMap fun j => (SyscallDataset.new sequences maxLen).samples[j]?) = samples
    at hsamples
  rw [batchLoss]
  cases hbatch : (samples.map (SyscallDataset.pair maxLen)).mapM fun item => m.forward item.1 with
  | some logits =>
    obtain ⟨pairs, hpairs, hfilter⟩ :=
      mapM_samples_of_some hlayers (fun ids hids => (hsamples ids hids).2) hbatch
    rw [transitionLoss, hpairs]
    exact criterion_congr hfilter
  | none =>
    -- some id of a sample has no embedding, and the transitions have no loss either
    refine (Option.not_isSome_iff_eq_none.mp fun hsome => ?_).symm
    refine absurd hbatch (Option.isSome_iff_ne_none.mp (mapM_isSome_iff.mpr fun item hitem => ?_))
    obtain ⟨ids, hids, rfl⟩ := List.mem_map.mp hitem
    obtain ⟨htwo, -⟩ := hsamples ids hids
    refine m.forward_isSome_iff.mpr ⟨fun id hid => ?_, ?_⟩
    · obtain ⟨i, hi⟩ := List.mem_iff_getElem?.mp hid
      obtain ⟨hlt, -⟩ := List.getElem?_eq_some_iff.mp hi
      rw [(SyscallDataset.length_pair maxLen ids).1] at hlt
      rw [SyscallDataset.getElem?_pair_fst hlt, Option.some.injEq] at hi
      rw [← hi]
      rcases lt_or_ge i ids.length with hin | hout
      · exact embedding_of_transitionLoss hclasses hpad hsome hids htwo hin
      · rw [List.getD_eq_default _ _ hout]
        exact hpad
    · rw [(SyscallDataset.length_pair maxLen ids).1]
      exact hpos

/-! ## A small model -/

/-- One layer with one head, on numbers. -/
noncomputable def scalarModel : SyscallTransformer ℝ (Fin 256 → ℝ) where
  tokenEmb := List.replicate 256 1
  posEmb := List.replicate 64 0
  layers := [softmaxLayer [⟨fun q k => q * k, id⟩] 0 (fun x => max x 0) id id]
  norm := id
  head h := fun t => h * (t.val : ℝ)

/-- The negative logarithm of the softmax at the target. -/
noncomputable def softmaxLoss (l : Fin 256 → ℝ) (t : ℤ) : Option ℝ :=
  if h : 0 ≤ t ∧ t < 256 then
    some (Real.log (∑ c, Real.exp (l c)) - l ⟨t.toNat, by omega⟩)
  else none

lemma attendsWithin_scalarModel : ∀ layer ∈ scalarModel.layers, AttendsWithin layer := by
  intro layer hlayer
  obtain rfl := List.mem_singleton.mp hlayer
  exact attendsWithin_softmaxLayer _ _ _ _ _

lemma softmaxLoss_isSome_iff (l : Fin 256 → ℝ) (t : ℤ) :
    (softmaxLoss l t).isSome = true ↔ 0 ≤ t ∧ t < 256 := by
  rw [softmaxLoss]
  split
  · next h => exact iff_of_true rfl h
  · next h => exact iff_of_false (by simp) h

lemma embedding_scalarModel {id : ℤ} (h : 0 ≤ id ∧ id < 256) :
    (embedding scalarModel.tokenEmb id).isSome = true := by
  have hlength : scalarModel.tokenEmb.length = 256 := List.length_replicate
  rw [embedding, if_pos h.1]
  exact Option.isSome_iff_exists.mpr ⟨_, List.getElem?_eq_getElem (by omega)⟩

/-- The first id of two, alone and with its successor. -/
theorem forward_take_one : ∃ logits, scalarModel.forward [1, 2] = some logits ∧
    scalarModel.forward [1] = some (logits.take 1) := by
  have hlength : scalarModel.posEmb.length = 64 := List.length_replicate
  have hsome : (scalarModel.forward [1, 2]).isSome = true := by
    refine scalarModel.forward_isSome_iff.mpr ⟨?_, by rw [hlength]; decide⟩
    simp only [List.forall_mem_cons, List.not_mem_nil, IsEmpty.forall_iff, implies_true, and_true]
    exact ⟨embedding_scalarModel (by decide), embedding_scalarModel (by decide)⟩
  obtain ⟨logits, hlogits⟩ := Option.isSome_iff_exists.mp hsome
  exact ⟨logits, hlogits, forward_take attendsWithin_scalarModel hlogits 1⟩

/-- A batch of the two samples of three ids. -/
theorem batchLoss_eq_two :
    scalarModel.batchLoss softmaxLoss
        ([0, 1].filterMap (SyscallDataset.new [[1, 2, 1]] 64).getItem) =
      scalarModel.transitionLoss softmaxLoss
        ([0, 1].filterMap fun j => (SyscallDataset.new [[1, 2, 1]] 64).samples[j]?) := by
  have hlength : scalarModel.posEmb.length = 64 := List.length_replicate
  exact batchLoss_eq attendsWithin_scalarModel
    (fun l t ht => embedding_scalarModel ((softmaxLoss_isSome_iff l t).mp ht))
    (embedding_scalarModel (by decide)) hlength.ge [[1, 2, 1]] [0, 1]

/-! ## Generated workloads -/

/-- The id is in the vocabulary, a class of the cross entropy and not the padding. -/
structure Trainable (m : SyscallTransformer H L) (crossEntropy : L → ℤ → Option K) (id : ℤ) :
    Prop where
  ne_zero : id ≠ 0
  embedded : (embedding m.tokenEmb id).isSome = true
  classified : ∀ l, (crossEntropy l id).isSome = true

lemma criterion_isSome {pairs : List (L × ℤ)} (hne : ∃ p ∈ pairs, p.2 ≠ 0)
    (hclasses : ∀ p ∈ pairs, (crossEntropy p.1 p.2).isSome = true) :
    (criterion crossEntropy pairs).isSome = true := by
  have hlosses : ((pairs.filter fun p => decide (p.2 ≠ 0)).mapM
      fun p => crossEntropy p.1 p.2).isSome = true :=
    mapM_isSome_iff.mpr fun p hp => hclasses p (List.mem_of_mem_filter hp)
  obtain ⟨losses, hmap⟩ := Option.isSome_iff_exists.mp hlosses
  obtain ⟨p, hp, hzero⟩ := hne
  obtain ⟨x, hx, -⟩ := exists_of_mapM hmap (List.mem_filter.mpr ⟨hp, decide_eq_true hzero⟩)
  have hempty : losses.isEmpty = false := by
    rw [List.isEmpty_eq_false_iff]
    exact List.ne_nil_of_mem hx
  rw [criterion, hmap]
  dsimp only [Option.bind_eq_bind, Option.bind_some]
  rw [hempty]
  rfl

/-- The pair of a transition is there, and its target is the next id. -/
lemma exists_nextPair (hlayers : ∀ layer ∈ m.layers, AttendsWithin layer) {ids : List ℤ}
    (hids : ∀ id ∈ ids, (embedding m.tokenEmb id).isSome = true)
    (hpos : ids.length ≤ m.posEmb.length + 1) {t : List ℤ × ℤ} (ht : t ∈ transitions ids) :
    ∃ p : L × ℤ, m.nextPair t = some p ∧ p.2 ∈ ids := by
  obtain ⟨i, hi, rfl⟩ := List.mem_map.mp ht
  have hlt := List.mem_range.mp hi
  have hforward : (m.forward (ids.take (i + 1))).isSome = true := by
    refine m.forward_isSome_iff.mpr ⟨fun id hid => hids id (List.mem_of_mem_take hid), ?_⟩
    rw [List.length_take]
    omega
  obtain ⟨logits, hlogits⟩ := Option.isSome_iff_exists.mp hforward
  have hlength := length_forward hlayers hlogits
  rw [List.length_take] at hlength
  have hne : logits ≠ [] := List.ne_nil_of_length_pos (by omega)
  refine ⟨(logits.getLast hne, ids.getD (i + 1) 0), ?_, ?_⟩
  · rw [nextPair, hlogits]
    dsimp only [Option.bind_eq_bind, Option.bind_some]
    rw [List.getLast?_eq_some_getLast hne]
    rfl
  · exact List.mem_of_getElem? (SyscallDataset.getD_of_lt (by omega))

/-- Samples of such ids have a loss. -/
lemma transitionLoss_isSome (hlayers : ∀ layer ∈ m.layers, AttendsWithin layer)
    {samples : List (List ℤ)} (hne : samples ≠ [])
    (hlength : ∀ ids ∈ samples, 2 ≤ ids.length ∧ ids.length ≤ m.posEmb.length + 1)
    (hids : ∀ ids ∈ samples, ∀ id ∈ ids, Trainable m crossEntropy id) :
    (m.transitionLoss crossEntropy samples).isSome = true := by
  have hpair : ∀ t ∈ samples.flatMap transitions, ∃ p : L × ℤ, m.nextPair t = some p ∧
      Trainable m crossEntropy p.2 := by
    intro t ht
    obtain ⟨ids, hmem, ht⟩ := List.mem_flatMap.mp ht
    obtain ⟨p, hp, htarget⟩ := exists_nextPair hlayers
      (fun id hid => (hids ids hmem id hid).embedded) (hlength ids hmem).2 ht
    exact ⟨p, hp, hids ids hmem p.2 htarget⟩
  have hpairs : ((samples.flatMap transitions).mapM m.nextPair).isSome = true :=
    mapM_isSome_iff.mpr fun t ht => by
      obtain ⟨p, hp, -⟩ := hpair t ht
      exact Option.isSome_iff_exists.mpr ⟨p, hp⟩
  obtain ⟨pairs, hmap⟩ := Option.isSome_iff_exists.mp hpairs
  have htrainable : ∀ p ∈ pairs, Trainable m crossEntropy p.2 := by
    intro p hp
    obtain ⟨t, ht, hnext⟩ := exists_of_mem_mapM hmap hp
    obtain ⟨p', hp', htrain⟩ := hpair t ht
    rwa [Option.some.inj (hnext.symm.trans hp')]
  obtain ⟨ids, rest, rfl⟩ := List.exists_cons_of_ne_nil hne
  have hfirst : (ids.take 1, ids.getD 1 0) ∈ (ids :: rest).flatMap transitions := by
    have htwo := (hlength ids List.mem_cons_self).1
    refine List.mem_flatMap.mpr ⟨ids, List.mem_cons_self, List.mem_map.mpr ⟨0, ?_, rfl⟩⟩
    exact List.mem_range.mpr (by omega)
  obtain ⟨p, hp, -⟩ := exists_of_mapM hmap hfirst
  rw [transitionLoss, hmap]
  exact criterion_isSome ⟨p, hp, (htrainable p hp).ne_zero⟩
    fun p hp => (htrainable p hp).classified p.1

/-- **Every batch of a generated workload has a loss**, and it is the one of its transitions. -/
theorem workload_loss {toValueString : Json → Option ByteArray}
    {loads : List Char → Except PyError Json} (hToValueString : EmitsText toValueString)
    (hLoads : LoadsJson loads) (draws : List Draws) (hlen : draws.length < 2 ^ 64)
    (m : SyscallTransformer H L) (hlayers : ∀ layer ∈ m.layers, AttendsWithin layer)
    (htoken : m.tokenEmb.length = 256) (hpos : m.posEmb.length = 64)
    (hclasses : ∀ l t, (crossEntropy l t).isSome = true ↔ 0 ≤ t ∧ t < 256) :
    ∃ d, trainingDataset loads (workload toValueString draws) = some d ∧
      ∀ js : List ℕ, js ≠ [] → (∀ j ∈ js, j < d.len) →
        ∃ loss, m.batchLoss crossEntropy (js.filterMap d.getItem) = some loss ∧
          m.transitionLoss crossEntropy (js.filterMap fun j => d.samples[j]?) = some loss := by
  refine ⟨_, trainingDataset_workload hToValueString hLoads hlen, fun js hne hjs => ?_⟩
  have hembedding : ∀ id : ℤ, 0 ≤ id → id < 256 → (embedding m.tokenEmb id).isSome = true := by
    intro id hnonneg hlt
    rw [embedding, if_pos hnonneg]
    exact Option.isSome_iff_exists.mpr ⟨_, List.getElem?_eq_getElem (by omega)⟩
  have hsamples : ∀ ids ∈ js.filterMap
      fun j => (SyscallDataset.new (draws.map longs) 64).samples[j]?,
        ids ∈ (SyscallDataset.new (draws.map longs) 64).samples := by
    intro ids hids
    obtain ⟨j, -, hj⟩ := List.mem_filterMap.mp hids
    exact List.mem_of_getElem? hj
  have hsome : (m.transitionLoss crossEntropy (js.filterMap
      fun j => (SyscallDataset.new (draws.map longs) 64).samples[j]?)).isSome = true := by
    refine transitionLoss_isSome hlayers ?_ (fun ids hids => ?_) fun ids hids id hid => ?_
    · obtain ⟨j, rest, rfl⟩ := List.exists_cons_of_ne_nil hne
      have hj := hjs j List.mem_cons_self
      rw [List.filterMap_cons_some (List.getElem?_eq_getElem hj)]
      exact List.cons_ne_nil _ _
    · obtain ⟨htwo, hlong, -⟩ := exists_of_mem_samples (hsamples ids hids)
      exact ⟨htwo, by omega⟩
    · obtain ⟨-, -, seq, hseq, hsub⟩ := exists_of_mem_samples (hsamples ids hids)
      obtain ⟨d, -, rfl⟩ := List.mem_map.mp hseq
      obtain ⟨hpositive, hlt⟩ := mem_longs (hsub hid)
      exact ⟨by omega, hembedding id (by omega) hlt,
        fun l => (hclasses l id).mpr ⟨by omega, hlt⟩⟩
  obtain ⟨loss, hloss⟩ := Option.isSome_iff_exists.mp hsome
  have heq := batchLoss_eq hlayers (fun l t ht => hembedding t ((hclasses l t).mp ht).1
    ((hclasses l t).mp ht).2) (hembedding 0 (by omega) (by omega)) hpos.ge (draws.map longs) js
  exact ⟨loss, heq.trans hloss, hloss⟩

/-- A batch with a sample of a token transfer and one of a mint. -/
theorem workload_loss_two : ∃ d,
    trainingDataset parseLoads
        (workload (fun j => some j.compact.utf8Encode) [transferDraws, mintDraws]) = some d ∧
      ∃ loss, scalarModel.batchLoss softmaxLoss ([0, 7].filterMap d.getItem) = some loss := by
  have hemits : EmitsText fun j => some j.compact.utf8Encode := fun _ => rfl
  obtain ⟨d, hd, hall⟩ := workload_loss hemits loadsJson_parseLoads [transferDraws, mintDraws]
    (by decide) scalarModel attendsWithin_scalarModel List.length_replicate List.length_replicate
    softmaxLoss_isSome_iff
  have hd' : _ = some (SyscallDataset.new ([transferDraws, mintDraws].map longs) 64) :=
    trainingDataset_workload hemits loadsJson_parseLoads (by decide)
  have hlen : d.len = 11 := by
    rw [Option.some.inj (hd.symm.trans hd'), len_longs]
    decide
  obtain ⟨loss, hloss, -⟩ := hall [0, 7] (by simp) (by simp [hlen])
  exact ⟨d, hd, loss, hloss⟩

end SyscallTransformer

end SyscallMind
