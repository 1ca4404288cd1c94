/-
# The behavioural baseline of a program

`ProgramBaseline` and `BaselineStore` of `anomaly/src/baseline.rs`, with an exact field in the
place of `f64`.  An update blends the frequencies of the ids that occur in the window into the
stored ones, and the crypto ratio, the delay and the depth likewise; the frequency of an id
that does not occur in the window stays as it is.  The same code with rounding is in
`FloatDetector`.
-/
import Mathlib.Algebra.BigOperators.Field
import Mathlib.Algebra.Order.Field.Basic
import Mathlib.Data.List.Sort
import Mathlib.Tactic.Linarith
import Mathlib.Tactic.Ring
import SyscallMind.Common
import SyscallMind.Lib.HashMap

namespace SyscallMind

open Lib SyscallIds

structure ProgramBaseline (K : Type*) where
  programId : Pubkey
  syscallFrequencies : HashMap SyscallId K
  meanInterCallDelayNs : K
  maxCpiDepth : UInt8
  cryptoRatio : K
  totalObservations : ℕ

def cryptoIds : List SyscallId := [solSha256, solKeccak256, solSecp256k1Recover, solEd25519Verify]

namespace ProgramBaseline

variable {K : Type*} [Field K]

def new (programId : Pubkey) : ProgramBaseline K := ⟨programId, ∅, 0, 0, 0, 0⟩

/-- The learning rate. -/
def alpha : K := 1 / 10

/-- Blend a new value with an existing one. -/
def blend (old new : K) : K := (1 - alpha) * old + alpha * new

/-- The ids of a window. -/
def ids (events : List SyscallTraceEvent) : List SyscallId := events.map (·.syscallId)

def cryptoCount (events : List SyscallTraceEvent) : ℕ :=
  events.countP fun e => decide (e.syscallId ∈ cryptoIds)

def maxDepth (events : List SyscallTraceEvent) : UInt8 :=
  events.foldl (fun m e => if m < e.depth then e.depth else m) 0

/-- The absolute value of the signed difference; the subtraction wraps. -/
def interCallDelay (e e' : SyscallTraceEvent) : ℕ :=
  (e'.timestampNs.toInt64 - e.timestampNs.toInt64).toInt.natAbs

def delays (events : List SyscallTraceEvent) : List ℕ :=
  events.zipWith interCallDelay events.tail

def meanDelay (events : List SyscallTraceEvent) : K :=
  ((delays events).sum : K) / ((delays events).length : K)

variable (b : ProgramBaseline K)

/-- Update the statistics from a window. -/
def update (events : List SyscallTraceEvent) : ProgramBaseline K :=
  if events.isEmpty then b
  else
    let counts := HashMap.countAll (ids events)
    let total := events.length
    let newCryptoRatio : K := if 0 < total then (cryptoCount events : K) / (total : K) else 0
    { b with
      syscallFrequencies := HashMap.mergeWith b.syscallFrequencies
        (fun (count : ℕ) old => blend (old.getD 0) ((count : K) / (total : K))) counts
      meanInterCallDelayNs :=
        if 1 < events.length then blend b.meanInterCallDelayNs (meanDelay events)
        else b.meanInterCallDelayNs
      cryptoRatio := blend b.cryptoRatio newCryptoRatio
      maxCpiDepth := if b.maxCpiDepth < maxDepth events then maxDepth events else b.maxCpiDepth
      totalObservations := b.totalObservations + total }

/-- The eight features: the crypto ratio, the depth, the delay in milliseconds, the number of
ids and the four largest frequencies. -/
def featureVector [LinearOrder K] : List K :=
  let delayNorm := min (b.meanInterCallDelayNs / 1000000) 100
  let depthNorm := (b.maxCpiDepth.toNat : K) / 10
  let diversity := (b.syscallFrequencies.entries.length : K) / 30
  let freqs := (b.syscallFrequencies.entries.map (·.2)).insertionSort (· ≥ ·)
  let freqs := (freqs ++ List.replicate 5 0).take 5
  [b.cryptoRatio, depthNorm, delayNorm, diversity, freqs.getD 0 0, freqs.getD 1 0,
    freqs.getD 2 0, freqs.getD 3 0]

/-- The stored frequency of an id, zero if there is none. -/
def freq (x : SyscallId) : K := (b.syscallFrequencies.lookup x).getD 0

/-- The relative frequency of an id in a window. -/
def relFreq (events : List SyscallTraceEvent) (x : SyscallId) : K :=
  ((ids events).count x : K) / (events.length : K)

lemma relFreq_of_not_mem {events : List SyscallTraceEvent} {x : SyscallId}
    (h : x ∉ ids events) : (relFreq events x : K) = 0 := by
  rw [relFreq, List.count_eq_zero_of_not_mem h]
  simp

section Averages

variable [LinearOrder K] [IsStrictOrderedRing K]

lemma relFreq_pos {events : List SyscallTraceEvent} {x : SyscallId} (h : x ∈ ids events) :
    (0 : K) < relFreq events x := by
  have hlen : 0 < events.length := by
    have := List.length_pos_of_mem h
    rwa [ids, List.length_map] at this
  exact div_pos (Nat.cast_pos.mpr (List.count_pos_iff.mpr h)) (Nat.cast_pos.mpr hlen)

lemma blend_eq (old new : K) : blend old new = 9 / 10 * old + 1 / 10 * new := by
  rw [blend, alpha]
  ring

lemma blend_nonneg {old new : K} (hold : 0 ≤ old) (hnew : 0 ≤ new) : 0 ≤ blend old new := by
  rw [blend_eq]
  linarith

lemma blend_le_one {old new : K} (hold : old ≤ 1) (hnew : new ≤ 1) : blend old new ≤ 1 := by
  rw [blend_eq]
  linarith

/-- A part of the events as a fraction of all of them. -/
lemma fraction_mem {part total : ℕ} (h : part ≤ total) :
    0 ≤ (part : K) / total ∧ (part : K) / total ≤ 1 :=
  ⟨div_nonneg (Nat.cast_nonneg _) (Nat.cast_nonneg _),
    div_le_one_of_le₀ (Nat.cast_le.mpr h) (Nat.cast_nonneg _)⟩

lemma relFreq_mem (events : List SyscallTraceEvent) (x : SyscallId) :
    0 ≤ (relFreq events x : K) ∧ (relFreq events x : K) ≤ 1 := by
  refine fraction_mem ?_
  have hcount := List.count_le_length (a := x) (l := ids events)
  rwa [ids, List.length_map] at hcount

lemma meanDelay_nonneg (events : List SyscallTraceEvent) : (0 : K) ≤ meanDelay events :=
  div_nonneg (Nat.cast_nonneg _) (Nat.cast_nonneg _)

end Averages

/-- The occurrences of the elements of a set. -/
lemma sum_count_eq_countP {α : Type*} [DecidableEq α] (s : Finset α) (l : List α) :
    ∑ x ∈ s, l.count x = l.countP fun a => decide (a ∈ s) := by
  induction l with
  | nil => simp
  | cons a l ih =>
    rw [List.countP_cons, ← ih]
    simp only [List.count_cons, beq_iff_eq, Finset.sum_add_distrib, Finset.sum_ite_eq,
      decide_eq_true_eq]

/-- The relative frequencies of a set of ids. -/
lemma sum_relFreq (events : List SyscallTraceEvent) (s : Finset SyscallId) :
    ∑ x ∈ s, (relFreq events x : K) =
      ((ids events).countP fun x => decide (x ∈ s) : ℕ) / (events.length : K) := by
  simp only [relFreq]
  rw [← Finset.sum_div, ← sum_count_eq_countP, Nat.cast_sum]

/-- The relative frequencies of a window are a distribution on its ids. -/
lemma sum_relFreq_of_subset [CharZero K] {events : List SyscallTraceEvent} (hne : events ≠ [])
    {s : Finset SyscallId} (hs : ∀ x ∈ ids events, x ∈ s) :
    ∑ x ∈ s, (relFreq events x : K) = 1 := by
  have hall : ((ids events).countP fun x => decide (x ∈ s)) = events.length := by
    rw [List.countP_eq_length.mpr fun x hx => decide_eq_true (hs x hx), ids, List.length_map]
  have hlen : (events.length : K) ≠ 0 :=
    Nat.cast_ne_zero.mpr (List.length_pos_iff.mpr hne).ne'
  rw [sum_relFreq, hall, div_self hlen]

/-- An update blends the frequencies of the ids that occur. -/
lemma lookup_update {events : List SyscallTraceEvent} (hne : events ≠ []) (x : SyscallId) :
    (b.update events).syscallFrequencies.lookup x =
      if x ∈ ids events then some (blend (b.freq x) (relFreq events x))
      else b.syscallFrequencies.lookup x := by
  have hempty : events.isEmpty = false := by simpa using hne
  simp only [update, hempty, Bool.false_eq_true, if_false, HashMap.lookup_mergeWith,
    HashMap.lookup_countAll]
  by_cases hx : x ∈ ids events
  · simp only [if_pos hx, freq, relFreq]
  · simp only [if_neg hx]

lemma freq_update {events : List SyscallTraceEvent} (hne : events ≠ []) (x : SyscallId) :
    (b.update events).freq x =
      if x ∈ ids events then blend (b.freq x) (relFreq events x) else b.freq x := by
  rw [freq, lookup_update b hne]
  split <;> rfl

lemma mem_frequencies_update {events : List SyscallTraceEvent} (hne : events ≠ [])
    (x : SyscallId) :
    x ∈ (b.update events).syscallFrequencies ↔
      x ∈ b.syscallFrequencies ∨ x ∈ ids events := by
  rw [← AList.lookup_isSome, ← AList.lookup_isSome, lookup_update b hne]
  by_cases hx : x ∈ ids events
  · simp [hx]
  · simp [hx]

lemma cryptoRatio_update {events : List SyscallTraceEvent} (hne : events ≠ []) :
    (b.update events).cryptoRatio =
      blend b.cryptoRatio ((cryptoCount events : K) / (events.length : K)) := by
  have hempty : events.isEmpty = false := by simpa using hne
  simp only [update, hempty, Bool.false_eq_true, if_false, if_pos (List.length_pos_iff.mpr hne)]

lemma meanInterCallDelayNs_update {events : List SyscallTraceEvent} (hne : events ≠ []) :
    (b.update events).meanInterCallDelayNs =
      if 1 < events.length then blend b.meanInterCallDelayNs (meanDelay events)
      else b.meanInterCallDelayNs := by
  have hempty : events.isEmpty = false := by simpa using hne
  simp only [update, hempty, Bool.false_eq_true, if_false]

lemma update_nil : b.update [] = b := rfl

@[simp] lemma freq_new (programId : Pubkey) (x : SyscallId) :
    (new programId : ProgramBaseline K).freq x = 0 := rfl

end ProgramBaseline

/-- Events with the given ids and nothing else. -/
def makeEvents (ids : List SyscallId) : List SyscallTraceEvent :=
  ids.map fun id => ⟨zeroPubkey, id, 0, 0, 0, zeroTxId, 0⟩

lemma ids_makeEvents (l : List SyscallId) : ProgramBaseline.ids (makeEvents l) = l := by
  rw [ProgramBaseline.ids, makeEvents, List.map_map]
  exact List.map_id l

/-- The baselines of all programs. -/
structure BaselineStore (K : Type*) where
  baselines : HashMap Pubkey (ProgramBaseline K)

namespace BaselineStore

variable {K : Type*} [Field K]

def new : BaselineStore K := ⟨∅⟩

variable (s : BaselineStore K)

def updateProgram (programId : Pubkey) (events : List SyscallTraceEvent) : BaselineStore K :=
  let baseline := (s.baselines.lookup programId).getD (.new programId)
  ⟨s.baselines.insert programId (baseline.update events)⟩

def get (programId : Pubkey) : Option (ProgramBaseline K) := s.baselines.lookup programId

lemma get_updateProgram (p p' : Pubkey) (events : List SyscallTraceEvent) :
    (s.updateProgram p events).get p' =
      if p' = p then some (((s.get p).getD (.new p)).update events) else s.get p' :=
  HashMap.lookup_insert_eq _ _ _ _

end BaselineStore

end SyscallMind
