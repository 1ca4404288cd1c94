/-
# The anomaly detector in `f64`

The code of `anomaly/src` once more, now with its arithmetic as a parameter: a type `F` with
the operators and constants of the source and the few functions that the class `F64` names.
Sums are taken from left to right, every cast is a function of its own, and what is summed over
a hash map is summed in the order in which the map is iterated.  The logarithm is a parameter.

There are two instances.  `Float` is IEEE 754 binary64, rounding included.  Over the real
numbers the order does not matter, and the detector is the one that the other modules are about
(`exact_step`).
-/
import SyscallMind.Anomaly.Detector
import SyscallMind.Lib.FloatNat

namespace SyscallMind

open Lib

/-! ## The arithmetic -/

/-- What the code uses of `f64` besides the operators and the constants. -/
class F64 (F : Type*) where
  /-- The cast of an integer. -/
  protected ofNat : ℕ → F
  protected lt : F → F → Bool
  protected min : F → F → F
  protected max : F → F → F
  protected sqrt : F → F

/-- `f64::min` and `f64::max` return the other argument if one is NaN. -/
def floatMin (x y : Float) : Float := if x.isNaN || y < x then y else x

def floatMax (x y : Float) : Float := if x.isNaN || x < y then y else x

instance : F64 Float where
  ofNat := FloatNat.natFloat
  lt x y := x.lt y
  min := floatMin
  max := floatMax
  sqrt := Float.sqrt

noncomputable instance : F64 ℝ where
  ofNat n := n
  lt x y := decide (x < y)
  min := min
  max := max
  sqrt := Real.sqrt

namespace F64

open ProgramBaseline (ids cryptoCount maxDepth delays)

section Code

variable {F : Type*} [OfScientific F] [Add F] [Sub F] [Mul F] [Div F] [F64 F]

/-! ## The baseline of a program -/

def newBaseline (programId : Pubkey) : ProgramBaseline F := ⟨programId, ∅, 0.0, 0, 0.0, 0⟩

/-- The learning rate. -/
def alpha : F := 0.1

def blend (old new : F) : F := (1.0 - alpha) * old + alpha * new

/-- The sum of an iterator, from left to right.  It starts at `0.0`; newer releases start at
`-0.0`, which no list of the detector shows. -/
def sum (l : List F) : F := l.foldl (· + ·) 0.0

/-- The delays that enter the mean. -/
def castDelays (events : List SyscallTraceEvent) : List F := (delays events).map F64.ofNat

def meanDelay (events : List SyscallTraceEvent) : F :=
  sum (castDelays events) / F64.ofNat (delays events).length

def update (b : ProgramBaseline F) (events : List SyscallTraceEvent) : ProgramBaseline F :=
  if events.isEmpty then b
  else
    let counts := HashMap.countAll (ids events)
    let total := events.length
    let newCryptoRatio : F :=
      if 0 < total then F64.ofNat (cryptoCount events) / F64.ofNat total else 0.0
    { b with
      -- every id is inserted once, so the order in which the counts are iterated does not matter
      syscallFrequencies := HashMap.mergeWith b.syscallFrequencies
        (fun (count : ℕ) old => blend (old.getD 0.0) (F64.ofNat count / F64.ofNat total)) counts
      meanInterCallDelayNs :=
        if 1 < events.length then blend b.meanInterCallDelayNs (meanDelay events)
        else b.meanInterCallDelayNs
      cryptoRatio := blend b.cryptoRatio newCryptoRatio
      maxCpiDepth := if b.maxCpiDepth < maxDepth events then maxDepth events else b.maxCpiDepth
      totalObservations := b.totalObservations + total }

def epsilon : F := 1e-10

/-- The sum over the observed frequencies, in the order of the iteration. -/
def klDivergence (ln : F → F) (order : IterationOrder SyscallId) (b : ProgramBaseline F)
    (observedFreqs : HashMap SyscallId F) : F :=
  (HashMap.entriesIn observedFreqs order).foldl (fun kl e =>
    let p := e.2
    let q := (b.syscallFrequencies.lookup e.1).getD epsilon
    if F64.lt 0.0 p then kl + p * ln (p / F64.max q epsilon) else kl) 0.0

/-- The features, with the frequencies collected in the order of the iteration and sorted.  No
frequency is NaN, so the comparison does not fail. -/
def featureVector (order : IterationOrder SyscallId) (b : ProgramBaseline F) : List F :=
  let delayNorm := F64.min (b.meanInterCallDelayNs / 1000000.0) 100.0
  let depthNorm := F64.ofNat b.maxCpiDepth.toNat / 10.0
  let diversity := F64.ofNat b.syscallFrequencies.entries.length / 30.0
  let freqs := ((HashMap.entriesIn b.syscallFrequencies order).map Prod.snd).insertionSort
    fun x y => F64.lt x y = false
  let freqs := (freqs ++ List.replicate 5 0.0).take 5
  [b.cryptoRatio, depthNorm, delayNorm, diversity, freqs.getD 0 0.0, freqs.getD 1 0.0,
    freqs.getD 2 0.0, freqs.getD 3 0.0]

def isolationScore (order : IterationOrder SyscallId) (b : ProgramBaseline F) : F :=
  let l2 := F64.sqrt (sum ((featureVector order b).map fun x => x * x))
  F64.min (l2 / 3.0) 1.0

def observedFreqs (events : List SyscallTraceEvent) : HashMap SyscallId F :=
  HashMap.mapValues (HashMap.countAll (ids events)) fun count =>
    F64.ofNat count / F64.ofNat events.length

end Code

/-! ## The policy -/

structure AnomalyEvent (F : Type*) where
  programId : Pubkey
  riskScore : F
  klDivergence : F
  isolationScore : F
  timestampNs : UInt64
  actionTaken : AnomalyAction
deriving DecidableEq

structure AnomalyPolicy (F : Type*) where
  action : AnomalyAction
  klThreshold : F
  isolationThreshold : F

/-- The orders in which a call iterates its hash maps: the observed frequencies and those of the
baseline. -/
structure Orders where
  observed : IterationOrder SyscallId
  baseline : IterationOrder SyscallId

def Orders.stored : Orders := ⟨.stored _, .stored _⟩

structure AnomalyDetector (F : Type*) where
  baselineStore : BaselineStore F
  policy : AnomalyPolicy F
  contaminationThreshold : F
  eventsLog : List (AnomalyEvent F)

section Code

variable {F : Type*} [OfScientific F] [Add F] [Sub F] [Mul F] [Div F] [F64 F]

def evaluate (policy : AnomalyPolicy F) (programId : Pubkey) (klDiv isolationScore : F)
    (timestampNs : UInt64) : Option (AnomalyEvent F) :=
  let klTriggered := F64.lt policy.klThreshold klDiv
  let isoTriggered := F64.lt policy.isolationThreshold isolationScore
  if !klTriggered && !isoTriggered then none
  else
    some
      { programId := programId
        riskScore :=
          F64.min (klDiv / (policy.klThreshold + 1.0) * 0.5 + isolationScore * 0.5) 1.0
        klDivergence := klDiv
        isolationScore := isolationScore
        timestampNs := timestampNs
        actionTaken := policy.action }

/-! ## The detector -/

def get (s : BaselineStore F) (programId : Pubkey) : Option (ProgramBaseline F) :=
  s.baselines.lookup programId

def updateProgram (s : BaselineStore F) (programId : Pubkey)
    (events : List SyscallTraceEvent) : BaselineStore F :=
  let baseline := (get s programId).getD (newBaseline programId)
  ⟨s.baselines.insert programId (update baseline events)⟩

namespace AnomalyDetector

def new (policy : AnomalyPolicy F) (contaminationThreshold : F) : AnomalyDetector F :=
  ⟨⟨∅⟩, policy, contaminationThreshold, []⟩

variable (ln : F → F) (d : AnomalyDetector F)

def ingestWindow (programId : Pubkey) (events : List SyscallTraceEvent) : AnomalyDetector F :=
  { d with baselineStore := updateProgram d.baselineStore programId events }

def scoreProgram (orders : Orders) (programId : Pubkey) (events : List SyscallTraceEvent) : F :=
  match get d.baselineStore programId with
  | none => 0.0
  | some baseline =>
      if events.isEmpty then 0.0
      else
        let klDiv := klDivergence ln orders.observed baseline (observedFreqs events)
        let klComponent := F64.min (klDiv / 5.0) 1.0
        let score := 0.6 * klComponent + 0.4 * isolationScore orders.baseline baseline
        F64.min score 1.0

def checkAnomaly (orders : Orders) (programId : Pubkey) (events : List SyscallTraceEvent)
    (timestampNs : UInt64) : Option (AnomalyEvent F) × AnomalyDetector F :=
  match get d.baselineStore programId with
  | none => (none, d)
  | some baseline =>
      if events.isEmpty then (none, d)
      else
        let klDiv := klDivergence ln orders.observed baseline (observedFreqs events)
        let result := evaluate d.policy programId klDiv
          (isolationScore orders.baseline baseline) timestampNs
        (result, { d with eventsLog := d.eventsLog ++ result.toList })

end AnomalyDetector

end Code

/-! ## Over the real numbers -/

lemma zero_real : (0.0 : ℝ) = 0 := by norm_num

lemma one_real : (1.0 : ℝ) = 1 := by norm_num

lemma sum_real (l : List ℝ) : sum l = l.sum := by
  rw [sum, List.sum_eq_foldl, zero_real]

lemma blend_real (old new : ℝ) : blend old new = ProgramBaseline.blend old new := by
  have halpha : (alpha : ℝ) = ProgramBaseline.alpha := by
    rw [alpha, ProgramBaseline.alpha]
    norm_num
  rw [blend, ProgramBaseline.blend, halpha, one_real]

lemma newBaseline_real (programId : Pubkey) :
    (newBaseline programId : ProgramBaseline ℝ) = .new programId := by
  rw [newBaseline, ProgramBaseline.new, zero_real]

lemma meanDelay_real (events : List SyscallTraceEvent) :
    (meanDelay events : ℝ) = ProgramBaseline.meanDelay events := by
  rw [meanDelay, sum_real, castDelays, ProgramBaseline.meanDelay, Nat.cast_list_sum]
  rfl

lemma update_real (b : ProgramBaseline ℝ) (events : List SyscallTraceEvent) :
    update b events = b.update events := by
  simp only [update, ProgramBaseline.update, blend_real, meanDelay_real, zero_real]
  rfl

lemma klDivergence_real (order : IterationOrder SyscallId) (b : ProgramBaseline ℝ)
    (observedFreqs : HashMap SyscallId ℝ) :
    klDivergence Real.log order b observedFreqs = b.klDivergence observedFreqs := by
  have hfold : ∀ (l : List (SyscallId × ℝ)) (kl : ℝ), l.foldl (fun kl e =>
      if F64.lt 0.0 e.2 then kl + e.2 * Real.log (e.2 / F64.max
        ((b.syscallFrequencies.lookup e.1).getD epsilon) epsilon) else kl) kl =
      kl + (l.map fun e => if 0 < e.2 then e.2 * Real.log (e.2 / max
        ((b.syscallFrequencies.lookup e.1).getD ProgramBaseline.epsilon)
        ProgramBaseline.epsilon) else 0).sum := by
    intro l
    induction l with
    | nil => exact fun kl => (add_zero kl).symm
    | cons e l ih =>
      intro kl
      have hlt : F64.lt 0.0 e.2 = decide (0 < e.2) := by
        rw [zero_real]
        rfl
      rw [List.foldl_cons, ih, List.map_cons, List.sum_cons, hlt]
      simp only [decide_eq_true_eq]
      split
      · rw [add_assoc]
        rfl
      · rw [zero_add]
  rw [klDivergence, hfold, zero_real, zero_add, ProgramBaseline.klDivergence]
  refine (((HashMap.perm_entriesIn observedFreqs order).map _).sum_eq).trans ?_
  rw [List.map_map]
  rfl

lemma featureVector_real (order : IterationOrder SyscallId) (b : ProgramBaseline ℝ) :
    featureVector order b = b.featureVector := by
  have hsorted : ((HashMap.entriesIn b.syscallFrequencies order).map Prod.snd).insertionSort
      (fun x y => F64.lt x y = false) =
      (b.syscallFrequencies.entries.map (·.2)).insertionSort (· ≥ ·) := by
    have hperm := (HashMap.perm_entriesIn b.syscallFrequencies order).map Prod.snd
    rw [List.map_map] at hperm
    have hrel := List.map_insertionSort (fun x y : ℝ => F64.lt x y = false) (· ≥ ·) id
      ((HashMap.entriesIn b.syscallFrequencies order).map Prod.snd)
      fun x _ y _ => decide_eq_false_iff_not.trans not_lt
    rw [List.map_id, List.map_id] at hrel
    rw [hrel]
    refine List.Perm.eq_of_pairwise (fun x y _ _ hxy hyx => le_antisymm hyx hxy)
      (List.pairwise_insertionSort _ _) (List.pairwise_insertionSort _ _) ?_
    exact (List.perm_insertionSort _ _).trans (hperm.trans (List.perm_insertionSort _ _).symm)
  have hdelay : F64.min (b.meanInterCallDelayNs / 1000000.0) 100.0 =
      min (b.meanInterCallDelayNs / 1000000) 100 :=
    congrArg₂ min (congrArg _ (by norm_num)) (by norm_num)
  have hten : (10.0 : ℝ) = 10 := by norm_num
  have hthirty : (30.0 : ℝ) = 30 := by norm_num
  rw [featureVector, ProgramBaseline.featureVector, hsorted, hdelay, hten, hthirty, zero_real]
  rfl

lemma isolationScore_real (order : IterationOrder SyscallId) (b : ProgramBaseline ℝ) :
    isolationScore order b = b.isolationScore := by
  have hthree : (3.0 : ℝ) = 3 := by norm_num
  rw [isolationScore, ProgramBaseline.isolationScore, sum_real, featureVector_real, hthree,
    one_real]
  rfl

end F64

end SyscallMind
