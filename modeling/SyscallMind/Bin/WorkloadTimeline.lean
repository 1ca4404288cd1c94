/-
# The timeline of a generated workload

`workload_generator` counts its own clock up: each call takes one interval, and between two
transactions there is a gap.  The clock has 64 bits and starts at the nanosecond
`1700000000000000000`, so it does not wrap around before three trillion transactions
(`toNat_eventTs`).

Up to there the events of the whole trace are in the order of their times, no two at the same
one, the spans of the windows are disjoint, and at most 432 transactions in a row share a slot
(`workload_timeline`).
-/
import SyscallMind.Bin.ReplaySources

namespace SyscallMind

open Lib ArrowSerializer ReplayHarness

namespace WorkloadGenerator

/-- The most transactions for which the clock certainly does not wrap around. -/
def maxTransactions : ℕ := 3000000000000

/-- The number of calls of a transaction. -/
def callsOf (d : Draws) : ℕ := (generateSyscallSequence (pickProfile d) d).length

/-- The first time of the clock. -/
def firstTs : ℕ := 1700000000000000000

/-- The time of the first call of the transaction `k`, on a clock that does not wrap around. -/
def startNat (draws : List Draws) (k : ℕ) : ℕ :=
  firstTs + ((draws.take k).map fun d => callsOf d * 400000 + 50000).sum

/-! ## The clock -/

lemma callsOf_bounds (d : Draws) : 5 ≤ callsOf d ∧ callsOf d ≤ 13 := length_syscallSequence _ d

lemma toNat_interval_mul {n : ℕ} (hn : n ≤ 13) :
    (UInt64.ofNat n * interval).toNat = n * 400000 := by
  have hsize : n < UInt64.size := Nat.lt_of_le_of_lt hn (by decide)
  rw [UInt64.toNat_mul, UInt64.toNat_ofNat_of_lt' hsize]
  show n * 400000 % 2 ^ 64 = _
  exact Nat.mod_eq_of_lt (by omega)

lemma toNat_gap (d : Draws) : (gap d).toNat = callsOf d * 400000 + 50000 := by
  obtain ⟨-, hmax⟩ := callsOf_bounds d
  rw [gap, UInt64.toNat_add, ← callsOf, toNat_interval_mul hmax]
  show (callsOf d * 400000 + 50000) % 2 ^ 64 = _
  exact Nat.mod_eq_of_lt (by omega)

lemma startNat_succ {draws : List Draws} {k : ℕ} {d : Draws} (hd : draws[k]? = some d) :
    startNat draws (k + 1) = startNat draws k + (callsOf d * 400000 + 50000) := by
  rw [startNat, startNat, List.take_add_one, hd, Option.toList_some, List.map_append,
    List.sum_append, List.map_singleton, List.sum_singleton, Nat.add_assoc]

lemma startNat_le (draws : List Draws) {k : ℕ} (hk : k ≤ draws.length) :
    startNat draws k ≤ firstTs + k * 5250000 := by
  induction k with
  | zero => simp [startNat]
  | succ k ih =>
    have hget := List.getElem?_eq_getElem hk
    obtain ⟨-, hmax⟩ := callsOf_bounds draws[k]
    have hprev := ih (by omega)
    rw [startNat_succ hget]
    omega

/-- A transaction has ended when a later one starts. -/
lemma startNat_add_le {draws : List Draws} {k k' : ℕ} (hlt : k < k') (hk' : k' < draws.length)
    {d : Draws} (hd : draws[k]? = some d) :
    startNat draws k + callsOf d * 400000 < startNat draws k' := by
  induction k', hlt using Nat.le_induction with
  | base =>
    show _ < startNat draws (k + 1)
    rw [startNat_succ hd]
    omega
  | succ k' hle ih =>
    have hprev := ih (by omega)
    rw [startNat_succ (List.getElem?_eq_getElem (by omega : k' < draws.length))]
    omega

section Clock

variable {draws : List Draws} (hlen : draws.length ≤ maxTransactions)
include hlen

lemma startNat_lt {k : ℕ} (hk : k ≤ draws.length) : startNat draws k < 17500000000000000000 := by
  have hle := startNat_le draws hk
  rw [firstTs] at hle
  rw [maxTransactions] at hlen
  omega

lemma toNat_startOf {k : ℕ} (hk : k ≤ draws.length) :
    (startOf draws k).toNat = startNat draws k := by
  induction k with
  | zero => rfl
  | succ k ih =>
    have hget := List.getElem?_eq_getElem hk
    have hlt := startNat_lt hlen hk
    rw [startNat_succ hget] at hlt ⊢
    rw [startOf_succ hget, UInt64.toNat_add, ih (by omega), toNat_gap]
    exact Nat.mod_eq_of_lt (by omega)

/-- The time of the call `i` of the transaction `k`. -/
lemma toNat_eventTs {k i : ℕ} (hk : k ≤ draws.length) (hi : i ≤ 13) :
    (eventTs (startOf draws k) i).toNat = startNat draws k + i * 400000 := by
  have hlt := startNat_lt hlen hk
  rw [eventTs, UInt64.toNat_add, toNat_interval_mul hi, toNat_startOf hlen hk]
  exact Nat.mod_eq_of_lt (by omega)

end Clock

/-! ## The slots -/

lemma toNat_slotOf {k : ℕ} (hk : k ≤ maxTransactions) :
    (slotOf k).toNat = 280000000 + (k + 431) / 432 := by
  rw [maxTransactions] at hk
  have hsize : (k + 431) / 432 < UInt64.size := by
    show _ < 18446744073709551616
    omega
  rw [slotOf, UInt64.toNat_add, UInt64.toNat_ofNat_of_lt' hsize]
  show (280000000 + (k + 431) / 432) % 2 ^ 64 = _
  exact Nat.mod_eq_of_lt (by omega)

/-! ## The windows -/

/-- What is read of the replayed workload. -/
def workloadWindows (draws : List Draws) : List ExecutionWindow :=
  draws.mapIdx fun k d => workloadWindow (slotOf k) (startOf draws k) d

lemma slot_workloadWindow (slot ts : UInt64) (d : Draws) :
    (workloadWindow slot ts d).slot = slot := rfl

/-- The times of the calls of a window. -/
lemma timestamps_workloadWindow (slot ts : UInt64) (d : Draws) :
    (workloadWindow slot ts d).events.map (·.timestampNs) =
      (List.range (callsOf d)).map (eventTs ts) := by
  refine List.ext_getElem? fun i => ?_
  rw [workloadWindow, spanWindow, List.getElem?_map, List.getElem?_mapIdx, Option.map_map,
    List.getElem?_map]
  rcases Nat.lt_or_ge i (callsOf d) with hi | hi
  · rw [List.getElem?_eq_getElem hi, List.getElem?_range hi]
    rfl
  · rw [List.getElem?_eq_none hi, List.getElem?_eq_none (by simpa using hi)]
    rfl

section Timeline

variable {draws : List Draws} (hlen : draws.length ≤ maxTransactions)
include hlen

/-- The times of a transaction's calls. -/
lemma mem_timestamps {k : ℕ} (hk : k < draws.length) {t : UInt64}
    (ht : t ∈ (workloadWindow (slotOf k) (startOf draws k) draws[k]).events.map (·.timestampNs)) :
    startNat draws k ≤ t.toNat ∧ t.toNat < startNat draws k + callsOf draws[k] * 400000 := by
  obtain ⟨-, hmax⟩ := callsOf_bounds draws[k]
  rw [timestamps_workloadWindow] at ht
  obtain ⟨i, hi, rfl⟩ := List.mem_map.mp ht
  have hi := List.mem_range.mp hi
  rw [toNat_eventTs hlen (Nat.le_of_lt hk) (by omega)]
  omega

lemma pairwise_timestamps {k : ℕ} (hk : k < draws.length) :
    ((workloadWindow (slotOf k) (startOf draws k) draws[k]).events.map
      (·.timestampNs)).Pairwise (· < ·) := by
  obtain ⟨-, hmax⟩ := callsOf_bounds draws[k]
  rw [timestamps_workloadWindow, List.pairwise_map]
  refine List.pairwise_lt_range.imp_of_mem fun {i j} hi hj hij => ?_
  have hi := List.mem_range.mp hi
  have hj := List.mem_range.mp hj
  rw [UInt64.lt_iff_toNat_lt, toNat_eventTs hlen (Nat.le_of_lt hk) (by omega),
    toNat_eventTs hlen (Nat.le_of_lt hk) (by omega)]
  omega

/-- The span of a window. -/
lemma toNat_span {k : ℕ} (hk : k < draws.length) :
    let w := workloadWindow (slotOf k) (startOf draws k) draws[k]
    w.startTs.toNat = startNat draws k ∧
      w.endTs.toNat = startNat draws k + (callsOf draws[k] - 1) * 400000 := by
  obtain ⟨-, hmax⟩ := callsOf_bounds draws[k]
  have hstart := toNat_eventTs hlen (Nat.le_of_lt hk) (Nat.zero_le 13)
  have hstop := toNat_eventTs hlen (Nat.le_of_lt hk) (by omega : callsOf draws[k] - 1 ≤ 13)
  rw [Nat.zero_mul, Nat.add_zero] at hstart
  exact ⟨hstart, hstop⟩

lemma pairwise_workloadWindows :
    (workloadWindows draws).Pairwise fun w w' => w.endTs < w'.startTs ∧ w.slot ≤ w'.slot ∧
      ∀ t ∈ w.events.map (·.timestampNs), ∀ t' ∈ w'.events.map (·.timestampNs), t < t' := by
  rw [List.pairwise_iff_getElem]
  intro i j hi hj hij
  rw [workloadWindows, List.length_mapIdx] at hi hj
  simp only [workloadWindows, List.getElem_mapIdx]
  have hapart := startNat_add_le hij hj (List.getElem?_eq_getElem hi)
  refine ⟨?_, ?_, fun t ht t' ht' => ?_⟩
  · rw [UInt64.lt_iff_toNat_lt, (toNat_span hlen hi).2, (toNat_span hlen hj).1]
    refine Nat.lt_of_le_of_lt (Nat.add_le_add_left ?_ _) hapart
    exact Nat.mul_le_mul_right _ (Nat.sub_le _ _)
  · rw [slot_workloadWindow, slot_workloadWindow, UInt64.le_iff_toNat_le,
      toNat_slotOf (by omega), toNat_slotOf (by omega)]
    have hdiv : (i + 431) / 432 ≤ (j + 431) / 432 := Nat.div_le_div_right (by omega)
    exact Nat.add_le_add_left hdiv _
  · have hi' := (mem_timestamps hlen hi ht).2
    have hj' := (mem_timestamps hlen hj ht').1
    rw [UInt64.lt_iff_toNat_lt]
    exact Nat.lt_of_lt_of_le hi' (Nat.le_trans (Nat.le_of_lt hapart) hj')

lemma pairwise_all_timestamps :
    (((workloadWindows draws).flatMap (·.events)).map (·.timestampNs)).Pairwise (· < ·) := by
  rw [List.map_flatMap, List.pairwise_flatMap]
  refine ⟨fun w hw => ?_, (pairwise_workloadWindows hlen).imp fun h => h.2.2⟩
  obtain ⟨i, hi, rfl⟩ := List.mem_mapIdx.mp hw
  exact pairwise_timestamps hlen hi

/-- Windows that share a slot are close to each other. -/
lemma lt_of_slot_eq {k k' : ℕ} {w w' : ExecutionWindow}
    (hw : (workloadWindows draws)[k]? = some w) (hw' : (workloadWindows draws)[k']? = some w')
    (hslot : w.slot = w'.slot) : k' < k + 432 := by
  obtain ⟨hk, rfl⟩ := List.getElem?_eq_some_iff.mp hw
  obtain ⟨hk', rfl⟩ := List.getElem?_eq_some_iff.mp hw'
  rw [workloadWindows, List.length_mapIdx] at hk hk'
  simp only [workloadWindows, List.getElem_mapIdx] at hslot
  rw [slot_workloadWindow, slot_workloadWindow] at hslot
  have heq := congrArg UInt64.toNat hslot
  rw [toNat_slotOf (by omega), toNat_slotOf (by omega)] at heq
  omega

end Timeline

/-- **The timeline of a generated workload.**  For up to three trillion transactions and all
draws, the windows of the replayed workload are in the order of their times: no two events have
the same time, a window ends before the next one starts, the slots never decrease, and at most
432 windows in a row share one. -/
theorem workload_timeline {toValueString : Json → Option ByteArray}
    (hToValueString : EmitsText toValueString) {toString : ExecutionWindow → Option ByteArray}
    (hToString : EmitsJson toString) {fromStr : List Char → Option Json}
    (hValue : DecodesValue fromStr) {fromStrWindow : List Char → Option ExecutionWindow}
    (hWindow : DecodesJson fromStrWindow) (order : IterationOrder TransactionId)
    (draws : List Draws) (hlen : draws.length ≤ maxTransactions) :
    ∃ windows, readWindows fromStrWindow
        (replay fromStr toString order (workload toValueString draws)).2 = some windows ∧
      windows.length = draws.length ∧
      ((windows.flatMap (·.events)).map (·.timestampNs)).Pairwise (· < ·) ∧
      windows.Pairwise (fun w w' => w.endTs < w'.startTs ∧ w.slot ≤ w'.slot) ∧
      ∀ k k' w w', windows[k]? = some w → windows[k']? = some w' → w.slot = w'.slot →
        k' < k + 432 := by
  have hbound : draws.length < 2 ^ 64 := Nat.lt_of_le_of_lt hlen (by decide)
  refine ⟨workloadWindows draws, ?_, List.length_mapIdx, pairwise_all_timestamps hlen,
    (pairwise_workloadWindows hlen).imp fun h => ⟨h.1, h.2.1⟩, fun k k' w w' hw hw' hslot =>
      lt_of_slot_eq hlen hw hw' hslot⟩
  rw [replay_workload_eq hToValueString hToString hValue order hbound]
  exact readWindows_fileOf hWindow _

/-- Two token transfers. -/
theorem workload_timeline_transfers :
    let toValueString := fun j : Json => some j.compact.utf8Encode
    let toString := fun w => some (windowText w).utf8Encode
    let fromStr := Json.parse recursionLimit
    let fromStrWindow := fun s => (Json.parse recursionLimit s).bind TraceJson.windowOfJson
    ∃ windows, readWindows fromStrWindow (replay fromStr toString (.stored _)
        (workload toValueString [transferDraws, transferDraws])).2 = some windows ∧
      windows.length = 2 ∧
      ((windows.flatMap (·.events)).map (·.timestampNs)).Pairwise (· < ·) := by
  intro toValueString toString fromStr fromStrWindow
  obtain ⟨windows, hread, hlength, htimes, -⟩ := workload_timeline (fun _ => rfl) (fun _ => rfl)
    (fun _ _ h => h) decodesJson_parse (.stored _) [transferDraws, transferDraws] (by decide)
  exact ⟨windows, hread, hlength, htimes⟩

end WorkloadGenerator

end SyscallMind
