/-
# Training on a generated workload

`train_all.sh` gives the file of `workload_generator` to the trainers as it is, although
`read_windows` rejects it.  The trainers read it, and take from it what they take from its replay
(`workload_trains_as_replay`).

The calls of a generated transaction are never nested and always one interval apart, so two of
the eight features are the same in all rows (`workload_features_constant`).  And no generated
transaction has more than 13 calls, so every sample of the next-call model is padded, and the
last position, the only one at which `evaluate` computes the accuracy, is padding in all of them
(`workload_scored_on_padding`).
-/
import SyscallMind.Bin.WorkloadTimeline
import SyscallMind.Ml.Dataset
import SyscallMind.Ml.FeatureMatrix

namespace SyscallMind

open Lib SyscallIds TraceJson ArrowSerializer ReplayHarness ProgramBaseline WorkloadGenerator

namespace Training

/-! ## The lines of a workload -/

lemma keysSatisfy_object {P : Key → Prop} {members : List (Key × Json)}
    (hkeys : ∀ m ∈ members, P m.1) (hvalues : ∀ m ∈ members, m.2.KeysSatisfy P) :
    (Json.object members).KeysSatisfy P := by
  obtain ⟨members', hperm, heq⟩ := Json.object_perm members
  rw [heq]
  exact .obj (fun m hm => hkeys m (hperm.mem_iff.mp hm)) fun m hm =>
    hvalues m (hperm.mem_iff.mp hm)

lemma noSpace_workloadFields :
    ∀ k ∈ windowFields ++ eventNames, ∀ c ∈ k.chars, isSpaceChar c = false := by
  have hkeys : (windowFields ++ eventNames).all
      (fun k => k.chars.all fun c => isSpaceChar c = false) = true := rfl
  intro k hk c hc
  exact of_decide_eq_true (List.all_eq_true.mp (List.all_eq_true.mp hkeys k hk) c hc)

section Line

variable (txIdx slot ts : UInt64) (d : Draws)

lemma eventFields_eventValue (i : ℕ) (id : SyscallId) :
    EventFields (eventValue txIdx slot ts i id) (madeUpEvent d.txId slot id (eventTs ts i)) where
  object := ⟨_, rfl⟩
  syscallId := (eventValue_workload txIdx slot ts i id).syscallId
  timestampNs := (eventValue_workload txIdx slot ts i id).timestampNs
  depth := Json.index_object_zip (by decide) rfl (i := 4) (by decide) rfl

lemma numbersBelow_eventValue (i : ℕ) (id : SyscallId) :
    (eventValue txIdx slot ts i id).NumbersBelow UInt64.size := by
  refine Json.numbersBelow_object (Json.numbersBelow_of_mem_zip ?_)
  simp only [List.forall_mem_cons, List.not_mem_nil, IsEmpty.forall_iff, implies_true, and_true]
  exact ⟨numbersBelow_u32 _, numbersBelow_u64 _, numbersBelow_u64 _, numbersBelow_u64 _,
    .num (by decide)⟩

lemma keysSatisfy_eventValue (i : ℕ) (id : SyscallId) :
    (eventValue txIdx slot ts i id).KeysSatisfy fun k => ∀ c ∈ k.chars, isSpaceChar c = false := by
  refine keysSatisfy_object (fun m hm => ?_) fun m hm => ?_
  · exact noSpace_workloadFields _ (List.mem_append_right _ (List.of_mem_zip hm).1)
  · have hvalue := (List.of_mem_zip hm).2
    simp only [List.mem_cons, List.not_mem_nil, or_false] at hvalue
    rcases hvalue with h | h | h | h | h <;> rw [h] <;> exact .num _

/-- The trainers see the replayed window in the line of a transaction. -/
lemma readsAs_windowValue :
    ReadsAs (windowValue txIdx slot ts d) (workloadWindow slot ts d) where
  ordinary := by
    refine ⟨⟨_, rfl⟩, ?_, ?_⟩
    · refine Json.nested_object (Json.nested_of_mem_zip ?_)
      simp only [List.forall_mem_cons, List.not_mem_nil, IsEmpty.forall_iff, implies_true,
        and_true]
      refine ⟨nested_bytesToJson _ _, .num _, .arr fun v hv => ?_, .num _, .num _⟩
      obtain ⟨i, hi, rfl⟩ := List.mem_mapIdx.mp hv
      exact nested_eventValue txIdx slot ts 60 i _
    · refine Json.numbersBelow_object (Json.numbersBelow_of_mem_zip ?_)
      simp only [List.forall_mem_cons, List.not_mem_nil, IsEmpty.forall_iff, implies_true,
        and_true]
      refine ⟨numbersBelow_bytesToJson _, numbersBelow_u64 _, .arr fun v hv => ?_,
        numbersBelow_u64 _, numbersBelow_u64 _⟩
      obtain ⟨i, hi, rfl⟩ := List.mem_mapIdx.mp hv
      exact numbersBelow_eventValue txIdx slot ts i _
  keys := by
    refine keysSatisfy_object (fun m hm => ?_) fun m hm => ?_
    · exact noSpace_workloadFields _ (List.mem_append_left _ (List.of_mem_zip hm).1)
    · have hvalue := (List.of_mem_zip hm).2
      simp only [List.mem_cons, List.not_mem_nil, or_false] at hvalue
      rcases hvalue with h | h | h | h | h <;> rw [h]
      · exact keysSatisfy_bytesToJson _
      · exact .num _
      · refine .arr fun v hv => ?_
        obtain ⟨i, hi, rfl⟩ := List.mem_mapIdx.mp hv
        exact keysSatisfy_eventValue txIdx slot ts i _
      · exact .num _
      · exact .num _
  events := by
    refine ⟨_, (windowValue_workload txIdx slot ts d).events, ?_⟩
    have hevents : List.Forall₂ EventFields
        ((generateSyscallSequence (pickProfile d) d).mapIdx (eventValue txIdx slot ts))
        (((generateSyscallSequence (pickProfile d) d).map id).mapIdx
          fun i x => madeUpEvent d.txId slot x (eventTs ts i)) :=
      forall₂_mapIdx (eventFields_eventValue txIdx slot ts d) _
    rwa [List.map_id] at hevents

end Line

/-- The values of the lines. -/
def workloadValues (draws : List Draws) : List Json :=
  draws.mapIdx fun k d => windowValue (UInt64.ofNat k) (slotOf k) (startOf draws k) d

lemma workload_eq_valuesFile {toValueString : Json → Option ByteArray}
    (hToValueString : EmitsText toValueString) {draws : List Draws}
    (hlen : draws.length < 2 ^ 64) :
    workload toValueString draws = valuesFile (workloadValues draws) := by
  have hlines : workloadLines draws = (workloadValues draws).map Json.compact := by
    refine List.ext_getElem? fun k => ?_
    rw [workloadLines, workloadValues, List.getElem?_map, List.getElem?_mapIdx,
      List.getElem?_mapIdx, Option.map_map]
    rfl
  rw [workload_eq hToValueString hlen, hlines, valuesFile, List.flatMap_map]

lemma fileOf_eq_valuesFile (windows : List ExecutionWindow) :
    fileOf windows = valuesFile (windows.map windowToJson) := by
  rw [fileOf, fileText, valuesFile, List.flatMap_map]
  rfl

lemma readsAs_workloadValues (draws : List Draws) :
    List.Forall₂ ReadsAs (workloadValues draws) (workloadWindows draws) := by
  have hvalues := forall₂_mapIdx (R := ReadsAs) (k := id)
    (fun k d => readsAs_windowValue (UInt64.ofNat k) (slotOf k) (startOf draws k) d) draws
  rwa [List.map_id] at hvalues

lemma readsAs_map (windows : List ExecutionWindow) :
    List.Forall₂ ReadsAs (windows.map windowToJson) windows :=
  List.forall₂_map_left_iff.mpr (List.forall₂_same.mpr fun w _ => readsAs_windowToJson w)

/-- The ids of a transaction, as the trainers read them. -/
def idsRead (d : Draws) : List Json :=
  (generateSyscallSequence (pickProfile d) d).map fun id => .num id.toNat

lemma trainingSequence_workloadWindow (slot ts : UInt64) (d : Draws) :
    trainingSequence (workloadWindow slot ts d) = some (idsRead d) := by
  obtain ⟨hmin, -⟩ := callsOf_bounds d
  have hids : ((workloadWindow slot ts d).events.map fun e => Json.num e.syscallId.toNat) =
      idsRead d := by
    refine List.ext_getElem? fun i => ?_
    rw [idsRead, workloadWindow, spanWindow, List.getElem?_map, List.getElem?_mapIdx,
      Option.map_map, List.getElem?_map]
    rfl
  rw [callsOf] at hmin
  simp only [trainingSequence, hids, idsRead, List.length_map]
  exact if_pos (by omega)

lemma filterMap_trainingSequence (draws : List Draws) :
    (workloadWindows draws).filterMap trainingSequence = draws.map idsRead := by
  have hmap := filterMap_mapIdx (g := trainingSequence) (k := fun _ d => idsRead d)
    (fun k d => trainingSequence_workloadWindow (slotOf k) (startOf draws k) d) draws
  rw [workloadWindows, hmap]
  ext k ids
  rw [List.getElem?_mapIdx, List.getElem?_map]

section Results

variable {toValueString : Json → Option ByteArray} {loads : List Char → Except PyError Json}

lemma readers_workload (hToValueString : EmitsText toValueString) (hLoads : LoadsJson loads)
    {draws : List Draws} (hlen : draws.length < 2 ^ 64) :
    loadTraces loads (workload toValueString draws) = .ok (draws.map idsRead) ∧
      featureMatrix loads (workload toValueString draws) =
        .ok ((workloadWindows draws).map extractFeatures) := by
  rw [workload_eq_valuesFile hToValueString hlen, ← filterMap_trainingSequence]
  exact readers_of_readsAs hLoads (readsAs_workloadValues draws)

/-- **The trainers do not need the replay.**  For every number of transactions and all draws,
the trainers read the sequences and the features of a generated workload, one for each
transaction, and they read the same from its replay. -/
theorem workload_trains_as_replay (hToValueString : EmitsText toValueString)
    {toString : ExecutionWindow → Option ByteArray} (hToString : EmitsJson toString)
    {fromStr : List Char → Option Json} (hValue : DecodesValue fromStr)
    (hLoads : LoadsJson loads) (order : IterationOrder TransactionId) (draws : List Draws)
    (hlen : draws.length < 2 ^ 64) :
    let raw := workload toValueString draws
    let replayed := (replay fromStr toString order raw).2
    loadTraces loads raw = .ok (draws.map idsRead) ∧
      featureMatrix loads raw = .ok ((workloadWindows draws).map extractFeatures) ∧
      loadTraces loads replayed = loadTraces loads raw ∧
      featureMatrix loads replayed = featureMatrix loads raw := by
  intro raw replayed
  obtain ⟨htraces, hfeatures⟩ := readers_workload hToValueString hLoads hlen
  have hreplayed : replayed = valuesFile ((workloadWindows draws).map windowToJson) := by
    show (replay fromStr toString order (workload toValueString draws)).2 = _
    rw [replay_workload_eq hToValueString hToString hValue order hlen]
    exact fileOf_eq_valuesFile _
  have hreaders := readers_of_readsAs hLoads (readsAs_map (workloadWindows draws))
  rw [← hreplayed, filterMap_trainingSequence] at hreaders
  exact ⟨htraces, hfeatures, hreaders.1.trans htraces.symm, hreaders.2.trans hfeatures.symm⟩

/-- A token transfer and a mint. -/
theorem workload_trains_as_replay_two :
    let raw := workload (fun j => some j.compact.utf8Encode) [transferDraws, mintDraws]
    loadTraces parseLoads raw = .ok [[.num 1, .num 2, .num 10, .num 30, .num 40],
        [.num 1, .num 10, .num 10, .num 10, .num 10, .num 20, .num 30, .num 40]] ∧
      loadTraces parseLoads (replay (Json.parse recursionLimit)
        (fun w => some (windowText w).utf8Encode) (.stored _) raw).2 =
          loadTraces parseLoads raw := by
  intro raw
  obtain ⟨hraw, -, hreplayed, -⟩ := workload_trains_as_replay (fun _ => rfl) (fun _ => rfl)
    (fun _ _ h => h) loadsJson_parseLoads (.stored _) [transferDraws, mintDraws]
    (by decide)
  exact ⟨hraw, hreplayed⟩

end Results

/-! ## The features of a workload -/

lemma maxDepth_of_forall {events : List SyscallTraceEvent} (h : ∀ e ∈ events, e.depth = 0) :
    maxDepth events = 0 := by
  induction events with
  | nil => rfl
  | cons e events ih =>
    rw [maxDepth, List.foldl_cons, h e (by simp)]
    exact ih fun e' he' => h e' (by simp [he'])

lemma getElem_workloadWindow (slot ts : UInt64) (d : Draws) {i : ℕ}
    (hi : i < (workloadWindow slot ts d).events.length) :
    (workloadWindow slot ts d).events[i].depth = 0 ∧
      (workloadWindow slot ts d).events[i].timestampNs = eventTs ts i := by
  simp only [workloadWindow, spanWindow, List.getElem_mapIdx]
  exact ⟨rfl, rfl⟩

lemma length_workloadWindow (slot ts : UInt64) (d : Draws) :
    (workloadWindow slot ts d).events.length = callsOf d := List.length_mapIdx

/-- All calls of a transaction are one interval apart. -/
lemma distances_workloadWindow {draws : List Draws} (hlen : draws.length ≤ maxTransactions)
    {k : ℕ} (hk : k < draws.length) :
    let events := (workloadWindow (slotOf k) (startOf draws k) draws[k]).events
    events.zipWith distance events.tail = List.replicate (callsOf draws[k] - 1) 400000 := by
  intro events
  have hevents : events.length = callsOf draws[k] := length_workloadWindow _ _ _
  obtain ⟨-, hmax⟩ := callsOf_bounds draws[k]
  refine List.eq_replicate_iff.mpr ⟨?_, fun x hx => ?_⟩
  · rw [List.length_zipWith, List.length_tail, hevents]
    omega
  · obtain ⟨i, hi, rfl⟩ := List.mem_iff_getElem.mp hx
    rw [List.length_zipWith, List.length_tail] at hi
    rw [List.getElem_zipWith, List.getElem_tail, distance,
      (getElem_workloadWindow _ _ _ (by omega : i < events.length)).2,
      (getElem_workloadWindow _ _ _ (by omega : i + 1 < events.length)).2,
      toNat_eventTs hlen (Nat.le_of_lt hk) (by omega),
      toNat_eventTs hlen (Nat.le_of_lt hk) (by omega)]
    generalize startNat draws k = start
    push_cast
    omega

lemma maxDepth_workloadWindow (slot ts : UInt64) (d : Draws) :
    maxDepth (workloadWindow slot ts d).events = 0 := by
  refine maxDepth_of_forall fun e he => ?_
  obtain ⟨i, hi, rfl⟩ := List.mem_iff_getElem.mp he
  exact (getElem_workloadWindow slot ts d hi).1

lemma meanDistanceMs_workloadWindow {draws : List Draws} (hlen : draws.length ≤ maxTransactions)
    {k : ℕ} (hk : k < draws.length) :
    meanDistanceMs (workloadWindow (slotOf k) (startOf draws k) draws[k]).events = (0.4 : ℝ) := by
  obtain ⟨hmin, -⟩ := callsOf_bounds draws[k]
  rw [meanDistanceMs, meanDistance, distances_workloadWindow hlen hk, List.sum_replicate,
    List.length_replicate]
  have hpos : (0 : ℝ) < ((callsOf draws[k] - 1 : ℕ) : ℝ) := by
    exact_mod_cast (by omega : 0 < callsOf draws[k] - 1)
  generalize ((callsOf draws[k] - 1 : ℕ)) = m at hpos ⊢
  rw [smul_eq_mul]
  push_cast
  field_simp
  norm_num

lemma events_workloadWindow_ne_nil (slot ts : UInt64) (d : Draws) :
    (workloadWindow slot ts d).events ≠ [] := by
  obtain ⟨hmin, -⟩ := callsOf_bounds d
  refine List.ne_nil_of_length_pos ?_
  rw [length_workloadWindow]
  omega

/-- **Two features of a generated workload are constant.**  For up to three trillion
transactions and all draws, the matrix of the anomaly trainer has a row of eight numbers for each
transaction, in which the depth is zero and the mean delay is 0.4 milliseconds. -/
theorem workload_features_constant {toValueString : Json → Option ByteArray}
    {loads : List Char → Except PyError Json} (hToValueString : EmitsText toValueString)
    (hLoads : LoadsJson loads) (draws : List Draws) (hlen : draws.length ≤ maxTransactions) :
    ∃ rows, featureMatrix loads (workload toValueString draws) = .ok rows ∧
      rows.length = draws.length ∧
      ∀ row ∈ rows, row.length = 8 ∧ row[1]? = some 0 ∧ row[2]? = some (0.4 : ℝ) := by
  have hbound : draws.length < 2 ^ 64 := Nat.lt_of_le_of_lt hlen (by decide)
  refine ⟨_, (readers_workload hToValueString hLoads hbound).2, ?_, fun row hrow => ?_⟩
  · rw [List.length_map]
    exact List.length_mapIdx
  · obtain ⟨w, hw, rfl⟩ := List.mem_map.mp hrow
    obtain ⟨k, hk, rfl⟩ := List.mem_mapIdx.mp hw
    rw [extractFeatures_eq (events_workloadWindow_ne_nil _ _ _), maxDepth_workloadWindow,
      meanDistanceMs_workloadWindow hlen hk]
    exact ⟨rfl, congrArg some Nat.cast_zero, rfl⟩

/-- A token transfer and a mint. -/
theorem workload_features_constant_two :
    ∃ row row', featureMatrix parseLoads (workload (fun j => some j.compact.utf8Encode)
      [transferDraws, mintDraws]) = .ok [row, row'] ∧
        (row[1]? = some 0 ∧ row[2]? = some (0.4 : ℝ)) ∧
        row'[1]? = some 0 ∧ row'[2]? = some (0.4 : ℝ) := by
  obtain ⟨rows, hrows, hlength, hall⟩ := workload_features_constant
    (fun _ => rfl : EmitsText fun j => some j.compact.utf8Encode) loadsJson_parseLoads
    [transferDraws, mintDraws] (by decide)
  obtain ⟨row, row', rfl⟩ := List.length_eq_two.mp hlength
  exact ⟨row, row', hrows, (hall row (by simp)).2, (hall row' (by simp)).2⟩

/-! ## The samples of a workload -/

def longOf : Json → Option ℤ
  | .num n => some n
  | _ => none

/-- The samples that `train.py` makes of a file; there are none if its reader fails, or if an
id is no number. -/
def trainingDataset (loads : List Char → Except PyError Json) (file : ByteArray) :
    Option SyscallDataset :=
  match loadTraces loads file with
  | .ok sequences =>
      (sequences.mapM fun ids : List Json => ids.mapM longOf).map
        fun qs => SyscallDataset.new qs 64
  | .error _ => none

/-- The sizes of the parts for training and for validation. -/
def splitSizes (d : SyscallDataset) : ℕ × ℕ :=
  let nVal := max 1 (d.len / 10)
  (d.len - nVal, nVal)

def longs (d : Draws) : List ℤ :=
  (generateSyscallSequence (pickProfile d) d).map fun id => (id.toNat : ℤ)

lemma length_longs (d : Draws) : (longs d).length = callsOf d := List.length_map _

/-- All ids are in the vocabulary, and none of them is the padding. -/
lemma mem_longs {d : Draws} {x : ℤ} (hx : x ∈ longs d) : 0 < x ∧ x < 256 := by
  obtain ⟨id, hid, rfl⟩ := List.mem_map.mp hx
  have hcrypto : ∀ i : Fin 3, 0 < cryptoPool[i].toNat ∧ cryptoPool[i].toNat < 256 := by decide
  have hids : 0 < id.toNat ∧ id.toNat < 256 := by
    cases hprofile : pickProfile d with
    | deFi =>
      rw [hprofile, generateSyscallSequence] at hid
      simp only [List.mem_append, List.mem_cons, List.mem_map, List.not_mem_nil,
        or_false] at hid
      rcases hid with ((rfl | rfl) | ⟨i, -, rfl⟩) | rfl | rfl
      · decide
      · decide
      · exact hcrypto i
      · decide
      · decide
    | nft =>
      rw [hprofile, generateSyscallSequence] at hid
      simp only [List.mem_append, List.mem_cons, List.mem_replicate, List.not_mem_nil,
        or_false] at hid
      rcases hid with (rfl | ⟨-, rfl⟩) | rfl | rfl | rfl <;> decide
    | tokenTransfer =>
      rw [hprofile, generateSyscallSequence] at hid
      simp only [List.mem_cons, List.not_mem_nil, or_false] at hid
      rcases hid with rfl | rfl | rfl | rfl | rfl <;> decide
  omega

lemma mapM_longOf (draws : List Draws) :
    ((draws.map idsRead).mapM fun ids : List Json => ids.mapM longOf) = some (draws.map longs) := by
  have hids : ∀ ids : List SyscallId,
      (ids.map fun id => Json.num id.toNat).mapM longOf =
        some (ids.map fun id => (id.toNat : ℤ)) := by
    intro ids
    induction ids with
    | nil => rfl
    | cons id ids ih =>
      rw [List.map_cons, List.mapM_cons, ih]
      rfl
  induction draws with
  | nil => rfl
  | cons d draws ih =>
    rw [List.map_cons, List.mapM_cons, ih, idsRead, hids]
    rfl

/-- A sample for every pair of adjacent calls. -/
lemma len_longs (draws : List Draws) : (SyscallDataset.new (draws.map longs) 64).len =
    (draws.map fun x => callsOf x - 1).sum := by
  rw [SyscallDataset.len_eq (by omega), SyscallDataset.length_origins, List.map_map]
  exact congrArg List.sum (List.map_congr_left fun d _ => by simp [length_longs])

lemma trainingDataset_workload {toValueString : Json → Option ByteArray}
    {loads : List Char → Except PyError Json} (hToValueString : EmitsText toValueString)
    (hLoads : LoadsJson loads) {draws : List Draws} (hlen : draws.length < 2 ^ 64) :
    trainingDataset loads (workload toValueString draws) =
      some (SyscallDataset.new (draws.map longs) 64) := by
  rw [trainingDataset, (readers_workload hToValueString hLoads hlen).1]
  dsimp only
  rw [mapM_longOf]
  rfl

/-- **The next-call model is scored on padding.**  For every number of transactions and all
draws, each sample of a generated workload begins with two ids of the vocabulary, and its target
at the position where the accuracy is computed is the padding. -/
theorem workload_scored_on_padding {toValueString : Json → Option ByteArray}
    {loads : List Char → Except PyError Json} (hToValueString : EmitsText toValueString)
    (hLoads : LoadsJson loads) (draws : List Draws) (hlen : draws.length < 2 ^ 64) :
    ∃ d, trainingDataset loads (workload toValueString draws) = some d ∧
      d.len = (draws.map fun x => callsOf x - 1).sum ∧
      (draws ≠ [] → 0 < (splitSizes d).1 ∧ (splitSizes d).1 + (splitSizes d).2 = d.len) ∧
      ∀ j < d.len, ∃ input target x y, d.getItem j = some (input, target) ∧
        SyscallDataset.firstPair (input, target) = some (x, y) ∧
        (0 < x ∧ x < 256) ∧ (0 < y ∧ y < 256) ∧
        SyscallDataset.evaluatedTarget target = some 0 := by
  have hpos : 1 ≤ 64 := by omega
  have hsize := len_longs draws
  refine ⟨_, trainingDataset_workload hToValueString hLoads hlen, hsize, fun hne => ?_,
    fun j hj => ?_⟩
  · obtain ⟨d, rest, rfl⟩ := List.exists_cons_of_ne_nil hne
    obtain ⟨hmin, -⟩ := callsOf_bounds d
    have hsum : ((d :: rest).map fun x => callsOf x - 1).sum =
        (callsOf d - 1) + (rest.map fun x => callsOf x - 1).sum := List.sum_cons
    rw [hsum] at hsize
    simp only [splitSizes]
    omega
  · obtain ⟨⟨k, s⟩, ho⟩ := SyscallDataset.exists_origin hpos hj
    obtain ⟨q, hq, hs, hsample⟩ := SyscallDataset.sample_of_origin hpos ho
    obtain ⟨d, -, rfl⟩ := List.mem_map.mp (List.mem_of_getElem? hq)
    obtain ⟨-, hmax⟩ := callsOf_bounds d
    rw [← length_longs] at hmax
    have hmem : ∀ i < (longs d).length, 0 < (longs d).getD i 0 ∧ (longs d).getD i 0 < 256 := by
      intro i hi
      exact mem_longs (List.mem_of_getElem? (SyscallDataset.getD_of_lt hi))
    have htarget := SyscallDataset.evaluatedTarget_window hpos (longs d) s
    rw [List.getD_eq_default _ _ (by omega)] at htarget
    exact ⟨_, _, _, _, SyscallDataset.getItem_of_samples hsample,
      SyscallDataset.firstPair_window hpos _ s, hmem s (by omega), hmem (s + 1) hs, htarget⟩

/-- A token transfer of four samples and a mint of seven. -/
theorem workload_scored_on_padding_two :
    ∃ d, trainingDataset parseLoads (workload (fun j => some j.compact.utf8Encode)
      [transferDraws, mintDraws]) = some d ∧ d.len = 11 ∧ 0 < (splitSizes d).1 ∧
        ∀ j < 11, ∃ input target, d.getItem j = some (input, target) ∧
          SyscallDataset.evaluatedTarget target = some 0 := by
  obtain ⟨d, hd, hsize, hsplit, hitems⟩ := workload_scored_on_padding
    (fun _ => rfl : EmitsText fun j => some j.compact.utf8Encode) loadsJson_parseLoads
    [transferDraws, mintDraws] (by decide)
  have hlen : d.len = 11 := hsize
  refine ⟨d, hd, hlen, (hsplit (by simp)).1, fun j hj => ?_⟩
  obtain ⟨input, target, -, -, hitem, -, -, -, htarget⟩ := hitems j (by omega)
  exact ⟨input, target, hitem, htarget⟩

end Training

end SyscallMind
