/-
# The matrix of features

`extract_features` of `isolation_forest.py` makes a row of eight numbers from each value that
`load_windows` has read.  It works on untyped values: it needs the id of every event, while a
time or a depth that is missing counts as zero.

A line need not be the text of an `ExecutionWindow`.  All that both trainers look at are the
ids, the times and the depths of the events, so every value that has these of a window is
treated like the window (`readers_of_readsAs`).
-/
import SyscallMind.Ml.FeatureVectors
import SyscallMind.Ml.LoadTraces

namespace SyscallMind

open Lib TraceJson ArrowSerializer ReplayHarness ProgramBaseline

namespace Training

/-! ## The trainer -/

def depthKey : Key := ⟨"depth".toList, by decide⟩

/-- What `for e in events` goes through, after the test `if not events`. -/
def itemsOf : Json → Except PyError (List Json)
  | .arr items => .ok items
  | .obj members => if members.isEmpty then .ok [] else .error .type
  | .num n => if n = 0 then .ok [] else .error .type

def numberOf : Json → Except PyError ℕ
  | .num n => .ok n
  | _ => .error .type

/-- `e.get(key, 0)`, which has to be a number. -/
def getNumber (key : Key) : Json → Except PyError ℕ
  | .obj members => numberOf (((Json.obj members).index key).getD (.num 0))
  | _ => .error .attribute

def cryptoNumbers : List ℕ := [20, 21, 22, 23]

/-- The row of a window with at least one event. -/
noncomputable def rowOf (ids timestamps depths : List ℕ) : List ℝ :=
  let total : ℝ := ids.length
  let cryptoRatio := ((ids.countP fun i => decide (i ∈ cryptoNumbers) : ℕ) : ℝ) / total
  let maxCpiDepth : ℝ := (depths.foldl max 0 : ℕ)
  let meanDelay :=
    if 1 < timestamps.length then
      let delays := timestamps.zipWith (fun t t' : ℕ => ((t' : ℤ) - t).natAbs) timestamps.tail
      (delays.sum : ℝ) / (delays.length : ℝ) / (1000000 : ℕ)
    else 0
  let freq := (HashMap.countAll ids).entries.map (·.2)
  let entropy := -((freq.filter fun c => 0 < c).map fun c : ℕ =>
    (c : ℝ) / total * Real.logb (2 : ℕ) ((c : ℝ) / total)).sum
  let logCalls := Real.log (1 + total)
  let sortedFreqs := (freq.map fun c : ℕ => (c : ℝ) / total).insertionSort (· ≥ ·)
  let sortedFreqs := sortedFreqs ++ List.replicate 3 0
  [cryptoRatio, maxCpiDepth, meanDelay, entropy, logCalls, sortedFreqs.getD 0 0,
    sortedFreqs.getD 1 0, sortedFreqs.getD 2 0]

noncomputable def featureRow (window : Json) : Except PyError (List ℝ) := do
  let events ← itemsOf (← getEvents window)
  if events.isEmpty then return List.replicate 8 0
  let ids ← events.mapM fun e => subscriptId e >>= numberOf
  let timestamps ← events.mapM (getNumber timestampNsKey)
  let depths ← events.mapM (getNumber depthKey)
  return rowOf ids timestamps depths

/-- `extract_features(load_windows(path))`. -/
noncomputable def featureMatrix (loads : List Char → Except PyError Json) (file : ByteArray) :
    Except PyError (List (List ℝ)) := do
  (← loadWindows loads file).mapM featureRow

/-! ## Values that are read as windows -/

structure EventFields (ev : Json) (e : SyscallTraceEvent) : Prop where
  object : ∃ members, ev = .obj members
  syscallId : ev.index syscallIdKey = some (.num e.syscallId.toNat)
  timestampNs : ev.index timestampNsKey = some (.num e.timestampNs.toNat)
  depth : ev.index depthKey = some (.num e.depth.toNat)

/-- The trainers see the window in the value. -/
structure ReadsAs (j : Json) (w : ExecutionWindow) : Prop where
  ordinary : Ordinary j
  keys : j.KeysSatisfy fun k => ∀ c ∈ k.chars, isSpaceChar c = false
  events : ∃ evs, j.index eventsKey = some (.arr evs) ∧ List.Forall₂ EventFields evs w.events

lemma EventFields.subscriptId_eq {ev : Json} {e : SyscallTraceEvent} (h : EventFields ev e) :
    subscriptId ev = .ok (.num e.syscallId.toNat) := by
  obtain ⟨members, rfl⟩ := h.object
  rw [subscriptId, h.syscallId]

lemma getNumber_of_index {ev : Json} (hobject : ∃ members, ev = .obj members) {key : Key} {n : ℕ}
    (h : ev.index key = some (.num n)) : getNumber key ev = .ok n := by
  obtain ⟨members, rfl⟩ := hobject
  rw [getNumber, h]
  rfl

/-- A list comprehension over the events. -/
lemma mapM_of_forall₂ {A B C : Type} {R : A → B → Prop} {f : A → Except PyError C} {g : B → C}
    (hR : ∀ a b, R a b → f a = .ok (g b)) {as : List A} {bs : List B}
    (h : List.Forall₂ R as bs) : as.mapM f = .ok (bs.map g) := by
  induction h with
  | nil => rfl
  | cons hab _ ih =>
    rw [List.mapM_cons, hR _ _ hab, ih]
    rfl

lemma ReadsAs.getEvents_eq {j : Json} {w : ExecutionWindow} (h : ReadsAs j w) :
    ∃ evs, getEvents j = .ok (.arr evs) ∧ List.Forall₂ EventFields evs w.events := by
  obtain ⟨members, rfl⟩ := h.ordinary.object
  obtain ⟨evs, hindex, hevents⟩ := h.events
  exact ⟨evs, by rw [getEvents, hindex]; rfl, hevents⟩

lemma ReadsAs.idsOf_eq {j : Json} {w : ExecutionWindow} (h : ReadsAs j w) :
    getEvents j >>= idsOf = .ok (w.events.map fun e => .num e.syscallId.toNat) := by
  obtain ⟨evs, hget, hevents⟩ := h.getEvents_eq
  rw [hget]
  exact mapM_of_forall₂ (fun _ _ he => he.subscriptId_eq) hevents

/-! ## The row of a window -/

lemma mem_cryptoNumbers_iff (id : SyscallId) : id.toNat ∈ cryptoNumbers ↔ id ∈ cryptoIds := by
  have hmap : cryptoNumbers = cryptoIds.map UInt32.toNat := rfl
  rw [hmap]
  exact List.mem_map_of_injective fun a b h => UInt32.toNat_inj.mp h

lemma foldl_max_depth (events : List SyscallTraceEvent) :
    ((events.map fun e => e.depth.toNat).foldl max 0) = (maxDepth events).toNat := by
  have hgen : ∀ m : UInt8, (events.map fun e => e.depth.toNat).foldl max m.toNat =
      (events.foldl (fun m e => if m < e.depth then e.depth else m) m).toNat := by
    induction events with
    | nil => exact fun m => rfl
    | cons e events ih =>
      intro m
      rw [List.map_cons, List.foldl_cons, List.foldl_cons, ← ih]
      congr 1
      split
      · next hlt => exact Nat.max_eq_right (Nat.le_of_lt (UInt8.lt_iff_toNat_lt.mp hlt))
      · next hge =>
        exact Nat.max_eq_left (Nat.le_of_not_lt fun h => hge (UInt8.lt_iff_toNat_lt.mpr h))
  exact hgen 0

lemma insertionSort_eq_of_perm {l l' : List ℝ} (h : l.Perm l') :
    l.insertionSort (· ≥ ·) = l'.insertionSort (· ≥ ·) := by
  have hperm := (List.perm_insertionSort (· ≥ ·) l).trans
    (h.trans (List.perm_insertionSort (· ≥ ·) l').symm)
  exact hperm.eq_of_pairwise' (List.pairwise_insertionSort _ _) (List.pairwise_insertionSort _ _)

/-- The row of the ids, times and depths of a window's events. -/
lemma rowOf_eq (w : ExecutionWindow) (hne : w.events ≠ []) :
    rowOf (w.events.map fun e => e.syscallId.toNat) (w.events.map fun e => e.timestampNs.toNat)
      (w.events.map fun e => e.depth.toNat) = extractFeatures w := by
  have hempty : ¬ w.events.isEmpty = true := by simpa using hne
  have hids : (w.events.map fun e => e.syscallId.toNat) =
      (ids w.events).map UInt32.toNat := by
    rw [ids, List.map_map]
    rfl
  have hcrypto : (w.events.map fun e => e.syscallId.toNat).countP
      (fun i => decide (i ∈ cryptoNumbers)) = cryptoCount w.events := by
    rw [List.countP_map]
    exact List.countP_congr fun e _ => by simp [mem_cryptoNumbers_iff]
  have hdelays : ((w.events.map fun e => e.timestampNs.toNat).zipWith
      (fun t t' : ℕ => ((t' : ℤ) - t).natAbs)
        (w.events.map fun e => e.timestampNs.toNat).tail) =
        w.events.zipWith distance w.events.tail := by
    rw [← List.map_tail, List.zipWith_map]
    rfl
  have hfreq : ((HashMap.countAll (w.events.map fun e => e.syscallId.toNat)).entries.map
      (·.2)).Perm ((HashMap.countAll (ids w.events)).entries.map (·.2)) := by
    rw [hids]
    exact HashMap.perm_entries_countAll_map (fun _ _ h => UInt32.toNat_inj.mp h) _
  have hentropy (g : ℕ → ℝ) :
      ((((HashMap.countAll (w.events.map fun e => e.syscallId.toNat)).entries.map
        (·.2)).filter fun c => 0 < c).map g).sum =
        ((((HashMap.countAll (ids w.events)).entries.map (·.2)).filter
          fun c => 0 < c).map g).sum :=
    ((hfreq.filter _).map g).sum_eq
  have hsort (g : ℕ → ℝ) :
      (((HashMap.countAll (w.events.map fun e => e.syscallId.toNat)).entries.map
        (·.2)).map g).insertionSort (· ≥ ·) =
        (((HashMap.countAll (ids w.events)).entries.map (·.2)).map g).insertionSort (· ≥ ·) :=
    insertionSort_eq_of_perm (hfreq.map g)
  have hlength : (ids w.events).length = w.events.length := List.length_map _
  simp only [rowOf, extractFeatures, if_neg hempty, hcrypto, hdelays, hentropy, hsort,
    foldl_max_depth, List.length_map, hlength]

lemma featureRow_of_readsAs {j : Json} {w : ExecutionWindow} (h : ReadsAs j w) :
    featureRow j = .ok (extractFeatures w) := by
  obtain ⟨evs, hget, hevents⟩ := h.getEvents_eq
  have hrow : featureRow j = if evs.isEmpty then .ok (List.replicate 8 0) else
      evs.mapM (fun e => subscriptId e >>= numberOf) >>= fun ids =>
        evs.mapM (getNumber timestampNsKey) >>= fun timestamps =>
          evs.mapM (getNumber depthKey) >>= fun depths => .ok (rowOf ids timestamps depths) := by
    rw [featureRow, hget]
    rfl
  cases hcase : w.events with
  | nil =>
    rw [hcase] at hevents
    obtain rfl := List.forall₂_nil_right_iff.mp hevents
    rw [hrow, extractFeatures, hcase]
    rfl
  | cons e events =>
    have hne : ¬ evs.isEmpty = true := by
      rw [List.isEmpty_iff_length_eq_zero, hevents.length_eq, hcase]
      simp
    have hids : evs.mapM (fun e => subscriptId e >>= numberOf) =
        .ok (w.events.map fun e => e.syscallId.toNat) :=
      mapM_of_forall₂ (fun ev e he => by rw [he.subscriptId_eq]; rfl) hevents
    have htimestamps : evs.mapM (getNumber timestampNsKey) =
        .ok (w.events.map fun e => e.timestampNs.toNat) :=
      mapM_of_forall₂ (fun ev e he => getNumber_of_index he.object he.timestampNs) hevents
    have hdepths : evs.mapM (getNumber depthKey) =
        .ok (w.events.map fun e => e.depth.toNat) :=
      mapM_of_forall₂ (fun ev e he => getNumber_of_index he.object he.depth) hevents
    rw [hrow, if_neg hne, hids, ← rowOf_eq w (by simp [hcase])]
    show (evs.mapM (getNumber timestampNsKey) >>= _) = _
    rw [htimestamps]
    show (evs.mapM (getNumber depthKey) >>= _) = _
    rw [hdepths]
    rfl

/-! ## Files of such values -/

/-- The file that holds the values. -/
noncomputable def valuesFile (js : List Json) : ByteArray :=
  (js.flatMap fun j => j.compact ++ ['\n']).utf8Encode

section Files

variable {loads : List Char → Except PyError Json}

lemma lines_valuesFile {js : List Json} (h : ∀ j ∈ js, Ordinary j) :
    lines (js.flatMap fun j => j.compact ++ ['\n']) = js.map Json.compact ∧
      '\r' ∉ js.flatMap fun j => j.compact ++ ['\n'] := by
  have hchars : ∀ l ∈ js.map Json.compact, ∀ c ∈ l, 0x20 ≤ c.toNat := by
    intro l hl
    obtain ⟨j, hj, rfl⟩ := List.mem_map.mp hl
    exact Json.le_toNat_of_mem_compact (h j hj).nested
  have hlines := lines_flatMap (fun l hl h => absurd (hchars l hl _ h) (by decide))
    (fun l hl h => absurd (hchars l hl _ h) (by decide)) []
  rw [List.append_nil, lines_nil, List.append_nil, List.flatMap_map] at hlines
  refine ⟨hlines, fun hmem => ?_⟩
  obtain ⟨j, hj, hc⟩ := List.mem_flatMap.mp hmem
  rcases List.mem_append.mp hc with hc | hc
  · exact absurd (hchars _ (List.mem_map_of_mem hj) _ hc) (by decide)
  · exact absurd (List.mem_singleton.mp hc) (by decide)

lemma ReadsAs.line {j : Json} {w : ExecutionWindow} (h : ReadsAs j w) :
    (∀ c ∈ j.compact, isSpaceChar c = false) ∧ j.compact ≠ [] := by
  refine ⟨isSpaceChar_compact h.keys, ?_⟩
  obtain ⟨t, ht⟩ := h.ordinary.starts
  rw [ht]
  exact List.cons_ne_nil _ _

lemma loadTrace_of_readsAs (hLoads : LoadsJson loads) {j : Json} {w : ExecutionWindow}
    (h : ReadsAs j w) (done : List (List Json)) :
    loadTrace loads done j.compact = .ok (done ++ (trainingSequence w).toList) := by
  refine loadTrace_of_read h.line.1 h.line.2 ?_ done
  rw [hLoads.read j h.ordinary]
  exact h.idsOf_eq

lemma foldlM_loadTrace (hLoads : LoadsJson loads) {js : List Json} {ws : List ExecutionWindow}
    (h : List.Forall₂ ReadsAs js ws) (done : List (List Json)) :
    (js.map Json.compact).foldlM (loadTrace loads) done =
      .ok (done ++ ws.filterMap trainingSequence) := by
  induction h generalizing done with
  | nil =>
    rw [List.filterMap_nil, List.append_nil]
    rfl
  | @cons j w js ws hjw _ ih =>
    rw [List.map_cons, List.foldlM_cons, loadTrace_of_readsAs hLoads hjw]
    refine (ih _).trans ?_
    rw [List.filterMap_cons, List.append_assoc]
    cases trainingSequence w <;> rfl

/-- **What the trainers take from a file.**  If the lines of a file are read as windows, the
sequences and the matrix are those of the windows. -/
theorem readers_of_readsAs (hLoads : LoadsJson loads) {js : List Json}
    {ws : List ExecutionWindow} (h : List.Forall₂ ReadsAs js ws) :
    loadTraces loads (valuesFile js) = .ok (ws.filterMap trainingSequence) ∧
      featureMatrix loads (valuesFile js) = .ok (ws.map extractFeatures) := by
  have hreads : ∀ j ∈ js, ∃ w, ReadsAs j w := by
    intro j hj
    obtain ⟨i, hi, rfl⟩ := List.mem_iff_getElem.mp hj
    exact ⟨_, h.get hi (h.length_eq ▸ hi)⟩
  obtain ⟨hlines, hcr⟩ := lines_valuesFile fun j hj => (hreads j hj).elim fun w h => h.ordinary
  have hwindows : loadWindows loads (valuesFile js) = .ok js := by
    have hfold := @foldlM_lines Json Json (loadWindow loads) Json.compact some js
      (fun done j hj => (hreads j hj).elim fun w h =>
        loadWindow_of_read h.line.1 h.line.2 (hLoads.read j h.ordinary) done) []
    rw [loadWindows, valuesFile, forLines_utf8Encode _ _ hcr, hlines, hfold, List.nil_append,
      List.filterMap_some]
  constructor
  · rw [loadTraces, valuesFile, forLines_utf8Encode _ _ hcr, hlines, foldlM_loadTrace hLoads h,
      List.nil_append]
  · rw [featureMatrix, hwindows]
    exact mapM_of_forall₂ (R := ReadsAs) (fun _ _ hjw => featureRow_of_readsAs hjw) h

end Files

/-! ## Traces and generated workloads -/

lemma eventFields_eventToJson (e : SyscallTraceEvent) : EventFields (eventToJson e) e where
  object := ⟨_, rfl⟩
  syscallId := (index_event e).1
  timestampNs := (index_event e).2
  depth := rfl

lemma readsAs_windowToJson (w : ExecutionWindow) : ReadsAs (windowToJson w) w where
  ordinary := ordinary_windowToJson w
  keys := keysSatisfy_windowToJson noSpace_fields w
  events := ⟨_, (index_window w).2.2,
    List.forall₂_map_left_iff.mpr (List.forall₂_same.mpr fun e _ => eventFields_eventToJson e)⟩

end Training

end SyscallMind
