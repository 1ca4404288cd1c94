/-
# What the detector detects, and what it gets used to

Over whole runs of a detector, with windows of any programs ingested and checked in any order.

A call that the program has not shown before has no stored frequency, and the floor makes it
count with `log (10 ^ 10)`: a check with enough of them is flagged whatever the history
(`novelty_detected`).  In the other direction, `ingest_window` does not ask whether the window
was flagged.  After it, and as long as not too many windows with the same ids have followed, no
part of the window is flagged for its divergence, whatever came before
(`recent_not_flagged_by_divergence`).

The depth and the number of ids of a baseline never decrease.  So the alarm that they raise
through the isolation score stays on (`alarm_never_clears`).
-/
import SyscallMind.Anomaly.OutlierWindow
import SyscallMind.Anomaly.ProgramIsolation

namespace SyscallMind

open Lib

def AnomalyEvent.isHighRisk (event : AnomalyEvent) : Prop := 0.8 < event.riskScore

namespace AnomalyDetector

open ProgramBaseline

/-! ## The baseline after a run -/

/-- The window that an operation adds to the baseline of the program. -/
def Op.ingestedBy (p : Pubkey) : Op → Option (List SyscallTraceEvent)
  | .ingestWindow programId events => if programId = p then some events else none
  | .scoreProgram _ _ => none
  | .checkAnomaly _ _ => none

/-- The windows of the program that the run ingests. -/
def ingested (p : Pubkey) (run : List Action) : List (List SyscallTraceEvent) :=
  run.filterMap fun a => a.1.ingestedBy p

variable (policy : AnomalyPolicy) (contaminationThreshold : ℝ) {p : Pubkey}

lemma ingested_append (run run' : List Action) :
    ingested p (run ++ run') = ingested p run ++ ingested p run' := List.filterMap_append

lemma afterActions_concat (d : AnomalyDetector) (run : List Action) (a : Action) :
    d.afterActions (run ++ [a]) = ((d.afterActions run).step a).2 :=
  Run.after_append _ _ run [a]

/-- A step changes the baseline of the program by the window that it ingests. -/
lemma get_step (d : AnomalyDetector) (a : Action) :
    (d.step a).2.baselineStore.get p =
      (a.1.ingestedBy p).elim (d.baselineStore.get p) fun events =>
        some (((d.baselineStore.get p).getD (.new p)).update events) := by
  obtain ⟨op, now⟩ := a
  cases op with
  | ingestWindow q events =>
    by_cases hq : q = p
    · subst hq
      simp only [Op.ingestedBy, if_pos, Option.elim_some]
      exact (BaselineStore.get_updateProgram _ _ _ _).trans (if_pos rfl)
    · simp only [Op.ingestedBy, if_neg hq]
      exact (BaselineStore.get_updateProgram _ _ _ _).trans (if_neg (Ne.symm hq))
  | scoreProgram q events => rfl
  | checkAnomaly q events =>
    simp only [step, checkAnomaly_snd]
    rfl

lemma policy_step (d : AnomalyDetector) (a : Action) : (d.step a).2.policy = d.policy := by
  obtain ⟨op, now⟩ := a
  cases op with
  | ingestWindow q events => rfl
  | scoreProgram q events => rfl
  | checkAnomaly q events => simp only [step, checkAnomaly_snd]

lemma policy_afterActions (run : List Action) :
    ((new policy contaminationThreshold).afterActions run).policy = policy :=
  Run.invariant (P := fun d => d.policy = policy)
    (fun d a hd => (policy_step d a).trans hd) rfl run

/-- The baseline of a program is the one of its ingested windows. -/
lemma get_afterActions (run : List Action) :
    ((new policy contaminationThreshold).afterActions run).baselineStore.get p =
      if ingested p run = [] then none else some (afterWindows p (ingested p run)) := by
  induction run using List.reverseRecOn with
  | nil => rfl
  | append_singleton run a ih =>
    rw [afterActions_concat, get_step, ingested_append, ih]
    cases ha : a.1.ingestedBy p with
    | none =>
      have hnone : ingested p [a] = [] := by simp [ingested, ha]
      rw [hnone, List.append_nil, Option.elim_none]
    | some events =>
      have hsome : ingested p [a] = [events] := by simp [ingested, ha]
      have hne : ingested p run ++ [events] ≠ [] := by simp
      rw [hsome, if_neg hne, afterWindows_concat, Option.elim_some]
      by_cases hrun : ingested p run = []
      · rw [if_pos hrun, hrun]
        rfl
      · rw [if_neg hrun]
        rfl

lemma get_afterActions_of_ne {run : List Action} (h : ingested p run ≠ []) :
    ((new policy contaminationThreshold).afterActions run).baselineStore.get p =
      some (afterWindows p (ingested p run)) := by
  rw [get_afterActions, if_neg h]

/-! ## New calls -/

/-- The ids of the windows. -/
def shownIds (windows : List (List SyscallTraceEvent)) : List SyscallId := windows.flatMap ids

/-- The share of the events with an id that the windows do not have. -/
noncomputable def novelShare (windows : List (List SyscallTraceEvent))
    (events : List SyscallTraceEvent) : ℝ :=
  (events.countP fun e => decide (e.syscallId ∉ shownIds windows) : ℕ) / events.length

lemma mem_shownIds_iff {windows : List (List SyscallTraceEvent)} {x : SyscallId} :
    x ∈ shownIds windows ↔ ∃ w ∈ windows, x ∈ ids w := List.mem_flatMap

/-- What a program has not shown has no stored frequency. -/
lemma freq_of_not_shown {K : Type*} [Field K] {windows : List (List SyscallTraceEvent)}
    {x : SyscallId} (hx : x ∉ shownIds windows) :
    (afterWindows p windows : ProgramBaseline K).freq x = 0 := by
  induction windows using List.reverseRecOn with
  | nil => rfl
  | append_singleton ws w ih =>
    rw [mem_shownIds_iff] at hx ih
    have hw : x ∉ ids w := fun h => hx ⟨w, by simp, h⟩
    have hws : ¬ ∃ w' ∈ ws, x ∈ ids w' := fun ⟨w', hw', h⟩ => hx ⟨w', by simp [hw'], h⟩
    rw [afterWindows_concat]
    by_cases hne : w = []
    · rw [hne, update_nil, ih hws]
    · rw [freq_update _ hne, if_neg hw, ih hws]

lemma sum_relFreq_novel (windows : List (List SyscallTraceEvent))
    (events : List SyscallTraceEvent) :
    ∑ x ∈ (ids events).toFinset with x ∉ shownIds windows, relFreq events x =
      novelShare windows events := by
  rw [sum_relFreq, novelShare]
  congr 2
  rw [ids, List.countP_map]
  refine List.countP_congr fun e he => ?_
  have hmem : e.syscallId ∈ (events.map (·.syscallId)).toFinset :=
    List.mem_toFinset.mpr (List.mem_map_of_mem he)
  simp only [Function.comp_apply, decide_eq_true_eq, Finset.mem_filter, hmem, true_and]

/-- The new calls count with the floor. -/
lemma novelShare_le_klDivergence (windows : List (List SyscallTraceEvent))
    {events : List SyscallTraceEvent} (hne : events ≠ []) :
    novelShare windows events * Real.log (10 ^ 10) - Real.log (ids events).toFinset.card ≤
      (afterWindows p windows).klDivergence (observedFreqs events) := by
  have hnormalized := normalized_afterWindows p windows
  have hfloor : (10 : ℝ) ^ 10 = epsilon⁻¹ := by
    rw [epsilon]
    norm_num
  rw [klDivergence_observedFreqs, ← sum_relFreq_novel, hfloor]
  refine Divergence.mul_log_sub_log_card_le_divergence (fun x _ => (relFreq_mem events x).1)
    (fun x _ => floored_pos _ x) (sum_relFreq_ids hne)
    (fun x _ => hnormalized.floored_le_one x) (Finset.filter_subset _ _) epsilon_pos ?_
  intro x hx
  have hzero := freq_of_not_shown (p := p) (K := ℝ) (Finset.mem_filter.mp hx).2
  rw [floored, hzero]
  exact max_le epsilon_pos.le (le_refl _)

/-- Above the threshold there is an event, with the divergence in it. -/
lemma evaluate_of_lt {kl iso : ℝ} (h : policy.klThreshold < kl) (timestampNs : UInt64) :
    policy.evaluate p kl iso timestampNs =
      some ⟨p, min (kl / (policy.klThreshold + 1) * 0.5 + iso * 0.5) 1, kl, iso, timestampNs,
        policy.action⟩ := by
  rw [AnomalyPolicy.evaluate, if_neg fun hnot => hnot.1 h]

/-- The windows that have an id in common with the events. -/
def sharing (events : List SyscallTraceEvent) (windows : List (List SyscallTraceEvent)) : ℕ :=
  windows.countP fun w => (ids w).any fun x => decide (x ∈ ids events)

lemma sharing_concat_of_mem {events w : List SyscallTraceEvent} {x : SyscallId}
    (hw : x ∈ ids w) (hx : x ∈ ids events) (windows : List (List SyscallTraceEvent)) :
    sharing events (windows ++ [w]) = sharing events windows + 1 := by
  have hshare : (ids w).any (fun y => decide (y ∈ ids events)) = true :=
    List.any_eq_true.mpr ⟨x, hw, decide_eq_true hx⟩
  rw [sharing, List.countP_append, List.countP_singleton, if_pos hshare, sharing]

lemma sharing_le_append (events : List SyscallTraceEvent)
    (windows windows' : List (List SyscallTraceEvent)) :
    sharing events windows ≤ sharing events (windows ++ windows') := by
  rw [sharing, sharing, List.countP_append]
  exact Nat.le_add_right _ _

/-- A frequency falls by a tenth at most, and only in a window with the id. -/
lemma freq_update_ge {b : ProgramBaseline ℝ} (w : List SyscallTraceEvent) (x : SyscallId) :
    (if x ∈ ids w then 0.9 * b.freq x else b.freq x) ≤ (b.update w).freq x := by
  by_cases hne : w = []
  · subst hne
    rw [update_nil, if_neg (show x ∉ ids [] from List.not_mem_nil)]
  · have hrel := (relFreq_mem (K := ℝ) w x).1
    rw [freq_update _ hne]
    split
    · rw [blend_eq]
      linarith
    · exact le_refl _

lemma freq_append_ge (ws ws' : List (List SyscallTraceEvent)) {events : List SyscallTraceEvent}
    {x : SyscallId} (hx : x ∈ ids events) :
    0.9 ^ sharing events ws' * (afterWindows p ws : ProgramBaseline ℝ).freq x ≤
      (afterWindows p (ws ++ ws') : ProgramBaseline ℝ).freq x := by
  induction ws' using List.reverseRecOn with
  | nil => simp [sharing]
  | append_singleton ws' w ih =>
    have hfreq := ((normalized_afterWindows p (ws ++ ws')).freq x).1
    have hstep := freq_update_ge (b := afterWindows p (ws ++ ws')) w x
    rw [← List.append_assoc, afterWindows_concat]
    by_cases hw : x ∈ ids w
    · rw [if_pos hw] at hstep
      rw [sharing_concat_of_mem hw hx, pow_succ]
      linarith
    · rw [if_neg hw] at hstep
      have hpow : (0.9 : ℝ) ^ sharing events (ws' ++ [w]) ≤ 0.9 ^ sharing events ws' :=
        pow_le_pow_of_le_one (by norm_num) (by norm_num) (sharing_le_append _ _ _)
      have hmul := mul_le_mul_of_nonneg_right hpow ((normalized_afterWindows p ws).freq x).1
      linarith

/-- An ingested window leaves a tenth of its frequencies. -/
lemma freq_ingest_ge (ws : List (List SyscallTraceEvent)) {w : List SyscallTraceEvent}
    {x : SyscallId} (hx : x ∈ ids w) :
    0.1 * relFreq w x ≤ (afterWindows p (ws ++ [w]) : ProgramBaseline ℝ).freq x := by
  have hne : w ≠ [] := by
    rintro rfl
    exact absurd hx List.not_mem_nil
  have hfreq := ((normalized_afterWindows p ws).freq x).1
  rw [afterWindows_concat, freq_update _ hne, if_pos hx, blend_eq]
  linarith

section Recent

variable {w events : List SyscallTraceEvent} {c : ℝ}
  (hc : ∀ x, relFreq events x ≤ c * relFreq w x)
include hc

lemma mem_ids_of_le {x : SyscallId} (hx : x ∈ ids events) : x ∈ ids w := by
  by_contra hw
  have hpos : (0 : ℝ) < relFreq events x := relFreq_pos hx
  have hle := hc x
  rw [relFreq_of_not_mem hw, mul_zero] at hle
  linarith

lemma factor_nonneg (hne : events ≠ []) : 0 ≤ c := by
  obtain ⟨e, he⟩ := List.exists_mem_of_ne_nil events hne
  have hx : e.syscallId ∈ ids events := List.mem_map_of_mem he
  have hpos : (0 : ℝ) < relFreq events e.syscallId := relFreq_pos hx
  have hw : (0 : ℝ) < relFreq w e.syscallId := relFreq_pos (mem_ids_of_le hc hx)
  have hmul := hpos.trans_le (hc e.syscallId)
  exact (pos_of_mul_pos_left hmul hw.le).le

/-- The divergence of a part of an ingested window. -/
lemma klDivergence_recent_le (hne : events ≠ []) (ws ws' : List (List SyscallTraceEvent)) :
    (afterWindows p (ws ++ w :: ws')).klDivergence (observedFreqs events) ≤
      Real.log (10 * c * (10 / 9) ^ sharing events ws') := by
  have hfactor : 0 ≤ 10 * c * (10 / 9) ^ sharing events ws' :=
    mul_nonneg (mul_nonneg (by norm_num) (factor_nonneg hc hne)) (by positivity)
  rw [klDivergence_observedFreqs]
  refine Divergence.divergence_le_log (fun x _ => (relFreq_mem events x).1)
    (fun x _ => floored_pos _ x) (sum_relFreq_ids hne) fun x hx => ?_
  have hx' : x ∈ ids events := List.mem_toFinset.mp hx
  have hingest := freq_ingest_ge (p := p) ws (mem_ids_of_le hc hx')
  have hkept := freq_append_ge (p := p) (ws ++ [w]) ws' hx'
  rw [List.append_assoc, List.singleton_append] at hkept
  have hdecay : (10 / 9 : ℝ) ^ sharing events ws' * 0.9 ^ sharing events ws' = 1 := by
    rw [← mul_pow]
    norm_num
  have hfloor : 0.9 ^ sharing events ws' * (0.1 * relFreq w x) ≤
      (afterWindows p (ws ++ w :: ws')).floored x :=
    (mul_le_mul_of_nonneg_left hingest (by positivity)).trans (hkept.trans (le_max_left _ _))
  calc (relFreq events x : ℝ) ≤ c * relFreq w x := hc x
    _ = 10 * c * ((10 / 9) ^ sharing events ws' * 0.9 ^ sharing events ws') *
        (0.1 * relFreq w x) := by
      rw [hdecay]
      ring
    _ = 10 * c * (10 / 9) ^ sharing events ws' *
        (0.9 ^ sharing events ws' * (0.1 * relFreq w x)) := by ring
    _ ≤ _ := mul_le_mul_of_nonneg_left hfloor hfactor

/-- **What was ingested lately is not flagged for its divergence.**  The bound holds for every
part of the window, with `c` as the length of the window over the one of the part, and its
argument grows by a ninth with every later window of the program that has an id of the part. -/
theorem recent_not_flagged_by_divergence (hne : events ≠ []) (before after : List Action)
    (t timestampNs : UInt64) :
    let run := before ++ (.ingestWindow p w, t) :: after
    let d := (new policy contaminationThreshold).afterActions run
    let bound := Real.log (10 * c * (10 / 9) ^ sharing events (ingested p after))
    ∃ b, d.baselineStore.get p = some b ∧ b.klDivergence (observedFreqs events) ≤ bound ∧
      (bound ≤ policy.klThreshold →
        ((d.checkAnomaly p events timestampNs).1.isSome = true ↔
          policy.isolationThreshold < b.isolationScore)) := by
  intro run d bound
  have hingested : ingested p run = ingested p before ++ w :: ingested p after := by
    rw [ingested_append]
    simp [ingested, Op.ingestedBy]
  have hsome : ingested p run ≠ [] := by
    rw [hingested]
    simp
  have hget := get_afterActions_of_ne policy contaminationThreshold hsome
  have hkl := klDivergence_recent_le (p := p) hc hne (ingested p before) (ingested p after)
  rw [hingested] at hget
  refine ⟨_, hget, hkl, fun hbound => ?_⟩
  rw [checkAnomaly_isSome_iff hget hne, policy_afterActions]
  exact or_iff_right (not_lt.mpr (hkl.trans hbound))

end Recent

/-- A window, and later one with another id. -/
theorem recent_not_flagged_by_divergence_one :
    ∃ b, ((new defaultPolicy 0.05).afterActions
        ([] ++ (.ingestWindow zeroPubkey (makeEvents [1]), 0) ::
          [(.ingestWindow zeroPubkey (makeEvents [20]), 1)])).baselineStore.get zeroPubkey =
        some b ∧ b.klDivergence (observedFreqs (makeEvents [1])) ≤ Real.log 10 := by
  obtain ⟨b, hget, hkl, -⟩ := recent_not_flagged_by_divergence defaultPolicy 0.05
    (fun x => (one_mul (relFreq (makeEvents [1]) x : ℝ)).ge) (by decide) []
    [(.ingestWindow zeroPubkey (makeEvents [20]), 1)] 0 2
  have hsharing : sharing (makeEvents [1])
      (ingested zeroPubkey [(.ingestWindow zeroPubkey (makeEvents [20]), 1)]) = 0 := by decide
  rw [hsharing, pow_zero, mul_one, mul_one] at hkl
  exact ⟨b, hget, hkl⟩

/-! ## An alarm that stays on -/

lemma le_maxDepth {events : List SyscallTraceEvent} {e : SyscallTraceEvent} (he : e ∈ events) :
    e.depth ≤ maxDepth events := by
  have hfold : ∀ (l : List SyscallTraceEvent) (m : UInt8),
      m ≤ l.foldl (fun m e => if m < e.depth then e.depth else m) m ∧
        ∀ e ∈ l, e.depth ≤ l.foldl (fun m e => if m < e.depth then e.depth else m) m := by
    intro l
    induction l with
    | nil => exact fun m => ⟨UInt8.le_refl m, fun e he => absurd he List.not_mem_nil⟩
    | cons a l ih =>
      intro m
      have hle : m ≤ (if m < a.depth then a.depth else m) ∧
          a.depth ≤ (if m < a.depth then a.depth else m) := by
        split
        · next h => exact ⟨UInt8.le_of_lt h, UInt8.le_refl _⟩
        · next h => exact ⟨UInt8.le_refl _, UInt8.not_lt.mp h⟩
      obtain ⟨hstart, hmem⟩ := ih (if m < a.depth then a.depth else m)
      refine ⟨UInt8.le_trans hle.1 hstart, List.forall_mem_cons.mpr ⟨?_, hmem⟩⟩
      exact UInt8.le_trans hle.2 hstart
  exact (hfold events 0).2 e he

lemma le_maxCpiDepth_update (b : ProgramBaseline ℝ) (events : List SyscallTraceEvent) :
    b.maxCpiDepth ≤ (b.update events).maxCpiDepth ∧
      ∀ e ∈ events, e.depth ≤ (b.update events).maxCpiDepth := by
  rw [update]
  split
  · next hempty =>
    rw [List.isEmpty_iff.mp hempty]
    exact ⟨UInt8.le_refl _, fun e he => absurd he List.not_mem_nil⟩
  · dsimp only
    split
    · next h => exact ⟨UInt8.le_of_lt h, fun e he => le_maxDepth he⟩
    · next h =>
      refine ⟨UInt8.le_refl _, fun e he => UInt8.le_trans (le_maxDepth he) ?_⟩
      exact UInt8.not_lt.mp h

/-- The depth of a baseline is not below the one of any event that it has seen. -/
lemma le_maxCpiDepth_afterWindows {windows : List (List SyscallTraceEvent)}
    {w : List SyscallTraceEvent} (hw : w ∈ windows) {e : SyscallTraceEvent} (he : e ∈ w) :
    e.depth ≤ (afterWindows p windows : ProgramBaseline ℝ).maxCpiDepth := by
  induction windows using List.reverseRecOn with
  | nil => exact absurd hw List.not_mem_nil
  | append_singleton ws w' ih =>
    rw [afterWindows_concat]
    obtain ⟨hkeep, hevents⟩ := le_maxCpiDepth_update (afterWindows p ws) w'
    rcases List.mem_append.mp hw with hw | hw
    · exact UInt8.le_trans (ih hw) hkeep
    · rw [List.mem_singleton.mp hw] at he
      exact hevents e he

lemma mem_frequencies_of_shown {windows : List (List SyscallTraceEvent)} {x : SyscallId}
    (hx : x ∈ shownIds windows) :
    x ∈ (afterWindows p windows : ProgramBaseline ℝ).syscallFrequencies := by
  induction windows using List.reverseRecOn with
  | nil => exact absurd hx List.not_mem_nil
  | append_singleton ws w ih =>
    obtain ⟨w', hw', hxw⟩ := mem_shownIds_iff.mp hx
    rw [afterWindows_concat]
    by_cases hne : w = []
    · subst hne
      rw [update_nil]
      rcases List.mem_append.mp hw' with hw' | hw'
      · exact ih (mem_shownIds_iff.mpr ⟨w', hw', hxw⟩)
      · rw [List.mem_singleton.mp hw'] at hxw
        exact absurd hxw List.not_mem_nil
    · rw [mem_frequencies_update _ hne]
      rcases List.mem_append.mp hw' with hw' | hw'
      · exact Or.inl (ih (mem_shownIds_iff.mpr ⟨w', hw', hxw⟩))
      · rw [List.mem_singleton.mp hw'] at hxw
        exact Or.inr hxw

/-- There is a stored frequency for each id that it has seen. -/
lemma card_le_frequencies {windows : List (List SyscallTraceEvent)} {s : Finset SyscallId}
    (hs : ∀ x ∈ s, x ∈ shownIds windows) :
    s.card ≤ (afterWindows p windows : ProgramBaseline ℝ).syscallFrequencies.entries.length := by
  rw [← HashMap.length_keys]
  refine le_trans (Finset.card_le_card fun x hx => ?_) (List.toFinset_card_le _)
  exact List.mem_toFinset.mpr (AList.mem_keys.mp (mem_frequencies_of_shown (hs x hx)))

/-- The part of the isolation score that is due to the depth and the number of ids. -/
noncomputable def lastingScore (depth : UInt8) (distinct : ℕ) : ℝ :=
  let depthNorm : ℝ := depth.toNat / 10.0
  let diversity : ℝ := distinct / 30.0
  min (√(depthNorm * depthNorm + diversity * diversity) / 3.0) 1

lemma lastingScore_eq (depth : UInt8) (distinct : ℕ) : lastingScore depth distinct =
    min (√(((depth.toNat : ℝ) / 10) ^ 2 + ((distinct : ℝ) / 30) ^ 2) / 3) 1 := by
  rw [lastingScore, sq, sq]
  norm_num

lemma lastingScore_le_isolationScore {b : ProgramBaseline ℝ} {depth : UInt8} {distinct : ℕ}
    (hdepth : depth ≤ b.maxCpiDepth)
    (hdistinct : distinct ≤ b.syscallFrequencies.entries.length) :
    lastingScore depth distinct ≤ b.isolationScore := by
  rw [lastingScore_eq]
  refine min_le_min_right 1 (div_le_div_of_nonneg_right (Real.sqrt_le_sqrt ?_) (by norm_num))
  have hd : (depth.toNat : ℝ) / 10 ≤ (b.maxCpiDepth.toNat : ℝ) / 10 :=
    div_le_div_of_nonneg_right (Nat.cast_le.mpr (UInt8.le_iff_toNat_le.mp hdepth)) (by norm_num)
  have hn : (distinct : ℝ) / 30 ≤ (b.syscallFrequencies.entries.length : ℝ) / 30 :=
    div_le_div_of_nonneg_right (Nat.cast_le.mpr hdistinct) (by norm_num)
  have hdsq := pow_le_pow_left₀ (by positivity) hd 2
  have hnsq := pow_le_pow_left₀ (by positivity) hn 2
  obtain ⟨delay, f₀, f₁, f₂, f₃, hvector⟩ : ∃ delay f₀ f₁ f₂ f₃, b.featureVector =
      [b.cryptoRatio, (b.maxCpiDepth.toNat : ℝ) / 10, delay,
        (b.syscallFrequencies.entries.length : ℝ) / 30, f₀, f₁, f₂, f₃] := ⟨_, _, _, _, _, rfl⟩
  simp only [hvector, List.map_cons, List.map_nil, List.sum_cons, List.sum_nil, ← sq]
  linarith [sq_nonneg b.cryptoRatio, sq_nonneg delay, sq_nonneg f₀, sq_nonneg f₁, sq_nonneg f₂,
    sq_nonneg f₃]

/-- **An alarm that stays on.**  An ingested event of some depth and the ids that were ingested
with it keep every later check of the program flagged, whatever is ingested afterwards. -/
theorem alarm_never_clears (run : List Action) {w : List SyscallTraceEvent}
    (hw : w ∈ ingested p run) {e : SyscallTraceEvent} (he : e ∈ w) {s : Finset SyscallId}
    (hs : ∀ x ∈ s, x ∈ shownIds (ingested p run))
    (halarm : policy.isolationThreshold < lastingScore e.depth s.card) (later : List Action)
    {events : List SyscallTraceEvent} (hne : events ≠ []) (timestampNs : UInt64) :
    (((new policy contaminationThreshold).afterActions (run ++ later)).checkAnomaly p events
      timestampNs).1.isSome = true := by
  have hw' : w ∈ ingested p (run ++ later) := by
    rw [ingested_append]
    exact List.mem_append_left _ hw
  have hs' : ∀ x ∈ s, x ∈ shownIds (ingested p (run ++ later)) := by
    intro x hx
    rw [ingested_append, shownIds, List.flatMap_append]
    exact List.mem_append_left _ (hs x hx)
  have hget := get_afterActions_of_ne policy contaminationThreshold (List.ne_nil_of_mem hw')
  rw [checkAnomaly_isSome_iff hget hne, policy_afterActions]
  refine Or.inr (halarm.trans_le (lastingScore_le_isolationScore ?_ ?_))
  · exact le_maxCpiDepth_afterWindows hw' he
  · exact card_le_frequencies hs'

/-- One call at depth 22, and then shallow ones. -/
theorem alarm_never_clears_deep :
    let deep : SyscallTraceEvent := ⟨zeroPubkey, 1, 0, 0, 0, zeroTxId, 22⟩
    (((new defaultPolicy 0.05).afterActions
      ([(.ingestWindow zeroPubkey [deep], 0)] ++
        [(.ingestWindow zeroPubkey (makeEvents [1]), 1)])).checkAnomaly zeroPubkey
          (makeEvents [1]) 2).1.isSome = true := by
  intro deep
  refine alarm_never_clears defaultPolicy 0.05 [(.ingestWindow zeroPubkey [deep], 0)]
    (List.mem_singleton_self [deep]) (List.mem_singleton_self deep) (s := ∅)
    (fun x hx => absurd hx (Finset.notMem_empty x)) ?_ _ (by decide) 2
  have hthreshold : defaultPolicy.isolationThreshold = 0.7 := rfl
  have hdepth : deep.depth.toNat = 22 := rfl
  have hsum : (((22 : ℕ) : ℝ) / 10) ^ 2 + (((∅ : Finset SyscallId).card : ℝ) / 30) ^ 2 =
      2.2 ^ 2 := by
    rw [Finset.card_empty]
    norm_num
  rw [hthreshold, lastingScore_eq, hdepth, hsum, Real.sqrt_sq (by norm_num)]
  norm_num

end AnomalyDetector

end SyscallMind
