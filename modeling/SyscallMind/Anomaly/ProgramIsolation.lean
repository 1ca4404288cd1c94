/-
# Programs do not see each other's verdicts

The detector keeps one baseline for each program and one log for all of them.  An operation on
a program reads and writes the baseline of this program and appends events of this program to
the log.  What a program sees of a run, its scores, its checks and its part of the log, is
therefore what it would see alone, in every arithmetic (`programs_isolated`).  The clock is read
by every check; the verdicts do not depend on it.  Only `ingest_window` changes a baseline, so
the other two operations never change a later score, of any program.

The divergence is a sum over a hash map, and every hash map has its own random order.  In `f64`
the order shows: the same window can be flagged in one order and not in another
(`programs_isolated_not_across_orders`).  So two runs look the same to a program if its calls
iterate their maps in the same orders.  Over the real numbers the orders do not matter at all
(`programs_isolated_exact`).
-/
import SyscallMind.Anomaly.FloatDetector
import SyscallMind.Lib.Isolation

namespace SyscallMind

open Lib

namespace F64

/-- The event without the reading of the clock. -/
def AnomalyEvent.untimed {F : Type*} (event : AnomalyEvent F) : AnomalyEvent F :=
  { event with timestampNs := 0 }

namespace AnomalyDetector

open SyscallMind.AnomalyDetector (Op)

/-- What an operation returns. -/
inductive Answer (F : Type*)
  | unit
  | score (score : F)
  | check (event : Option (AnomalyEvent F))
deriving DecidableEq

def Answer.untimed {F : Type*} : Answer F → Answer F
  | .check event => .check (event.map AnomalyEvent.untimed)
  | answer => answer

/-- An operation, with the orders in which it iterates its maps and the reading of the clock. -/
structure Action where
  op : Op
  orders : Orders
  timestampNs : UInt64

/-- The operations on a program, without the readings of the clock. -/
def callsOf (programId : Pubkey) (run : List Action) : List (Op × Orders) :=
  (run.map fun a => (a.op, a.orders)).filter fun call => call.1.programId = programId

/-- The operations on a program, without the orders. -/
def opsOf (programId : Pubkey) (run : List Action) : List Op :=
  (run.map Action.op).filter fun op => op.programId = programId

/-- The part of the log that is about a program. -/
def logOf {F : Type*} (programId : Pubkey) (d : AnomalyDetector F) : List (AnomalyEvent F) :=
  (d.eventsLog.filter fun event => event.programId = programId).map AnomalyEvent.untimed

section Code

variable {F : Type*} [OfScientific F] [Add F] [Sub F] [Mul F] [Div F] [F64 F] (ln : F → F)

def step (d : AnomalyDetector F) (a : Action) : Answer F × AnomalyDetector F :=
  match a.op with
  | .ingestWindow programId events => (.unit, d.ingestWindow programId events)
  | .scoreProgram programId events => (.score (d.scoreProgram ln a.orders programId events), d)
  | .checkAnomaly programId events =>
      (.check (d.checkAnomaly ln a.orders programId events a.timestampNs).1,
        (d.checkAnomaly ln a.orders programId events a.timestampNs).2)

/-- The detector after a run. -/
def afterActions (d : AnomalyDetector F) (run : List Action) : AnomalyDetector F :=
  Isolation.after (step ln) d run

/-- What the operations on a program return, the timestamps set aside. -/
def answersOf (programId : Pubkey) (d : AnomalyDetector F) (run : List Action) :
    List (Answer F) :=
  Isolation.seen (step ln) Action.op (fun op => decide (op.programId = programId))
    Answer.untimed d run

/-! ## One operation -/

/-- The two detectors look the same to the program. -/
structure LooksSame (programId : Pubkey) (d d' : AnomalyDetector F) : Prop where
  policy : d.policy = d'.policy
  baseline : get d.baselineStore programId = get d'.baselineStore programId
  log : logOf programId d = logOf programId d'

omit [OfScientific F] [Add F] [Sub F] [Mul F] [Div F] [F64 F] in
lemma LooksSame.refl (programId : Pubkey) (d : AnomalyDetector F) : LooksSame programId d d :=
  ⟨rfl, rfl, rfl⟩

/-- The two scores of a window. -/
def scores (orders : Orders) (events : List SyscallTraceEvent) (b : ProgramBaseline F) : F × F :=
  (klDivergence ln orders.observed b (observedFreqs events), isolationScore orders.baseline b)

lemma get_updateProgram (s : BaselineStore F) (p p' : Pubkey) (events : List SyscallTraceEvent) :
    get (updateProgram s p events) p' =
      if p' = p then some (update ((get s p).getD (newBaseline p)) events) else get s p' :=
  HashMap.lookup_insert_eq _ _ _ _

section Check

omit [Sub F]

variable {ln} {d d' : AnomalyDetector F} {programId p : Pubkey}
  {events : List SyscallTraceEvent} {orders orders' : Orders} {timestampNs timestampNs' : UInt64}

/-- What a check can do: log the event that it returns, or nothing. -/
lemma checkAnomaly_snd :
    (d.checkAnomaly ln orders programId events timestampNs).2 =
      { d with eventsLog := d.eventsLog ++
          (d.checkAnomaly ln orders programId events timestampNs).1.toList } := by
  rw [checkAnomaly]
  split
  · simp
  · split
    · simp
    · rfl

/-- The events of a check are about its program. -/
lemma checkAnomaly_programId {event : AnomalyEvent F}
    (h : (d.checkAnomaly ln orders programId events timestampNs).1 = some event) :
    event.programId = programId := by
  rw [checkAnomaly] at h
  split at h
  · exact absurd h (by simp)
  · split at h
    · exact absurd h (by simp)
    · simp only [evaluate] at h
      split at h
      · exact absurd h (by simp)
      · rw [← Option.some.inj h]

/-- The clock goes into the event and nowhere else. -/
lemma evaluate_untimed {policy : AnomalyPolicy F} {kl iso : F} :
    (evaluate policy programId kl iso timestampNs).map AnomalyEvent.untimed =
      (evaluate policy programId kl iso timestampNs').map AnomalyEvent.untimed := by
  simp only [evaluate]
  split <;> rfl

lemma LooksSame.checkAnomaly_fst (h : LooksSame programId d d')
    (hscores : scores ln orders events = scores ln orders' events) :
    (d.checkAnomaly ln orders programId events timestampNs).1.map AnomalyEvent.untimed =
      (d'.checkAnomaly ln orders' programId events timestampNs').1.map AnomalyEvent.untimed := by
  rw [checkAnomaly, checkAnomaly, ← h.baseline, ← h.policy]
  split
  · rfl
  · next b _ =>
    obtain ⟨hkl, hiso⟩ := Prod.mk.inj (congrFun hscores b)
    split
    · rfl
    · rw [hkl, hiso]
      exact evaluate_untimed

lemma LooksSame.scoreProgram (h : LooksSame programId d d')
    (hscores : scores ln orders events = scores ln orders' events) :
    d.scoreProgram ln orders programId events = d'.scoreProgram ln orders' programId events := by
  rw [AnomalyDetector.scoreProgram, AnomalyDetector.scoreProgram, ← h.baseline]
  split
  · rfl
  · next b _ =>
    obtain ⟨hkl, hiso⟩ := Prod.mk.inj (congrFun hscores b)
    rw [hkl, hiso]

/-- The log of a program grows by the events of its own checks. -/
lemma logOf_checkAnomaly :
    logOf p (d.checkAnomaly ln orders programId events timestampNs).2 =
      logOf p d ++ if programId = p then
        ((d.checkAnomaly ln orders programId events timestampNs).1.map
          AnomalyEvent.untimed).toList
      else [] := by
  rw [checkAnomaly_snd, logOf, logOf, List.filter_append, List.map_append]
  congr 1
  cases hevent : (d.checkAnomaly ln orders programId events timestampNs).1 with
  | none => simp
  | some event =>
    rw [← checkAnomaly_programId hevent]
    by_cases hp : event.programId = p <;> simp [hp]

end Check

/-- An operation on another program is not seen. -/
lemma looksSame_step_other {p : Pubkey} (d : AnomalyDetector F) (a : Action)
    (ha : a.op.programId ≠ p) : LooksSame p (d.step ln a).2 d := by
  obtain ⟨op, orders, now⟩ := a
  cases op with
  | ingestWindow q events =>
    refine ⟨rfl, ?_, rfl⟩
    exact (get_updateProgram _ _ _ _).trans (if_neg (Ne.symm ha))
  | scoreProgram q events => exact LooksSame.refl p d
  | checkAnomaly q events =>
    have hq : q ≠ p := ha
    refine ⟨?_, ?_, ?_⟩
    · simp only [step, checkAnomaly_snd]
    · simp only [step, checkAnomaly_snd]
    · simp only [step, logOf_checkAnomaly, if_neg hq, List.append_nil]

/-- The same operation of the program is answered alike if its window has the same scores, and
leads to detectors that look the same again. -/
lemma LooksSame.step {p : Pubkey} {d d' : AnomalyDetector F} (h : LooksSame p d d') (op : Op)
    {orders orders' : Orders} (hscores : scores ln orders op.events = scores ln orders' op.events)
    (now now' : UInt64) (hop : op.programId = p) :
    (d.step ln ⟨op, orders, now⟩).1.untimed = (d'.step ln ⟨op, orders', now'⟩).1.untimed ∧
      LooksSame p (d.step ln ⟨op, orders, now⟩).2 (d'.step ln ⟨op, orders', now'⟩).2 := by
  cases op with
  | ingestWindow q events =>
    obtain rfl : q = p := hop
    refine ⟨rfl, h.policy, ?_, h.log⟩
    show get (updateProgram d.baselineStore q events) q =
      get (updateProgram d'.baselineStore q events) q
    rw [get_updateProgram, get_updateProgram, h.baseline]
  | scoreProgram q events =>
    obtain rfl : q = p := hop
    exact ⟨congrArg Answer.score (h.scoreProgram hscores), h⟩
  | checkAnomaly q events =>
    obtain rfl : q = p := hop
    have hcheck : (d.checkAnomaly ln orders q events now).1.map AnomalyEvent.untimed =
        (d'.checkAnomaly ln orders' q events now').1.map AnomalyEvent.untimed :=
      h.checkAnomaly_fst hscores
    refine ⟨congrArg Answer.check hcheck, ?_, ?_, ?_⟩
    · simp only [AnomalyDetector.step, checkAnomaly_snd]
      exact h.policy
    · simp only [AnomalyDetector.step, checkAnomaly_snd]
      exact h.baseline
    · simp only [AnomalyDetector.step, logOf_checkAnomaly]
      rw [h.log, hcheck]

/-! ## Runs -/

/-- An operation with the scores of its window.  The orders are seen through the scores only. -/
def scored (a : Action) : Op × (ProgramBaseline F → F × F) :=
  (a.op, scores ln a.orders a.op.events)

lemma view_program (p : Pubkey) :
    Isolation.View (step ln) (scored ln) (fun key => decide (key.1.programId = p))
      Answer.untimed (LooksSame p) where
  symm h := ⟨h.policy.symm, h.baseline.symm, h.log.symm⟩
  trans h h' := ⟨h.policy.trans h'.policy, h.baseline.trans h'.baseline, h.log.trans h'.log⟩
  other a _ ha := looksSame_step_other ln _ a (of_decide_eq_false ha)
  own := by
    rintro d d' ⟨op, orders, now⟩ ⟨op', orders', now'⟩ h heq hop
    obtain ⟨rfl, hscores⟩ : op = op' ∧ _ := Prod.mk.inj heq
    exact h.step ln op hscores now now' (of_decide_eq_true hop)

/-- The baselines are changed by `ingest_window` only. -/
lemma view_baselines :
    Isolation.View (step ln) Action.op Op.isIngest (fun _ => ())
      (fun d d' => d.baselineStore = d'.baselineStore) where
  symm h := h.symm
  trans h h' := h.trans h'
  other := by
    rintro d ⟨op, orders, now⟩ - hop
    cases op with
    | ingestWindow q events => exact absurd hop (by simp [Op.isIngest])
    | scoreProgram q events => rfl
    | checkAnomaly q events => simp only [step, checkAnomaly_snd]
  own := by
    rintro d d' ⟨op, orders, now⟩ ⟨op', orders', now'⟩ h (rfl : op = op') hop
    refine ⟨rfl, ?_⟩
    cases op with
    | ingestWindow q events => exact congrArg (fun s => updateProgram s q events) h
    | scoreProgram q events => exact h
    | checkAnomaly q events => exact absurd hop (by simp [Op.isIngest])

/-- What a program sees depends on its operations and on the scores of their windows. -/
lemma answersOf_eq_of_scored (p : Pubkey) (d : AnomalyDetector F) {run run' : List Action}
    (h : (run.map (scored ln)).filter (fun key => decide (key.1.programId = p)) =
      (run'.map (scored ln)).filter fun key => decide (key.1.programId = p)) :
    answersOf ln p d run = answersOf ln p d run' ∧
      logOf p (d.afterActions ln run) = logOf p (d.afterActions ln run') := by
  have hseen : ∀ as d, answersOf ln p d as = Isolation.seen (step ln) (scored ln)
      (fun key => decide (key.1.programId = p)) Answer.untimed d as := by
    intro as
    induction as with
    | nil => exact fun _ => rfl
    | cons a as ih =>
      intro d
      have ih' := ih (step ln d a).2
      simp only [answersOf, Isolation.seen] at ih' ⊢
      rw [ih']
      rfl
  obtain ⟨hanswers, hafter⟩ := (view_program ln p).seen_eq_of_own (LooksSame.refl p d) h
  rw [hseen, hseen]
  exact ⟨hanswers, hafter.log⟩

/-- **Programs are isolated.**  What a program sees of a run is what it sees if only its own
operations are kept, and so the same in all interleavings with the other programs, as long as
its operations iterate their maps in the same orders; and a score or a check changes no later
score. -/
theorem programs_isolated (policy : AnomalyPolicy F) (contaminationThreshold : F) :
    let d := new policy contaminationThreshold
    (∀ p run, let kept := run.filter fun a : Action => a.op.programId = p
      answersOf ln p d run = answersOf ln p d kept ∧
        logOf p (d.afterActions ln run) = logOf p (d.afterActions ln kept)) ∧
    (∀ p run run', callsOf p run = callsOf p run' →
      answersOf ln p d run = answersOf ln p d run' ∧
        logOf p (d.afterActions ln run) = logOf p (d.afterActions ln run')) ∧
    ∀ before (a : Action) after, a.op.isIngest = false → ∀ orders p events,
      (d.afterActions ln (before ++ a :: after)).scoreProgram ln orders p events =
        (d.afterActions ln (before ++ after)).scoreProgram ln orders p events := by
  intro d
  have hcalls : ∀ (p : Pubkey) (run : List Action),
      (run.map (scored ln)).filter (fun key => decide (key.1.programId = p)) =
        (callsOf p run).map fun call => (call.1, scores ln call.2 call.1.events) := by
    intro p run
    rw [callsOf, List.filter_map, List.filter_map, List.map_map]
    rfl
  refine ⟨fun p run => ?_, fun p run run' h => ?_, fun before a after ha orders p events => ?_⟩
  · refine answersOf_eq_of_scored ln p d ?_
    have hkept : ∀ q : Action → Bool, (run.filter q).filter q = run.filter q := by
      intro q
      rw [List.filter_filter]
      simp only [Bool.and_self]
    rw [List.filter_map, List.filter_map]
    exact congrArg (List.map (scored ln)) (hkept _).symm
  · exact answersOf_eq_of_scored ln p d (by rw [hcalls, hcalls, h])
  · have hingests : ((before ++ a :: after).map Action.op).filter Op.isIngest =
        ((before ++ after).map Action.op).filter Op.isIngest := by
      simp [ha]
    obtain ⟨-, hstore⟩ := (view_baselines ln).seen_eq_of_own (rfl : d.baselineStore = _) hingests
    have hget : (d.afterActions ln (before ++ a :: after)).baselineStore =
      (d.afterActions ln (before ++ after)).baselineStore := hstore
    rw [scoreProgram, scoreProgram, hget]

end Code

/-! ## The orders in `f64` -/

/-- The logarithm of `5e9`, and of `2.5e9` for everything else, to the nearest `f64`. -/
def lnOfTwo (x : Float) : Float :=
  if x == 5000000000.0 then 22.33270374938051 else 21.639556568820566

/-- Two programs in two interleavings, with the same orders in the calls of each program. -/
theorem programs_isolated_two :
    let d : AnomalyDetector Float := new ⟨.log, 2.5, 0.7⟩ 0.05
    let p := zeroPubkey
    let q : Pubkey := Vector.replicate 32 1
    let reversed : Orders := ⟨⟨List.reverse, List.reverse_perm⟩, .stored _⟩
    let ingestP : Action := ⟨.ingestWindow p [], .stored, 1⟩
    let ingestQ : Action := ⟨.ingestWindow q (makeEvents [20]), .stored, 2⟩
    let checkQ : Action := ⟨.checkAnomaly q (makeEvents [1]), .stored, 3⟩
    let checkP : UInt64 → Action := fun now =>
      ⟨.checkAnomaly p (makeEvents [1, 2, 3, 3]), reversed, now⟩
    let run := [ingestP, ingestQ, checkQ, checkP 4]
    let run' := [ingestQ, checkQ, ingestP, checkP 8]
    answersOf lnOfTwo p d run = answersOf lnOfTwo p d run' ∧
      logOf p (d.afterActions lnOfTwo run) = logOf p (d.afterActions lnOfTwo run') := by
  intro d p q reversed ingestP ingestQ checkQ checkP run run'
  exact (programs_isolated lnOfTwo _ _).2.1 p run run' rfl

/-- The same window after the same run, checked in two orders of the observed frequencies: it is
flagged in one of them only. -/
theorem programs_isolated_not_across_orders :
    let d : AnomalyDetector Float := new ⟨.log, 21.986130159100536, 0.7⟩ 0.05
    let p := zeroPubkey
    let reversed : Orders := ⟨⟨List.reverse, List.reverse_perm⟩, .stored _⟩
    let run : Orders → List Action := fun orders =>
      [⟨.ingestWindow p [], .stored, 1⟩, ⟨.checkAnomaly p (makeEvents [1, 2, 3, 3]), orders, 2⟩]
    opsOf p (run .stored) = opsOf p (run reversed) ∧
      answersOf lnOfTwo p d (run .stored) ≠ answersOf lnOfTwo p d (run reversed) ∧
      (logOf p (d.afterActions lnOfTwo (run .stored))).length = 0 ∧
      (logOf p (d.afterActions lnOfTwo (run reversed))).length = 1 := by
  intro d p reversed run
  refine ⟨rfl, ?_, by decide +kernel, by decide +kernel⟩
  decide +kernel

/-! ## Over the real numbers -/

section Exact

lemma scores_real (orders : Orders) (events : List SyscallTraceEvent) (b : ProgramBaseline ℝ) :
    scores Real.log orders events b =
      (b.klDivergence (ProgramBaseline.observedFreqs events), b.isolationScore) := by
  rw [scores, klDivergence_real, isolationScore_real]
  rfl

/-- **Over the real numbers the orders do not matter.**  Programs are isolated whatever the
orders in which the maps are iterated. -/
theorem programs_isolated_exact (d : AnomalyDetector ℝ) (p : Pubkey) {run run' : List Action}
    (h : opsOf p run = opsOf p run') :
    answersOf Real.log p d run = answersOf Real.log p d run' ∧
      logOf p (d.afterActions Real.log run) = logOf p (d.afterActions Real.log run') := by
  have hops : ∀ run : List Action,
      (run.map (scored Real.log)).filter (fun key => decide (key.1.programId = p)) =
        (opsOf p run).map fun op => (op, scores Real.log .stored op.events) := by
    intro run
    have hscored : ∀ a : Action,
        scored Real.log a = (a.op, scores Real.log .stored a.op.events) := by
      intro a
      refine congrArg (Prod.mk a.op) (funext fun b => ?_)
      rw [scores_real, scores_real]
    rw [opsOf, List.filter_map, List.filter_map, List.map_map]
    exact List.map_congr_left fun a _ => hscored a
  exact answersOf_eq_of_scored Real.log p d (by rw [hops, hops, h])

def toEvent (event : AnomalyEvent ℝ) : SyscallMind.AnomalyEvent :=
  ⟨event.programId, event.riskScore, event.klDivergence, event.isolationScore, event.timestampNs,
    event.actionTaken⟩

/-- The detector without the choice of an arithmetic. -/
def toDetector (d : AnomalyDetector ℝ) : SyscallMind.AnomalyDetector :=
  ⟨d.baselineStore,
    ⟨d.policy.action, d.policy.klThreshold, d.policy.isolationThreshold⟩,
    d.contaminationThreshold, d.eventsLog.map toEvent⟩

def toAnswer : Answer ℝ → SyscallMind.AnomalyDetector.Answer
  | .unit => .unit
  | .score score => .score score
  | .check event => .check (event.map toEvent)

lemma toEvent_evaluate (policy : AnomalyPolicy ℝ) (programId : Pubkey) (kl iso : ℝ)
    (timestampNs : UInt64) :
    (evaluate policy programId kl iso timestampNs).map toEvent =
      SyscallMind.AnomalyPolicy.evaluate
        ⟨policy.action, policy.klThreshold, policy.isolationThreshold⟩ programId kl iso
        timestampNs := by
  have hkl : F64.lt policy.klThreshold kl = decide (policy.klThreshold < kl) := rfl
  have hiso : F64.lt policy.isolationThreshold iso = decide (policy.isolationThreshold < iso) :=
    rfl
  rw [evaluate, SyscallMind.AnomalyPolicy.evaluate, hkl, hiso]
  by_cases h : ¬ policy.klThreshold < kl ∧ ¬ policy.isolationThreshold < iso
  · rw [if_pos (by simp [h.1, h.2]), if_pos h]
    rfl
  · rw [if_neg (by simpa using h), if_neg h, one_real]
    rfl

lemma toDetector_checkAnomaly (d : AnomalyDetector ℝ) (orders : Orders) (programId : Pubkey)
    (events : List SyscallTraceEvent) (timestampNs : UInt64) :
    (d.checkAnomaly Real.log orders programId events timestampNs).1.map toEvent =
      ((toDetector d).checkAnomaly programId events timestampNs).1 := by
  have hget : (toDetector d).baselineStore.get programId = get d.baselineStore programId := rfl
  rw [checkAnomaly, SyscallMind.AnomalyDetector.checkAnomaly, hget]
  cases get d.baselineStore programId with
  | none => rfl
  | some baseline =>
    dsimp only
    split
    · rfl
    · exact (toEvent_evaluate _ _ _ _ _).trans
        (by rw [klDivergence_real, isolationScore_real]; rfl)

lemma toDetector_scoreProgram (d : AnomalyDetector ℝ) (orders : Orders) (programId : Pubkey)
    (events : List SyscallTraceEvent) :
    d.scoreProgram Real.log orders programId events =
      (toDetector d).scoreProgram programId events := by
  have hget : (toDetector d).baselineStore.get programId = get d.baselineStore programId := rfl
  have hfive : (5.0 : ℝ) = 5 := by norm_num
  rw [scoreProgram, SyscallMind.AnomalyDetector.scoreProgram, hget]
  cases get d.baselineStore programId with
  | none => exact zero_real
  | some baseline =>
    dsimp only
    split
    · exact zero_real
    · rw [klDivergence_real, isolationScore_real, hfive, one_real]
      rfl

lemma toDetector_ingestWindow (d : AnomalyDetector ℝ) (programId : Pubkey)
    (events : List SyscallTraceEvent) :
    toDetector (d.ingestWindow programId events) =
      (toDetector d).ingestWindow programId events := by
  rw [ingestWindow, SyscallMind.AnomalyDetector.ingestWindow, updateProgram, update_real,
    newBaseline_real]
  rfl

/-- **The detector over the real numbers.**  Whatever the orders, a step is a step of the
detector of `AnomalyDetector.step`. -/
theorem exact_step (d : AnomalyDetector ℝ) (a : Action) :
    (toDetector d).step (a.op, a.timestampNs) =
      (toAnswer (d.step Real.log a).1, toDetector (d.step Real.log a).2) := by
  obtain ⟨op, orders, now⟩ := a
  cases op with
  | ingestWindow q events =>
    exact congrArg (Prod.mk _) (toDetector_ingestWindow d q events).symm
  | scoreProgram q events =>
    exact congrArg (fun score => (SyscallMind.AnomalyDetector.Answer.score score, toDetector d))
      (toDetector_scoreProgram d orders q events).symm
  | checkAnomaly q events =>
    have hcheck := toDetector_checkAnomaly d orders q events now
    refine Prod.ext (congrArg SyscallMind.AnomalyDetector.Answer.check hcheck.symm) ?_
    simp only [step, SyscallMind.AnomalyDetector.step, SyscallMind.AnomalyDetector.checkAnomaly_snd,
      checkAnomaly_snd, ← hcheck]
    rw [toDetector, toDetector, List.map_append, Option.toList_map]

/-- The same of a run. -/
theorem exact_afterActions (d : AnomalyDetector ℝ) (run : List Action) :
    (toDetector d).afterActions (run.map fun a => (a.op, a.timestampNs)) =
      toDetector (d.afterActions Real.log run) := by
  induction run generalizing d with
  | nil => rfl
  | cons a run ih =>
    have hstep : ((toDetector d).step (a.op, a.timestampNs)).2 =
        toDetector (d.step Real.log a).2 := congrArg Prod.snd (exact_step d a)
    have hrest := ih (d.step Real.log a).2
    rw [← hstep] at hrest
    exact hrest

end Exact

end AnomalyDetector

end F64

end SyscallMind
