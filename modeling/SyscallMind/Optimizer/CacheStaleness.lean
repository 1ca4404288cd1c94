/-
# Which runs of the cache serve or keep stale entries

Two properties of a cache that hold in some runs only, each with the steps that destroy it.

* A hit on a sysvar that changes every slot was cached in the current slot.  The clock is
  registered as bound to the epoch, so this fails as soon as the slot moves while a clock
  result of the current epoch is resident (`slotFresh_iff_clockGone`).
* The two sweeps keep exactly the entries on which `get` would hit.  An id that is not
  registered is bound to the epoch for `get` but is skipped by the sweeps, so this fails as
  soon as such an entry is resident with another epoch (`sweepsAgree_iff_unregisteredCurrent`).
-/
import SyscallMind.Optimizer.Cache

namespace SyscallMind

namespace SysvarCache

open Lib SyscallIds

variable {c : SysvarCache}

/-! ## Entries of an earlier slot -/

/-- The sysvars whose value changes every slot. -/
def ChangesEverySlot (id : SyscallId) : Prop :=
  id = solGetClockSysvar ∨ id = solGetSlotHashesSysvar

/-- A hit on a sysvar that changes every slot was cached in the current slot. -/
def SlotFresh (c : SysvarCache) : Prop :=
  ∀ key entry, ChangesEverySlot key.syscallId → (c.get key).1 = some entry →
    entry.cachedAtSlot = c.currentSlot

/-- An insert carries the current tags, and the counters only advance. -/
def Tagged (c : SysvarCache) : Op → Prop
  | .insert _ result => result.epoch = c.currentEpoch ∧ result.cachedAtSlot = c.currentSlot
  | .setEpoch epoch => c.currentEpoch ≤ epoch
  | .setSlot slot => c.currentSlot ≤ slot
  | _ => True

/-- The slot does not move while a clock result of the current epoch is resident. -/
def ClockGone (c : SysvarCache) : Op → Prop
  | .setSlot slot => slot ≠ c.currentSlot → ∀ key entry, key.syscallId = solGetClockSysvar →
      c.resident key = some entry → entry.epoch ≠ c.currentEpoch
  | _ => True

/-- The policies are those of `new`, and no entry is from a later epoch. -/
def EpochBounded (c : SysvarCache) : Prop :=
  c.invalidationMap = registeredPolicies ∧
    ∀ key entry, c.resident key = some entry → entry.epoch ≤ c.currentEpoch

lemma epochBounded_step {op : Op} (h : EpochBounded c) (hop : Tagged c op) :
    EpochBounded (c.step op) := by
  obtain ⟨hmap, hle⟩ := h
  refine ⟨by rw [step_invalidationMap, hmap], ?_⟩
  intro key entry hres
  -- the epoch after the step is not smaller than before
  have hmono : c.currentEpoch ≤ (c.step op).currentEpoch := by
    rw [(step_counters op).1]
    cases op with
    | setEpoch epoch => exact hop
    | _ => exact UInt64.le_refl _
  rcases resident_of_step hres with rfl | hres'
  · rw [(show entry.epoch = c.currentEpoch from hop.1)]
    exact hmono
  · exact UInt64.le_trans (hle key entry hres') hmono

/-- The policy of the slot hashes rules out a stale hit; only the clock is left to look at. -/
lemma slotFresh_iff (hmap : c.invalidationMap = registeredPolicies) :
    SlotFresh c ↔ ∀ key entry, key.syscallId = solGetClockSysvar →
      c.resident key = some entry → entry.epoch = c.currentEpoch →
        entry.cachedAtSlot = c.currentSlot := by
  have hclock : c.policy solGetClockSysvar = .epochBound := by rw [policy, hmap]; rfl
  have hhashes : c.policy solGetSlotHashesSysvar = .slot := by rw [policy, hmap]; rfl
  constructor
  · intro h key entry hid hres hepoch
    refine h key entry (Or.inl hid) (get_eq_some_iff.mpr ⟨hres, ?_⟩)
    rw [hid, hclock]
    exact decide_eq_true hepoch
  · rintro h key entry (hid | hid) hget
    · obtain ⟨hres, hvalid⟩ := get_eq_some_iff.mp hget
      rw [hid, hclock] at hvalid
      exact h key entry hid hres (of_decide_eq_true hvalid)
    · obtain ⟨-, hvalid⟩ := get_eq_some_iff.mp hget
      rw [hid, hhashes] at hvalid
      exact of_decide_eq_true hvalid

/-- A step from a state without stale hits leads to one exactly when it does not move the slot
past a clock result of the current epoch. -/
lemma slotFresh_step_iff {op : Op} (hI : EpochBounded c) (h : SlotFresh c)
    (hop : Tagged c op) : SlotFresh (c.step op) ↔ ClockGone c op := by
  have hmap' : (c.step op).invalidationMap = registeredPolicies := by
    rw [step_invalidationMap, hI.1]
  rw [slotFresh_iff hI.1] at h
  rw [slotFresh_iff hmap', (step_counters op).1, (step_counters op).2]
  cases op with
  | insert key result =>
    refine iff_of_true ?_ trivial
    intro k entry hid hres hepoch
    rcases resident_of_insert hres with ⟨-, rfl⟩ | hres'
    · exact hop.2
    · exact h k entry hid hres' hepoch
  | setEpoch epoch =>
    refine iff_of_true ?_ trivial
    intro k entry hid hres hepoch
    -- the epochs only advance, so an entry of the new epoch is one of the old epoch
    have hle : entry.epoch ≤ c.currentEpoch := hI.2 k entry hres
    refine h k entry hid hres (UInt64.le_antisymm hle ?_)
    rw [hepoch]
    exact hop
  | setSlot slot =>
    constructor
    · intro h' hne k entry hid hres hepoch
      exact hne ((h' k entry hid hres hepoch).symm.trans (h k entry hid hres hepoch))
    · intro hgone k entry hid hres hepoch
      by_cases hne : slot = c.currentSlot
      · rw [hne]
        exact h k entry hid hres hepoch
      · exact absurd hepoch (hgone hne k entry hid hres)
  | _ =>
    refine iff_of_true ?_ trivial
    intro k entry hid hres
    exact h k entry hid ((resident_of_step hres).resolve_left (by simp))

/-- **A run serves no entry of an earlier slot exactly when the slot never moves while a clock
result of the current epoch is resident.** -/
theorem slotFresh_iff_clockGone (capacity : ℕ) (epoch slot : UInt64) (ops : List Op)
    (hops : Run.EveryStep step Tagged (new capacity epoch slot) ops) :
    Run.EveryState step SlotFresh (new capacity epoch slot) ops ↔
      Run.EveryStep step ClockGone (new capacity epoch slot) ops := by
  have hinit : EpochBounded (new capacity epoch slot) :=
    ⟨rfl, fun key entry h => absurd h (by simp)⟩
  have hfresh : SlotFresh (new capacity epoch slot) :=
    (slotFresh_iff rfl).mpr fun key entry _ h => absurd h (by simp)
  have hI : ∀ s a, EpochBounded s → Tagged s a → EpochBounded (s.step a) :=
    fun s a hs ha => epochBounded_step hs ha
  have hP : ∀ s a, EpochBounded s → SlotFresh s → Tagged s a →
      (SlotFresh (s.step a) ↔ ClockGone s a) :=
    fun s a hs hPs ha => slotFresh_step_iff hs hPs ha
  exact Run.everyState_iff_everyStep hI hP hinit hfresh hops

/-- The slot hashes may stay resident when the slot moves. -/
theorem slotFresh_iff_clockGone_slotHashes :
    Run.EveryState step SlotFresh (new 2 1 10)
      [.insert ⟨solGetSlotHashesSysvar, 0⟩ ⟨[7], 1, 10⟩, .setSlot 11] := by
  refine (slotFresh_iff_clockGone 2 1 10 _ ?_).mpr ?_
  · refine Run.everyStep_cons.mpr ⟨⟨rfl, rfl⟩, ?_⟩
    exact Run.everyStep_cons.mpr ⟨(by decide : (10 : UInt64) ≤ 11), Run.everyStep_nil⟩
  · refine Run.everyStep_cons.mpr ⟨trivial, ?_⟩
    refine Run.everyStep_cons.mpr ⟨?_, Run.everyStep_nil⟩
    intro _ key entry hid hres
    rcases resident_of_insert hres with ⟨rfl, -⟩ | hres'
    · exact absurd hid (by decide)
    · exact absurd hres' (by simp)

/-- A miss on the clock, the insert that follows it, and a new slot. -/
def clockRun : List Op :=
  [.get ⟨solGetClockSysvar, 0⟩, .insert ⟨solGetClockSysvar, 0⟩ ⟨[7], 1, 10⟩, .setSlot 11]

/-- In the new slot the clock of the old one is served. -/
theorem clock_hit_of_earlier_slot :
    Run.EveryStep step Tagged (new 128 1 10) clockRun ∧
      ((Run.after step (new 128 1 10) clockRun).get ⟨solGetClockSysvar, 0⟩).1 =
        some ⟨[7], 1, 10⟩ ∧
      (Run.after step (new 128 1 10) clockRun).currentSlot = 11 := by
  refine ⟨?_, by decide, by decide⟩
  refine Run.everyStep_cons.mpr ⟨trivial, Run.everyStep_cons.mpr ⟨⟨by decide, by decide⟩, ?_⟩⟩
  exact Run.everyStep_cons.mpr ⟨(by decide : (10 : UInt64) ≤ 11), Run.everyStep_nil⟩

/-! ## Entries that the sweeps keep and `get` rejects -/

/-- Every resident entry survives both sweeps exactly when `get` would hit on it. -/
def SweepsAgree (c : SysvarCache) : Prop :=
  ∀ key entry, c.resident key = some entry →
    (c.invalidateSlot.invalidateEpoch.resident key = some entry ↔ (c.get key).1 = some entry)

/-- The step leaves every entry of an id that is not registered with the current epoch. -/
def UnregisteredCurrent (c : SysvarCache) : Op → Prop
  | .insert key result =>
      c.invalidationMap.lookup key.syscallId = none → result.epoch = c.currentEpoch
  | .setEpoch epoch => ∀ key entry, c.invalidationMap.lookup key.syscallId = none →
      c.resident key = some entry → entry.epoch = epoch
  | _ => True

/-- What survives both sweeps. -/
lemma resident_sweeps_iff {key : CacheKey} {entry : CachedResult} :
    c.invalidateSlot.invalidateEpoch.resident key = some entry ↔
      c.resident key = some entry ∧
        (c.invalidationMap.lookup key.syscallId = none ∨
          c.valid (c.policy key.syscallId) entry = true) := by
  have hslot : c.invalidateSlot.invalidationMap = c.invalidationMap := rfl
  have hepoch : c.invalidateSlot.currentEpoch = c.currentEpoch := rfl
  rw [invalidateEpoch, resident_sweep_iff, hslot, hepoch, invalidateSlot, resident_sweep_iff,
    and_assoc, policy]
  refine and_congr_right fun _ => ?_
  rcases c.invalidationMap.lookup key.syscallId with _ | (_ | _ | _) <;> simp [valid]

/-- The sweeps agree with `get` exactly on the entries whose id is registered or whose epoch
is current. -/
lemma sweepsAgree_iff : SweepsAgree c ↔
    ∀ key entry, c.invalidationMap.lookup key.syscallId = none →
      c.resident key = some entry → entry.epoch = c.currentEpoch := by
  constructor
  · intro h key entry hreg hres
    have hsurvives := resident_sweeps_iff.mpr ⟨hres, Or.inl hreg⟩
    have hvalid := (get_eq_some_iff.mp ((h key entry hres).mp hsurvives)).2
    rw [policy, hreg] at hvalid
    exact of_decide_eq_true hvalid
  · intro h key entry hres
    rw [resident_sweeps_iff, get_eq_some_iff]
    refine and_congr_right fun _ => ⟨?_, Or.inr⟩
    rintro (hreg | hvalid)
    · rw [policy, hreg]
      exact decide_eq_true (h key entry hreg hres)
    · exact hvalid

lemma sweepsAgree_step_iff {op : Op} (h : SweepsAgree c) :
    SweepsAgree (c.step op) ↔ UnregisteredCurrent c op := by
  rw [sweepsAgree_iff] at h ⊢
  rw [step_invalidationMap, (step_counters op).1]
  cases op with
  | insert key result =>
    constructor
    · intro h' hreg
      exact h' key result hreg (resident_insert_self key result)
    · intro hcur k entry hreg hres
      rcases resident_of_insert hres with ⟨rfl, rfl⟩ | hres'
      · exact hcur hreg
      · exact h k entry hreg hres'
  | setEpoch epoch => exact Iff.rfl
  | _ =>
    refine iff_of_true ?_ trivial
    intro k entry hreg hres
    exact h k entry hreg ((resident_of_step hres).resolve_left (by simp))

/-- **The sweeps agree with `get` in every state of a run exactly when no step leaves an
entry of an id that is not registered with an epoch that is not current.** -/
theorem sweepsAgree_iff_unregisteredCurrent (capacity : ℕ) (epoch slot : UInt64)
    (ops : List Op) :
    Run.EveryState step SweepsAgree (new capacity epoch slot) ops ↔
      Run.EveryStep step UnregisteredCurrent (new capacity epoch slot) ops := by
  have hinit : SweepsAgree (new capacity epoch slot) :=
    sweepsAgree_iff.mpr fun key entry _ h => absurd h (by simp)
  have hP : ∀ s a, SweepsAgree s → (SweepsAgree (s.step a) ↔ UnregisteredCurrent s a) :=
    fun s a hs => sweepsAgree_step_iff hs
  exact Run.everyState_iff_everyStep_of_forall hP hinit

/-- The stake history of an old epoch survives both sweeps, and `get` misses on it. -/
theorem stakeHistory_survives_sweeps :
    let c := Run.after step (new 128 1 10)
      [.insert ⟨solGetStakeHistorySysvar, 0⟩ ⟨[7], 1, 10⟩, .setEpoch 2]
    c.invalidateSlot.invalidateEpoch.resident ⟨solGetStakeHistorySysvar, 0⟩ =
        some ⟨[7], 1, 10⟩ ∧
      (c.get ⟨solGetStakeHistorySysvar, 0⟩).1 = none := by
  decide

end SysvarCache

end SyscallMind
