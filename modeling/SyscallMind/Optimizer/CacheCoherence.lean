/-
# The cache is correct relative to its policies

A world says what each syscall returns at each epoch and slot.  It respects the policies if
the result of an id depends on nothing but the tag that the policy of the id checks.  Reads
go through `get`, and a miss is filled by asking the world and storing its answer under the
current tags.

Every resident entry is the world's answer at the entry's own tags.  This invariant does not
mention the counters or the capacity, so they may do what they like, and it is all that a hit
needs: every read returns the world's answer at the current epoch and slot.
-/
import SyscallMind.Optimizer.Cache

namespace SyscallMind

open Lib SyscallIds

/-- What a syscall returns for an id, an argument hash, an epoch and a slot. -/
abbrev World := SyscallId → ArgsHash → UInt64 → UInt64 → List UInt8

/-- The result of an id depends only on the tag that its policy checks. -/
def World.RespectsPolicy (v : World) : Prop :=
  ∀ id h epoch slot epoch' slot',
    match (registeredPolicies.lookup id).getD .epochBound with
    | .permanent => v id h epoch slot = v id h epoch' slot'
    | .epochBound => epoch = epoch' → v id h epoch slot = v id h epoch' slot'
    | .slot => slot = slot' → v id h epoch slot = v id h epoch' slot'

/-- A reader of the world, and those who move the counters and sweep. -/
inductive WorldOp
  | read (key : CacheKey)
  | invalidateSlot
  | invalidateEpoch
  | setEpoch (epoch : UInt64)
  | setSlot (slot : UInt64)
deriving DecidableEq, Repr

/-- What the reads return when each of them asks the world. -/
def World.reads (v : World) : UInt64 → UInt64 → List WorldOp → List (List UInt8)
  | _, _, [] => []
  | epoch, slot, .read key :: ops =>
      v key.syscallId key.argsHash epoch slot :: World.reads v epoch slot ops
  | _, slot, .setEpoch epoch :: ops => World.reads v epoch slot ops
  | epoch, _, .setSlot slot :: ops => World.reads v epoch slot ops
  | epoch, slot, .invalidateSlot :: ops => World.reads v epoch slot ops
  | epoch, slot, .invalidateEpoch :: ops => World.reads v epoch slot ops

namespace SysvarCache

variable (v : World) (c : SysvarCache)

/-- Read through the cache: a miss asks the world and stores the answer. -/
def readThrough (key : CacheKey) : List UInt8 × SysvarCache :=
  match c.get key with
  | (some entry, c) => (entry.data, c)
  | (none, c) =>
      let data := v key.syscallId key.argsHash c.currentEpoch c.currentSlot
      (data, c.insert key ⟨data, c.currentEpoch, c.currentSlot⟩)

/-- What the reads return when they go through the cache. -/
def cachedReads : SysvarCache → List WorldOp → List (List UInt8)
  | _, [] => []
  | c, .read key :: ops => (c.readThrough v key).1 :: cachedReads (c.readThrough v key).2 ops
  | c, .invalidateSlot :: ops => cachedReads (c.step .invalidateSlot) ops
  | c, .invalidateEpoch :: ops => cachedReads (c.step .invalidateEpoch) ops
  | c, .setEpoch epoch :: ops => cachedReads (c.step (.setEpoch epoch)) ops
  | c, .setSlot slot :: ops => cachedReads (c.step (.setSlot slot)) ops

/-- Every resident entry is the world's answer at the entry's own tags. -/
structure Coherent (c : SysvarCache) : Prop where
  policies : c.invalidationMap = registeredPolicies
  data_eq : ∀ key entry, c.resident key = some entry →
    entry.data = v key.syscallId key.argsHash entry.epoch entry.cachedAtSlot

variable {v c}

lemma coherent_new (capacity : ℕ) (epoch slot : UInt64) :
    Coherent v (new capacity epoch slot) where
  policies := rfl
  data_eq key entry h := absurd h (by simp)

/-- The only step that has to be looked at is an insert. -/
lemma Coherent.step (h : Coherent v c) (op : Op)
    (hop : ∀ key entry, op = .insert key entry →
      entry.data = v key.syscallId key.argsHash entry.epoch entry.cachedAtSlot) :
    Coherent v (c.step op) where
  policies := by rw [step_invalidationMap, h.policies]
  data_eq := by
    intro key entry hres
    rcases resident_of_step hres with hins | hres'
    · exact hop key entry hins
    · exact h.data_eq key entry hres'

/-- A valid entry of a coherent cache is the world's answer at the current counters. -/
lemma Coherent.data_of_valid (hv : v.RespectsPolicy) (h : Coherent v c) {key : CacheKey}
    {entry : CachedResult} (hres : c.resident key = some entry)
    (hvalid : c.valid (c.policy key.syscallId) entry = true) :
    entry.data = v key.syscallId key.argsHash c.currentEpoch c.currentSlot := by
  have hlaw := hv key.syscallId key.argsHash entry.epoch entry.cachedAtSlot c.currentEpoch
    c.currentSlot
  rw [h.data_eq key entry hres]
  rw [policy, h.policies] at hvalid
  cases hp : (registeredPolicies.lookup key.syscallId).getD .epochBound with
  | permanent =>
    rw [hp] at hlaw
    exact hlaw
  | epochBound =>
    rw [hp] at hlaw hvalid
    exact hlaw (of_decide_eq_true hvalid)
  | slot =>
    rw [hp] at hlaw hvalid
    exact hlaw (of_decide_eq_true hvalid)

/-- What a read through the cache can do: return a valid entry, or ask the world. -/
lemma readThrough_cases (key : CacheKey) :
    (∃ entry, c.resident key = some entry ∧
      c.valid (c.policy key.syscallId) entry = true ∧
      c.readThrough v key = (entry.data, c.step (.get key))) ∨
    c.readThrough v key =
      (v key.syscallId key.argsHash c.currentEpoch c.currentSlot,
        (c.step (.get key)).step (.insert key
          ⟨v key.syscallId key.argsHash c.currentEpoch c.currentSlot, c.currentEpoch,
            c.currentSlot⟩)) := by
  obtain ⟨hepoch, hslot, -⟩ := c.get_snd_frame key
  rcases hg : c.get key with ⟨_ | entry, c'⟩
  · rw [hg] at hepoch hslot
    have hepoch' : c'.currentEpoch = c.currentEpoch := hepoch
    have hslot' : c'.currentSlot = c.currentSlot := hslot
    right
    simp only [readThrough, hg, hepoch', hslot', step]
  · obtain ⟨hres, hvalid⟩ := get_eq_some_iff.mp (congrArg Prod.fst hg)
    refine Or.inl ⟨entry, hres, hvalid, ?_⟩
    simp only [readThrough, hg, step]

/-- A read returns the world's answer, keeps the cache coherent and moves no counter. -/
lemma readThrough_spec (hv : v.RespectsPolicy) (h : Coherent v c) (key : CacheKey) :
    (c.readThrough v key).1 = v key.syscallId key.argsHash c.currentEpoch c.currentSlot ∧
      Coherent v (c.readThrough v key).2 ∧
      (c.readThrough v key).2.currentEpoch = c.currentEpoch ∧
      (c.readThrough v key).2.currentSlot = c.currentSlot := by
  have hget : Coherent v (c.step (.get key)) := h.step _ fun k entry heq => by simp at heq
  have hcounters := c.step_counters (.get key)
  rcases c.readThrough_cases (v := v) key with ⟨entry, hres, hvalid, heq⟩ | heq
  · rw [heq]
    exact ⟨h.data_of_valid hv hres hvalid, hget, hcounters⟩
  · have hfill := hget.step (.insert key
      ⟨v key.syscallId key.argsHash c.currentEpoch c.currentSlot, c.currentEpoch,
        c.currentSlot⟩) ?_
    · rw [heq]
      exact ⟨rfl, hfill, hcounters⟩
    · intro k entry hins
      obtain ⟨rfl, rfl⟩ := Op.insert.inj hins
      rfl

lemma cachedReads_eq_of_coherent (hv : v.RespectsPolicy) (h : Coherent v c)
    (ops : List WorldOp) :
    c.cachedReads v ops = v.reads c.currentEpoch c.currentSlot ops := by
  induction ops generalizing c with
  | nil => rfl
  | cons op ops ih =>
    cases op with
    | read key =>
      obtain ⟨hdata, hcoh, hepoch, hslot⟩ := readThrough_spec hv h key
      rw [cachedReads, World.reads, ih hcoh, hdata, hepoch, hslot]
    | invalidateSlot => exact ih (h.step _ fun _ _ heq => by simp at heq)
    | invalidateEpoch => exact ih (h.step _ fun _ _ heq => by simp at heq)
    | setEpoch epoch => exact ih (h.step _ fun _ _ heq => by simp at heq)
    | setSlot slot => exact ih (h.step _ fun _ _ heq => by simp at heq)

/-- **Every read returns what the world returns at the current epoch and slot**, for every
capacity and however the counters move, in a world that respects the policies. -/
theorem cachedReads_eq_reads {v : World} (hv : v.RespectsPolicy) (capacity : ℕ)
    (epoch slot : UInt64) (ops : List WorldOp) :
    (new capacity epoch slot).cachedReads v ops = v.reads epoch slot ops :=
  cachedReads_eq_of_coherent hv (coherent_new capacity epoch slot) ops

/-- The world in which every result is the tag that the policy checks. -/
def tagWorld : World := fun id _ epoch slot =>
  match (registeredPolicies.lookup id).getD .epochBound with
  | .permanent => []
  | .epochBound => [epoch.toUInt8]
  | .slot => [slot.toUInt8]

lemma tagWorld_respectsPolicy : tagWorld.RespectsPolicy := by
  intro id h epoch slot epoch' slot'
  cases hp : (registeredPolicies.lookup id).getD .epochBound with
  | permanent => simp only [tagWorld, hp]
  | epochBound =>
    rintro rfl
    simp only [tagWorld, hp]
  | slot =>
    rintro rfl
    simp only [tagWorld, hp]

/-- The clock is read in two epochs through a cache of one entry, with the slot hashes in
between. -/
theorem cachedReads_eq_reads_tagWorld :
    (new 0 1 10).cachedReads tagWorld
        [.read ⟨solGetClockSysvar, 0⟩, .read ⟨solGetSlotHashesSysvar, 0⟩, .setEpoch 2,
          .read ⟨solGetClockSysvar, 0⟩, .setEpoch 1, .read ⟨solGetClockSysvar, 0⟩] =
      [[1], [10], [2], [1]] :=
  (cachedReads_eq_reads tagWorld_respectsPolicy 0 1 10 _).trans (by decide)

end SysvarCache

end SyscallMind
