/-
# Bounded channels

A bounded queue between senders and one receiver.  A `trySend` never waits: it fails when the
receiver is gone, and otherwise exactly when the queue is full.  The items that are still in
the queue when the receiver is dropped stay where they are, out of reach.
-/
import SyscallMind.Lib.BoundedQueue

namespace Lib

structure Channel (E : Type*) (cap : ℕ) where
  queue : BoundedQueue E cap
  /-- The receiver is alive. -/
  connected : Bool

/-- The outcome of a `trySend`. -/
inductive SendOutcome
  | ok
  | full
  | disconnected
deriving DecidableEq, Repr

namespace Channel

variable {E : Type*} {cap : ℕ}

/-- The empty channel, with its receiver. -/
def bounded (E : Type*) (cap : ℕ) : Channel E cap := ⟨BoundedQueue.new, true⟩

variable (c : Channel E cap)

def items : List E := c.queue.items

def trySend (e : E) : SendOutcome × Channel E cap :=
  if !c.connected then (.disconnected, c)
  else if h : c.queue.items.length < cap then (.ok, { c with queue := c.queue.enqueue e h })
  else (.full, c)

/-- The first item, if there is one. -/
def tryRecv : Option E × Channel E cap :=
  match c.queue.items.head? with
  | some e => (some e, { c with queue := c.queue.dequeue })
  | none => (none, c)

def dropReceiver : Channel E cap := { c with connected := false }

/-! ## What the operations do -/

lemma trySend_of_disconnected (e : E) (h : c.connected = false) :
    c.trySend e = (.disconnected, c) := by
  rw [trySend, h]
  rfl

/-- To a live receiver a send succeeds where there is room, and only there. -/
lemma trySend_cases (e : E) (h : c.connected = true) :
    (c.items.length < cap ∧
        ∃ c', c.trySend e = (.ok, c') ∧ c'.items = c.items ++ [e] ∧ c'.connected = true) ∨
      (c.items.length = cap ∧ c.trySend e = (.full, c)) := by
  by_cases hroom : c.queue.items.length < cap
  · refine Or.inl ⟨hroom, { c with queue := c.queue.enqueue e hroom }, ?_, rfl, h⟩
    simp [trySend, h, hroom]
  · refine Or.inr ⟨Nat.le_antisymm c.queue.length_le (Nat.le_of_not_lt hroom), ?_⟩
    simp [trySend, h, hroom]

lemma tryRecv_items : c.tryRecv.1.toList ++ c.tryRecv.2.items = c.items := by
  have hself : c.items = c.queue.items := rfl
  cases hq : c.queue.items with
  | nil => simp [tryRecv, hself, hq]
  | cons e rest => simp [tryRecv, hq, items, BoundedQueue.dequeue]

lemma tryRecv_connected : c.tryRecv.2.connected = c.connected := by
  rw [tryRecv]
  cases c.queue.items.head? <;> rfl

end Channel

end Lib
