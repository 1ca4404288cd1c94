/-
# Bounded first-in first-out queues

The queue of a sequential program: the items in the order in which they came in, at most
`cap` of them, which is a field of the structure.  An operation is named together with its
result, so that a history of a queue is a list of operations that it can take one after the
other.

In every history the items that went in are those that came out, followed by those that are
still there (`History.fifo`).
-/
import Mathlib.Data.List.Basic

namespace Lib

/-- A queue of at most `cap` items. -/
structure BoundedQueue (E : Type*) (cap : ℕ) where
  items : List E
  length_le : items.length ≤ cap

namespace BoundedQueue

variable {E : Type*} {cap : ℕ}

def new : BoundedQueue E cap := ⟨[], Nat.zero_le cap⟩

/-- Put an item at the end, where there is room. -/
def enqueue (q : BoundedQueue E cap) (e : E) (h : q.items.length < cap) : BoundedQueue E cap :=
  ⟨q.items ++ [e], by rw [List.length_append]; exact h⟩

/-- Remove the first item. -/
def dequeue (q : BoundedQueue E cap) : BoundedQueue E cap :=
  ⟨q.items.tail, by rw [List.length_tail]; exact Nat.le_trans (Nat.sub_le _ _) q.length_le⟩

/-- An operation with its result. -/
inductive Op (E : Type*)
  /-- The item was put into the queue. -/
  | enqueue (e : E)
  /-- The queue was full. -/
  | full
  /-- The item was taken from the queue. -/
  | dequeue (e : E)
  /-- The queue was empty. -/
  | empty

/-- The queue can take the operation with this result. -/
inductive Step : BoundedQueue E cap → Op E → BoundedQueue E cap → Prop
  | enqueue (q) (e) (h) : Step q (.enqueue e) (q.enqueue e h)
  | full (q) (h : q.items.length = cap) : Step q .full q
  | dequeue (q) (e) (h : q.items.head? = some e) : Step q (.dequeue e) q.dequeue
  | empty (q) (h : q.items = []) : Step q .empty q

/-- The operations lead from the new queue to the given one. -/
inductive History : List (Op E) → BoundedQueue E cap → Prop
  | nil : History [] new
  | snoc {ops q q'} {op} : History ops q → Step q op q' → History (ops ++ [op]) q'

def Op.enqueued : Op E → Option E
  | .enqueue e => some e
  | _ => none

def Op.dequeued : Op E → Option E
  | .dequeue e => some e
  | _ => none

/-- **First in, first out.**  What went in is what came out, followed by what is there. -/
theorem History.fifo {ops : List (Op E)} {q : BoundedQueue E cap} (h : History ops q) :
    ops.filterMap Op.enqueued = ops.filterMap Op.dequeued ++ q.items := by
  induction h with
  | nil => rfl
  | snoc hops hstep ih =>
    rw [List.filterMap_append, List.filterMap_append, ih]
    cases hstep with
    | enqueue e hroom => simp [List.filterMap_cons, Op.enqueued, Op.dequeued, BoundedQueue.enqueue]
    | full hfull => simp [List.filterMap_cons, Op.enqueued, Op.dequeued]
    | dequeue e hhead =>
      obtain ⟨rest, hitems⟩ := List.head?_eq_some_iff.mp hhead
      simp [List.filterMap_cons, Op.enqueued, Op.dequeued, BoundedQueue.dequeue, hitems]
    | empty hempty => simp [List.filterMap_cons, Op.enqueued, Op.dequeued]

end BoundedQueue

end Lib
