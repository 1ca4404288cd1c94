/-
# The trace emitter

`TraceEmitter` of `runtime/src/trace_emitter.rs`: the sending side of a bounded channel, and a
counter of the events that were dropped because the channel was full.
-/
import SyscallMind.Common
import SyscallMind.Lib.Channel

namespace SyscallMind

open Lib

def channelCapacity : ℕ := 65536

/-- The emitter, with the channel that it shares with the receiver. -/
structure TraceEmitter where
  channel : Channel SyscallTraceEvent channelCapacity
  dropped : ℕ

namespace TraceEmitter

def new : TraceEmitter := ⟨Channel.bounded _ _, 0⟩

/-- Non-blocking; drops the event if the channel is full. -/
def emit (t : TraceEmitter) (event : SyscallTraceEvent) : TraceEmitter :=
  match t.channel.trySend event with
  | (.ok, channel) => { t with channel := channel }
  | (.full, channel) => { channel := channel, dropped := t.dropped + 1 }
  | (.disconnected, channel) => { t with channel := channel }

def droppedCount (t : TraceEmitter) : ℕ := t.dropped

/-- To a live receiver an event is sent or counted as dropped. -/
lemma emit_of_connected (t : TraceEmitter) (event : SyscallTraceEvent)
    (h : t.channel.connected = true) :
    (t.emit event).channel.items.length + (t.emit event).dropped =
        t.channel.items.length + t.dropped + 1 ∧
      (t.emit event).channel.connected = true := by
  rcases t.channel.trySend_cases event h with ⟨-, c', hsend, hitems, hc'⟩ | ⟨-, hsend⟩
  · simp only [emit, hsend, hitems, List.length_append, List.length_singleton]
    exact ⟨by omega, hc'⟩
  · simp only [emit, hsend]
    exact ⟨by omega, h⟩

/-- Without a receiver the event is lost, and nothing is counted. -/
lemma emit_of_disconnected (t : TraceEmitter) (event : SyscallTraceEvent)
    (h : t.channel.connected = false) : t.emit event = t := by
  rw [emit, t.channel.trySend_of_disconnected event h]

end TraceEmitter

end SyscallMind
