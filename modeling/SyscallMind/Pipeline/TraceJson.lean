/-
# Execution windows as JSON values

The JSON values that the derived `Serialize` and `Deserialize` of `ExecutionWindow` and
`SyscallTraceEvent` stand for.  A struct is written as the object of its fields in the order
of their declaration, a byte array as the array of its numbers.  A struct is read from an
object that has each of its fields once, in any order and possibly among other members, or
from the array of its fields; an integer has to fit its type, and a byte array has to have its
length.
-/
import SyscallMind.Lib.Json
import SyscallMind.Pipeline.WindowBuilder

namespace SyscallMind

open Lib

namespace TraceJson

/-- Keys with the given names. -/
def keys (names : List String) (h : (names.all fun name => name.toList.all isPlain) = true) :
    List Key :=
  names.pmap (fun name hname => ⟨name.toList, hname⟩) fun name hname =>
    List.all_eq_true.mp h name hname

/-! ## Integers and byte arrays -/

/-- An unsigned integer of a type with `size` values. -/
def uintOfJson {A : Type*} (size : ℕ) (ofNat : ℕ → A) : Json → Option A
  | .num n => if n < size then some (ofNat n) else none
  | _ => none

def u8OfJson : Json → Option UInt8 := uintOfJson UInt8.size UInt8.ofNat

def u32OfJson : Json → Option UInt32 := uintOfJson UInt32.size UInt32.ofNat

def u64OfJson : Json → Option UInt64 := uintOfJson UInt64.size UInt64.ofNat

def bytesToJson (bytes : Vector UInt8 32) : Json := .arr (bytes.toList.map fun b => .num b.toNat)

def bytesOfJson : Json → Option (Vector UInt8 32)
  | .arr items =>
      match items.mapM u8OfJson with
      | some bytes =>
          if h : bytes.length = 32 then some ⟨bytes.toArray, by rw [List.size_toArray, h]⟩
          else none
      | none => none
  | _ => none

/-! ## Structs -/

/-- The value of a field that an object has exactly once. -/
def field (members : List (Key × Json)) (name : Key) : Option Json :=
  match members.filter fun m => m.1 = name with
  | [(_, v)] => some v
  | _ => none

/-- The values of the fields of a struct. -/
def fields (names : List Key) : Json → Option (List Json)
  | .obj members => names.mapM (field members)
  | .arr items => if items.length = names.length then some items else none
  | .num _ => none

def eventFields : List Key :=
  keys ["program_id", "syscall_id", "args_hash", "timestamp_ns", "slot", "transaction_id",
    "depth"] (by decide)

def eventToJson (e : SyscallTraceEvent) : Json :=
  .obj (eventFields.zip [bytesToJson e.programId, .num e.syscallId.toNat, .num e.argsHash.toNat,
    .num e.timestampNs.toNat, .num e.slot.toNat, bytesToJson e.transactionId,
    .num e.depth.toNat])

def eventOfJson (j : Json) : Option SyscallTraceEvent :=
  match fields eventFields j with
  | some [programId, syscallId, argsHash, timestampNs, slot, transactionId, depth] => do
      return ⟨← bytesOfJson programId, ← u32OfJson syscallId, ← u64OfJson argsHash,
        ← u64OfJson timestampNs, ← u64OfJson slot, ← bytesOfJson transactionId,
        ← u8OfJson depth⟩
  | _ => none

def eventsToJson (events : List SyscallTraceEvent) : Json := .arr (events.map eventToJson)

def eventsOfJson : Json → Option (List SyscallTraceEvent)
  | .arr items => items.mapM eventOfJson
  | _ => none

def windowFields : List Key :=
  keys ["transaction_id", "slot", "events", "start_ts", "end_ts"] (by decide)

def windowToJson (w : ExecutionWindow) : Json :=
  .obj (windowFields.zip [bytesToJson w.transactionId, .num w.slot.toNat, eventsToJson w.events,
    .num w.startTs.toNat, .num w.endTs.toNat])

def windowOfJson (j : Json) : Option ExecutionWindow :=
  match fields windowFields j with
  | some [transactionId, slot, events, startTs, endTs] => do
      return ⟨← bytesOfJson transactionId, ← u64OfJson slot, ← eventsOfJson events,
        ← u64OfJson startTs, ← u64OfJson endTs⟩
  | _ => none

/-! ## Reading what was written -/

@[simp] lemma u8OfJson_toNat (x : UInt8) : u8OfJson (.num x.toNat) = some x := by
  rw [u8OfJson, uintOfJson, if_pos x.toNat_lt_size, UInt8.ofNat_toNat]

@[simp] lemma u32OfJson_toNat (x : UInt32) : u32OfJson (.num x.toNat) = some x := by
  rw [u32OfJson, uintOfJson, if_pos x.toNat_lt_size, UInt32.ofNat_toNat]

@[simp] lemma u64OfJson_toNat (x : UInt64) : u64OfJson (.num x.toNat) = some x := by
  rw [u64OfJson, uintOfJson, if_pos x.toNat_lt_size, UInt64.ofNat_toNat]

/-- Where each element is read back, so is the list. -/
lemma mapM_map_of_inverse {A B : Type} {f : A → B} {g : B → Option A} (h : ∀ a, g (f a) = some a)
    (l : List A) : (l.map f).mapM g = some l := by
  induction l with
  | nil => rfl
  | cons a l ih => rw [List.map_cons, List.mapM_cons, h, ih]; rfl

@[simp] lemma bytesOfJson_bytesToJson (bytes : Vector UInt8 32) :
    bytesOfJson (bytesToJson bytes) = some bytes := by
  have hbytes : (bytes.toList.map fun b => Json.num b.toNat).mapM u8OfJson =
      some bytes.toList := mapM_map_of_inverse u8OfJson_toNat _
  rw [bytesToJson, bytesOfJson, hbytes]
  simp [Vector.toList]

lemma mapM_field_cons {name : Key} {v : Json} {members : List (Key × Json)} {names : List Key}
    (h : name ∉ names) :
    names.mapM (field ((name, v) :: members)) = names.mapM (field members) := by
  induction names with
  | nil => rfl
  | cons name' names ih =>
    obtain ⟨hne, hmem⟩ : ¬ name = name' ∧ name ∉ names := by simpa using h
    have hfield : field ((name, v) :: members) name' = field members name' := by
      simp [field, hne]
    rw [List.mapM_cons, List.mapM_cons, hfield, ih hmem]

/-- The fields of an object are found under their names. -/
lemma fields_zip {names : List Key} {vs : List Json} (hnodup : names.Nodup)
    (hlen : vs.length = names.length) : fields names (.obj (names.zip vs)) = some vs := by
  rw [fields]
  induction names generalizing vs with
  | nil => rw [List.length_eq_zero_iff.mp hlen]; rfl
  | cons name names ih =>
    obtain ⟨v, vs, rfl⟩ : ∃ v vs', vs = v :: vs' := List.exists_cons_of_length_eq_add_one hlen
    obtain ⟨hname, hnodup⟩ := List.nodup_cons.mp hnodup
    -- no other member has the first name, and the other names skip the first member
    have hother : (names.zip vs).filter (fun m => m.1 = name) = [] := by
      refine List.filter_eq_nil_iff.mpr fun m hm heq => hname ?_
      rw [← of_decide_eq_true heq]
      exact (List.of_mem_zip hm).1
    have hfirst : field ((name, v) :: names.zip vs) name = some v := by
      simp [field, hother]
    rw [List.zip_cons_cons, List.mapM_cons, hfirst, mapM_field_cons hname,
      ih hnodup (by simpa using hlen)]
    rfl

lemma eventOfJson_eventToJson (e : SyscallTraceEvent) : eventOfJson (eventToJson e) = some e := by
  rw [eventOfJson, eventToJson, fields_zip (by decide) rfl]
  simp

lemma eventsOfJson_eventsToJson (events : List SyscallTraceEvent) :
    eventsOfJson (eventsToJson events) = some events := by
  rw [eventsToJson, eventsOfJson]
  exact mapM_map_of_inverse eventOfJson_eventToJson events

/-- **A window is read back from its JSON value.** -/
theorem windowOfJson_windowToJson (w : ExecutionWindow) :
    windowOfJson (windowToJson w) = some w := by
  rw [windowOfJson, windowToJson, fields_zip (by decide) rfl]
  simp [eventsOfJson_eventsToJson]

/-! ## How deep the values are nested -/

lemma nested_bytesToJson (d : ℕ) (bytes : Vector UInt8 32) :
    (bytesToJson bytes).Nested (d + 1) := by
  refine .arr fun v hv => ?_
  obtain ⟨b, -, rfl⟩ := List.mem_map.mp hv
  exact .num _

lemma nested_eventToJson (d : ℕ) (e : SyscallTraceEvent) : (eventToJson e).Nested (d + 2) := by
  refine .obj (Json.nested_of_mem_zip ?_)
  simp only [List.forall_mem_cons, List.not_mem_nil, IsEmpty.forall_iff, implies_true, and_true]
  exact ⟨nested_bytesToJson d _, .num _, .num _, .num _, .num _, nested_bytesToJson d _, .num _⟩

lemma nested_windowToJson (d : ℕ) (w : ExecutionWindow) : (windowToJson w).Nested (d + 4) := by
  refine .obj (Json.nested_of_mem_zip ?_)
  simp only [List.forall_mem_cons, List.not_mem_nil, IsEmpty.forall_iff, implies_true, and_true]
  refine ⟨nested_bytesToJson _ _, .num _, .arr fun v hv => ?_, .num _, .num _⟩
  obtain ⟨e, -, rfl⟩ := List.mem_map.mp hv
  exact nested_eventToJson d e

end TraceJson

end SyscallMind
