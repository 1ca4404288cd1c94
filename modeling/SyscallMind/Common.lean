/-
# The vocabulary shared by all crates

Identifiers, trace events, safety classes and the argument hash, as in `common/src/lib.rs`.
The machine integers are Lean's fixed-width ones and the two byte arrays are vectors of
length 32.
-/
import Mathlib.Data.Vector.Basic

namespace SyscallMind

/-- A public key, `[u8; 32]`. -/
abbrev Pubkey := Vector UInt8 32

abbrev SyscallId := UInt32

/-- A transaction identifier, `[u8; 32]`. -/
abbrev TransactionId := Vector UInt8 32

abbrev ArgsHash := UInt64

structure SyscallTraceEvent where
  programId : Pubkey
  syscallId : SyscallId
  argsHash : ArgsHash
  timestampNs : UInt64
  slot : UInt64
  transactionId : TransactionId
  depth : UInt8
deriving DecidableEq, Repr

inductive SafetyClass
  | readOnly
  | idempotent
  | stateChanging
  | orderSensitive
deriving DecidableEq, Repr

/-- The text of a class under the derived `Debug` format. -/
def SafetyClass.debug : SafetyClass → String
  | readOnly => "ReadOnly"
  | idempotent => "Idempotent"
  | stateChanging => "StateChanging"
  | orderSensitive => "OrderSensitive"

structure CacheKey where
  syscallId : SyscallId
  argsHash : ArgsHash
deriving DecidableEq, Repr

namespace SyscallIds

def solGetClockSysvar : SyscallId := 1
def solGetRentSysvar : SyscallId := 2
def solGetEpochScheduleSysvar : SyscallId := 3
def solGetFeesSysvar : SyscallId := 4
def solGetSlotHashesSysvar : SyscallId := 5
def solGetStakeHistorySysvar : SyscallId := 6
def solLog : SyscallId := 10
def solLog64 : SyscallId := 11
def solLogPubkey : SyscallId := 12
def solLogComputeUnits : SyscallId := 13
def solSha256 : SyscallId := 20
def solKeccak256 : SyscallId := 21
def solSecp256k1Recover : SyscallId := 22
def solEd25519Verify : SyscallId := 23
def solInvokeSigned : SyscallId := 30
def solSetReturnData : SyscallId := 40
def solGetReturnData : SyscallId := 41
def solAllocFree : SyscallId := 50
def solMemcpy : SyscallId := 51
def solMemmove : SyscallId := 52
def solMemset : SyscallId := 53
def solMemcmp : SyscallId := 54
def solPanic : SyscallId := 60
def solAbort : SyscallId := 61

end SyscallIds

/-- One round of the hash: mix in a byte, then multiply modulo `2 ^ 64`. -/
def fnvRound (hash : UInt64) (byte : UInt8) : UInt64 :=
  (hash ^^^ byte.toUInt64) * 1099511628211

/-- The 64-bit FNV-1a hash of a byte string. -/
def fnvHash (data : List UInt8) : ArgsHash :=
  data.foldl fnvRound 14695981039346656037

def zeroPubkey : Pubkey := Vector.replicate 32 0

def zeroTxId : TransactionId := Vector.replicate 32 0

end SyscallMind
