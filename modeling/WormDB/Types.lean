import WormDB.ByteCodec

/-! # Entries and configuration

The data model of `core/types.zig` and the part of `core/config.zig` the store
reads.  A `Fault` is how a call of the store can end other than well: one of the
store's errors, or a failed safety check of the language (an integer that does
not fit the field it is cast to), which ends the process. -/
namespace WormDB
open ByteCodec

/-- `packed struct(u8)`: the four fields from the low bit up. -/
structure EntryFlags where
  isWorm : Bool
  isDeleted : Bool
  arenaOwned : Bool
  reserved : Fin 32
  deriving DecidableEq

namespace EntryFlags

def toByte (flags : EntryFlags) : UInt8 :=
  (flags.isWorm.toNat + 2 * flags.isDeleted.toNat + 4 * flags.arenaOwned.toNat +
    8 * flags.reserved.val).toUInt8

def ofByte (b : UInt8) : EntryFlags :=
  ⟨b.toNat % 2 = 1, b.toNat / 2 % 2 = 1, b.toNat / 4 % 2 = 1,
    ⟨b.toNat / 8 % 32, Nat.mod_lt _ (by decide)⟩⟩

/-- The flags of a freshly written entry. -/
def written (isWorm : Bool) : EntryFlags := ⟨isWorm, false, false, 0⟩

theorem ofByte_toByte (flags : EntryFlags) : ofByte flags.toByte = flags := by
  obtain ⟨worm, deleted, arena, reserved⟩ := flags
  revert worm deleted arena reserved
  decide

end EntryFlags

structure Entry where
  key : Bytes
  value : Bytes
  timestamp : UInt64
  flags : EntryFlags

/-- What a client sees of an entry: where its memory lives is not part of it. -/
structure Content where
  value : Bytes
  timestamp : UInt64
  isWorm : Bool
  deriving DecidableEq

def Entry.content (e : Entry) : Content := ⟨e.value, e.timestamp, e.flags.isWorm⟩

inductive StoreError where
  | keyNotFound | wormViolation | outOfMemory | ioError | corruption
  deriving DecidableEq

/-- How a call ends other than well. -/
inductive Fault where
  | error (e : StoreError)
  | trap
  deriving DecidableEq

inductive PersistenceMode where
  | full | snapshot | none
  deriving DecidableEq

structure Config where
  persistence : PersistenceMode
  syncWrites : Bool
  maxWalSize : Nat

end WormDB
