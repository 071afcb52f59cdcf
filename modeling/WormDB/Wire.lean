import WormDB.ByteReader
import WormDB.ChunkedStream
import Mathlib.Algebra.GroupWithZero.Nat

/-! # The WormWire protocol

The binary framing of `protocol/wire.zig`: a command or a response is one code byte, the
payload's length in four bytes, big endian, and the payload.  The writers are modelled by
the bytes they put on the stream, over a stream that takes them all; the readers take them
off a stream that may hand them over in any pieces.  There are two parsers of a payload:
`parseCommandPayload` copies each field, `parseCommandPayloadZeroCopy` cuts it out of the
payload, and both are given as the source has them.

Memory is assumed to be there: which allocation a failure releases is not modelled. -/
namespace WormDB
open ByteCodec ByteReader ChunkedStream

/-! ## Commands -/

inductive CommandId where
  | get | set | delete | status | clusterStatus | subscribe | unsubscribe | publish | exec
  | clusterPeers | save | auth | vinsert | vdelete | vbulkinsert | vrabitqInstall
  deriving DecidableEq

namespace CommandId

def toByte : CommandId → UInt8
  | get => 0x01
  | set => 0x02
  | delete => 0x03
  | status => 0x04
  | clusterStatus => 0x05
  | subscribe => 0x06
  | unsubscribe => 0x07
  | publish => 0x08
  | exec => 0x09
  | clusterPeers => 0x0A
  | save => 0x0B
  | auth => 0x0C
  | vinsert => 0x0D
  | vdelete => 0x0E
  | vbulkinsert => 0x0F
  | vrabitqInstall => 0x10

def all : List CommandId :=
  [get, set, delete, status, clusterStatus, subscribe, unsubscribe, publish, exec,
    clusterPeers, save, auth, vinsert, vdelete, vbulkinsert, vrabitqInstall]

/-- `intToEnum`. -/
def ofByte (b : UInt8) : Option CommandId := all.find? (fun id => id.toByte = b)

theorem ofByte_toByte (id : CommandId) : ofByte id.toByte = some id := by
  cases id <;> rfl

end CommandId

structure SetParams where
  key : Bytes
  value : Bytes
  worm : Bool
  deriving DecidableEq

structure PublishParams where
  channel : Bytes
  message : Bytes
  deriving DecidableEq

structure SubscribeParams where
  channel : Bytes
  filter : Option Bytes
  deriving DecidableEq

structure ExecParams where
  procedure : Bytes
  args : List Bytes
  deriving DecidableEq

structure VinsertParams where
  key : Bytes
  vector : Bytes
  worm : Bool
  «namespace» : Bytes
  metric : Bytes
  timestamp : UInt64
  isAsync : Bool
  deriving DecidableEq

structure VdeleteParams where
  key : Bytes
  «namespace» : Bytes
  deriving DecidableEq

structure VrabitqInstallParams where
  «namespace» : Bytes
  dim : UInt32
  seed : UInt64
  centroid : Bytes
  rotation : Bytes
  deriving DecidableEq

structure BulkItem where
  key : Bytes
  vector : Bytes
  timestamp : UInt64
  deriving DecidableEq

structure VbulkinsertParams where
  «namespace» : Bytes
  metric : Bytes
  worm : Bool
  isAsync : Bool
  items : List BulkItem
  deriving DecidableEq

inductive Command where
  | get (key : Bytes)
  | set (params : SetParams)
  | delete (key : Bytes)
  | status
  | clusterStatus
  | clusterPeers
  | subscribe (params : SubscribeParams)
  | unsubscribe (channel : Bytes)
  | publish (params : PublishParams)
  | exec (params : ExecParams)
  | save
  | auth (token : Bytes)
  | vinsert (params : VinsertParams)
  | vdelete (params : VdeleteParams)
  | vbulkinsert (params : VbulkinsertParams)
  | vrabitqInstall (params : VrabitqInstallParams)
  deriving DecidableEq

inductive Response where
  | value (val : Option Bytes)
  | ok
  | err (msg : Bytes)
  | event (channel message : Bytes)
  deriving DecidableEq

inductive ResponseCode where
  | ok | value | nullValue | err | event
  deriving DecidableEq

namespace ResponseCode

def toByte : ResponseCode → UInt8
  | ok => 0x00
  | value => 0x01
  | nullValue => 0x02
  | err => 0x03
  | event => 0x04

def ofByte (b : UInt8) : Option ResponseCode :=
  [ok, value, nullValue, err, event].find? (fun code => code.toByte = b)

theorem ofByte_toByte (code : ResponseCode) : ofByte code.toByte = some code := by
  cases code <;> rfl

end ResponseCode

/-- `WireError`, and a failed safety check of the language. -/
inductive WireFault where
  | endOfStream | corruption | unknownCommand | payloadTooLarge | invalidFlags
  | trap
  deriving DecidableEq

def maxPayloadLength : Nat := 16 * 1024 * 1024

/-! ## The allocating parser -/

/-- An integer of a fixed width, after the check that the payload has it. -/
def readInt (width : Nat) (payload : Bytes) (pos : Nat) : Except WireFault (Nat × Nat) :=
  if pos + width > payload.length then .error .corruption
  else .ok (beNat (slice payload pos width), pos + width)

def readBytesField (payload : Bytes) (pos : Nat) : Except WireFault (Bytes × Nat) :=
  if pos + 4 > payload.length then .error .corruption
  else
    let fieldLen := beNat (slice payload pos 4)
    let pos := pos + 4
    if pos + fieldLen > payload.length then .error .corruption
    else .ok (slice payload pos fieldLen, pos + fieldLen)

/-- The flag byte of a vector command; bits from the third on are reserved. -/
def readVectorFlags (payload : Bytes) (pos : Nat) : Except WireFault (UInt8 × Nat) :=
  if pos + 1 > payload.length then .error .corruption
  else
    let flags := payload.getD pos 0
    if flags &&& 0b11111100 ≠ 0 then .error .invalidFlags else .ok (flags, pos + 1)

def readBulkItem (payload : Bytes) (pos : Nat) : Except WireFault (BulkItem × Nat) := do
  let (key, pos) ← readBytesField payload pos
  let (vector, pos) ← readBytesField payload pos
  let (timestamp, pos) ← readInt 8 payload pos
  return (⟨key, vector, timestamp.toUInt64⟩, pos)

/-- The parsed command, once the payload is used up. -/
def atEnd (payload : Bytes) (pos : Nat) (cmd : Command) : Except WireFault Command :=
  if pos ≠ payload.length then .error .corruption else .ok cmd

/-- A command that has no payload. -/
def noPayload (payload : Bytes) (cmd : Command) : Except WireFault Command :=
  if payload.length ≠ 0 then .error .corruption else .ok cmd

/-- The sizes of `vrabitq_install` against its dimension, in `usize` arithmetic. -/
def checkRabitqSizes (dim : Nat) (centroid rotation : Bytes) : Except WireFault Unit :=
  if 2 ^ 64 ≤ dim * dim * 4 then .error .trap
  else if centroid.length ≠ dim * 4 ∨ rotation.length ≠ dim * dim * 4 then .error .corruption
  else .ok ()

def parseCommandPayload (cmdId : CommandId) (payload : Bytes) : Except WireFault Command :=
  match cmdId with
  | .get => do
      let (field, pos) ← readBytesField payload 0
      atEnd payload pos (.get field)
  | .delete => do
      let (field, pos) ← readBytesField payload 0
      atEnd payload pos (.delete field)
  | .unsubscribe => do
      let (field, pos) ← readBytesField payload 0
      atEnd payload pos (.unsubscribe field)
  | .subscribe => do
      let (channel, pos) ← readBytesField payload 0
      if pos < payload.length then do
        let (filter, pos) ← readBytesField payload pos
        atEnd payload pos (.subscribe ⟨channel, some filter⟩)
      else atEnd payload pos (.subscribe ⟨channel, none⟩)
  | .set =>
      if payload.length < 1 then .error .corruption
      else
        let flags := payload.getD 0 0
        if flags &&& 0b11111110 ≠ 0 then .error .invalidFlags
        else do
          let (key, pos) ← readBytesField payload 1
          let (value, pos) ← readBytesField payload pos
          atEnd payload pos (.set ⟨key, value, flags &&& 0x01 ≠ 0⟩)
  | .publish => do
      let (channel, pos) ← readBytesField payload 0
      let (message, pos) ← readBytesField payload pos
      atEnd payload pos (.publish ⟨channel, message⟩)
  | .status => noPayload payload .status
  | .clusterStatus => noPayload payload .clusterStatus
  | .clusterPeers => noPayload payload .clusterPeers
  | .save => noPayload payload .save
  | .exec => do
      let (procedure, pos) ← readBytesField payload 0
      let (argCount, pos) ← readInt 4 payload pos
      let (args, pos) ← readItemsAt (readBytesField payload) argCount pos
      atEnd payload pos (.exec ⟨procedure, args⟩)
  | .auth => do
      let (token, pos) ← readBytesField payload 0
      atEnd payload pos (.auth token)
  | .vinsert => do
      let (key, pos) ← readBytesField payload 0
      let (vector, pos) ← readBytesField payload pos
      let (flags, pos) ← readVectorFlags payload pos
      let (ns, pos) ← readBytesField payload pos
      let (metric, pos) ← readBytesField payload pos
      let (ts, pos) ← readInt 8 payload pos
      atEnd payload pos (.vinsert
        ⟨key, vector, flags &&& 0x01 ≠ 0, ns, metric, ts.toUInt64, flags &&& 0x02 ≠ 0⟩)
  | .vdelete => do
      let (key, pos) ← readBytesField payload 0
      let (ns, pos) ← readBytesField payload pos
      atEnd payload pos (.vdelete ⟨key, ns⟩)
  | .vbulkinsert => do
      let (ns, pos) ← readBytesField payload 0
      let (metric, pos) ← readBytesField payload pos
      let (flags, pos) ← readVectorFlags payload pos
      let (count, pos) ← readInt 4 payload pos
      -- an item takes 16 bytes at least, so a count beyond this cannot be true
      if count > (payload.length - pos) / (4 + 4 + 8) then .error .corruption
      else do
        let (items, pos) ← readItemsAt (readBulkItem payload) count pos
        atEnd payload pos (.vbulkinsert
          ⟨ns, metric, flags &&& 0x01 ≠ 0, flags &&& 0x02 ≠ 0, items⟩)
  | .vrabitqInstall => do
      let (ns, pos) ← readBytesField payload 0
      let (dim, pos) ← readInt 4 payload pos
      let (seed, pos) ← readInt 8 payload pos
      let (centroid, pos) ← readBytesField payload pos
      let (rotation, pos) ← readBytesField payload pos
      checkRabitqSizes dim centroid rotation
      atEnd payload pos (.vrabitqInstall
        ⟨ns, dim.toUInt32, seed.toUInt64, centroid, rotation⟩)

/-! ## The zero-copy parser -/

def sliceBytesField (payload : Bytes) (pos : Nat) : Except WireFault (Bytes × Nat) :=
  if pos + 4 > payload.length then .error .corruption
  else
    let fieldLen := beNat (slice payload pos 4)
    let pos := pos + 4
    if pos + fieldLen > payload.length then .error .corruption
    else .ok (slice payload pos fieldLen, pos + fieldLen)

/-- The commands with a list in them still go through the allocating parser. -/
def parseCommandPayloadZeroCopy (cmdId : CommandId) (payload : Bytes) :
    Except WireFault Command :=
  match cmdId with
  | .get => do
      let (field, pos) ← sliceBytesField payload 0
      atEnd payload pos (.get field)
  | .delete => do
      let (field, pos) ← sliceBytesField payload 0
      atEnd payload pos (.delete field)
  | .unsubscribe => do
      let (field, pos) ← sliceBytesField payload 0
      atEnd payload pos (.unsubscribe field)
  | .subscribe => do
      let (channel, pos) ← sliceBytesField payload 0
      if pos < payload.length then do
        let (filter, pos) ← sliceBytesField payload pos
        atEnd payload pos (.subscribe ⟨channel, some filter⟩)
      else atEnd payload pos (.subscribe ⟨channel, none⟩)
  | .set =>
      if payload.length < 1 then .error .corruption
      else
        let flags := payload.getD 0 0
        if flags &&& 0b11111110 ≠ 0 then .error .invalidFlags
        else do
          let (key, pos) ← sliceBytesField payload 1
          let (value, pos) ← sliceBytesField payload pos
          atEnd payload pos (.set ⟨key, value, flags &&& 0x01 ≠ 0⟩)
  | .publish => do
      let (channel, pos) ← sliceBytesField payload 0
      let (message, pos) ← sliceBytesField payload pos
      atEnd payload pos (.publish ⟨channel, message⟩)
  | .status => noPayload payload .status
  | .clusterStatus => noPayload payload .clusterStatus
  | .clusterPeers => noPayload payload .clusterPeers
  | .save => noPayload payload .save
  | .exec => parseCommandPayload .exec payload
  | .auth => do
      let (token, pos) ← sliceBytesField payload 0
      atEnd payload pos (.auth token)
  | .vinsert => do
      let (key, pos) ← sliceBytesField payload 0
      let (vector, pos) ← sliceBytesField payload pos
      let (flags, pos) ← readVectorFlags payload pos
      let (ns, pos) ← sliceBytesField payload pos
      let (metric, pos) ← sliceBytesField payload pos
      let (ts, pos) ← readInt 8 payload pos
      atEnd payload pos (.vinsert
        ⟨key, vector, flags &&& 0x01 ≠ 0, ns, metric, ts.toUInt64, flags &&& 0x02 ≠ 0⟩)
  | .vdelete => do
      let (key, pos) ← sliceBytesField payload 0
      let (ns, pos) ← sliceBytesField payload pos
      atEnd payload pos (.vdelete ⟨key, ns⟩)
  | .vbulkinsert => parseCommandPayload .vbulkinsert payload
  | .vrabitqInstall => do
      let (ns, pos) ← sliceBytesField payload 0
      let (dim, pos) ← readInt 4 payload pos
      let (seed, pos) ← readInt 8 payload pos
      let (centroid, pos) ← sliceBytesField payload pos
      let (rotation, pos) ← sliceBytesField payload pos
      checkRabitqSizes dim centroid rotation
      atEnd payload pos (.vrabitqInstall
        ⟨ns, dim.toUInt32, seed.toUInt64, centroid, rotation⟩)

/-! ## Reading frames -/

def readExact (reader : Stream) (n : Nat) : Except WireFault (Bytes × Stream) :=
  match reader.readExact n with
  | none => .error .endOfStream
  | some r => .ok r

/-- The five bytes in front of every payload. -/
def readHeader (reader : Stream) : Except WireFault (UInt8 × Nat × Stream) := do
  let (header, reader) ← readExact reader 5
  let payloadLen := beNat (slice header 1 4)
  if payloadLen > maxPayloadLength then .error .payloadTooLarge
  else return (header.getD 0 0, payloadLen, reader)

def readFrameWith (parse : CommandId → Bytes → Except WireFault Command) (reader : Stream) :
    Except WireFault (Command × Stream) := do
  let (cmdIdByte, payloadLen, reader) ← readHeader reader
  let (payload, reader) ← readExact reader payloadLen
  match CommandId.ofByte cmdIdByte with
  | none => .error .unknownCommand
  | some cmdId => do
      let cmd ← parse cmdId payload
      return (cmd, reader)

def readFrameAlloc : Stream → Except WireFault (Command × Stream) :=
  readFrameWith parseCommandPayload

def readFrameZeroCopy : Stream → Except WireFault (Command × Stream) :=
  readFrameWith parseCommandPayloadZeroCopy

def readResponseAlloc (reader : Stream) : Except WireFault (Response × Stream) := do
  let (codeByte, payloadLen, reader) ← readHeader reader
  match ResponseCode.ofByte codeByte with
  | none => .error .corruption
  | some .ok => if payloadLen ≠ 0 then .error .corruption else return (.ok, reader)
  | some .nullValue =>
      if payloadLen ≠ 0 then .error .corruption else return (.value none, reader)
  | some .value => do
      let (payload, reader) ← readExact reader payloadLen
      return (.value (some payload), reader)
  | some .err => do
      let (payload, reader) ← readExact reader payloadLen
      return (.err payload, reader)
  | some .event => do
      let (payload, reader) ← readExact reader payloadLen
      let (channel, pos) ← readBytesField payload 0
      let (message, pos) ← readBytesField payload pos
      if pos ≠ payload.length then .error .corruption else return (.event channel message, reader)

/-! ## Writing frames -/

def writeHeader (code : UInt8) (payloadLen : Nat) : Except WireFault Bytes :=
  if 2 ^ 32 ≤ payloadLen then .error .trap else .ok (code :: beBytes 4 payloadLen)

def writeLenPrefixed (data : Bytes) : Except WireFault Bytes :=
  if 2 ^ 32 ≤ data.length then .error .trap else .ok (beBytes 4 data.length ++ data)

/-- A list's length in four bytes. -/
def writeCount (count : Nat) : Except WireFault Bytes :=
  if 2 ^ 32 ≤ count then .error .trap else .ok (beBytes 4 count)

def writeEach {α : Type} (write : α → Except WireFault Bytes) : List α → Except WireFault Bytes
  | [] => .ok []
  | x :: xs => do
      let head ← write x
      let tail ← writeEach write xs
      return head ++ tail

def vectorFlags (worm isAsync : Bool) : UInt8 :=
  (if worm then 0x01 else 0) ||| (if isAsync then 0x02 else 0)

namespace Command

def id : Command → CommandId
  | get _ => .get
  | set _ => .set
  | delete _ => .delete
  | status => .status
  | clusterStatus => .clusterStatus
  | clusterPeers => .clusterPeers
  | subscribe _ => .subscribe
  | unsubscribe _ => .unsubscribe
  | publish _ => .publish
  | exec _ => .exec
  | save => .save
  | auth _ => .auth
  | vinsert _ => .vinsert
  | vdelete _ => .vdelete
  | vbulkinsert _ => .vbulkinsert
  | vrabitqInstall _ => .vrabitqInstall

/-- The length that the writer puts into the header. -/
def payloadLen : Command → Nat
  | get key => 4 + key.length
  | set params => 1 + (4 + params.key.length) + (4 + params.value.length)
  | delete key => 4 + key.length
  | status => 0
  | clusterStatus => 0
  | clusterPeers => 0
  | subscribe params =>
      4 + params.channel.length + (params.filter.elim 0 (fun filter => 4 + filter.length))
  | unsubscribe channel => 4 + channel.length
  | publish params => (4 + params.channel.length) + (4 + params.message.length)
  | exec params =>
      (4 + params.procedure.length) + 4 + (params.args.map (fun arg => 4 + arg.length)).sum
  | save => 0
  | auth token => 4 + token.length
  | vinsert params =>
      (4 + params.key.length) + (4 + params.vector.length) + 1 + (4 + params.namespace.length) +
        (4 + params.metric.length) + 8
  | vdelete params => (4 + params.key.length) + (4 + params.namespace.length)
  | vbulkinsert params =>
      (4 + params.namespace.length) + (4 + params.metric.length) + 1 + 4 +
        (params.items.map (fun it => (4 + it.key.length) + (4 + it.vector.length) + 8)).sum
  | vrabitqInstall params =>
      (4 + params.namespace.length) + 4 + 8 + (4 + params.centroid.length) +
        (4 + params.rotation.length)

/-- The commands whose length the writer holds against the limit; it does not for those of
one field. -/
def checksLength : Command → Bool
  | get _ | delete _ | unsubscribe _ | auth _ => false
  | status | clusterStatus | clusterPeers | save => false
  | _ => true

end Command

def writeBulkItem (it : BulkItem) : Except WireFault Bytes := do
  let key ← writeLenPrefixed it.key
  let vector ← writeLenPrefixed it.vector
  return key ++ vector ++ beBytes 8 it.timestamp.toNat

/-- What a command puts behind the header. -/
def writeFields : Command → Except WireFault Bytes
  | .get key => writeLenPrefixed key
  | .set params => do
      let flags : UInt8 := if params.worm then 0x01 else 0x00
      let key ← writeLenPrefixed params.key
      let value ← writeLenPrefixed params.value
      return flags :: (key ++ value)
  | .delete key => writeLenPrefixed key
  | .status => .ok []
  | .clusterStatus => .ok []
  | .clusterPeers => .ok []
  | .subscribe params => do
      let channel ← writeLenPrefixed params.channel
      match params.filter with
      | none => return channel
      | some filter => do
          let filter ← writeLenPrefixed filter
          return channel ++ filter
  | .unsubscribe channel => writeLenPrefixed channel
  | .publish params => do
      let channel ← writeLenPrefixed params.channel
      let message ← writeLenPrefixed params.message
      return channel ++ message
  | .exec params => do
      let procedure ← writeLenPrefixed params.procedure
      let count ← writeCount params.args.length
      let args ← writeEach writeLenPrefixed params.args
      return procedure ++ count ++ args
  | .save => .ok []
  | .auth token => writeLenPrefixed token
  | .vinsert params => do
      let key ← writeLenPrefixed params.key
      let vector ← writeLenPrefixed params.vector
      let ns ← writeLenPrefixed params.namespace
      let metric ← writeLenPrefixed params.metric
      return key ++ vector ++ [vectorFlags params.worm params.isAsync] ++ ns ++ metric ++
        beBytes 8 params.timestamp.toNat
  | .vdelete params => do
      let key ← writeLenPrefixed params.key
      let ns ← writeLenPrefixed params.namespace
      return key ++ ns
  | .vbulkinsert params => do
      let ns ← writeLenPrefixed params.namespace
      let metric ← writeLenPrefixed params.metric
      let count ← writeCount params.items.length
      let items ← writeEach writeBulkItem params.items
      return ns ++ metric ++ [vectorFlags params.worm params.isAsync] ++ count ++ items
  | .vrabitqInstall params => do
      let ns ← writeLenPrefixed params.namespace
      let centroid ← writeLenPrefixed params.centroid
      let rotation ← writeLenPrefixed params.rotation
      return ns ++ beBytes 4 params.dim.toNat ++ beBytes 8 params.seed.toNat ++ centroid ++ rotation

def writeCommand (cmd : Command) : Except WireFault Bytes :=
  if cmd.checksLength = true ∧ cmd.payloadLen > maxPayloadLength then .error .payloadTooLarge
  else do
    let header ← writeHeader cmd.id.toByte cmd.payloadLen
    let fields ← writeFields cmd
    return header ++ fields

def writeResponse : Response → Except WireFault Bytes
  | .ok => writeHeader ResponseCode.ok.toByte 0
  | .value (some val) => do
      let header ← writeHeader ResponseCode.value.toByte val.length
      return header ++ val
  | .value none => writeHeader ResponseCode.nullValue.toByte 0
  | .err msg => do
      let header ← writeHeader ResponseCode.err.toByte msg.length
      return header ++ msg
  | .event channel message =>
      let payloadLen := (4 + channel.length) + (4 + message.length)
      if payloadLen > maxPayloadLength then .error .payloadTooLarge
      else do
        let header ← writeHeader ResponseCode.event.toByte payloadLen
        let channel ← writeLenPrefixed channel
        let message ← writeLenPrefixed message
        return header ++ channel ++ message

end WormDB
