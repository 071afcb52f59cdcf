import WormDB.Checked
import WormDB.WireRoundTrip

/-! # The payload parsers with their memory

The two parsers of `protocol/wire.zig` over an allocator that writes down what it is asked
for: a request may fail, a buffer is known by the request that it came from, and each
release is noted, the second one of a buffer as well.  Positions and sizes are those of a
64-bit machine: an overflow, or an index outside the payload, stops the program.

No memory is asked for where there are no bytes to put into it, nor is any released. -/
namespace WormDB

/-- The errors of the readers and parsers. -/
inductive WireError where
  | endOfStream | corruption | unknownCommand | payloadTooLarge | invalidFlags | outOfMemory
  deriving DecidableEq

namespace WireHeap
open ByteCodec

/-! ## The allocator -/

/-- How many elements each request asked for, which requests got a buffer, and which
buffers were released, each in the order of time. -/
structure Heap where
  requests : List Nat
  allocated : List Nat
  freed : List Nat
  deriving DecidableEq

def Heap.empty : Heap := ⟨[], [], []⟩

/-- A step of a parser: `none` where the program stops. -/
abbrev Parser (α : Type) := ExceptT WireError (StateT Heap Option) α

/-- A copied or cut out field, with the buffer it is in, if any. -/
structure Buf where
  bytes : Bytes
  names : List Nat

/-- A parsed command, with the buffers that its fields are in. -/
structure Parsed where
  command : Command
  buffers : List Nat
  deriving DecidableEq

section
variable {α : Type}

/-- A step of arithmetic, or an access. -/
def must (x : Option α) : Parser α := fun heap => x.map fun a => (.ok a, heap)

/-- An outcome that is known. -/
def outcome (x : Except WireError α) : Parser α := fun heap => some (x, heap)

/-- A step whose error is looked at. -/
def attempt (x : Parser α) : Parser (Except WireError α) := fun heap =>
  (x heap).map fun r => (.ok r.1, r.2)

/-- `fails n` says that the `n`-th request gets no memory. -/
def alloc (fails : Nat → Bool) (elems : Nat) : Parser (List Nat) := fun heap =>
  if elems = 0 then some (.ok [], heap)
  else
    let name := heap.requests.length
    let heap := { heap with requests := heap.requests ++ [elems] }
    if fails name = true then some (.error .outOfMemory, heap)
    else some (.ok [name], { heap with allocated := heap.allocated ++ [name] })

def free (names : List Nat) : Parser Unit := fun heap =>
  some (.ok (), { heap with freed := heap.freed ++ names })

/-- What is released where the rest of the block fails. -/
def errdefer (names : List Nat) (rest : Parser α) : Parser α := fun heap =>
  (rest heap).map fun r =>
    match r with
    | (.ok a, heap) => (.ok a, heap)
    | (.error e, heap) => (.error e, { heap with freed := heap.freed ++ names })

end

/-! ## Fields -/

/-- An integer of a fixed width. -/
def readInt (width : Nat) (payload : Bytes) (pos : Nat) : Parser (Nat × Nat) := do
  let stop ← must (Checked.add 64 pos width)
  if stop > payload.length then throw .corruption
  else
    let digits ← must (Checked.slice payload pos stop)
    return (beNat digits, stop)

/-- The bytes of a field, and where they end. -/
def fieldBytes (payload : Bytes) (pos : Nat) : Parser (Bytes × Nat) := do
  let (fieldLen, pos) ← readInt 4 payload pos
  let stop ← must (Checked.add 64 pos fieldLen)
  if stop > payload.length then throw .corruption
  else
    let bytes ← must (Checked.slice payload pos stop)
    return (bytes, stop)

/-- A copy of the field. -/
def readBytesField (fails : Nat → Bool) (payload : Bytes) (pos : Nat) : Parser (Buf × Nat) := do
  let (bytes, pos) ← fieldBytes payload pos
  let names ← alloc fails bytes.length
  return (⟨bytes, names⟩, pos)

/-- The field in the payload itself. -/
def sliceBytesField (payload : Bytes) (pos : Nat) : Parser (Buf × Nat) := do
  let (bytes, pos) ← fieldBytes payload pos
  return (⟨bytes, []⟩, pos)

def readVectorFlags (payload : Bytes) (pos : Nat) : Parser (UInt8 × Nat) := do
  let stop ← must (Checked.add 64 pos 1)
  if stop > payload.length then throw .corruption
  else
    let flags ← must (Checked.get payload pos)
    if flags &&& 0b11111100 ≠ 0 then throw .invalidFlags else return (flags, stop)

/-- The parsed command, once the payload is used up. -/
def atEnd (payload : Bytes) (pos : Nat) (parsed : Parsed) : Parser Parsed :=
  if pos ≠ payload.length then throw .corruption else return parsed

def noPayload (payload : Bytes) (command : Command) : Parser Parsed :=
  if payload.length ≠ 0 then throw .corruption else return ⟨command, []⟩

def checkRabitqSizes (dim : Nat) (centroid rotation : Bytes) : Parser Unit := do
  let expectedCentroid ← must (Checked.mul 64 dim 4)
  let square ← must (Checked.mul 64 dim dim)
  let expectedRotation ← must (Checked.mul 64 square 4)
  if centroid.length ≠ expectedCentroid ∨ rotation.length ≠ expectedRotation then
    throw .corruption
  else return ()

/-! ## The commands with a list in them -/

/-- The arguments, as far as they can be read. -/
def readArgs (fails : Nat → Bool) (payload : Bytes) :
    Nat → Nat → List Buf → Parser (List Buf × Except WireError Nat)
  | 0, pos, args => return (args, .ok pos)
  | count + 1, pos, args => do
      match ← attempt (readBytesField fails payload pos) with
      | .error e => return (args, .error e)
      | .ok (arg, pos) => readArgs fails payload count pos (args ++ [arg])

/-- EXEC releases the procedure's name twice wherever it releases it at all: by its own
`errdefer`, and by hand or by the `errdefer` of the arguments. -/
def parseExec (fails : Nat → Bool) (payload : Bytes) : Parser Parsed := do
  let (procedure, pos) ← readBytesField fails payload 0
  errdefer procedure.names do
    match ← attempt (readInt 4 payload pos) with
    | .error e => do
        free procedure.names
        throw e
    | .ok (argCount, pos) => do
        match ← attempt (alloc fails argCount) with
        | .error _ => do
            free procedure.names
            throw .outOfMemory
        | .ok array => do
            let (args, read) ← readArgs fails payload argCount pos []
            let owned := args.flatMap Buf.names ++ array ++ procedure.names
            errdefer owned do
              let pos ← outcome read
              if pos ≠ payload.length then do
                free owned
                throw .corruption
              else return ⟨.exec ⟨procedure.bytes, args.map Buf.bytes⟩, owned⟩

/-- The items, with the buffers that stand in them so far: an item may have its key only. -/
def readBulkItems (fails : Nat → Bool) (payload : Bytes) :
    Nat → Nat → List BulkItem → List Nat →
      Parser (List Nat × Except WireError (List BulkItem × Nat))
  | 0, pos, items, names => return (names, .ok (items, pos))
  | count + 1, pos, items, names => do
      match ← attempt (readBytesField fails payload pos) with
      | .error e => return (names, .error e)
      | .ok (key, pos) => do
          match ← attempt (readBytesField fails payload pos) with
          | .error e => return (names ++ key.names, .error e)
          | .ok (vector, pos) => do
              match ← attempt (readInt 8 payload pos) with
              | .error e => return (names ++ key.names ++ vector.names, .error e)
              | .ok (timestamp, pos) =>
                  readBulkItems fails payload count pos
                    (items ++ [⟨key.bytes, vector.bytes, timestamp.toUInt64⟩])
                    (names ++ key.names ++ vector.names)

def parseVbulkinsert (fails : Nat → Bool) (payload : Bytes) : Parser Parsed := do
  let (ns, pos) ← readBytesField fails payload 0
  errdefer ns.names do
    let (metric, pos) ← readBytesField fails payload pos
    errdefer metric.names do
      let (flags, pos) ← readVectorFlags payload pos
      let (count, pos) ← readInt 4 payload pos
      let left ← must (Checked.sub payload.length pos)
      let fit ← must (Checked.div left (4 + 4 + 8))
      if count > fit then throw .corruption
      else
        let array ← alloc fails count
        let (names, read) ← readBulkItems fails payload count pos [] []
        errdefer (names ++ array) do
          let (items, pos) ← outcome read
          atEnd payload pos ⟨.vbulkinsert ⟨ns.bytes, metric.bytes, flags &&& 0x01 ≠ 0,
            flags &&& 0x02 ≠ 0, items⟩, ns.names ++ metric.names ++ (names ++ array)⟩

/-! ## The parsers -/

/-- The commands without a list, by the reader of their fields; a field that is cut out of
the payload is in no buffer, and then there is nothing to release.  A command of one field
releases it by hand where the payload goes on behind it, which comes to the same. -/
def parseFields (readField : Nat → Parser (Buf × Nat)) (cmdId : CommandId) (payload : Bytes) :
    Parser Parsed :=
  match cmdId with
  | .get => do
      let (field, pos) ← readField 0
      errdefer field.names (atEnd payload pos ⟨.get field.bytes, field.names⟩)
  | .delete => do
      let (field, pos) ← readField 0
      errdefer field.names (atEnd payload pos ⟨.delete field.bytes, field.names⟩)
  | .unsubscribe => do
      let (field, pos) ← readField 0
      errdefer field.names (atEnd payload pos ⟨.unsubscribe field.bytes, field.names⟩)
  | .subscribe => do
      let (channel, pos) ← readField 0
      errdefer channel.names do
        if pos < payload.length then do
          let (filter, pos) ← readField pos
          errdefer filter.names (atEnd payload pos
            ⟨.subscribe ⟨channel.bytes, some filter.bytes⟩, channel.names ++ filter.names⟩)
        else atEnd payload pos ⟨.subscribe ⟨channel.bytes, none⟩, channel.names⟩
  | .set => do
      if payload.length < 1 then throw .corruption
      else
        let flags ← must (Checked.get payload 0)
        if flags &&& 0b11111110 ≠ 0 then throw .invalidFlags
        else
          let (key, pos) ← readField 1
          errdefer key.names do
            let (value, pos) ← readField pos
            errdefer value.names (atEnd payload pos
              ⟨.set ⟨key.bytes, value.bytes, flags &&& 0x01 ≠ 0⟩, key.names ++ value.names⟩)
  | .publish => do
      let (channel, pos) ← readField 0
      errdefer channel.names do
        let (message, pos) ← readField pos
        errdefer message.names (atEnd payload pos
          ⟨.publish ⟨channel.bytes, message.bytes⟩, channel.names ++ message.names⟩)
  | .status => noPayload payload .status
  | .clusterStatus => noPayload payload .clusterStatus
  | .clusterPeers => noPayload payload .clusterPeers
  | .save => noPayload payload .save
  | .auth => do
      let (token, pos) ← readField 0
      errdefer token.names (atEnd payload pos ⟨.auth token.bytes, token.names⟩)
  | .vinsert => do
      let (key, pos) ← readField 0
      errdefer key.names do
        let (vector, pos) ← readField pos
        errdefer vector.names do
          let (flags, pos) ← readVectorFlags payload pos
          let (ns, pos) ← readField pos
          errdefer ns.names do
            let (metric, pos) ← readField pos
            errdefer metric.names do
              let (ts, pos) ← readInt 8 payload pos
              atEnd payload pos ⟨.vinsert ⟨key.bytes, vector.bytes, flags &&& 0x01 ≠ 0, ns.bytes,
                metric.bytes, ts.toUInt64, flags &&& 0x02 ≠ 0⟩,
                key.names ++ vector.names ++ ns.names ++ metric.names⟩
  | .vdelete => do
      let (key, pos) ← readField 0
      errdefer key.names do
        let (ns, pos) ← readField pos
        errdefer ns.names (atEnd payload pos
          ⟨.vdelete ⟨key.bytes, ns.bytes⟩, key.names ++ ns.names⟩)
  | .vrabitqInstall => do
      let (ns, pos) ← readField 0
      errdefer ns.names do
        let (dim, pos) ← readInt 4 payload pos
        let (seed, pos) ← readInt 8 payload pos
        let (centroid, pos) ← readField pos
        errdefer centroid.names do
          let (rotation, pos) ← readField pos
          errdefer rotation.names do
            checkRabitqSizes dim centroid.bytes rotation.bytes
            atEnd payload pos ⟨.vrabitqInstall
              ⟨ns.bytes, dim.toUInt32, seed.toUInt64, centroid.bytes, rotation.bytes⟩,
              ns.names ++ centroid.names ++ rotation.names⟩
  -- not reached: the parsers below take these two themselves
  | .exec | .vbulkinsert => throw .corruption

def parseCommandPayload (fails : Nat → Bool) (cmdId : CommandId) (payload : Bytes) :
    Parser Parsed :=
  match cmdId with
  | .exec => parseExec fails payload
  | .vbulkinsert => parseVbulkinsert fails payload
  | cmdId => parseFields (readBytesField fails payload) cmdId payload

def parseCommandPayloadZeroCopy (fails : Nat → Bool) (cmdId : CommandId) (payload : Bytes) :
    Parser Parsed :=
  match cmdId with
  | .exec => parseCommandPayload fails .exec payload
  | .vbulkinsert => parseCommandPayload fails .vbulkinsert payload
  | cmdId => parseFields (sliceBytesField payload) cmdId payload

/-! ## Runs -/

section
variable {α β : Type} {x : Parser α} {f : α → Parser β} {a : α} {e : WireError}
  {heap heap' : Heap} {names : List Nat}

theorem bind_ok_run (h : x heap = some (.ok a, heap')) : (x >>= f) heap = f a heap' := by
  show (x heap).bind _ = _
  rw [h]
  rfl

theorem bind_error_run (h : x heap = some (.error e, heap')) :
    (x >>= f) heap = some (.error e, heap') := by
  show (x heap).bind _ = _
  rw [h]
  rfl

theorem bind_none_run (h : x heap = none) : (x >>= f) heap = none := by
  show (x heap).bind _ = _
  rw [h]
  rfl

variable {g : Except WireError α → Parser β}

theorem attempt_run {r : Except WireError α}
    (h : x heap = some (r, heap')) : (attempt x >>= g) heap = g r heap' := by
  refine bind_ok_run ?_
  rw [attempt, h]
  rfl

theorem attempt_none_run (h : x heap = none) : (attempt x >>= g) heap = none := by
  refine bind_none_run ?_
  rw [attempt, h]
  rfl

theorem errdefer_error_run (h : x heap = some (.error e, heap')) :
    errdefer names x heap = some (.error e, { heap' with freed := heap'.freed ++ names }) := by
  rw [errdefer, h]
  rfl

theorem errdefer_ok_run (h : x heap = some (.ok a, heap')) :
    errdefer names x heap = some (.ok a, heap') := by
  rw [errdefer, h]
  rfl

theorem errdefer_none_iff : errdefer names x heap = none ↔ x heap = none := by
  rw [errdefer, Option.map_eq_none_iff]

/-- The heap after a request that is met. -/
def Heap.grant (heap : Heap) (elems : Nat) : Heap :=
  ⟨heap.requests ++ [elems], heap.allocated ++ [heap.requests.length], heap.freed⟩

/-- The heap after one that is not. -/
def Heap.refuse (heap : Heap) (elems : Nat) : Heap :=
  ⟨heap.requests ++ [elems], heap.allocated, heap.freed⟩

variable {fails : Nat → Bool} {elems : Nat}

theorem alloc_zero_run : alloc fails 0 heap = some (.ok [], heap) := rfl

theorem alloc_refused_run (hpos : elems ≠ 0) (h : fails heap.requests.length = true) :
    alloc fails elems heap = some (.error .outOfMemory, heap.refuse elems) := by
  rw [alloc, if_neg hpos]
  simp only [h, if_true]
  rfl

theorem alloc_granted_run (hpos : elems ≠ 0) (h : fails heap.requests.length = false) :
    alloc fails elems heap = some (.ok [heap.requests.length], heap.grant elems) := by
  rw [alloc, if_neg hpos]
  simp only [h, Bool.false_eq_true, if_false]
  rfl

end

end WireHeap

end WormDB
