import WormDB.Mmr
import WormDB.PrefixMap
import WormDB.Types

/-! # The append log of `proof/append_log.zig`

A named log of events in a store.  Event number `seq` is a write-once entry whose
key ends in the big-endian number and whose value is a canonical envelope with
the hash of the event before it.  Beside each event there may be a record of the
accumulator's state after it: the peaks of the mountain range over the event
records so far.  State records and the sequence hint are caches; an append that
cannot use them rebuilds the state from the events.

The store is what its callers see of it, a map from keys to contents.  SHA-256 is
the variable `sha256`. -/
namespace WormDB
open ByteCodec ByteReader PrefixMap

/-- The live entries of a store. -/
abbrev Kv := ByteMap Content

namespace Kv

def exists_ (kv : Kv) (key : Bytes) : Bool := (kv.get key).isSome

/-- A write that nothing but a WORM entry stops. -/
def setWithTimestamp (kv : Kv) (key value : Bytes) (isWorm : Bool) (timestamp : UInt64) :
    Except StoreError Kv :=
  if (kv.get key).any Content.isWorm then .error .wormViolation
  else .ok (kv.insert key ⟨value, timestamp, isWorm⟩)

/-- The last `limit` entries whose keys have the prefix, in ascending order; all of
them when `limit` is zero. -/
def scanPrefix (kv : Kv) (pre : Bytes) (limit : Nat) : List (Bytes × Content) :=
  let results := kv.scan pre
  if limit = 0 then results else results.drop (results.length - limit)

end Kv

namespace AppendLog
open Mmr (Peak hashLeaf hashParent rootFromPeaks peaksAreCanonical proofMaxPeaks maxU64)

def envelopeMagic : Bytes := ascii "WDBALOG1"
def envelopeVersion : Nat := 1
def storagePrefix : Bytes := ascii "proof:append-log:v1:"
def eventSuffix : Bytes := ascii ":event:"
def accumulatorStatePrefix : Bytes := ascii "proof:append-log-mmr-state:v1:"
def accumulatorStateSuffix : Bytes := ascii ":state:"
def accumulatorStateMagic : Bytes := ascii "WDBMMRS1"
def accumulatorStateVersion : Nat := 1
def zeroHash : Hash := ⟨List.replicate 32 0, List.length_replicate⟩

/-- `maxInt(u32)`, the bound of every length field. -/
def maxU32 : Nat := 2 ^ 32 - 1

inductive Error where
  | envelopeTooLarge | invalidEnvelope | unsupportedEnvelopeVersion | logIdMismatch
  | payloadHashMismatch | eventHashMismatch | sequenceReuse | sequenceGap | prevHashMismatch
  | nonWormEvent | invalidEventKey | sequenceKeyMismatch | receiptTimestampMismatch
  | nonWormAccumulatorState | invalidAccumulatorStateKey | accumulatorStateKeyMismatch
  | invalidAccumulatorState | unsupportedAccumulatorStateVersion | accumulatorStateLogMismatch
  | accumulatorStateTooLarge | sequenceOverflow
  | store (e : StoreError)
  | trap
  deriving DecidableEq

structure EventInput where
  logId : Bytes
  seq : UInt64
  prevEventHash : Hash
  ingestTimeMs : UInt64
  payload : Bytes
  attachmentHashes : List Hash

structure EventView where
  bytes : Bytes
  logId : Bytes
  seq : UInt64
  prevEventHash : Hash
  ingestTimeMs : UInt64
  payloadHash : Hash
  attachmentHashBytes : Bytes
  attachmentCount : Nat
  payload : Bytes
  eventHash : Hash
  deriving DecidableEq

structure EncodedEnvelope where
  envelope : Bytes
  payloadHash : Hash
  eventHash : Hash

structure AccumulatorState where
  peaks : List Peak
  lastSeq : UInt64
  lastIngestTimeMs : UInt64
  headHash : Hash
  accumulatorRoot : Hash

structure AppendResult where
  key : Bytes
  envelope : Bytes
  seq : UInt64
  prevEventHash : Hash
  payloadHash : Hash
  eventHash : Hash
  accumulatorRoot : Hash
  accumulatorLeafCount : UInt64
  ingestTimeMs : UInt64
  deriving DecidableEq

structure VerifyReport where
  count : Nat
  lastSeq : UInt64
  headHash : Hash

variable (sha256 : Bytes → Hash)

/-! ## Keys -/

def hexDigit (n : UInt8) : UInt8 := if n < 10 then n + 48 else n + 87

def hashToHex (hash : Hash) : Bytes :=
  hash.bytes.flatMap (fun byte : UInt8 => [hexDigit (byte >>> 4), hexDigit (byte &&& 0x0f)])

def eventKeyPrefix (logId : Bytes) : Bytes :=
  storagePrefix ++ hashToHex (sha256 logId) ++ eventSuffix

def eventKey (logId : Bytes) (seq : UInt64) : Bytes :=
  eventKeyPrefix sha256 logId ++ beBytes 8 seq.toNat

def accumulatorStateKeyPrefix (logId : Bytes) : Bytes :=
  accumulatorStatePrefix ++ hashToHex (sha256 logId) ++ accumulatorStateSuffix

def accumulatorStateKey (logId : Bytes) (seq : UInt64) : Bytes :=
  accumulatorStateKeyPrefix sha256 logId ++ beBytes 8 seq.toNat

/-- The number at the end of a key with the given prefix. -/
def seqFromKey (err : Error) (pre key : Bytes) : Except Error UInt64 :=
  if key.length ≠ pre.length + 8 then .error err
  else if key.take pre.length ≠ pre then .error err
  else .ok (beNat (key.drop pre.length)).toUInt64

def seqFromEventKey (pre key : Bytes) : Except Error UInt64 := seqFromKey .invalidEventKey pre key

def seqFromAccumulatorStateKey (pre key : Bytes) : Except Error UInt64 :=
  seqFromKey .invalidAccumulatorStateKey pre key

/-! ## Envelopes

`[magic][u16 version][u32 log_id_len][log_id][u64 seq][prev_event_hash]`
`[u64 ingest_time_ms][payload_hash][u32 attachment_count][attachment_hash]*`
`[u32 payload_len][payload][event_hash]`, all big-endian. -/

/-- What the event hash is taken over. -/
def envelopePreimage (input : EventInput) : Bytes :=
  envelopeMagic ++ beBytes 2 envelopeVersion ++ beBytes 4 input.logId.length ++ input.logId ++
    beBytes 8 input.seq.toNat ++ input.prevEventHash.bytes ++ beBytes 8 input.ingestTimeMs.toNat ++
    (sha256 input.payload).bytes ++ beBytes 4 input.attachmentHashes.length ++
    input.attachmentHashes.flatMap Hash.bytes ++ beBytes 4 input.payload.length ++ input.payload

/-- The preimage sealed with its hash. -/
def sealEnvelope (input : EventInput) : EncodedEnvelope :=
  let preimage := envelopePreimage sha256 input
  ⟨preimage ++ (sha256 preimage).bytes, sha256 input.payload, sha256 preimage⟩

def encodeEnvelopeWithHashes (input : EventInput) : Except Error EncodedEnvelope :=
  if input.logId.length > maxU32 then .error .envelopeTooLarge
  else if input.payload.length > maxU32 then .error .envelopeTooLarge
  else if input.attachmentHashes.length > maxU32 then .error .envelopeTooLarge
  else .ok (sealEnvelope sha256 input)

def attachmentHashBytesLen (count : Nat) : Nat := count * 32

def decodeEnvelope (bytes : Bytes) : Except Error EventView := do
  let (magic, rest) ← readBytes Error.invalidEnvelope envelopeMagic.length bytes
  if magic ≠ envelopeMagic then throw Error.invalidEnvelope
  let (version, rest) ← readUInt Error.invalidEnvelope 2 rest
  if version ≠ envelopeVersion then throw Error.unsupportedEnvelopeVersion
  let (logIdLen, rest) ← readUInt Error.invalidEnvelope 4 rest
  let (logId, rest) ← readBytes Error.invalidEnvelope logIdLen rest
  let (seq, rest) ← readUInt Error.invalidEnvelope 8 rest
  let (prevEventHash, rest) ← readHash Error.invalidEnvelope rest
  let (ingestTimeMs, rest) ← readUInt Error.invalidEnvelope 8 rest
  let (payloadHash, rest) ← readHash Error.invalidEnvelope rest
  let (attachmentCount, rest) ← readUInt Error.invalidEnvelope 4 rest
  let (attachmentHashBytes, rest) ←
    readBytes Error.invalidEnvelope (attachmentHashBytesLen attachmentCount) rest
  let (payloadLen, rest) ← readUInt Error.invalidEnvelope 4 rest
  let (payload, rest) ← readBytes Error.invalidEnvelope payloadLen rest
  let (eventHash, rest) ← readHash Error.invalidEnvelope rest
  if rest.length ≠ 0 then throw Error.invalidEnvelope
  return ⟨bytes, logId, seq.toUInt64, prevEventHash, ingestTimeMs.toUInt64, payloadHash,
    attachmentHashBytes, attachmentCount, payload, eventHash⟩

def hashEnvelopePreimage (envelope : Bytes) : Except Error Hash :=
  if envelope.length < 32 then .error .invalidEnvelope
  else .ok (sha256 (envelope.take (envelope.length - 32)))

def verifyEnvelope (expectedLogId : Bytes) (view : EventView) : Except Error Unit :=
  if view.logId ≠ expectedLogId then .error .logIdMismatch
  else if sha256 view.payload ≠ view.payloadHash then .error .payloadHashMismatch
  else
    match hashEnvelopePreimage sha256 view.bytes with
    | .error e => .error e
    | .ok computed =>
        if computed ≠ view.eventHash then .error .eventHashMismatch
        else if view.attachmentHashBytes.length ≠ attachmentHashBytesLen view.attachmentCount then
          .error .invalidEnvelope
        else .ok ()

/-! ## Verification -/

structure Verifier where
  logId : Bytes
  expectedSeq : UInt64
  previousHash : Hash
  count : Nat
  lastSeq : UInt64

namespace Verifier

def init (logId : Bytes) : Verifier := ⟨logId, 1, zeroHash, 0, 0⟩

def accept (self : Verifier) (view : EventView) : Except Error Verifier :=
  match verifyEnvelope sha256 self.logId view with
  | .error e => .error e
  | .ok () =>
      if view.seq < self.expectedSeq then .error .sequenceReuse
      else if view.seq > self.expectedSeq then .error .sequenceGap
      else if view.prevEventHash ≠ self.previousHash then .error .prevHashMismatch
      else
        let expectedSeq :=
          if self.expectedSeq.toNat ≠ maxU64 then self.expectedSeq + 1 else self.expectedSeq
        .ok ⟨self.logId, expectedSeq, view.eventHash, self.count + 1, view.seq⟩

def report (self : Verifier) : VerifyReport := ⟨self.count, self.lastSeq, self.previousHash⟩

end Verifier

/-- The checks `verifyStore` and `rebuildAccumulatorState` make on one stored entry:
the verifier after it and the event. -/
def acceptStored (pre : Bytes) (verifier : Verifier) (entry : Bytes × Content) :
    Except Error (Verifier × EventView) :=
  if !entry.2.isWorm then .error .nonWormEvent
  else
    match seqFromEventKey pre entry.1 with
    | .error e => .error e
    | .ok keySeq =>
        match decodeEnvelope entry.2.value with
        | .error e => .error e
        | .ok view =>
            if view.seq ≠ keySeq then .error .sequenceKeyMismatch
            else if view.ingestTimeMs ≠ entry.2.timestamp then .error .receiptTimestampMismatch
            else
              match verifier.accept sha256 view with
              | .error e => .error e
              | .ok verifier => .ok (verifier, view)

def verifyEntries (pre : Bytes) : Verifier → List (Bytes × Content) → Except Error Verifier
  | verifier, [] => .ok verifier
  | verifier, entry :: entries =>
      match acceptStored sha256 pre verifier entry with
      | .error e => .error e
      | .ok (verifier, _) => verifyEntries pre verifier entries

/-- Verify every event currently stored for the log. -/
def verifyStore (kv : Kv) (logId : Bytes) : Except Error VerifyReport :=
  let pre := eventKeyPrefix sha256 logId
  match verifyEntries sha256 pre (.init logId) (kv.scanPrefix pre 0) with
  | .error e => .error e
  | .ok verifier => .ok verifier.report

/-! ## Accumulator states -/

/-- The carry loop, on the peaks from the last one to the first. -/
def carryPeaks : List Peak → Peak → List Peak
  | [], carry => [carry]
  | left :: rest, carry =>
      if left.height ≠ carry.height then carry :: left :: rest
      else carryPeaks rest
        ⟨left.height + 1, hashParent sha256 (left.height + 1) left.hash carry.hash⟩

def appendLeafToPeaks (peaks : List Peak) (leafIndex : UInt64) (leaf : Bytes) : List Peak :=
  (carryPeaks sha256 peaks.reverse ⟨0, hashLeaf sha256 leafIndex leaf⟩).reverse

def advanceAccumulatorState (state : AccumulatorState) (recordHash eventHash : Hash)
    (ingestTimeMs : UInt64) : Except Error AccumulatorState :=
  if !peaksAreCanonical state.lastSeq state.peaks then .error .invalidAccumulatorState
  else if state.lastSeq.toNat = maxU64 then .error .trap
  else
    let nextSeq := state.lastSeq + 1
    let nextPeaks := appendLeafToPeaks sha256 state.peaks state.lastSeq recordHash.bytes
    .ok ⟨nextPeaks, nextSeq, ingestTimeMs, eventHash, rootFromPeaks sha256 nextSeq nextPeaks⟩

def stateBytes (logId : Bytes) (state : AccumulatorState) : Bytes :=
  accumulatorStateMagic ++ beBytes 2 accumulatorStateVersion ++
    beBytes 4 logId.length ++ logId ++ beBytes 8 state.lastSeq.toNat ++
    beBytes 8 state.lastIngestTimeMs.toNat ++ state.headHash.bytes ++
    state.accumulatorRoot.bytes ++ beBytes 4 state.peaks.length ++
    state.peaks.flatMap Mmr.encodePeak

def encodeAccumulatorState (logId : Bytes) (state : AccumulatorState) : Except Error Bytes :=
  if logId.length > maxU32 then .error .accumulatorStateTooLarge
  else if state.peaks.length > proofMaxPeaks then .error .accumulatorStateTooLarge
  else .ok (stateBytes logId state)

def readPeak (bytes : Bytes) : Except Error (Peak × Bytes) := do
  let (height, rest) ← readUInt Error.invalidEnvelope 1 bytes
  let (hash, rest) ← readHash Error.invalidEnvelope rest
  return (⟨height.toUInt8, hash⟩, rest)

def decodeAccumulatorState (expectedLogId bytes : Bytes) : Except Error AccumulatorState := do
  let (magic, rest) ← readBytes Error.invalidEnvelope accumulatorStateMagic.length bytes
  if magic ≠ accumulatorStateMagic then throw Error.invalidAccumulatorState
  let (version, rest) ← readUInt Error.invalidEnvelope 2 rest
  if version ≠ accumulatorStateVersion then throw Error.unsupportedAccumulatorStateVersion
  let (logIdLen, rest) ← readUInt Error.invalidEnvelope 4 rest
  let (logId, rest) ← readBytes Error.invalidEnvelope logIdLen rest
  if logId ≠ expectedLogId then throw Error.accumulatorStateLogMismatch
  let (lastSeq, rest) ← readUInt Error.invalidEnvelope 8 rest
  let (lastIngestTimeMs, rest) ← readUInt Error.invalidEnvelope 8 rest
  let (headHash, rest) ← readHash Error.invalidEnvelope rest
  let (accumulatorRoot, rest) ← readHash Error.invalidEnvelope rest
  let (peakCount, rest) ← readUInt Error.invalidEnvelope 4 rest
  if peakCount > proofMaxPeaks then throw Error.invalidAccumulatorState
  let (peaks, rest) ← readItems readPeak peakCount rest
  if rest.length ≠ 0 then throw Error.invalidAccumulatorState
  if !peaksAreCanonical lastSeq.toUInt64 peaks then throw Error.invalidAccumulatorState
  if rootFromPeaks sha256 lastSeq.toUInt64 peaks ≠ accumulatorRoot then
    throw Error.invalidAccumulatorState
  return ⟨peaks, lastSeq.toUInt64, lastIngestTimeMs.toUInt64, headHash, accumulatorRoot⟩

/-! ## Finding the tail -/

/-- The slot of the store's hint table that the log shares with others. -/
structure SeqHintSlot where
  logHash : Hash
  seq : UInt64

namespace SeqHintSlot

def init : SeqHintSlot := ⟨zeroHash, 0⟩

def getAppendLogSeqHint (slot : SeqHintSlot) (logHash : Hash) : UInt64 :=
  if slot.logHash = logHash then slot.seq else 0

def setAppendLogSeqHint (_ : SeqHintSlot) (logHash : Hash) (seq : UInt64) : SeqHintSlot :=
  ⟨logHash, seq⟩

end SeqHintSlot

/-- The fast path by the hint; none when it is left for the scan. -/
def loadHinted (kv : Kv) (logId : Bytes) (hintedSeq : UInt64) :
    Option (Except Error AccumulatorState) :=
  if hintedSeq = 0 then none
  else if hintedSeq.toNat < maxU64 ∧
      kv.exists_ (accumulatorStateKey sha256 logId (hintedSeq + 1)) then none
  else
    match kv.get (accumulatorStateKey sha256 logId hintedSeq) with
    | none => none
    | some entry =>
        if !entry.isWorm then some (.error .nonWormAccumulatorState)
        else
          match decodeAccumulatorState sha256 logId entry.value with
          | .error e => some (.error e)
          | .ok state =>
              if state.lastSeq ≠ hintedSeq then some (.error .accumulatorStateKeyMismatch)
              else some (.ok state)

/-- The state record with the greatest key. -/
def loadScanned (kv : Kv) (logId : Bytes) : Except Error (Option AccumulatorState) :=
  let pre := accumulatorStateKeyPrefix sha256 logId
  match kv.scanPrefix pre 1 with
  | [] => .ok none
  | entry :: _ =>
      if !entry.2.isWorm then .error .nonWormAccumulatorState
      else
        match seqFromAccumulatorStateKey pre entry.1 with
        | .error e => .error e
        | .ok keySeq =>
            match decodeAccumulatorState sha256 logId entry.2.value with
            | .error e => .error e
            | .ok state =>
                if state.lastSeq ≠ keySeq then .error .accumulatorStateKeyMismatch
                else .ok (some state)

/-- The latest state record, and the hint slot after the search. -/
def loadLatestAccumulatorState (kv : Kv) (logId : Bytes) (slot : SeqHintSlot) :
    Except Error (Option AccumulatorState) × SeqHintSlot :=
  match loadHinted sha256 kv logId (slot.getAppendLogSeqHint (sha256 logId)) with
  | some (.error e) => (.error e, slot)
  | some (.ok state) => (.ok (some state), slot)
  | none =>
      match loadScanned sha256 kv logId with
      | .error e => (.error e, slot)
      | .ok none => (.ok none, slot)
      | .ok (some state) =>
          (.ok (some state), slot.setAppendLogSeqHint (sha256 logId) state.lastSeq)

/-- The event a state record ends with is the one stored. -/
def headMatches (kv : Kv) (logId : Bytes) (state : AccumulatorState) : Bool :=
  if state.lastSeq > 0 then
    match kv.get (eventKey sha256 logId state.lastSeq) with
    | none => false
    | some entry =>
        match decodeEnvelope entry.value with
        | .error _ => false
        | .ok view => view.seq = state.lastSeq ∧ view.eventHash = state.headHash ∧
            view.ingestTimeMs = state.lastIngestTimeMs
  else state.headHash = zeroHash

/-- The state is about the log's whole content: no event comes after it.  The
number after the last one does not fit. -/
def accumulatorStateUsable (kv : Kv) (logId : Bytes) (state : AccumulatorState) :
    Except Error Bool :=
  if !peaksAreCanonical state.lastSeq state.peaks then .ok false
  else if rootFromPeaks sha256 state.lastSeq state.peaks ≠ state.accumulatorRoot then .ok false
  else if !headMatches sha256 kv logId state then .ok false
  else if state.lastSeq.toNat = maxU64 then .error .trap
  else if kv.exists_ (eventKey sha256 logId (state.lastSeq + 1)) then .ok false
  else .ok true

/-- The rebuild loop: verifier, peaks and time of the last event. -/
def rebuildEntries (pre : Bytes) : Verifier → List Peak → UInt64 → List (Bytes × Content) →
    Except Error (Verifier × List Peak × UInt64)
  | verifier, peaks, lastIngestTimeMs, [] => .ok (verifier, peaks, lastIngestTimeMs)
  | verifier, peaks, _, entry :: entries =>
      match acceptStored sha256 pre verifier entry with
      | .error e => .error e
      | .ok (verifier, view) =>
          rebuildEntries pre verifier
            (appendLeafToPeaks sha256 peaks (view.seq - 1) (sha256 entry.2.value).bytes)
            entry.2.timestamp entries

def rebuildAccumulatorState (kv : Kv) (logId : Bytes) : Except Error AccumulatorState :=
  let pre := eventKeyPrefix sha256 logId
  match rebuildEntries sha256 pre (.init logId) [] 0 (kv.scanPrefix pre 0) with
  | .error e => .error e
  | .ok (verifier, peaks, lastIngestTimeMs) =>
      let report := verifier.report
      .ok ⟨peaks, report.lastSeq, lastIngestTimeMs, report.headHash,
        rootFromPeaks sha256 report.lastSeq peaks⟩

/-- The state to append after, and the hint slot.  A load that fails, for want of
memory too (`loads`), is only logged. -/
def loadOrRebuildAccumulatorState (loads : Bool) (kv : Kv) (logId : Bytes) (slot : SeqHintSlot) :
    Except Error AccumulatorState × SeqHintSlot :=
  let (loaded, slot) :=
    if loads then loadLatestAccumulatorState sha256 kv logId slot
    else (.error (.store .outOfMemory), slot)
  let rebuild : Except Error AccumulatorState × SeqHintSlot :=
    match rebuildAccumulatorState sha256 kv logId with
    | .error e => (.error e, slot)
    | .ok rebuilt => (.ok rebuilt, slot.setAppendLogSeqHint (sha256 logId) rebuilt.lastSeq)
  match loaded with
  | .ok (some state) =>
      match accumulatorStateUsable sha256 kv logId state with
      | .error e => (.error e, slot)
      | .ok true => (.ok state, slot)
      | .ok false => rebuild
  | _ => rebuild

/-! ## Appending -/

/-- What a caller appends; the time is its own or the clock's. -/
structure Request where
  payload : Bytes
  attachmentHashes : List Hash
  ingestTimeMs : UInt64

def Request.input (req : Request) (logId : Bytes) (tail : AccumulatorState) : EventInput :=
  ⟨logId, tail.lastSeq + 1, tail.headHash, req.ingestTimeMs, req.payload, req.attachmentHashes⟩

/-- The event is written under the number after the tail's, once. -/
def createEvent (kv : Kv) (logId : Bytes) (tail : AccumulatorState) (req : Request) :
    Except Error (EncodedEnvelope × Kv) :=
  if tail.lastSeq.toNat = maxU64 then .error .sequenceOverflow
  else
    match encodeEnvelopeWithHashes sha256 (req.input logId tail) with
    | .error e => .error e
    | .ok encoded =>
        match kv.setWithTimestamp (eventKey sha256 logId (tail.lastSeq + 1)) encoded.envelope true
            req.ingestTimeMs with
        | .error .wormViolation => .error .sequenceReuse
        | .error e => .error (.store e)
        | .ok kv' => .ok (encoded, kv')

def nextState (tail : AccumulatorState) (req : Request) (encoded : EncodedEnvelope) :
    Except Error AccumulatorState :=
  advanceAccumulatorState sha256 tail (sha256 encoded.envelope) encoded.eventHash req.ingestTimeMs

/-- `persistAccumulatorState` up to the hint. -/
def writeState (kv : Kv) (logId : Bytes) (state : AccumulatorState) : Except Error Kv :=
  match encodeAccumulatorState logId state with
  | .error e => .error e
  | .ok value =>
      match kv.setWithTimestamp (accumulatorStateKey sha256 logId state.lastSeq) value true
          state.lastIngestTimeMs with
      | .error e => .error (.store e)
      | .ok kv' => .ok kv'

def appendResult (logId : Bytes) (tail : AccumulatorState) (req : Request)
    (encoded : EncodedEnvelope) (next : AccumulatorState) : AppendResult :=
  ⟨eventKey sha256 logId (tail.lastSeq + 1), encoded.envelope, tail.lastSeq + 1, tail.headHash,
    encoded.payloadHash, encoded.eventHash, next.accumulatorRoot, next.lastSeq, req.ingestTimeMs⟩

/-- An append that nothing interrupts; the store and the hint slot after it. -/
def append (loads : Bool) (kv : Kv) (logId : Bytes) (slot : SeqHintSlot) (req : Request) :
    Except Error AppendResult × Kv × SeqHintSlot :=
  match loadOrRebuildAccumulatorState sha256 loads kv logId slot with
  | (.error e, slot) => (.error e, kv, slot)
  | (.ok tail, slot) =>
      match createEvent sha256 kv logId tail req with
      | .error e => (.error e, kv, slot)
      | .ok (encoded, kv) =>
          match nextState sha256 tail req encoded with
          | .error e => (.error e, kv, slot)
          | .ok next =>
              let result := appendResult sha256 logId tail req encoded next
              match writeState sha256 kv logId next with
              | .error _ => (.ok result, kv, slot)
              | .ok kv => (.ok result, kv, slot.setAppendLogSeqHint (sha256 logId) next.lastSeq)

end AppendLog
end WormDB
