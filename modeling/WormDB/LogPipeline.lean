import WormDB.StoreFrame
import WormDB.WalImage
import WormDB.RingQueue

/-! # The write-ahead log with its background writer

Sets and deletes with the background writer running: `setWithTimestampNoVectorSync` and
`delete` of `storage/store.zig`, with the ring queue and `writerLoop` of `storage/wal.zig`,
cut into the steps that other threads can come between.  A set serializes its record before
any lock; every call puts its record into the ring under its shard's lock and, inside it,
the queue's, and changes the live map after that.  The writer takes records out of the ring,
gathers them in a buffer of 64 KiB, and hands the buffer to the file, which may take it in
pieces.

A write to the file that fails is dropped by the source; here it is a step of its own
(`writeFailed`). -/
namespace WormDB
open ByteCodec RingQueue

/-- `WAL_QUEUE_CAP`; the mask of a power of two is the remainder. -/
def walQueueCap : Nat := 2 ^ 16

/-- The writer's buffer. -/
def writeBufLen : Nat := 65536

/-- Records that the writer takes before it writes. -/
def maxBatch : Nat := 256

/-! ## The calls -/

inductive LogCall where
  | set (key value : Bytes) (isWorm : Bool) (timestamp : UInt64)
  | delete (key : Bytes)

namespace LogCall

def key : LogCall → Bytes
  | set key _ _ _ => key
  | delete key => key

def shard (call : LogCall) : Fin shardCount := shardIndex call.key

def record : LogCall → WalRecord
  | set key value isWorm timestamp => .set key value (.written isWorm) timestamp
  | delete key => .delete key

/-- What the key has after the call. -/
def entry : LogCall → Option Entry
  | set key value isWorm timestamp => some ⟨key, value, timestamp, .written isWorm⟩
  | delete _ => none

end LogCall

/-- What a call still has to do to the live map. -/
inductive Change where
  | upsert (prepared : Store.PreparedUpsert)
  | remove

/-- How far a call has come. -/
inductive CallPhase where
  | called
  | serialized (record : Bytes)
  | lockedSet (record : Bytes)
  | lockedDelete
  | ready (record : Bytes) (change : Change)
  | queueing (record : Bytes) (change : Change)
  | offering (record : Bytes) (change : Change) (head : Nat)
  | written (record : Bytes) (change : Change)
  | published (change : Change)
  | logged (change : Change)
  | leaving (result : Except Fault Unit)
  | returned (result : Except Fault Unit)
  | trapped

namespace CallPhase

/-- The call holds its shard. -/
def holdsShard : CallPhase → Bool
  | called | serialized _ | returned _ | trapped => false
  | _ => true

/-- The call holds the queue's lock. -/
def holdsQueue : CallPhase → Bool
  | queueing _ _ | offering _ _ _ | written _ _ | published _ => true
  | _ => false

/-- The call's record is in the queue and its change is not in the live map. -/
def inLog : CallPhase → Bool
  | published _ | logged _ => true
  | _ => false

end CallPhase

namespace LogCall

/-- The next step locks the shard. -/
def wantsShard : LogCall → CallPhase → Bool
  | _, .serialized _ => true
  | delete _, .called => true
  | _, _ => false

/-- The next step locks the queue. -/
def wantsQueue : CallPhase → Bool
  | .ready _ _ => true
  | _ => false

/-- The next step of a call, once the lock it wants is free. -/
def step (alloc : AllocSite → Bool) (call : LogCall) (s : Store) (ring : SlotRing Bytes) :
    CallPhase → Option (CallPhase × Store × SlotRing Bytes)
  | .called =>
      match call with
      | set key value isWorm timestamp =>
          if !alloc .record then some (.returned (.error (.error .outOfMemory)), s, ring)
          else
            match Wal.serializeSetRecord key value (.written isWorm) timestamp with
            | none => some (.trapped, s, ring)
            | some record => some (.serialized record, s, ring)
      | delete _ => some (.lockedDelete, s, ring)
  | .serialized record => some (.lockedSet record, s, ring)
  | .lockedSet record =>
      match call with
      | set key value isWorm timestamp =>
          if s.wormBlocked key then some (.leaving (.error (.error .wormViolation)), s, ring)
          else
            match s.prepareUpsertLocked alloc (shardIndex key) (s.get key) key value isWorm
                timestamp with
            | .error f => some (.leaving (.error f), s, ring)
            | .ok (prepared, s') => some (.ready record (.upsert prepared), s', ring)
      | delete _ => none
  | .lockedDelete =>
      match call with
      | set .. => none
      | delete key =>
          match (s.get key).bind s.mem with
          | none => some (.leaving (.ok ()), s, ring)
          | some existing =>
              if existing.flags.isWorm then
                some (.leaving (.error (.error .wormViolation)), s, ring)
              else if !alloc .record then some (.leaving (.error (.error .ioError)), s, ring)
              else
                match Wal.serializeDeleteRecord key with
                | none => some (.trapped, s, ring)
                | some record => some (.ready record .remove, s, ring)
  | .ready record change => some (.queueing record change, s, ring)
  | .queueing record change => some (.offering record change ring.head, s, ring)
  | .offering record change head =>
      -- a full ring is tried again
      if ring.tail - head ≥ walQueueCap then some (.queueing record change, s, ring)
      else some (.written record change, s, ring.write walQueueCap record)
  | .written _ change => some (.published change, s, ring.publish)
  | .published change => some (.logged change, s, ring)
  | .logged change =>
      match call, change with
      | set key value isWorm timestamp, .upsert prepared =>
          match s.commitPreparedUpsertLocked (shardIndex key) prepared value isWorm timestamp with
          | .error _ => some (.trapped, s, ring)
          | .ok s' => some (.leaving (.ok ()), s', ring)
      | delete key, .remove =>
          some (.leaving (.ok ()), s.shardDropLocked (shardIndex key) key, ring)
      | _, _ => none
  | .leaving result => some (.returned result, s, ring)
  | .returned _ => none
  | .trapped => none

end LogCall

/-! ## The writer -/

/-- Where the writer stands: `batch` records taken since the last write, `buf` in its
buffer, `outs` on their way to the file. -/
inductive WriterPhase where
  | draining (batch : Nat) (buf : Bytes)
  | seen (batch : Nat) (buf : Bytes) (tail : Nat)
  | took (batch : Nat) (buf record : Bytes)
  | holding (batch : Nat) (buf record : Bytes)
  | flushing (batch : Nat) (outs : List Bytes) (buf : Bytes)

namespace WriterPhase

/-- What the writer has taken and the file does not have. -/
def carried : WriterPhase → Bytes
  | draining _ buf => buf
  | seen _ buf _ => buf
  | took _ buf record => buf ++ record
  | holding _ buf record => buf ++ record
  | flushing _ outs buf => outs.flatten ++ buf

/-- The slot of the head is cleared and not yet passed. -/
def taken : WriterPhase → Bool
  | took _ _ _ => true
  | _ => false

/-- A record goes into the buffer, after a write when it does not fit there, or around it
when it is larger than the buffer. -/
def gather (batch : Nat) (buf record : Bytes) : WriterPhase :=
  if record.length > writeBufLen then .flushing (batch + 1) [buf, record] []
  else if buf.length + record.length > writeBufLen then .flushing (batch + 1) [buf] record
  else .draining (batch + 1) (buf ++ record)

/-- The writer's next step; a write hands over `chunk + 1` bytes at most. -/
def step (chunk : Nat) (ring : SlotRing Bytes) (file : Bytes) :
    WriterPhase → WriterPhase × SlotRing Bytes × Bytes
  | draining batch buf =>
      if batch < maxBatch then (.seen batch buf ring.tail, ring, file)
      else (.flushing 0 [buf] [], ring, file)
  | seen batch buf tail =>
      if ring.head = tail then (.flushing 0 [buf] [], ring, file)
      else
        match ring.front walQueueCap with
        | none => (.flushing 0 [buf] [], ring, file)
        | some record => (.took batch buf record, ring.clear walQueueCap, file)
  | took batch buf record => (.holding batch buf record, ring.advance, file)
  | holding batch buf record => (gather batch buf record, ring, file)
  | flushing batch [] buf => (.draining batch buf, ring, file)
  | flushing batch ([] :: outs) buf => (.flushing batch outs buf, ring, file)
  | flushing batch (out :: outs) buf =>
      (.flushing batch (out.drop (chunk + 1) :: outs) buf, ring, file ++ out.take (chunk + 1))

/-- A write that fails is dropped. -/
def fail : WriterPhase → WriterPhase
  | flushing batch (_ :: outs) buf => .flushing batch outs buf
  | phase => phase

end WriterPhase

/-! ## The system -/

structure LogSystem (n : Nat) where
  store : Store
  ring : SlotRing Bytes
  phases : Fin n → CallPhase
  writer : WriterPhase
  file : Bytes

/-- What a step is to an observer. -/
inductive LogEvent where
  | quiet
  | committed (call : LogCall)
  | writeFailed

namespace LogSystem
variable {n : Nat}

/-- An open store with its log file; no call has begun. -/
def start (s : Store) (file : Bytes) : LogSystem n :=
  ⟨s, SlotRing.empty, fun _ => .called, .draining 0 [], file⟩

def Halted (s : LogSystem n) : Prop := ∃ i, s.phases i = .trapped

/-- The queue is empty, and what was in it is in the file. -/
def Drained (s : LogSystem n) : Prop := s.ring.head = s.ring.tail ∧ s.writer.carried = []

/-- Another call on the shard of call `i` holds it. -/
def ShardBusy (calls : Fin n → LogCall) (s : LogSystem n) (i : Fin n) : Prop :=
  ∃ j, j ≠ i ∧ (s.phases j).holdsShard = true ∧ (calls j).shard = (calls i).shard

def QueueBusy (s : LogSystem n) (i : Fin n) : Prop :=
  ∃ j, j ≠ i ∧ (s.phases j).holdsQueue = true

/-- The live map changes in the step out of `logged`. -/
def eventOf (call : LogCall) : CallPhase → CallPhase → LogEvent
  | .logged _, .leaving _ => .committed call
  | _, _ => .quiet

inductive Step (calls : Fin n → LogCall) : LogEvent → LogSystem n → LogSystem n → Prop where
  | call {s : LogSystem n} (i : Fin n) (alloc : AllocSite → Bool) {phase : CallPhase}
      {store : Store} {ring : SlotRing Bytes} (hrunning : ¬ s.Halted)
      (hshard : (calls i).wantsShard (s.phases i) = true → ¬ s.ShardBusy calls i)
      (hqueue : LogCall.wantsQueue (s.phases i) = true → ¬ s.QueueBusy i)
      (hstep : (calls i).step alloc s.store s.ring (s.phases i) = some (phase, store, ring)) :
      Step calls (eventOf (calls i) (s.phases i) phase) s
        { s with store := store, ring := ring, phases := Function.update s.phases i phase }
  | writer {s : LogSystem n} (chunk : Nat) {phase : WriterPhase} {ring : SlotRing Bytes}
      {file : Bytes} (hrunning : ¬ s.Halted) (hstep : s.writer.step chunk s.ring s.file = (phase, ring, file)) :
      Step calls .quiet s { s with writer := phase, ring := ring, file := file }
  | writeFailed {s : LogSystem n} (hrunning : ¬ s.Halted) :
      Step calls .writeFailed s { s with writer := s.writer.fail }

inductive Run (calls : Fin n → LogCall) :
    LogSystem n → List LogEvent → LogSystem n → Prop where
  | nil (s : LogSystem n) : Run calls s [] s
  | snoc {s s' s'' : LogSystem n} {events : List LogEvent} {event : LogEvent}
      (hrun : Run calls s events s') (hstep : Step calls event s' s'') :
      Run calls s (events ++ [event]) s''

end LogSystem

/-! ## What is observed -/

/-- The changes of the live map, in their order. -/
def changesOf (events : List LogEvent) : List WalRecord :=
  events.filterMap (fun event =>
    match event with
    | .committed call => some call.record
    | _ => none)

def WalRecord.key : WalRecord → Bytes
  | .set key _ _ _ => key
  | .delete key => key
  | .vinsert key _ _ _ _ => key
  | .vdelete key _ => key

/-- The records of one key. -/
def onKey (key : Bytes) (records : List WalRecord) : List WalRecord :=
  records.filter (fun r => decide (r.key = key))

/-- The records that the iterator finds in a file; the file's length is fuel enough. -/
def recordsLoop : Nat → Bytes → List WalRecord
  | 0, _ => []
  | fuel + 1, bytes =>
      match Wal.next bytes with
      | .record r rest => r :: recordsLoop fuel rest
      | _ => []

def recordsIn (bytes : Bytes) : List WalRecord := recordsLoop (bytes.length + 1) bytes

end WormDB
