import WormDB.StoreInvariant
import WormDB.GuardedReplay

/-! # Log images

A log image is the concatenation of serialized records (`encodeLog`).  Replaying
one over a store applies its records in order, each unless the key has a WORM
entry (`replayWal_encodeLog`): on the store's contents this is
`GuardedReplay.replay`.  A record whose payload is longer than the iterator's
limit makes the whole replay fail (`replayWal_oversize`); serialization has no
such limit. -/
namespace WormDB
open List ByteCodec GuardedReplay Wal

namespace WalRecord

def recordType : WalRecord → WalRecordType
  | .set .. => .set
  | .delete .. => .delete
  | .vinsert .. => .vinsert
  | .vdelete .. => .vdelete

def payload : WalRecord → Bytes
  | .set key value flags timestamp => setPayload key value flags timestamp
  | .delete key => deletePayload key
  | .vinsert key ns metric flags timestamp => vinsertPayload key ns metric flags timestamp
  | .vdelete key ns => vdeletePayload key ns

/-- Only the flag bits the iterator knows are set. -/
def KnownFlags : WalRecord → Prop
  | .vinsert _ _ _ flags _ => flags &&& 0b11111100 = 0
  | _ => True

/-- The payload is one the iterator reads. -/
def Replayable (r : WalRecord) : Prop := r.payload.length ≤ maxPayloadLen

instance (r : WalRecord) : Decidable r.Replayable :=
  inferInstanceAs (Decidable (r.payload.length ≤ maxPayloadLen))

/-- What a record writes, as a client sees it. -/
def write (r : WalRecord) : Option (Bytes × Option Content) :=
  r.effect.map (fun w => (w.1, w.2.map Entry.content))

end WalRecord

/-- The writes of a list of records. -/
def writesOf (log : List WalRecord) : List (Bytes × Option Content) :=
  log.filterMap WalRecord.write

theorem writesOf_append (log log' : List WalRecord) :
    writesOf (log ++ log') = writesOf log ++ writesOf log' := filterMap_append

/-- The bytes of a list of records. -/
def encodeLog (log : List WalRecord) : Option Bytes :=
  (log.mapM serializeRecord).map List.flatten

variable {r : WalRecord} {bytes : Bytes}

section
variable (h : serializeRecord r = some bytes)
include h

theorem serializeRecord_eq : bytes = frame r.recordType r.payload := by
  cases r with
  | set key value flags timestamp =>
    simp only [serializeRecord, serializeSetRecord] at h
    split at h
    · exact (Option.some.inj h).symm
    · cases h
  | delete key =>
    simp only [serializeRecord, serializeDeleteRecord] at h
    split at h
    · exact (Option.some.inj h).symm
    · cases h
  | vinsert key ns metric flags timestamp =>
    simp only [serializeRecord, serializeVinsertRecord] at h
    split at h
    · exact (Option.some.inj h).symm
    · cases h
  | vdelete key ns =>
    simp only [serializeRecord, serializeVdeleteRecord] at h
    split at h
    · exact (Option.some.inj h).symm
    · cases h

theorem serializeRecord_ne_nil : bytes ≠ [] := by
  rintro rfl
  have hlen := congrArg List.length (serializeRecord_eq h)
  rw [frame_length, length_nil, headerLen] at hlen
  omega

/-- A serialized record's payload parses back to it. -/
theorem parseRecord_payload (hflags : r.KnownFlags) :
    parseRecord r.recordType r.payload = some r := by
  cases r with
  | set key value flags timestamp =>
    simp only [serializeRecord, serializeSetRecord] at h
    split at h
    · rename_i hfit
      exact parseSet_setPayload flags timestamp hfit.1 hfit.2
    · cases h
  | delete key =>
    simp only [serializeRecord, serializeDeleteRecord] at h
    split at h
    · rename_i hfit
      exact parseDelete_deletePayload hfit
    · cases h
  | vinsert key ns metric flags timestamp =>
    simp only [serializeRecord, serializeVinsertRecord] at h
    split at h
    · rename_i hfit
      exact parseVinsert_vinsertPayload timestamp hfit.1 hfit.2.1 hfit.2.2 hflags
    · cases h
  | vdelete key ns =>
    simp only [serializeRecord, serializeVdeleteRecord] at h
    split at h
    · rename_i hfit
      exact parseVdelete_vdeletePayload hfit.1 hfit.2
    · cases h

end

theorem payload_pos (r : WalRecord) : 0 < r.payload.length := by
  cases r <;>
    simp only [WalRecord.payload, setPayload, deletePayload, vinsertPayload,
      vdeletePayload, length_cons, length_append, leBytes_length] <;> omega

section
variable (h : serializeRecord r = some bytes)
include h

/-- A payload's length always fits the header's field. -/
theorem payload_lt : r.payload.length < 2 ^ 33 := by
  cases r with
  | set key value flags timestamp =>
    simp only [serializeRecord, serializeSetRecord] at h
    split at h
    · rename_i hfit
      rw [WalRecord.payload, setPayload_length, setPayloadOverhead]
      omega
    · cases h
  | delete key =>
    simp only [serializeRecord, serializeDeleteRecord] at h
    split at h
    · rename_i hfit
      rw [WalRecord.payload, deletePayload_length, delPayloadOverhead]
      omega
    · cases h
  | vinsert key ns metric flags timestamp =>
    simp only [serializeRecord, serializeVinsertRecord] at h
    split at h
    · rename_i hfit
      simp [WalRecord.payload, vinsertPayload]
      omega
    · cases h
  | vdelete key ns =>
    simp only [serializeRecord, serializeVdeleteRecord] at h
    split at h
    · rename_i hfit
      simp [WalRecord.payload, vdeletePayload]
      omega
    · cases h

/-- **Reading back one record.** -/
theorem next_serializeRecord (hflags : r.KnownFlags) (hfit : r.Replayable)
    (rest : Bytes) : Wal.next (bytes ++ rest) = .record r rest := by
  rw [serializeRecord_eq h]
  exact next_frame (payload_pos r) hfit (parseRecord_payload h hflags) rest

/-- The iterator refuses a record that is too long. -/
theorem next_oversize
    (hbig : ¬ r.Replayable) (rest : Bytes) : Wal.next (bytes ++ rest) = .corruption := by
  have hlt := payload_lt h
  rw [serializeRecord_eq h]
  obtain ⟨header, hsplit, -, -, hlen⟩ :=
    frame_header r.recordType (show r.payload.length < 256 ^ 8 by omega) rest
  rw [Wal.next, hsplit]
  simp only [hlen]
  exact if_pos (.inr (lt_of_not_ge hbig))

end

theorem encodeLog_nil : encodeLog [] = some [] := rfl

variable {log : List WalRecord}

theorem encodeLog_cons :
    encodeLog (r :: log) = some bytes ↔ ∃ b bs, serializeRecord r = some b ∧
      encodeLog log = some bs ∧ bytes = b ++ bs := by
  unfold encodeLog
  rw [mapM_cons]
  cases serializeRecord r with
  | none => simp
  | some b =>
    cases log.mapM serializeRecord with
    | none => simp
    | some bs =>
      simp only [Option.pure_def, Option.bind_eq_bind, Option.bind_some, Option.map_some,
        flatten_cons, Option.some.injEq]
      constructor
      · rintro rfl
        exact ⟨b, _, rfl, rfl, rfl⟩
      · rintro ⟨b', bs', rfl, rfl, rfl⟩
        rfl

variable {log' : List WalRecord}

theorem encodeLog_append_iff :
    encodeLog (log ++ log') = some bytes ↔ ∃ bs bs', encodeLog log = some bs ∧
      encodeLog log' = some bs' ∧ bytes = bs ++ bs' := by
  induction log generalizing bytes with
  | nil =>
    constructor
    · intro h
      exact ⟨[], bytes, rfl, h, rfl⟩
    · rintro ⟨bs, bs', h, h', rfl⟩
      cases h
      exact h'
  | cons r log ih =>
    constructor
    · intro h
      obtain ⟨b, rest, hb, hrest, rfl⟩ := encodeLog_cons.mp h
      obtain ⟨bs, bs', hbs, hbs', rfl⟩ := ih.mp hrest
      exact ⟨b ++ bs, bs', encodeLog_cons.mpr ⟨b, bs, hb, hbs, rfl⟩, hbs',
        (append_assoc b bs bs').symm⟩
    · rintro ⟨bs, bs', h, h', rfl⟩
      obtain ⟨b, bs₁, hb, hbs, rfl⟩ := encodeLog_cons.mp h
      rw [append_assoc]
      exact encodeLog_cons.mpr ⟨b, bs₁ ++ bs', hb, ih.mpr ⟨bs₁, bs', hbs, h', rfl⟩, rfl⟩

theorem encodeLog_append {bytes' : Bytes}
    (h : encodeLog log = some bytes) (h' : encodeLog log' = some bytes') :
    encodeLog (log ++ log') = some (bytes ++ bytes') :=
  encodeLog_append_iff.mpr ⟨bytes, bytes', h, h', rfl⟩

theorem encodeLog_singleton (h : serializeRecord r = some bytes) : encodeLog [r] = some bytes :=
  encodeLog_cons.mpr ⟨bytes, [], h, rfl, (append_nil bytes).symm⟩

theorem encodeLog_length (h : encodeLog log = some bytes) : log.length ≤ bytes.length := by
  induction log generalizing bytes with
  | nil => exact Nat.zero_le _
  | cons r log ih =>
    obtain ⟨b, bs, hb, hbs, rfl⟩ := encodeLog_cons.mp h
    have hlen := ih hbs
    have hpos : 0 < b.length := by
      rw [serializeRecord_eq hb, frame_length, headerLen]
      omega
    rw [length_cons, length_append]
    omega

/-- The first record that is too long. -/
theorem exists_first_oversize (h : ¬ ∀ r ∈ log, r.Replayable) :
    ∃ before r after, log = before ++ r :: after ∧ (∀ x ∈ before, x.Replayable) ∧
      ¬ r.Replayable := by
  induction log with
  | nil => exact absurd (forall_mem_nil _) h
  | cons r log ih =>
    by_cases hr : r.Replayable
    · obtain ⟨before, x, after, rfl, hbefore, hx⟩ :=
        ih (fun hall => h (forall_mem_cons.mpr ⟨hr, hall⟩))
      exact ⟨r :: before, x, after, rfl, forall_mem_cons.mpr ⟨hr, hbefore⟩, hx⟩
    · exact ⟨[], r, log, rfl, forall_mem_nil _, hr⟩

/-! ## Replaying on the contents -/

section
variable {s s' : Store}

theorem Keeps.view (h : Keeps s s') : s'.view = s.view := by
  funext k
  rw [Store.view, Store.view, h.entryAt]

variable {key : Bytes}

theorem Updates.view {e : Option Entry} (h : Updates s s' key e) :
    s'.view = Function.update s.view key (e.map Entry.content) := by
  funext k
  rw [Store.view, h.entryAt]
  by_cases hk : k = key
  · rw [if_pos hk, hk, Function.update_self]
  · rw [if_neg hk, Function.update_of_ne hk, Store.view]

theorem liveWorm_iff (s : Store) (key : Bytes) :
    s.liveWorm key = true ↔ Locked Content.isWorm s.view key := by
  rw [liveWorm_eq, Locked, Store.view]
  cases s.entryAt key <;> rfl

theorem not_locked_of_entry {e : Entry} (hat : s.entryAt key = some e)
    (hworm : e.flags.isWorm = false) : ¬ Locked Content.isWorm s.view key := by
  rw [Locked, Store.view, hat]
  show ¬ e.flags.isWorm = true
  rw [hworm]
  exact Bool.false_ne_true

theorem wormBlocked_false (h : s.wormBlocked key = false) : ¬ Locked Content.isWorm s.view key := by
  cases hat : s.entryAt key with
  | none =>
    rw [Locked, Store.view, hat]
    exact Bool.false_ne_true
  | some e =>
    refine not_locked_of_entry hat ?_
    unfold Store.wormBlocked at h
    rw [show (s.get key).bind s.mem = some e from hat] at h
    exact h

theorem Replayed.view (h : Replayed s s' r) :
    s'.view = replay Content.isWorm s.view (writesOf [r]) := by
  unfold Replayed at h
  cases heff : r.effect with
  | none =>
    have hw : writesOf [r] = [] := by simp [writesOf, WalRecord.write, heff]
    rw [heff] at h
    rw [hw]
    exact h.view
  | some w =>
    have hw : writesOf [r] = [(w.1, w.2.map Entry.content)] := by
      simp [writesOf, WalRecord.write, heff]
    rw [heff] at h
    rw [hw]
    show s'.view = apply Content.isWorm s.view (w.1, w.2.map Entry.content)
    by_cases hl : s.liveWorm w.1 = true
    · simp only [hl, if_true] at h
      rw [apply_of_locked ((liveWorm_iff s w.1).mp hl)]
      exact h.view
    · simp only [if_neg hl] at h
      rw [apply_of_not_locked (fun hx => hl ((liveWorm_iff s w.1).mpr hx))]
      exact h.view

/-- With memory to be had, a record is replayed. -/
theorem StoreOk.replayRecord_ok (h : StoreOk s) {alloc : AllocSite → Bool}
    (halloc : ∀ site, alloc site = true) (r : WalRecord) :
    ∃ s', s.replayRecord alloc r = (.ok (), s') ∧ Replayed s s' r := by
  have hspec := h.replayRecord alloc r
  have hok : ∃ s', s.replayRecord alloc r = (.ok (), s') := by
    cases r with
    | set key value flags timestamp =>
      unfold Store.replayRecord
      by_cases hl : s.liveWorm key = true
      · exact ⟨s, if_pos hl⟩
      · obtain ⟨hkeeps, hmem, hout⟩ := h.create ⟨key, value, timestamp, flags⟩
        obtain ⟨s', hput, -⟩ := hkeeps.ok.shardPut_ok halloc hmem hout
        simp only [if_neg hl, halloc, if_true]
        exact ⟨s', by rw [hput]⟩
    | delete key => exact ⟨_, rfl⟩
    | vinsert | vdelete => exact ⟨_, rfl⟩
  obtain ⟨s', hs'⟩ := hok
  rw [hs'] at hspec
  exact ⟨s', hs', hspec⟩

variable {alloc : Nat → AllocSite → Bool} {log : List WalRecord} {bytes : Bytes}

/-- **Replaying an image that something follows**: its records are applied, and
the loop goes on with the rest. -/
theorem StoreOk.replayLoop_encodeLog (h : StoreOk s)
    (halloc : ∀ n site, alloc n site = true)
    (henc : encodeLog log = some bytes) (hflags : ∀ r ∈ log, r.KnownFlags)
    (hfit : ∀ r ∈ log, r.Replayable) :
    ∃ s', StoreOk s' ∧ s'.sst = s.sst ∧
      s'.view = replay Content.isWorm s.view (writesOf log) ∧
      ∀ fuel n rest, Store.replayLoop alloc (fuel + log.length) n (bytes ++ rest) s =
        Store.replayLoop alloc fuel (n + log.length) rest s' := by
  induction log generalizing s bytes with
  | nil =>
    cases henc
    exact ⟨s, h, rfl, rfl, fun fuel n rest => rfl⟩
  | cons r log ih =>
    obtain ⟨b, bs, hb, hbs, rfl⟩ := encodeLog_cons.mp henc
    obtain ⟨hr, htail⟩ := forall_mem_cons.mp hfit
    obtain ⟨hrf, htailf⟩ := forall_mem_cons.mp hflags
    -- what a record does does not depend on its number
    have halloc₀ : ∀ n, alloc n = fun _ => true := fun n => funext (halloc n)
    obtain ⟨s₁, hrec, hrep⟩ := h.replayRecord_ok (halloc 0) r
    obtain ⟨s', hok, hsst, hview, hloop⟩ := ih hrep.ok hbs htailf htail
    refine ⟨s', hok, hsst.trans hrep.sst, ?_, fun fuel n rest => ?_⟩
    · have hw : writesOf (r :: log) = writesOf [r] ++ writesOf log := by
        simp only [writesOf]
        rw [← filterMap_append]
        rfl
      rw [hw, replay_append, ← hrep.view]
      exact hview
    · rw [length_cons, ← add_assoc, Store.replayLoop, append_assoc,
        next_serializeRecord hb hrf hr]
      simp only [halloc, if_true]
      rw [halloc₀ n, ← halloc₀ 0, hrec]
      simp only [hloop]
      rw [add_right_comm, add_assoc n]

/-- **Replaying an image with a tail**: the records are applied, and then the tail
ends the log or fails the replay. -/
theorem StoreOk.replayWal_tail (h : StoreOk s)
    (halloc : ∀ n site, alloc n site = true)
    (henc : encodeLog log = some bytes) (hflags : ∀ r ∈ log, r.KnownFlags)
    (hfit : ∀ r ∈ log, r.Replayable) :
    ∃ s', StoreOk s' ∧ s'.sst = s.sst ∧ s'.view = replay Content.isWorm s.view (writesOf log) ∧
      ∀ tail, (Wal.next tail = .done → Store.replayWal alloc (bytes ++ tail) s = (.ok (), s')) ∧
        (Wal.next tail = .corruption →
          Store.replayWal alloc (bytes ++ tail) s = (.error (.error .corruption), s')) := by
  obtain ⟨s', hok, hsst, hview, hloop⟩ := h.replayLoop_encodeLog halloc henc hflags hfit
  refine ⟨s', hok, hsst, hview, fun tail => ?_⟩
  have hlen := encodeLog_length henc
  have hfuel : (bytes ++ tail).length + 1 =
      (bytes ++ tail).length - log.length + 1 + log.length := by
    rw [length_append]
    omega
  rw [Store.replayWal, hfuel, hloop, Store.replayLoop]
  constructor
  · intro hdone
    rw [hdone]
  · intro hcorrupt
    rw [hcorrupt]

/-- **Replaying an image.** -/
theorem StoreOk.replayWal_encodeLog (h : StoreOk s) (halloc : ∀ n site, alloc n site = true)
    (henc : encodeLog log = some bytes) (hflags : ∀ r ∈ log, r.KnownFlags)
    (hfit : ∀ r ∈ log, r.Replayable) :
    ∃ s', Store.replayWal alloc bytes s = (.ok (), s') ∧ StoreOk s' ∧ s'.sst = s.sst ∧
      s'.view = replay Content.isWorm s.view (writesOf log) := by
  obtain ⟨s', hok, hsst, hview, htail⟩ := h.replayWal_tail halloc henc hflags hfit
  have hdone := (htail []).1 rfl
  rw [append_nil] at hdone
  exact ⟨s', hdone, hok, hsst, hview⟩

/-- **A record that is too long fails the whole replay**, whatever follows it. -/
theorem StoreOk.replayWal_oversize (h : StoreOk s) (halloc : ∀ n site, alloc n site = true)
    (henc : encodeLog log = some bytes) (hflags : ∀ r ∈ log, r.KnownFlags)
    (hbig : ¬ ∀ r ∈ log, r.Replayable) (rest : Bytes) :
    ∃ s', Store.replayWal alloc (bytes ++ rest) s = (.error (.error .corruption), s') := by
  obtain ⟨before, r, after, rfl, hbefore, hr⟩ := exists_first_oversize hbig
  obtain ⟨bytes₁, bytes₂, henc₁, henc₂, rfl⟩ := encodeLog_append_iff.mp henc
  obtain ⟨b, bs, hb, -, rfl⟩ := encodeLog_cons.mp henc₂
  obtain ⟨s', -, -, -, htail⟩ := h.replayWal_tail halloc henc₁
    (fun x hx => hflags x (mem_append_left _ hx)) hbefore
  refine ⟨s', ?_⟩
  rw [append_assoc, append_assoc]
  exact (htail _).2 (next_oversize hb hr _)

end

end WormDB
