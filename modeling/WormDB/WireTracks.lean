import WormDB.WireHeap

/-! # The parsers with their memory, beside the plain ones

`Tracks` sets a parser with its memory beside the plain one: it stops only where the plain
one says so, it ends as the plain one does or for lack of memory, and it asks for no more
than a bound.  The plain one stops at the sizes of VRABITQ_INSTALL only
(`parse_trap_iff`). -/
namespace WormDB
open List
namespace WireHeap
open ByteCodec ByteReader

/-- The error that a fault is; a stop is none. -/
def errorOf : WireFault → Option WireError
  | .endOfStream => some .endOfStream
  | .corruption => some .corruption
  | .unknownCommand => some .unknownCommand
  | .payloadTooLarge => some .payloadTooLarge
  | .invalidFlags => some .invalidFlags
  | .trap => none

variable {α β γ δ : Type}

/-- More was asked for, and each time no more than `bound`. -/
def Asks (bound : Nat) (heap heap' : Heap) : Prop :=
  ∃ asked, heap'.requests = heap.requests ++ asked ∧ ∀ n ∈ asked, n ≤ bound

/-- How a parser may end, beside the plain outcome `y`. -/
inductive Ends (fails : Nat → Bool) (bound : Nat) (R : α → β → Prop) (y : Except WireFault β)
    (heap : Heap) : Option (Except WireError α × Heap) → Prop where
  | ok {a : α} {b : β} {heap' : Heap} (hy : y = .ok b) (h : R a b) (asks : Asks bound heap heap') :
      Ends fails bound R y heap (some (.ok a, heap'))
  | error {e : WireError} {fault : WireFault} {heap' : Heap} (hy : y = .error fault)
      (he : errorOf fault = some e) (asks : Asks bound heap heap') :
      Ends fails bound R y heap (some (.error e, heap'))
  | outOfMemory {heap' : Heap} (hfail : ∃ n, fails n = true) (asks : Asks bound heap heap') :
      Ends fails bound R y heap (some (.error .outOfMemory, heap'))
  | trap (hy : y = .error .trap) : Ends fails bound R y heap none

/-- The parser goes along with the plain one, from any heap. -/
def Tracks (fails : Nat → Bool) (bound : Nat) (R : α → β → Prop) (x : Parser α)
    (y : Except WireFault β) : Prop :=
  ∀ heap, Ends fails bound R y heap (x heap)

/-- An outcome that is looked at, beside the plain one. -/
inductive Matches (fails : Nat → Bool) (R : α → β → Prop) :
    Except WireError α → Except WireFault β → Prop where
  | ok {a : α} {b : β} (h : R a b) : Matches fails R (.ok a) (.ok b)
  | error {e : WireError} {fault : WireFault} (he : errorOf fault = some e) :
      Matches fails R (.error e) (.error fault)
  | outOfMemory (hfail : ∃ n, fails n = true) (y : Except WireFault β) :
      Matches fails R (.error .outOfMemory) y

section
variable {fails : Nat → Bool} {bound : Nat} {R : α → β → Prop} {S : γ → δ → Prop}
  {heap heap' heap'' : Heap}

theorem Asks.refl (bound : Nat) (heap : Heap) : Asks bound heap heap :=
  ⟨[], (append_nil _).symm, fun _ h => absurd h not_mem_nil⟩

theorem Asks.trans (h : Asks bound heap heap') (h' : Asks bound heap' heap'') :
    Asks bound heap heap'' := by
  obtain ⟨asked, hreq, hbound⟩ := h
  obtain ⟨asked', hreq', hbound'⟩ := h'
  refine ⟨asked ++ asked', by rw [hreq', hreq, append_assoc], fun n hn => ?_⟩
  rcases mem_append.mp hn with hn | hn
  · exact hbound n hn
  · exact hbound' n hn

/-- Releases ask for nothing. -/
theorem Asks.freed (h : Asks bound heap heap') (freed : List Nat) :
    Asks bound heap { heap' with freed := freed } := h

theorem Ends.after {r : Option (Except WireError α × Heap)} {y : Except WireFault β}
    (asks : Asks bound heap heap') (h : Ends fails bound R y heap' r) :
    Ends fails bound R y heap r := by
  cases h with
  | ok hy hR asks' => exact .ok hy hR (asks.trans asks')
  | error hy he asks' => exact .error hy he (asks.trans asks')
  | outOfMemory hfail asks' => exact .outOfMemory hfail (asks.trans asks')
  | trap hy => exact .trap hy

namespace Tracks

variable {a : α} {b : β}

theorem pure (h : R a b) : Tracks fails bound R (Pure.pure a) (.ok b) :=
  fun heap => .ok rfl h (.refl bound heap)

theorem throw {e : WireError} {fault : WireFault} (he : errorOf fault = some e) :
    Tracks fails bound R (MonadExcept.throw e : Parser α) (.error fault) :=
  fun heap => .error rfl he (.refl bound heap)

variable {x : Parser α} {y : Except WireFault β} {f : α → Parser γ} {g : β → Except WireFault δ}

theorem bind_of_eq (hx : Tracks fails bound R x y)
    (hf : ∀ a b, y = .ok b → R a b → Tracks fails bound S (f a) (g b)) :
    Tracks fails bound S (x >>= f) (y >>= g) := by
  intro heap
  have h := hx heap
  show Ends fails bound S (y >>= g) heap
    ((x heap).bind fun r => ExceptT.bindCont f r.1 r.2)
  generalize x heap = r at h
  cases h with
  | @ok a b heap' hy hR asks =>
    have hfa := hf a b hy hR heap'
    rw [hy]
    exact hfa.after asks
  | @error e fault heap' hy he asks =>
    rw [hy]
    exact .error rfl he asks
  | outOfMemory hfail asks => exact .outOfMemory hfail asks
  | trap hy =>
    rw [hy]
    exact .trap rfl

theorem bind (hx : Tracks fails bound R x y)
    (hf : ∀ a b, R a b → Tracks fails bound S (f a) (g b)) :
    Tracks fails bound S (x >>= f) (y >>= g) :=
  hx.bind_of_eq fun a b _ => hf a b

variable {z : Except WireFault δ}

/-- A step beside a plain value. -/
theorem value_bind
    (hx : Tracks fails bound R x (.ok b)) (hf : ∀ a, R a b → Tracks fails bound S (f a) z) :
    Tracks fails bound S (x >>= f) z := by
  have h : Tracks fails bound S (x >>= f) ((.ok b : Except WireFault β) >>= fun _ => z) := by
    refine hx.bind_of_eq fun a b' hb h => ?_
    cases hb
    exact hf a h
  exact h

/-- A step of arithmetic that stays in its type, or an access inside the payload. -/
theorem must_bind {x : Option α} {y : Except WireFault δ}
    (hx : x = some a) (hf : Tracks fails bound S (f a) y) :
    Tracks fails bound S (must x >>= f) y := by
  subst hx
  exact hf

theorem ite {p : Prop} [Decidable p] {x' : Parser α} {y' : Except WireFault β}
    (hp : p → Tracks fails bound R x y) (hn : ¬p → Tracks fails bound R x' y') :
    Tracks fails bound R (if p then x else x') (if p then y else y') := by
  by_cases h : p
  · rw [if_pos h, if_pos h]
    exact hp h
  · rw [if_neg h, if_neg h]
    exact hn h

theorem errdefer (names : List Nat)
    (h : Tracks fails bound R x y) : Tracks fails bound R (WireHeap.errdefer names x) y := by
  intro heap
  have h := h heap
  rw [WireHeap.errdefer]
  generalize x heap = r at h
  cases h with
  | ok hy hR asks => exact .ok hy hR asks
  | error hy he asks => exact .error hy he (asks.freed _)
  | outOfMemory hfail asks => exact .outOfMemory hfail (asks.freed _)
  | trap hy => exact .trap hy

theorem free_bind {names : List Nat} {f : Unit → Parser γ} {y : Except WireFault δ}
    (hf : Tracks fails bound S (f ()) y) : Tracks fails bound S (free names >>= f) y :=
  fun heap => (hf _).after ((Asks.refl bound heap).freed _)

variable {elems : Nat}

/-- A request. -/
theorem alloc_bind {f : List Nat → Parser γ} {y : Except WireFault δ}
    (helems : elems ≤ bound) (hf : ∀ names, Tracks fails bound S (f names) y) :
    Tracks fails bound S (alloc fails elems >>= f) y := by
  intro heap
  have hasks : ∀ allocated freed,
      Asks bound heap ⟨heap.requests ++ [elems], allocated, freed⟩ := fun _ _ =>
    ⟨[elems], rfl, fun n hn => mem_singleton.mp hn ▸ helems⟩
  show Ends fails bound S y heap
    ((alloc fails elems heap).bind fun r => ExceptT.bindCont f r.1 r.2)
  rw [alloc]
  by_cases hzero : elems = 0
  · rw [if_pos hzero]
    exact hf [] heap
  · rw [if_neg hzero]
    simp only
    split
    case isTrue hfail => exact .outOfMemory ⟨_, hfail⟩ (hasks _ _)
    case isFalse => exact (hf _ _).after (hasks _ _)

/-- A step whose error is looked at. -/
theorem attempt_bind {f : Except WireError α → Parser γ} (hx : Tracks fails bound R x y)
    (htrap : y ≠ .error .trap)
    (hf : ∀ r, Matches fails R r y → Tracks fails bound S (f r) z) :
    Tracks fails bound S (attempt x >>= f) z := by
  intro heap
  have h := hx heap
  show Ends fails bound S z heap
    (((x heap).map fun r => (.ok r.1, r.2)).bind fun r => ExceptT.bindCont f r.1 r.2)
  generalize x heap = r at h
  cases h with
  | @ok a b heap' hy hR asks => exact (hf (.ok a) (hy ▸ .ok hR) heap').after asks
  | @error e fault heap' hy he asks => exact (hf (.error e) (hy ▸ .error he) heap').after asks
  | @outOfMemory heap' hfail asks =>
    exact (hf (.error .outOfMemory) (.outOfMemory hfail y) heap').after asks
  | trap hy => exact absurd hy htrap

/-- Lack of memory is an outcome beside any plain one. -/
theorem outOfMemory (hfail : ∃ n, fails n = true) (y : Except WireFault β) :
    Tracks fails bound R (MonadExcept.throw .outOfMemory : Parser α) y :=
  fun heap => .outOfMemory hfail (.refl bound heap)

theorem alloc (helems : elems ≤ bound) :
    Tracks fails bound (fun _ _ => True) (WireHeap.alloc fails elems) (.ok ()) := by
  rw [← bind_pure (WireHeap.alloc fails elems)]
  exact alloc_bind helems fun names => pure trivial

/-- A parser beside a plain value may be put beside another one. -/
theorem value {R' : α → δ → Prop} {b' : δ}
    (hx : Tracks fails bound R x (.ok b)) (h : ∀ a, R a b → R' a b') :
    Tracks fails bound R' x (.ok b') := by
  intro heap
  have hx := hx heap
  generalize x heap = r at hx
  cases hx with
  | ok hy hR asks =>
    cases hy
    exact .ok rfl (h _ hR) asks
  | error hy he asks => cases hy
  | outOfMemory hfail asks => exact .outOfMemory hfail asks
  | trap hy => cases hy

theorem outcome {x : Except WireError α} (h : Matches fails R x y) :
    Tracks fails bound R (WireHeap.outcome x) y := by
  intro heap
  cases h with
  | ok hR => exact .ok rfl hR (.refl bound heap)
  | error he => exact .error rfl he (.refl bound heap)
  | outOfMemory hfail => exact .outOfMemory hfail (.refl bound heap)

end Tracks

end

/-! ## The fields -/

/-- The same value up to `P`, and the same position, which is inside the payload. -/
def Here (payload : Bytes) (P : α → β → Prop) (r : α × Nat) (s : β × Nat) : Prop :=
  P r.1 s.1 ∧ r.2 = s.2 ∧ s.2 ≤ payload.length

/-- A buffer with these bytes in it. -/
def Holds (buf : Buf) (bytes : Bytes) : Prop := buf.bytes = bytes

section
variable {fails : Nat → Bool} {bound : Nat} {payload : Bytes} {pos : Nat}

theorem plain_readBytesField (payload : Bytes) (pos : Nat) :
    WormDB.readBytesField payload pos = do
      let (fieldLen, pos) ← WormDB.readInt 4 payload pos
      if pos + fieldLen > payload.length then .error .corruption
      else return (slice payload pos fieldLen, pos + fieldLen) := by
  rw [WormDB.readBytesField, WormDB.readInt]
  by_cases h : pos + 4 > payload.length
  · rw [if_pos h, if_pos h]
    rfl
  · rw [if_neg h, if_neg h]
    rfl

theorem slice_inside {len : Nat} (h : pos + len ≤ payload.length) :
    Checked.slice payload pos (pos + len) = some (slice payload pos len) := by
  rw [Checked.slice_eq (by omega) h, Nat.add_sub_cancel_left]
  rfl

theorem beNat_slice_lt (payload : Bytes) (pos width : Nat) :
    beNat (slice payload pos width) < 256 ^ width := by
  have hlen : (slice payload pos width).length ≤ width := by
    rw [slice, length_take]
    exact Nat.min_le_left _ _
  exact Nat.lt_of_lt_of_le (beNat_lt _) (Nat.pow_le_pow_right (by decide) hlen)

variable (hlen : payload.length < 2 ^ 63) (hpos : pos ≤ payload.length)
include hlen hpos

theorem readInt_tracks {width : Nat} (hwidth : width ≤ 8) :
    Tracks fails bound (Here payload fun a b => a = b ∧ a < 256 ^ width)
      (readInt width payload pos) (WormDB.readInt width payload pos) := by
  rw [readInt, WormDB.readInt]
  refine .must_bind (Checked.add_eq (by omega)) (.ite (fun _ => .throw rfl) fun hstop => ?_)
  refine .must_bind (slice_inside (by omega)) (.pure ⟨⟨rfl, beNat_slice_lt ..⟩, rfl, by omega⟩)

theorem fieldBytes_tracks :
    Tracks fails bound (Here payload fun a b => a = b ∧ a.length ≤ payload.length)
      (fieldBytes payload pos) (WormDB.readBytesField payload pos) := by
  rw [plain_readBytesField, fieldBytes]
  refine (readInt_tracks hlen hpos (by decide)).bind ?_
  rintro ⟨fieldLen, pos⟩ ⟨_, _⟩ ⟨⟨rfl, hlt⟩, rfl, hpos⟩
  simp only at hlt hpos ⊢
  refine .must_bind (Checked.add_eq (by omega)) (.ite (fun _ => .throw rfl) fun hstop => ?_)
  refine .must_bind (slice_inside (by omega)) (.pure ⟨⟨rfl, ?_⟩, rfl, by omega⟩)
  rw [slice, length_take, length_drop]
  omega

theorem readBytesField_tracks (hbound : payload.length ≤ bound) :
    Tracks fails bound (Here payload Holds) (readBytesField fails payload pos)
      (WormDB.readBytesField payload pos) := by
  rw [readBytesField, ← bind_pure (WormDB.readBytesField payload pos)]
  refine (fieldBytes_tracks hlen hpos).bind ?_
  rintro ⟨bytes, pos⟩ ⟨_, _⟩ ⟨⟨rfl, hbytes⟩, rfl, hpos⟩
  exact .alloc_bind (Nat.le_trans hbytes hbound) fun names => .pure ⟨rfl, rfl, hpos⟩

theorem sliceBytesField_tracks :
    Tracks fails bound (Here payload Holds) (sliceBytesField payload pos)
      (WormDB.readBytesField payload pos) := by
  rw [sliceBytesField, ← bind_pure (WormDB.readBytesField payload pos)]
  refine (fieldBytes_tracks hlen hpos).bind ?_
  rintro ⟨bytes, pos⟩ ⟨_, _⟩ ⟨⟨rfl, -⟩, rfl, hpos⟩
  exact .pure ⟨rfl, rfl, hpos⟩

theorem readVectorFlags_tracks :
    Tracks fails bound (Here payload (· = ·)) (readVectorFlags payload pos)
      (WormDB.readVectorFlags payload pos) := by
  rw [readVectorFlags, WormDB.readVectorFlags]
  refine .must_bind (Checked.add_eq (by omega)) (.ite (fun _ => .throw rfl) fun hstop => ?_)
  have hget : Checked.get payload pos = some (payload.getD pos 0) := by
    rw [Checked.get, getD_eq_getElem?_getD]
    rw [getElem?_eq_getElem (by omega)]
    rfl
  exact .must_bind hget (.ite (fun _ => .throw rfl) fun _ => .pure ⟨rfl, rfl, by omega⟩)

end

/-! ## The commands -/

/-- The reader of a field goes along with the plain one. -/
def FieldTracks (fails : Nat → Bool) (bound : Nat) (payload : Bytes)
    (readField : Nat → Parser (Buf × Nat)) : Prop :=
  ∀ pos, pos ≤ payload.length → Tracks fails bound (Here payload Holds) (readField pos)
    (WormDB.readBytesField payload pos)

/-- The parsed command is this one. -/
def Yields (parsed : Parsed) (command : Command) : Prop := parsed.command = command

section
variable {fails : Nat → Bool} {bound : Nat} {payload : Bytes} {pos : Nat}
  {readField : Nat → Parser (Buf × Nat)}

theorem atEnd_tracks {parsed : Parsed} {command : Command} (h : parsed.command = command) :
    Tracks fails bound Yields (atEnd payload pos parsed) (WormDB.atEnd payload pos command) :=
  .ite (fun _ => .throw rfl) fun _ => .pure h

theorem noPayload_tracks (command : Command) :
    Tracks fails bound Yields (noPayload payload command) (WormDB.noPayload payload command) :=
  .ite (fun _ => .throw rfl) fun _ => .pure rfl

theorem checkRabitqSizes_tracks {dim : Nat} (hdim : dim < 2 ^ 32) (centroid rotation : Bytes) :
    Tracks fails bound (fun _ _ => True) (checkRabitqSizes dim centroid rotation)
      (WormDB.checkRabitqSizes dim centroid rotation) := by
  have hsquare : dim * dim < 2 ^ 64 := by
    calc dim * dim ≤ 2 ^ 32 * dim := Nat.mul_le_mul_right _ (Nat.le_of_lt hdim)
      _ < 2 ^ 32 * 2 ^ 32 := Nat.mul_lt_mul_of_pos_left hdim (by decide)
      _ = 2 ^ 64 := by decide
  rw [checkRabitqSizes, WormDB.checkRabitqSizes]
  refine .must_bind (Checked.mul_eq (by omega)) (.must_bind (Checked.mul_eq hsquare) ?_)
  by_cases htrap : 2 ^ 64 ≤ dim * dim * 4
  · rw [if_pos htrap, Checked.mul, if_neg (Nat.not_lt.mpr htrap)]
    exact fun heap => .trap rfl
  · rw [if_neg htrap]
    refine .must_bind (Checked.mul_eq (Nat.not_le.mp htrap)) ?_
    exact .ite (fun _ => .throw rfl) fun _ => .pure trivial

variable (hlen : payload.length < 2 ^ 63)
include hlen

/-- **The commands without a list.** -/
theorem parseFields_tracks (hfield : FieldTracks fails bound payload readField)
    (cmdId : CommandId) (hexec : cmdId ≠ .exec) (hbulk : cmdId ≠ .vbulkinsert) :
    Tracks fails bound Yields (parseFields readField cmdId payload)
      (WormDB.parseCommandPayload cmdId payload) := by
  have hzero := hfield 0 (Nat.zero_le _)
  cases cmdId with
  | exec => exact absurd rfl hexec
  | vbulkinsert => exact absurd rfl hbulk
  | status | clusterStatus | clusterPeers | save => exact noPayload_tracks _
  | get | delete | unsubscribe | auth =>
    refine hzero.bind ?_
    rintro ⟨field, pos⟩ ⟨_, _⟩ ⟨rfl, rfl, hpos⟩
    exact (atEnd_tracks rfl).errdefer _
  | subscribe =>
    refine hzero.bind ?_
    rintro ⟨channel, pos⟩ ⟨_, _⟩ ⟨rfl, rfl, hpos⟩
    -- the filter may be missing
    refine (Tracks.ite (fun _ => ?_) fun _ => atEnd_tracks rfl).errdefer _
    refine (hfield pos hpos).bind ?_
    rintro ⟨filter, pos⟩ ⟨_, _⟩ ⟨rfl, rfl, hpos⟩
    exact (atEnd_tracks rfl).errdefer _
  | set =>
    -- the flags stand in front of the fields
    refine .ite (fun _ => .throw rfl) fun hone => ?_
    have hget : Checked.get payload 0 = some (payload.getD 0 0) := by
      rw [Checked.get, getD_eq_getElem?_getD, getElem?_eq_getElem (by omega)]
      rfl
    refine .must_bind hget (.ite (fun _ => .throw rfl) fun _ => ?_)
    refine (hfield 1 (by omega)).bind ?_
    rintro ⟨key, pos⟩ ⟨_, _⟩ ⟨rfl, rfl, hpos⟩
    refine Tracks.errdefer _ ((hfield pos hpos).bind ?_)
    rintro ⟨value, pos⟩ ⟨_, _⟩ ⟨rfl, rfl, hpos⟩
    exact (atEnd_tracks rfl).errdefer _
  | publish | vdelete =>
    refine hzero.bind ?_
    rintro ⟨first, pos⟩ ⟨_, _⟩ ⟨rfl, rfl, hpos⟩
    refine Tracks.errdefer _ ((hfield pos hpos).bind ?_)
    rintro ⟨second, pos⟩ ⟨_, _⟩ ⟨rfl, rfl, hpos⟩
    exact (atEnd_tracks rfl).errdefer _
  | vinsert =>
    refine hzero.bind ?_
    rintro ⟨key, pos⟩ ⟨_, _⟩ ⟨rfl, rfl, hpos⟩
    refine Tracks.errdefer _ ((hfield pos hpos).bind ?_)
    rintro ⟨vector, pos⟩ ⟨_, _⟩ ⟨rfl, rfl, hpos⟩
    refine Tracks.errdefer _ ((readVectorFlags_tracks hlen hpos).bind ?_)
    rintro ⟨flags, pos⟩ ⟨_, _⟩ ⟨rfl, rfl, hpos⟩
    refine (hfield pos hpos).bind ?_
    rintro ⟨ns, pos⟩ ⟨_, _⟩ ⟨rfl, rfl, hpos⟩
    refine Tracks.errdefer _ ((hfield pos hpos).bind ?_)
    rintro ⟨metric, pos⟩ ⟨_, _⟩ ⟨rfl, rfl, hpos⟩
    refine Tracks.errdefer _ ((readInt_tracks hlen hpos (by decide)).bind ?_)
    rintro ⟨ts, pos⟩ ⟨_, _⟩ ⟨⟨rfl, -⟩, rfl, hpos⟩
    exact atEnd_tracks rfl
  | vrabitqInstall =>
    refine hzero.bind ?_
    rintro ⟨ns, pos⟩ ⟨_, _⟩ ⟨rfl, rfl, hpos⟩
    refine Tracks.errdefer _ ((readInt_tracks hlen hpos (by decide)).bind ?_)
    rintro ⟨dim, pos⟩ ⟨_, _⟩ ⟨⟨rfl, hdim⟩, rfl, hpos⟩
    refine (readInt_tracks hlen hpos (by decide)).bind ?_
    rintro ⟨seed, pos⟩ ⟨_, _⟩ ⟨⟨rfl, -⟩, rfl, hpos⟩
    refine (hfield pos hpos).bind ?_
    rintro ⟨centroid, pos⟩ ⟨_, _⟩ ⟨rfl, rfl, hpos⟩
    refine Tracks.errdefer _ ((hfield pos hpos).bind ?_)
    rintro ⟨rotation, pos⟩ ⟨_, _⟩ ⟨rfl, rfl, hpos⟩
    refine Tracks.errdefer _ ((checkRabitqSizes_tracks hdim _ _).bind ?_)
    rintro _ _ -
    exact atEnd_tracks rfl

end

/-! ## The commands with a list -/

section
variable {fails : Nat → Bool} {bound : Nat} {payload : Bytes}

theorem readInt_noTrap (width : Nat) (payload : Bytes) (pos : Nat) :
    WormDB.readInt width payload pos ≠ .error .trap := by
  rw [WormDB.readInt]
  split <;> rintro ⟨⟩

theorem readBytesField_noTrap (payload : Bytes) (pos : Nat) :
    WormDB.readBytesField payload pos ≠ .error .trap := by
  rw [WormDB.readBytesField]
  split
  case isTrue => rintro ⟨⟩
  case isFalse =>
    simp only
    split <;> rintro ⟨⟩

/-- The arguments read so far, before those that the plain reader reads. -/
def ArgsRead (fails : Nat → Bool) (payload : Bytes) (before : List Bytes)
    (r : List Buf × Except WireError Nat) (y : Except WireFault (List Bytes × Nat)) : Prop :=
  Matches fails (fun pos s => r.1.map Buf.bytes = before ++ s.1 ∧ pos = s.2 ∧
    s.2 ≤ payload.length) r.2 y

variable (hlen : payload.length < 2 ^ 63) (hbound : payload.length ≤ bound)
include hlen hbound

variable {pos : Nat}

theorem readArgs_tracks (count : Nat) (hpos : pos ≤ payload.length) (args : List Buf) :
    Tracks fails bound (ArgsRead fails payload (args.map Buf.bytes))
      (readArgs fails payload count pos args)
      (.ok (readItemsAt (WormDB.readBytesField payload) count pos)) := by
  induction count generalizing pos args with
  | zero => exact .pure (.ok ⟨(append_nil _).symm, rfl, hpos⟩)
  | succ count ih =>
    rw [readArgs, readItemsAt]
    refine .attempt_bind (readBytesField_tracks hlen hpos hbound)
      (readBytesField_noTrap payload pos) ?_
    intro r hmatch
    generalize hread : WormDB.readBytesField payload pos = plain at hmatch
    cases hmatch with
    | @ok r s h =>
      obtain ⟨arg, pos'⟩ := r
      obtain ⟨bytes, pos''⟩ := s
      obtain ⟨hbytes, rfl, hpos'⟩ := h
      obtain rfl : arg.bytes = bytes := hbytes
      refine (ih hpos' (args ++ [arg])).value ?_
      rintro ⟨args', read⟩ hargs
      simp only [ok_bind]
      unfold ArgsRead at hargs ⊢
      generalize readItemsAt (WormDB.readBytesField payload) count pos' = rest at hargs ⊢
      cases hargs with
      | @ok _ s h =>
        obtain ⟨hmap, rfl, hpos''⟩ := h
        refine .ok ⟨?_, rfl, hpos''⟩
        rw [hmap, map_append, append_assoc]
        rfl
      | error he => exact .error he
      | outOfMemory hfail => exact .outOfMemory hfail _
    | error he => exact .pure (.error he)
    | outOfMemory hfail => exact .pure (.outOfMemory hfail _)

/-- **EXEC**, where as many arguments may be asked for as it announces. -/
theorem parseExec_tracks
    (hcount : ∀ procedure pos argCount pos', WormDB.readBytesField payload 0 = .ok (procedure, pos) →
      WormDB.readInt 4 payload pos = .ok (argCount, pos') → argCount ≤ bound) :
    Tracks fails bound Yields (parseExec fails payload)
      (WormDB.parseCommandPayload .exec payload) := by
  rw [parseExec, WormDB.parseCommandPayload]
  refine (readBytesField_tracks hlen (Nat.zero_le _) hbound).bind_of_eq ?_
  rintro ⟨procedure, pos⟩ ⟨_, _⟩ hproc ⟨rfl, rfl, hpos⟩
  refine Tracks.errdefer _ (.attempt_bind (readInt_tracks hlen hpos (by decide))
    (readInt_noTrap 4 payload pos) ?_)
  intro r hmatch
  generalize hread : WormDB.readInt 4 payload pos = plain at hmatch
  cases hmatch with
  | error he =>
    simp only [hread]
    exact .free_bind (.throw he)
  | outOfMemory hfail => exact .free_bind (.outOfMemory hfail _)
  | @ok r s h =>
    obtain ⟨argCount, pos'⟩ := r
    obtain ⟨_, _⟩ := s
    obtain ⟨⟨rfl, -⟩, rfl, hpos'⟩ := h
    refine .attempt_bind (.alloc (hcount _ _ _ _ hproc hread)) (by rintro ⟨⟩) ?_
    intro r hmatch
    cases hmatch with
    | outOfMemory hfail => exact .free_bind (.outOfMemory hfail _)
    | @ok array _ h =>
      simp only [hread, ok_bind]
      refine (readArgs_tracks hlen hbound argCount hpos' []).value_bind ?_
      rintro ⟨args, read⟩ hargs
      refine Tracks.errdefer _ ((Tracks.outcome hargs).bind ?_)
      rintro pos ⟨_, _⟩ ⟨hmap, rfl, hpos⟩
      simp only [map_nil, nil_append] at hmap
      refine .ite (fun _ => .free_bind (.throw rfl)) fun _ => .pure ?_
      rw [Yields, hmap]

omit hlen hbound in
theorem readBulkItem_eq (payload : Bytes) (pos : Nat) : WormDB.readBulkItem payload pos = do
    let (key, pos) ← WormDB.readBytesField payload pos
    let (vector, pos) ← WormDB.readBytesField payload pos
    let (timestamp, pos) ← WormDB.readInt 8 payload pos
    return (⟨key, vector, timestamp.toUInt64⟩, pos) := rfl

/-- The items read so far, before those that the plain reader reads. -/
def ItemsRead (fails : Nat → Bool) (payload : Bytes) (before : List BulkItem)
    (r : List Nat × Except WireError (List BulkItem × Nat))
    (y : Except WireFault (List BulkItem × Nat)) : Prop :=
  Matches fails (fun a s => a.1 = before ++ s.1 ∧ a.2 = s.2 ∧ s.2 ≤ payload.length) r.2 y

theorem readBulkItems_tracks (count : Nat) (hpos : pos ≤ payload.length)
    (items : List BulkItem) (names : List Nat) : Tracks fails bound (ItemsRead fails payload items)
      (readBulkItems fails payload count pos items names)
      (.ok (readItemsAt (WormDB.readBulkItem payload) count pos)) := by
  induction count generalizing pos items names with
  | zero => exact .pure (.ok ⟨(append_nil _).symm, rfl, hpos⟩)
  | succ count ih =>
    rw [readBulkItems, readItemsAt, readBulkItem_eq]
    refine .attempt_bind (readBytesField_tracks hlen hpos hbound)
      (readBytesField_noTrap payload pos) fun r hmatch => ?_
    generalize WormDB.readBytesField payload pos = plain at hmatch ⊢
    cases hmatch with
    | error he => exact .pure (.error he)
    | outOfMemory hfail => exact .pure (.outOfMemory hfail _)
    | @ok r s h =>
    obtain ⟨key, pos₁⟩ := r
    obtain ⟨_, _⟩ := s
    obtain ⟨rfl, rfl, hpos₁⟩ := h
    simp only [ok_bind]
    refine .attempt_bind (readBytesField_tracks hlen hpos₁ hbound)
      (readBytesField_noTrap payload pos₁) fun r hmatch => ?_
    generalize WormDB.readBytesField payload pos₁ = plain at hmatch ⊢
    cases hmatch with
    | error he => exact .pure (.error he)
    | outOfMemory hfail => exact .pure (.outOfMemory hfail _)
    | @ok r s h =>
    obtain ⟨vector, pos₂⟩ := r
    obtain ⟨_, _⟩ := s
    obtain ⟨rfl, rfl, hpos₂⟩ := h
    simp only [ok_bind]
    refine .attempt_bind (readInt_tracks hlen hpos₂ (by decide))
      (readInt_noTrap 8 payload pos₂) fun r hmatch => ?_
    generalize WormDB.readInt 8 payload pos₂ = plain at hmatch ⊢
    cases hmatch with
    | error he => exact .pure (.error he)
    | outOfMemory hfail => exact .pure (.outOfMemory hfail _)
    | @ok r s h =>
    obtain ⟨timestamp, pos₃⟩ := r
    obtain ⟨_, _⟩ := s
    obtain ⟨⟨rfl, -⟩, rfl, hpos₃⟩ := h
    refine (ih hpos₃ _ _).value ?_
    rintro ⟨names', read⟩ hread
    simp only [ok_bind, pure_bind]
    unfold ItemsRead at hread ⊢
    generalize readItemsAt (WormDB.readBulkItem payload) count pos₃ = rest at hread ⊢
    cases hread with
    | @ok _ s h =>
      obtain ⟨hitems, hpos', hle⟩ := h
      refine .ok ⟨?_, hpos', hle⟩
      rw [hitems, append_assoc]
      rfl
    | error he => exact .error he
    | outOfMemory hfail => exact .outOfMemory hfail _

/-- **VBULKINSERT**, whose count is held against the payload first. -/
theorem parseVbulkinsert_tracks :
    Tracks fails bound Yields (parseVbulkinsert fails payload)
      (WormDB.parseCommandPayload .vbulkinsert payload) := by
  rw [parseVbulkinsert, WormDB.parseCommandPayload]
  refine (readBytesField_tracks hlen (Nat.zero_le _) hbound).bind ?_
  rintro ⟨ns, pos⟩ ⟨_, _⟩ ⟨rfl, rfl, hpos⟩
  refine Tracks.errdefer _ ((readBytesField_tracks hlen hpos hbound).bind ?_)
  rintro ⟨metric, pos⟩ ⟨_, _⟩ ⟨rfl, rfl, hpos⟩
  refine Tracks.errdefer _ ((readVectorFlags_tracks hlen hpos).bind ?_)
  rintro ⟨flags, pos⟩ ⟨_, _⟩ ⟨rfl, rfl, hpos⟩
  refine (readInt_tracks hlen hpos (by decide)).bind ?_
  rintro ⟨count, pos⟩ ⟨_, _⟩ ⟨⟨rfl, -⟩, rfl, hpos⟩
  refine .must_bind (Checked.sub_eq hpos) (.must_bind (Checked.div_eq (by decide)) ?_)
  refine .ite (fun _ => .throw rfl) fun hcount => ?_
  have hdiv := Nat.div_le_self (payload.length - pos) (4 + 4 + 8)
  refine .alloc_bind (by omega) fun array => ?_
  refine (readBulkItems_tracks hlen hbound count hpos [] []).value_bind ?_
  rintro ⟨names, read⟩ hread
  refine Tracks.errdefer _ ((Tracks.outcome hread).bind ?_)
  rintro ⟨items, pos⟩ ⟨_, _⟩ ⟨hitems, rfl, hpos⟩
  simp only [nil_append] at hitems
  subst hitems
  exact atEnd_tracks rfl

end

/-! ## Where the plain parser stops -/

/-- The five fields of VRABITQ_INSTALL can be read. -/
def RabitqFields (payload ns : Bytes) (dim : Nat) (centroid rotation : Bytes) : Prop :=
  ∃ pos₁ pos₂ pos₃ pos₄ pos₅ seed, WormDB.readBytesField payload 0 = .ok (ns, pos₁) ∧
    WormDB.readInt 4 payload pos₁ = .ok (dim, pos₂) ∧
    WormDB.readInt 8 payload pos₂ = .ok (seed, pos₃) ∧
    WormDB.readBytesField payload pos₃ = .ok (centroid, pos₄) ∧
    WormDB.readBytesField payload pos₄ = .ok (rotation, pos₅)

section
variable {payload : Bytes} {pos : Nat}

variable {x : Except WireFault α} {f : α → Except WireFault β}

/-- A chain that stops, stops behind a step that does not. -/
theorem trap_bind (hx : x ≠ .error .trap)
    (h : (x >>= f) = .error .trap) : ∃ a, x = .ok a ∧ f a = .error .trap := by
  cases x with
  | error fault =>
    cases h
    exact absurd rfl hx
  | ok a => exact ⟨a, rfl, h⟩

theorem bind_noTrap (hx : x ≠ .error .trap)
    (hf : ∀ a, f a ≠ .error .trap) : (x >>= f) ≠ .error .trap := by
  intro h
  obtain ⟨a, -, ha⟩ := trap_bind hx h
  exact hf a ha

theorem ite_noTrap {p : Prop} [Decidable p] {y : Except WireFault α} (hx : x ≠ .error .trap)
    (hy : y ≠ .error .trap) : (if p then x else y) ≠ .error .trap := by
  split
  · exact hx
  · exact hy

theorem atEnd_noTrap (payload : Bytes) (pos : Nat) (cmd : Command) :
    WormDB.atEnd payload pos cmd ≠ .error .trap :=
  ite_noTrap nofun nofun

theorem readVectorFlags_noTrap (payload : Bytes) (pos : Nat) :
    WormDB.readVectorFlags payload pos ≠ .error .trap :=
  ite_noTrap nofun (ite_noTrap nofun nofun)

theorem readItemsAt_noTrap {readItem : Nat → Except WireFault (α × Nat)}
    (h : ∀ pos, readItem pos ≠ .error .trap) (count pos : Nat) :
    readItemsAt readItem count pos ≠ .error .trap := by
  induction count generalizing pos with
  | zero => rintro ⟨⟩
  | succ count ih =>
    exact bind_noTrap (h pos) fun r => bind_noTrap (ih r.2) fun _ => nofun

theorem readBulkItem_noTrap (payload : Bytes) (pos : Nat) :
    WormDB.readBulkItem payload pos ≠ .error .trap :=
  bind_noTrap (readBytesField_noTrap _ _) fun _ => bind_noTrap (readBytesField_noTrap _ _) fun _ =>
    bind_noTrap (readInt_noTrap _ _ _) fun _ => nofun

/-- Only the sizes of VRABITQ_INSTALL can stop the plain parser. -/
theorem parse_noTrap {cmdId : CommandId} (h : cmdId ≠ .vrabitqInstall) (payload : Bytes) :
    WormDB.parseCommandPayload cmdId payload ≠ .error .trap := by
  have hfield := readBytesField_noTrap payload
  have hend := atEnd_noTrap payload
  cases cmdId with
  | vrabitqInstall => exact absurd rfl h
  | status | clusterStatus | clusterPeers | save => exact ite_noTrap nofun nofun
  | get | delete | unsubscribe | auth => exact bind_noTrap (hfield _) fun _ => hend _ _
  | subscribe =>
    exact bind_noTrap (hfield _) fun _ =>
      ite_noTrap (bind_noTrap (hfield _) fun _ => hend _ _) (hend _ _)
  | set =>
    exact ite_noTrap nofun (ite_noTrap nofun
      (bind_noTrap (hfield _) fun _ => bind_noTrap (hfield _) fun _ => hend _ _))
  | publish | vdelete =>
    exact bind_noTrap (hfield _) fun _ => bind_noTrap (hfield _) fun _ => hend _ _
  | exec =>
    exact bind_noTrap (hfield _) fun _ => bind_noTrap (readInt_noTrap _ _ _) fun _ =>
      bind_noTrap (readItemsAt_noTrap hfield _ _) fun _ => hend _ _
  | vinsert =>
    exact bind_noTrap (hfield _) fun _ => bind_noTrap (hfield _) fun _ =>
      bind_noTrap (readVectorFlags_noTrap _ _) fun _ => bind_noTrap (hfield _) fun _ =>
      bind_noTrap (hfield _) fun _ => bind_noTrap (readInt_noTrap _ _ _) fun _ => hend _ _
  | vbulkinsert =>
    exact bind_noTrap (hfield _) fun _ => bind_noTrap (hfield _) fun _ =>
      bind_noTrap (readVectorFlags_noTrap _ _) fun _ => bind_noTrap (readInt_noTrap _ _ _) fun _ =>
      ite_noTrap nofun
        (bind_noTrap (readItemsAt_noTrap (readBulkItem_noTrap payload) _ _) fun _ => hend _ _)

theorem checkRabitqSizes_trap {dim : Nat} (centroid rotation : Bytes) :
    WormDB.checkRabitqSizes dim centroid rotation = .error .trap ↔ 2 ^ 31 ≤ dim := by
  have hsquare : 2 ^ 64 ≤ dim * dim * 4 ↔ 2 ^ 31 ≤ dim := by
    constructor
    · intro h
      by_contra hlt
      have hle : dim ≤ 2 ^ 31 - 1 := by omega
      have hmul := Nat.mul_le_mul hle hle
      omega
    · intro h
      have hmul := Nat.mul_le_mul h h
      omega
  rw [WormDB.checkRabitqSizes, ← hsquare]
  by_cases h : 2 ^ 64 ≤ dim * dim * 4
  · rw [if_pos h]
    exact ⟨fun _ => h, fun _ => rfl⟩
  · rw [if_neg h]
    refine ⟨fun htrap => ?_, fun h' => absurd h' h⟩
    exact absurd htrap (ite_noTrap (by rintro ⟨⟩) (by rintro ⟨⟩))

/-- **Where it does**: from the dimension `2 ^ 31` on. -/
theorem parse_trap_iff : WormDB.parseCommandPayload .vrabitqInstall payload = .error .trap ↔
    ∃ ns dim centroid rotation, RabitqFields payload ns dim centroid rotation ∧ 2 ^ 31 ≤ dim := by
  rw [WormDB.parseCommandPayload]
  constructor
  · intro h
    obtain ⟨⟨ns, pos₁⟩, h₁, h⟩ := trap_bind (readBytesField_noTrap _ _) h
    obtain ⟨⟨dim, pos₂⟩, h₂, h⟩ := trap_bind (readInt_noTrap _ _ _) h
    obtain ⟨⟨seed, pos₃⟩, h₃, h⟩ := trap_bind (readInt_noTrap _ _ _) h
    obtain ⟨⟨centroid, pos₄⟩, h₄, h⟩ := trap_bind (readBytesField_noTrap _ _) h
    obtain ⟨⟨rotation, pos₅⟩, h₅, h⟩ := trap_bind (readBytesField_noTrap _ _) h
    refine ⟨ns, dim, centroid, rotation, ⟨_, _, _, _, _, _, h₁, h₂, h₃, h₄, h₅⟩, ?_⟩
    rw [← checkRabitqSizes_trap centroid rotation]
    by_contra hno
    obtain ⟨_, -, h⟩ := trap_bind hno h
    exact atEnd_noTrap _ _ _ h
  · rintro ⟨ns, dim, centroid, rotation, ⟨_, _, _, _, _, _, h₁, h₂, h₃, h₄, h₅⟩, hdim⟩
    rw [h₁, ok_bind]
    simp only [h₂, h₃, h₄, h₅, ok_bind, (checkRabitqSizes_trap _ _).mpr hdim]
    rfl

end

end WireHeap
end WormDB
