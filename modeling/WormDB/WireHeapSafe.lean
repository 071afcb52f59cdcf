import WormDB.WireTracks

/-! # Which payloads are parsed safely

Two commands break a rule.  EXEC asks for as many arguments as the payload announces, and
the rotation's size of VRABITQ_INSTALL leaves 64 bits from the dimension `2 ^ 31` on
(`parse_safe_iff`). -/
namespace WormDB
namespace WireHeap
open ByteCodec ByteReader

variable {α β : Type}

/-! ## The readers' runs -/

/-- A plain outcome, as one of a parser. -/
def plainly : Except WireFault α → Except WireError α
  | .ok a => .ok a
  | .error fault => .error ((errorOf fault).getD .corruption)

section
variable {payload : Bytes} {pos pos' : Nat}

variable {width : Nat}

theorem readInt_run (heap : Heap) (hlen : payload.length < 2 ^ 63)
    (hpos : pos ≤ payload.length) (hwidth : width ≤ 8) :
    readInt width payload pos heap = some (plainly (WormDB.readInt width payload pos), heap) := by
  rw [readInt, WormDB.readInt, Checked.add_eq (by omega)]
  by_cases hstop : pos + width > payload.length
  · rw [if_pos hstop]
    show (if pos + width > payload.length then _ else _ : Parser (Nat × Nat)) heap = _
    rw [if_pos hstop]
    rfl
  · rw [if_neg hstop]
    show (if pos + width > payload.length then _ else _ : Parser (Nat × Nat)) heap = _
    rw [if_neg hstop, slice_inside (by omega)]
    rfl

variable {value : Nat}

theorem readInt_le
    (h : WormDB.readInt width payload pos = .ok (value, pos')) : pos' ≤ payload.length := by
  rw [WormDB.readInt] at h
  split at h
  · cases h
  · cases h
    omega

theorem readInt_lt
    (h : WormDB.readInt width payload pos = .ok (value, pos')) : value < 256 ^ width := by
  rw [WormDB.readInt] at h
  split at h
  · cases h
  · cases h
    exact beNat_slice_lt ..

theorem readBytesField_le {bytes : Bytes}
    (h : WormDB.readBytesField payload pos = .ok (bytes, pos')) : pos' ≤ payload.length := by
  rw [WormDB.readBytesField] at h
  split at h
  · cases h
  · simp only at h
    split at h
    · cases h
    · cases h
      omega

theorem fieldBytes_run (heap : Heap) (hlen : payload.length < 2 ^ 63)
    (hpos : pos ≤ payload.length) :
    fieldBytes payload pos heap = some (plainly (WormDB.readBytesField payload pos), heap) := by
  rw [fieldBytes, plain_readBytesField]
  have hrun := readInt_run heap hlen hpos (show 4 ≤ 8 by decide)
  cases hread : WormDB.readInt 4 payload pos with
  | error fault =>
    rw [hread] at hrun
    rw [bind_error_run hrun]
    rfl
  | ok r =>
    obtain ⟨fieldLen, pos₁⟩ := r
    have hle := readInt_le hread
    have hlt := readInt_lt hread
    rw [hread] at hrun
    rw [bind_ok_run hrun, ok_bind]
    simp only
    rw [Checked.add_eq (by omega)]
    by_cases hstop : pos₁ + fieldLen > payload.length
    · rw [if_pos hstop]
      show (if pos₁ + fieldLen > payload.length then _ else _ : Parser (Bytes × Nat)) heap = _
      rw [if_pos hstop]
      rfl
    · rw [if_neg hstop]
      show (if pos₁ + fieldLen > payload.length then _ else _ : Parser (Bytes × Nat)) heap = _
      rw [if_neg hstop, slice_inside (by omega)]
      rfl

variable {bytes : Bytes}

/-- A field that cannot be read touches no memory. -/
theorem readBytesField_error_run (fails : Nat → Bool) (heap : Heap) {fault : WireFault}
    (hlen : payload.length < 2 ^ 63) (hpos : pos ≤ payload.length)
    (h : WormDB.readBytesField payload pos = .error fault) :
    ∃ e, readBytesField fails payload pos heap = some (.error e, heap) := by
  have hrun := fieldBytes_run heap hlen hpos
  rw [h] at hrun
  exact ⟨_, bind_error_run hrun⟩

/-- A field that can be read asks for its bytes. -/
theorem readBytesField_run (fails : Nat → Bool) (heap : Heap) (hlen : payload.length < 2 ^ 63)
    (hpos : pos ≤ payload.length)
    (h : WormDB.readBytesField payload pos = .ok (bytes, pos')) :
    readBytesField fails payload pos heap =
      (alloc fails bytes.length heap).map fun r =>
        (r.1.map fun names => (⟨bytes, names⟩, pos'), r.2) := by
  have hrun := fieldBytes_run heap hlen hpos
  rw [h] at hrun
  rw [readBytesField, bind_ok_run hrun]
  show (alloc fails bytes.length heap).bind _ = _
  cases alloc fails bytes.length heap with
  | none => rfl
  | some r =>
    obtain ⟨r, heap'⟩ := r
    cases r <;> rfl

end

/-! ## Which requests are met -/

/-- The requests for these sizes, from the `m`-th on, are met; there is none for no bytes. -/
def GrantedFrom (fails : Nat → Bool) : Nat → List Nat → Prop
  | _, [] => True
  | m, size :: sizes =>
      if size = 0 then GrantedFrom fails m sizes
      else fails m = false ∧ GrantedFrom fails (m + 1) sizes

/-- The buffers and the heap after a request that is met, or is not made. -/
inductive Got (fails : Nat → Bool) (heap : Heap) (size : Nat) : List Nat → Heap → Prop where
  | none (h : size = 0) : Got fails heap size [] heap
  | one (h : size ≠ 0) (hfails : fails heap.requests.length = false) :
      Got fails heap size [heap.requests.length] (heap.grant size)

/-- A request that is made and not met. -/
def Refused (fails : Nat → Bool) (heap : Heap) (size : Nat) : Prop :=
  size ≠ 0 ∧ fails heap.requests.length = true

section
variable {fails : Nat → Bool} {heap heap' : Heap} {size : Nat} {sizes names : List Nat}
  {payload bytes : Bytes} {pos pos' : Nat}

theorem Got.granted_iff (h : Got fails heap size names heap') :
    GrantedFrom fails heap.requests.length (size :: sizes) ↔
      GrantedFrom fails heap'.requests.length sizes := by
  rw [GrantedFrom]
  cases h with
  | none h => rw [if_pos h]
  | one h hfails =>
    rw [if_neg h, Heap.grant, List.length_append, List.length_singleton]
    exact and_iff_right hfails

theorem Refused.not_granted (h : Refused fails heap size) :
    ¬GrantedFrom fails heap.requests.length (size :: sizes) := by
  rw [GrantedFrom, if_neg h.1]
  rintro ⟨hfails, -⟩
  rw [h.2] at hfails
  cases hfails

/-- Where no request fails, all are met. -/
theorem grantedFrom_true (m : Nat) (sizes : List Nat) : GrantedFrom (fun _ => false) m sizes := by
  induction sizes generalizing m with
  | nil => trivial
  | cons size sizes ih =>
    rw [GrantedFrom]
    split
    · exact ih m
    · exact ⟨rfl, ih (m + 1)⟩

section
variable (h : Got fails heap size names heap')
include h

theorem Got.names_nil_iff : names = [] ↔ size = 0 := by
  cases h with
  | none h => exact ⟨fun _ => h, fun _ => rfl⟩
  | one h => exact ⟨nofun, fun h' => absurd h' h⟩

theorem Got.allocated : heap'.allocated = heap.allocated ++ names := by
  cases h with
  | none => exact (List.append_nil _).symm
  | one => rfl

theorem Got.freed : heap'.freed = heap.freed := by
  cases h <;> rfl

end

theorem alloc_cases (fails : Nat → Bool) (heap : Heap) (size : Nat) :
    (∃ names heap', alloc fails size heap = some (.ok names, heap') ∧
      Got fails heap size names heap') ∨
    Refused fails heap size ∧
      alloc fails size heap = some (.error .outOfMemory, heap.refuse size) := by
  by_cases hzero : size = 0
  · subst hzero
    exact .inl ⟨_, _, alloc_zero_run, .none rfl⟩
  · cases hfails : fails heap.requests.length with
    | true => exact .inr ⟨⟨hzero, hfails⟩, alloc_refused_run hzero hfails⟩
    | false => exact .inl ⟨_, _, alloc_granted_run hzero hfails, .one hzero hfails⟩

/-- A field that can be read is copied, or not for lack of memory. -/
theorem readBytesField_cases (fails : Nat → Bool) (heap : Heap) (hlen : payload.length < 2 ^ 63)
    (hpos : pos ≤ payload.length) (h : WormDB.readBytesField payload pos = .ok (bytes, pos')) :
    (∃ names heap', readBytesField fails payload pos heap =
        some (.ok (⟨bytes, names⟩, pos'), heap') ∧ Got fails heap bytes.length names heap') ∨
    Refused fails heap bytes.length ∧ readBytesField fails payload pos heap =
      some (.error .outOfMemory, heap.refuse bytes.length) := by
  rw [readBytesField_run fails heap hlen hpos h]
  rcases alloc_cases fails heap bytes.length with ⟨names, heap', hrun, hgot⟩ | ⟨hrefused, hrun⟩
  · rw [hrun]
    exact .inl ⟨names, heap', rfl, hgot⟩
  · rw [hrun]
    exact .inr ⟨hrefused, rfl⟩

end

/-! ## Safe parsing -/

/-- What is claimed of a parser and a payload: whatever requests fail, it ends, and it asks
for no array with more elements than the payload has bytes. -/
def ParsesSafely (parse : (Nat → Bool) → CommandId → Bytes → Parser Parsed) (cmdId : CommandId)
    (payload : Bytes) : Prop :=
  ∀ fails, ∃ r heap, parse fails cmdId payload Heap.empty = some (r, heap) ∧
    ∀ n ∈ heap.requests, n ≤ payload.length

/-- The counts and dimensions that a payload may announce. -/
structure Modest (cmdId : CommandId) (payload : Bytes) : Prop where
  exec : cmdId = .exec → ∀ procedure pos argCount pos',
    WormDB.readBytesField payload 0 = .ok (procedure, pos) →
    WormDB.readInt 4 payload pos = .ok (argCount, pos') → argCount ≤ payload.length
  rabitq : cmdId = .vrabitqInstall → ∀ ns dim centroid rotation,
    RabitqFields payload ns dim centroid rotation → dim < 2 ^ 31

section
variable {fails : Nat → Bool} {bound : Nat} {payload : Bytes} {pos : Nat} {cmdId : CommandId}
  {heap : Heap}

/-- A parser beside a plain one that does not stop. -/
theorem Tracks.ends {x : Parser Parsed} {y : Except WireFault Command}
    (h : Tracks fails bound Yields x y) (htrap : y ≠ .error .trap) :
    ∃ r heap, x Heap.empty = some (r, heap) ∧ ∀ n ∈ heap.requests, n ≤ bound := by
  have h := h Heap.empty
  generalize x Heap.empty = r at h ⊢
  cases h with
  | ok hy hR asks =>
    obtain ⟨asked, hreq, hbound⟩ := asks
    exact ⟨_, _, rfl, fun n hn => hbound n (by rwa [hreq] at hn)⟩
  | error hy he asks =>
    obtain ⟨asked, hreq, hbound⟩ := asks
    exact ⟨_, _, rfl, fun n hn => hbound n (by rwa [hreq] at hn)⟩
  | outOfMemory hfail asks =>
    obtain ⟨asked, hreq, hbound⟩ := asks
    exact ⟨_, _, rfl, fun n hn => hbound n (by rwa [hreq] at hn)⟩
  | trap hy => exact absurd hy htrap

variable (hlen : payload.length < 2 ^ 63)
include hlen

/-- Both parsers go along with the plain one. -/
theorem parse_tracks (hbound : payload.length ≤ bound)
    (hexec : cmdId = .exec → ∀ procedure pos argCount pos',
      WormDB.readBytesField payload 0 = .ok (procedure, pos) →
      WormDB.readInt 4 payload pos = .ok (argCount, pos') → argCount ≤ bound) :
    Tracks fails bound Yields (parseCommandPayload fails cmdId payload)
        (WormDB.parseCommandPayload cmdId payload) ∧
      Tracks fails bound Yields (parseCommandPayloadZeroCopy fails cmdId payload)
        (WormDB.parseCommandPayload cmdId payload) := by
  have hcopy : FieldTracks fails bound payload (readBytesField fails payload) := fun pos hpos =>
    readBytesField_tracks hlen hpos hbound
  have hslice : FieldTracks fails bound payload (sliceBytesField payload) := fun pos hpos =>
    sliceBytesField_tracks hlen hpos
  cases cmdId with
  | exec =>
    have h : Tracks fails bound Yields (parseExec fails payload)
        (WormDB.parseCommandPayload .exec payload) := parseExec_tracks hlen hbound (hexec rfl)
    exact ⟨h, h⟩
  | vbulkinsert =>
    have h : Tracks fails bound Yields (parseVbulkinsert fails payload)
        (WormDB.parseCommandPayload .vbulkinsert payload) := parseVbulkinsert_tracks hlen hbound
    exact ⟨h, h⟩
  | _ =>
    exact ⟨parseFields_tracks hlen hcopy _ nofun nofun,
      parseFields_tracks hlen hslice _ nofun nofun⟩

/-- A modest payload is parsed safely by both. -/
theorem Modest.safe (h : Modest cmdId payload) :
    ParsesSafely parseCommandPayload cmdId payload ∧
      ParsesSafely parseCommandPayloadZeroCopy cmdId payload := by
  have htrap : WormDB.parseCommandPayload cmdId payload ≠ .error .trap := by
    by_cases hid : cmdId = .vrabitqInstall
    · subst hid
      rw [Ne, parse_trap_iff]
      rintro ⟨ns, dim, centroid, rotation, hfields, hdim⟩
      exact absurd (h.rabitq rfl _ _ _ _ hfields) (Nat.not_lt.mpr hdim)
    · exact parse_noTrap hid payload
  refine ⟨fun fails => ?_, fun fails => ?_⟩
  · exact (parse_tracks hlen (Nat.le_refl _) h.exec).1.ends htrap
  · exact (parse_tracks hlen (Nat.le_refl _) h.exec).2.ends htrap

end

/-! ## The payloads that are not modest -/

section
variable {fails : Nat → Bool} {payload bytes : Bytes} {pos pos' argCount : Nat}
  {heap heap₁ : Heap} {procedure : Buf} {cmdId : CommandId}

/-- EXEC without memory for the list of its arguments. -/
theorem exec_refused_run (hlen : payload.length < 2 ^ 63) (hpos : pos ≤ payload.length)
    (hproc : readBytesField fails payload 0 heap = some (.ok (procedure, pos), heap₁))
    (hcount : WormDB.readInt 4 payload pos = .ok (argCount, pos')) (hzero : argCount ≠ 0)
    (hrefused : fails heap₁.requests.length = true) :
    parseExec fails payload heap = some (.error .outOfMemory,
      ⟨heap₁.requests ++ [argCount], heap₁.allocated,
        heap₁.freed ++ procedure.names ++ procedure.names⟩) := by
  have hint := readInt_run heap₁ hlen hpos (show 4 ≤ 8 by decide)
  rw [hcount] at hint
  rw [parseExec, bind_ok_run hproc]
  refine errdefer_error_run (?_ : _ = some (Except.error WireError.outOfMemory,
    (⟨heap₁.requests ++ [argCount], heap₁.allocated, heap₁.freed ++ procedure.names⟩ : Heap)))
  exact (attempt_run hint).trans (attempt_run (alloc_refused_run hzero hrefused))

/-- **EXEC asks for what it announces.** -/
theorem exec_asks (hlen : payload.length < 2 ^ 63)
    (hproc : WormDB.readBytesField payload 0 = .ok (bytes, pos))
    (hcount : WormDB.readInt 4 payload pos = .ok (argCount, pos')) (hzero : argCount ≠ 0) :
    ∃ fails r heap, parseExec fails payload Heap.empty = some (r, heap) ∧
      argCount ∈ heap.requests := by
  have hpos := readBytesField_le hproc
  by_cases hempty : bytes.length = 0
  · have hrun := readBytesField_run (fun n => n == 0) Heap.empty hlen
      (Nat.zero_le _) hproc
    rw [hempty, alloc_zero_run] at hrun
    exact ⟨_, _, _, exec_refused_run hlen hpos hrun hcount hzero rfl, by simp⟩
  · have hrun := readBytesField_run (fun n => n == 1) Heap.empty hlen
      (Nat.zero_le _) hproc
    rw [alloc_granted_run hempty rfl] at hrun
    exact ⟨_, _, _, exec_refused_run hlen hpos hrun hcount hzero rfl, by simp⟩

variable {dim : Nat}

/-- The rotation's size leaves 64 bits. -/
theorem checkRabitqSizes_none (hdim : 2 ^ 31 ≤ dim) (hlt : dim < 2 ^ 32)
    (centroid rotation : Bytes) : checkRabitqSizes dim centroid rotation heap = none := by
  have h : Ends (fun _ => false) 0 _ _ heap _ :=
    checkRabitqSizes_tracks hlt centroid rotation heap
  rw [(checkRabitqSizes_trap centroid rotation).mpr hdim] at h
  generalize checkRabitqSizes dim centroid rotation heap = r at h ⊢
  cases h with
  | ok hy => cases hy
  | error hy he =>
    cases hy
    cases he
  | outOfMemory hfail =>
    obtain ⟨_, hfail⟩ := hfail
    cases hfail
  | trap => rfl

/-- **VRABITQ_INSTALL stops** where its fields can be read, from the dimension `2 ^ 31` on,
once there is memory for each of them. -/
theorem rabitq_none_iff {ns centroid rotation : Bytes} (fails : Nat → Bool)
    (hlen : payload.length < 2 ^ 63) (hfields : RabitqFields payload ns dim centroid rotation)
    (hdim : 2 ^ 31 ≤ dim) : parseCommandPayload fails .vrabitqInstall payload Heap.empty = none ↔
      GrantedFrom fails 0 [ns.length, centroid.length, rotation.length] := by
  obtain ⟨pos₁, pos₂, pos₃, pos₄, pos₅, seed, h₁, h₂, h₃, h₄, h₅⟩ := hfields
  have hle₁ := readBytesField_le h₁
  have hle₃ := readInt_le h₃
  have hle₄ := readBytesField_le h₄
  show parseFields (readBytesField fails payload) .vrabitqInstall payload _ = none ↔ _
  rw [parseFields]
  rcases readBytesField_cases fails Heap.empty hlen (Nat.zero_le _) h₁ with
    ⟨names₁, heap₁, hrun₁, hgot₁⟩ | ⟨hrefused, hrun₁⟩
  swap
  · rw [bind_error_run hrun₁]
    exact ⟨nofun, fun h => absurd h hrefused.not_granted⟩
  refine Iff.trans ?_ hgot₁.granted_iff.symm
  have hint₁ := readInt_run heap₁ hlen hle₁ (show 4 ≤ 8 by decide)
  have hint₂ := readInt_run heap₁ hlen (readInt_le h₂) (show 8 ≤ 8 by decide)
  rw [h₂] at hint₁
  rw [h₃] at hint₂
  rw [bind_ok_run hrun₁, errdefer_none_iff]
  simp only [bind_ok_run hint₁, bind_ok_run hint₂]
  rcases readBytesField_cases fails heap₁ hlen hle₃ h₄ with
    ⟨names₂, heap₂, hrun₂, hgot₂⟩ | ⟨hrefused, hrun₂⟩
  swap
  · rw [bind_error_run hrun₂]
    exact ⟨nofun, fun h => absurd h hrefused.not_granted⟩
  refine Iff.trans ?_ hgot₂.granted_iff.symm
  rw [bind_ok_run hrun₂, errdefer_none_iff]
  rcases readBytesField_cases fails heap₂ hlen hle₄ h₅ with
    ⟨names₃, heap₃, hrun₃, hgot₃⟩ | ⟨hrefused, hrun₃⟩
  swap
  · rw [bind_error_run hrun₃]
    exact ⟨nofun, fun h => absurd h hrefused.not_granted⟩
  refine Iff.trans ?_ hgot₃.granted_iff.symm
  rw [bind_ok_run hrun₃, errdefer_none_iff]
  rw [bind_none_run (checkRabitqSizes_none hdim (readInt_lt h₂) _ _)]
  exact ⟨fun _ => trivial, fun _ => rfl⟩

/-- **Safe parsing**: both parsers are safe on a payload of up to 16 MiB exactly where it is
modest. -/
theorem parse_safe_iff (cmdId : CommandId) (payload : Bytes)
    (hmax : payload.length ≤ maxPayloadLength) :
    ParsesSafely parseCommandPayload cmdId payload ∧
      ParsesSafely parseCommandPayloadZeroCopy cmdId payload ↔ Modest cmdId payload := by
  have hlen : payload.length < 2 ^ 63 := Nat.lt_of_le_of_lt hmax (by decide)
  constructor
  · rintro ⟨h, -⟩
    constructor
    · rintro rfl procedure pos argCount pos' hproc hcount
      by_contra hbig
      obtain ⟨fails, r, heap, hrun, hmem⟩ := exec_asks hlen hproc hcount (by omega)
      obtain ⟨r', heap', hrun', hall⟩ := h fails
      cases hrun.symm.trans hrun'
      exact hbig (hall _ hmem)
    · rintro rfl ns dim centroid rotation hfields
      by_contra hbig
      obtain ⟨r, heap, hrun, -⟩ := h fun _ => false
      have hstops := (rabitq_none_iff (fun _ => false) hlen hfields (by omega)).mpr
        (grantedFrom_true 0 _)
      cases hstops.symm.trans hrun
  · exact fun h => h.safe hlen

end

/-- Eight bytes of EXEC that ask for 4294967295 arguments. -/
theorem exec_unsafe :
    ¬ParsesSafely parseCommandPayload .exec [0, 0, 0, 0, 0xFF, 0xFF, 0xFF, 0xFF] := by
  intro h
  obtain ⟨r, heap, hrun, hall⟩ := h fun n => n == 0
  have hrefused : parseExec (fun n => n == 0) [0, 0, 0, 0, 0xFF, 0xFF, 0xFF, 0xFF] Heap.empty =
      some (.error .outOfMemory, ⟨[4294967295], [], []⟩) := by decide
  cases hrefused.symm.trans hrun
  exact absurd (hall 4294967295 (by simp)) (by decide)

/-- A payload of EXEC with a name and two arguments, the second one empty. -/
theorem parse_safe_exec_two : ParsesSafely parseCommandPayload .exec
    [0, 0, 0, 1, 112, 0, 0, 0, 2, 0, 0, 0, 1, 120, 0, 0, 0, 0] := by
  refine ((parse_safe_iff .exec _ (by decide)).mpr ⟨?_, nofun⟩).1
  rintro - procedure pos argCount pos' hproc hcount
  have hname : WormDB.readBytesField
      [0, 0, 0, 1, 112, 0, 0, 0, 2, 0, 0, 0, 1, 120, 0, 0, 0, 0] 0 = .ok ([112], 5) := rfl
  cases hname.symm.trans hproc
  have htwo : WormDB.readInt 4
      [0, 0, 0, 1, 112, 0, 0, 0, 2, 0, 0, 0, 1, 120, 0, 0, 0, 0] 5 = .ok (2, 9) := rfl
  cases htwo.symm.trans hcount
  decide

end WireHeap
end WormDB
