import WormDB.WireHeapSafe

/-! # Who releases the parser's buffers

`Takes` says which buffers a step gets, and that it gets none where it fails.  `Owns` says
of a block that it hands its caller every buffer it holds, or releases each of those it is
answerable for, once.  The blocks of all commands but EXEC are of this kind
(`parseFields_owns`, `parseVbulkinsert_owns`).  EXEC releases buffers twice, and
`exec_accounted_iff` says where it does not. -/
namespace WormDB
open List
namespace WireHeap
open ByteCodec ByteReader

variable {α β : Type}

/-! ## Steps -/

/-- The step gets the buffers `ids`, or fails with none; it releases nothing. -/
inductive Taken (ids : α → List Nat) (heap : Heap) : Option (Except WireError α × Heap) → Prop where
  | ok {a : α} {heap' : Heap} (hnew : heap'.allocated = heap.allocated ++ ids a)
      (hfreed : heap'.freed = heap.freed) : Taken ids heap (some (.ok a, heap'))
  | error {e : WireError} {heap' : Heap} (hnew : heap'.allocated = heap.allocated)
      (hfreed : heap'.freed = heap.freed) : Taken ids heap (some (.error e, heap'))
  | stop : Taken ids heap none

def Takes (ids : α → List Nat) (x : Parser α) : Prop := ∀ heap, Taken ids heap (x heap)

/-- A step without memory. -/
def Still (x : Parser α) : Prop := Takes (fun _ => []) x

section
variable {ids : α → List Nat} {ids' : β → List Nat} {x : Parser α} {f : α → Parser β}
  {fails : Nat → Bool} {payload : Bytes}

theorem Takes.pure {a : α} (h : ids a = []) : Takes ids (Pure.pure a : Parser α) := fun heap =>
  .ok (by rw [h, append_nil]) rfl

theorem Takes.throw (e : WireError) : Takes ids (MonadExcept.throw e : Parser α) := fun _ =>
  .error rfl rfl

theorem Takes.ite {p : Prop} [Decidable p] {y : Parser α} (hx : Takes ids x) (hy : Takes ids y) :
    Takes ids (if p then x else y) := by
  split
  · exact hx
  · exact hy

theorem Still.must (y : Option α) : Still (WireHeap.must y) := by
  intro heap
  cases y with
  | none => exact .stop
  | some a => exact .ok (append_nil _).symm rfl

theorem Still.outcome (y : Except WireError α) : Still (WireHeap.outcome y) := by
  intro heap
  cases y with
  | error e => exact .error rfl rfl
  | ok a => exact .ok (append_nil _).symm rfl

/-- A step without memory, and then one with. -/
theorem Still.bind (hx : Still x) (hf : ∀ a, Takes ids' (f a)) : Takes ids' (x >>= f) := by
  intro heap
  have hx := hx heap
  generalize hrun : x heap = r at hx
  cases hx with
  | stop =>
    rw [bind_none_run hrun]
    exact .stop
  | error hnew hfreed =>
    rw [bind_error_run hrun]
    exact .error hnew hfreed
  | @ok a heap' hnew hfreed =>
    have hf := hf a heap'
    rw [append_nil] at hnew
    rw [bind_ok_run hrun]
    generalize f a heap' = r at hf
    cases hf with
    | stop => exact .stop
    | error hnew' hfreed' => exact .error (hnew'.trans hnew) (hfreed'.trans hfreed)
    | ok hnew' hfreed' => exact .ok (hnew'.trans (by rw [hnew])) (hfreed'.trans hfreed)

/-- A step with memory, and then what is made of its value. -/
theorem Takes.map {g : α → β} (hx : Takes ids x) (hg : ∀ a, ids' (g a) = ids a) :
    Takes ids' (x >>= fun a => Pure.pure (g a)) := by
  intro heap
  have hx := hx heap
  generalize hrun : x heap = r at hx
  cases hx with
  | stop =>
    rw [bind_none_run hrun]
    exact .stop
  | error hnew hfreed =>
    rw [bind_error_run hrun]
    exact .error hnew hfreed
  | ok hnew hfreed =>
    rw [bind_ok_run hrun]
    exact .ok (hnew.trans (by rw [hg])) hfreed

theorem alloc_takes (fails : Nat → Bool) (elems : Nat) :
    Takes (fun names => names) (alloc fails elems) := by
  intro heap
  by_cases hzero : elems = 0
  · rw [hzero, alloc_zero_run]
    exact .ok (append_nil _).symm rfl
  · cases hfail : fails heap.requests.length with
    | true =>
      rw [alloc_refused_run hzero hfail]
      exact .error rfl rfl
    | false =>
      rw [alloc_granted_run hzero hfail]
      exact .ok rfl rfl

theorem readInt_still (width : Nat) (payload : Bytes) (pos : Nat) :
    Still (readInt width payload pos) :=
  (Still.must _).bind fun _ => .ite (.throw _) ((Still.must _).bind fun _ => .pure rfl)

theorem fieldBytes_still (payload : Bytes) (pos : Nat) : Still (fieldBytes payload pos) :=
  (readInt_still 4 payload pos).bind fun _ => (Still.must _).bind fun _ =>
    .ite (.throw _) ((Still.must _).bind fun _ => .pure rfl)

theorem readVectorFlags_still (payload : Bytes) (pos : Nat) :
    Still (readVectorFlags payload pos) :=
  (Still.must _).bind fun _ => .ite (.throw _) ((Still.must _).bind fun _ =>
    .ite (.throw _) (.pure rfl))

theorem checkRabitqSizes_still (dim : Nat) (centroid rotation : Bytes) :
    Still (checkRabitqSizes dim centroid rotation) :=
  (Still.must _).bind fun _ => (Still.must _).bind fun _ => (Still.must _).bind fun _ =>
    .ite (.throw _) (.pure rfl)

theorem readBytesField_takes (fails : Nat → Bool) (payload : Bytes) (pos : Nat) :
    Takes (fun r => r.1.names) (readBytesField fails payload pos) :=
  (fieldBytes_still payload pos).bind fun _ => (alloc_takes fails _).map fun _ => rfl

end

/-! ## Loops -/

/-- A loop that does not fail itself: `ids` are the buffers in its result, of which it has
got those behind `pre`. -/
def Surely (pre : List Nat) (ids : α → List Nat) (x : Parser α) : Prop :=
  ∀ heap, x heap = none ∨ ∃ a heap' new, x heap = some (.ok a, heap') ∧
    heap'.allocated = heap.allocated ++ new ∧ heap'.freed = heap.freed ∧ ids a = pre ++ new

section
variable {pre : List Nat} {ids : α → List Nat} {ids' : β → List Nat} {x : Parser α}

theorem Surely.pure {a : α} (h : ids a = pre) : Surely pre ids (Pure.pure a : Parser α) :=
  fun heap => .inr ⟨a, heap, [], rfl, (append_nil _).symm, rfl, by rw [h, append_nil]⟩

theorem Surely.attempt_bind {f : Except WireError α → Parser β} (hx : Takes ids x)
    (herror : ∀ e, Surely pre ids' (f (.error e)))
    (hok : ∀ a, Surely (pre ++ ids a) ids' (f (.ok a))) :
    Surely pre ids' (attempt x >>= f) := by
  intro heap
  have hx := hx heap
  generalize hrun : x heap = r at hx
  cases hx with
  | stop => exact .inl (attempt_none_run hrun)
  | @error e heap' hnew hfreed =>
    rw [attempt_run hrun, ← hnew, ← hfreed]
    exact herror e heap'
  | @ok a heap' hnew hfreed =>
    rw [attempt_run hrun]
    rcases hok a heap' with hnone | ⟨b, heap'', new, hrun', hnew', hfreed', hids⟩
    · exact .inl hnone
    · refine .inr ⟨b, heap'', ids a ++ new, hrun', ?_, hfreed'.trans hfreed, ?_⟩
      · rw [hnew', hnew, append_assoc]
      · rw [hids, append_assoc]

/-- The arguments and their buffers. -/
theorem readArgs_surely (fails : Nat → Bool) (payload : Bytes) (count pos : Nat)
    (args : List Buf) :
    Surely (args.flatMap Buf.names) (fun r => r.1.flatMap Buf.names)
      (readArgs fails payload count pos args) := by
  induction count generalizing pos args with
  | zero => exact .pure rfl
  | succ count ih =>
    refine .attempt_bind (readBytesField_takes fails payload pos) (fun e => .pure rfl) ?_
    rintro ⟨arg, pos⟩
    have h := ih pos (args ++ [arg])
    rwa [flatMap_append, flatMap_singleton] at h

/-- The items, and the buffers that stand in them. -/
theorem readBulkItems_surely (fails : Nat → Bool) (payload : Bytes) (count pos : Nat)
    (items : List BulkItem) (names : List Nat) :
    Surely names (fun r => r.1) (readBulkItems fails payload count pos items names) := by
  induction count generalizing pos items names with
  | zero => exact .pure rfl
  | succ count ih =>
    refine .attempt_bind (readBytesField_takes fails payload pos) (fun e => .pure rfl) ?_
    rintro ⟨key, pos⟩
    refine .attempt_bind (readBytesField_takes fails payload pos) (fun e => .pure rfl) ?_
    rintro ⟨vector, pos⟩
    refine .attempt_bind (readInt_still 8 payload pos) (fun e => .pure rfl) ?_
    rintro ⟨timestamp, pos⟩
    rw [append_nil]
    exact ih _ _ _

end

/-! ## Blocks -/

/-- The block holds `held` for its caller and is answerable for `mine`: it hands on all of
them with what it gets itself, or releases `mine` and that, each once. -/
inductive Owned (mine held : List Nat) (own : α → List Nat) (heap : Heap) :
    Option (Except WireError α × Heap) → Prop where
  | ok {a : α} {heap' : Heap} {new : List Nat} (hnew : heap'.allocated = heap.allocated ++ new)
      (hown : (own a).Perm (held ++ mine ++ new)) (hfreed : heap'.freed = heap.freed) :
      Owned mine held own heap (some (.ok a, heap'))
  | error {e : WireError} {heap' : Heap} {new gone : List Nat}
      (hnew : heap'.allocated = heap.allocated ++ new) (hgone : gone.Perm (mine ++ new))
      (hfreed : heap'.freed = heap.freed ++ gone) : Owned mine held own heap (some (.error e, heap'))
  | stop : Owned mine held own heap none

def Owns (mine held : List Nat) (own : α → List Nat) (x : Parser α) : Prop :=
  ∀ heap, Owned mine held own heap (x heap)

section
variable {mine held : List Nat} {own : β → List Nat} {ids : α → List Nat} {x : Parser α}
  {f : α → Parser β} {y : Parser β}

namespace Owns

theorem pure {b : β} (h : (own b).Perm (held ++ mine)) :
    Owns mine held own (Pure.pure b : Parser β) := fun _ =>
  .ok (append_nil _).symm (by rwa [append_nil]) rfl

theorem throw (e : WireError) : Owns [] held own (MonadExcept.throw e : Parser β) := fun _ =>
  .error (append_nil _).symm (Perm.refl []) (append_nil _).symm

theorem ite {p : Prop} [Decidable p] {y' : Parser β} (hy : Owns mine held own y)
    (hy' : Owns mine held own y') : Owns mine held own (if p then y else y') := by
  split
  · exact hy
  · exact hy'

/-- What the block is answerable for is released where the rest fails. -/
theorem errdefer (hy : Owns [] (held ++ mine) own y) :
    Owns mine held own (WireHeap.errdefer mine y) := by
  intro heap
  have hy := hy heap
  rw [WireHeap.errdefer]
  generalize y heap = r at hy
  cases hy with
  | stop => exact .stop
  | ok hnew hown hfreed => exact .ok hnew (by rwa [append_nil] at hown) hfreed
  | @error e heap' new gone hnew hgone hfreed =>
    refine .error hnew (?_ : (gone ++ mine).Perm (mine ++ new))
      (by rw [hfreed, append_assoc])
    exact perm_append_comm.trans (hgone.append_left mine)

/-- A step that gets buffers, and a block that is answerable for them. -/
theorem bind (hx : Takes ids x) (hf : ∀ a, Owns (ids a) held own (f a)) :
    Owns [] held own (x >>= f) := by
  intro heap
  have hx := hx heap
  generalize hrun : x heap = r at hx
  cases hx with
  | stop =>
    rw [bind_none_run hrun]
    exact .stop
  | @error e heap' hnew hfreed =>
    rw [bind_error_run hrun]
    exact .error (hnew.trans (append_nil _).symm) (.refl [])
      (hfreed.trans (append_nil _).symm)
  | @ok a heap' hnew hfreed =>
    have hf := hf a heap'
    rw [bind_ok_run hrun]
    generalize f a heap' = r at hf
    cases hf with
    | stop => exact .stop
    | @ok b heap'' new hnew' hown hfreed' =>
      refine .ok (?_ : heap''.allocated = heap.allocated ++ (ids a ++ new)) ?_
        (hfreed'.trans hfreed)
      · rw [hnew', hnew, append_assoc]
      · rwa [append_nil, ← append_assoc]
    | @error e heap'' new gone hnew' hgone hfreed' =>
      refine .error (?_ : heap''.allocated = heap.allocated ++ (ids a ++ new)) hgone ?_
      · rw [hnew', hnew, append_assoc]
      · rw [hfreed', hfreed]

/-- A step without memory. -/
theorem still_bind (hx : Still x) (hf : ∀ a, Owns [] held own (f a)) :
    Owns [] held own (x >>= f) := bind hx hf

/-- A loop, and a block that is answerable for its buffers too. -/
theorem surely_bind (hx : Surely [] ids x) (hf : ∀ a, Owns (mine ++ ids a) held own (f a)) :
    Owns mine held own (x >>= f) := by
  intro heap
  rcases hx heap with hrun | ⟨a, heap', new₁, hrun, hnew, hfreed, hids⟩
  · rw [bind_none_run hrun]
    exact .stop
  have hf := hf a heap'
  rw [bind_ok_run hrun]
  rw [nil_append] at hids
  subst hids
  generalize f a heap' = r at hf
  cases hf with
  | stop => exact .stop
  | @ok b heap'' new hnew' hown hfreed' =>
    refine .ok (?_ : heap''.allocated = heap.allocated ++ (ids a ++ new)) ?_
      (hfreed'.trans hfreed)
    · rw [hnew', hnew, append_assoc]
    · simpa only [append_assoc] using hown
  | @error e heap'' new gone hnew' hgone hfreed' =>
    refine .error (?_ : heap''.allocated = heap.allocated ++ (ids a ++ new))
      (?_ : gone.Perm _) ?_
    · rw [hnew', hnew, append_assoc]
    · simpa only [append_assoc] using hgone
    · rw [hfreed', hfreed]

/-- A block may name what it is answerable for in any order. -/
theorem perm {mine' : List Nat} (hy : Owns mine held own y) (h : mine.Perm mine') :
    Owns mine' held own y := by
  intro heap
  have hy := hy heap
  generalize y heap = r at hy
  cases hy with
  | stop => exact .stop
  | ok hnew hown hfreed =>
    exact .ok hnew (hown.trans ((h.append_left held).append_right _)) hfreed
  | error hnew hgone hfreed => exact .error hnew (hgone.trans (h.append_right _)) hfreed

end Owns

end

/-! ## The commands but EXEC -/

section
variable {fails : Nat → Bool} {payload : Bytes} {held : List Nat} {pos : Nat}

theorem atEnd_owns {parsed : Parsed} (h : parsed.buffers.Perm held) :
    Owns [] held Parsed.buffers (atEnd payload pos parsed) :=
  .ite (.throw _) (.pure (by rwa [append_nil]))

theorem noPayload_owns (command : Command) :
    Owns [] [] Parsed.buffers (noPayload payload command) :=
  .ite (.throw _) (.pure (.refl []))

/-- A command of one field. -/
theorem oneField_owns {x : Parser (Buf × Nat)} (hx : Takes (fun r => r.1.names) x)
    (command : Bytes → Command) : Owns [] [] Parsed.buffers (do
      let (field, pos) ← x
      errdefer field.names (atEnd payload pos ⟨command field.bytes, field.names⟩)) :=
  .bind hx fun _ => .errdefer (atEnd_owns (.refl _))

variable {readField : Nat → Parser (Buf × Nat)}

/-- A command of two fields. -/
theorem twoFields_owns {x : Parser (Buf × Nat)}
    (hx : Takes (fun r => r.1.names) x)
    (hfield : ∀ pos, Takes (fun r => r.1.names) (readField pos))
    (command : Bytes → Bytes → Command) : Owns [] [] Parsed.buffers (do
      let (first, pos) ← x
      errdefer first.names do
        let (second, pos) ← readField pos
        errdefer second.names (atEnd payload pos
          ⟨command first.bytes second.bytes, first.names ++ second.names⟩)) :=
  .bind hx fun _ => .errdefer (.bind (hfield _) fun _ => .errdefer (atEnd_owns (.refl _)))

/-- **The commands without a list** account for their buffers. -/
theorem parseFields_owns
    (hfield : ∀ pos, Takes (fun r => r.1.names) (readField pos)) (cmdId : CommandId) :
    Owns [] [] Parsed.buffers (parseFields readField cmdId payload) := by
  cases cmdId with
  | exec | vbulkinsert => exact .throw _
  | status | clusterStatus | clusterPeers | save => exact noPayload_owns _
  | get => exact oneField_owns (hfield 0) .get
  | delete => exact oneField_owns (hfield 0) .delete
  | unsubscribe => exact oneField_owns (hfield 0) .unsubscribe
  | auth => exact oneField_owns (hfield 0) .auth
  | publish =>
    exact twoFields_owns (hfield 0) hfield fun channel message => .publish ⟨channel, message⟩
  | vdelete => exact twoFields_owns (hfield 0) hfield fun key ns => .vdelete ⟨key, ns⟩
  | subscribe =>
    refine .bind (hfield 0) fun channel => .errdefer (.ite ?_ (atEnd_owns (.refl _)))
    exact .bind (hfield _) fun filter => .errdefer (atEnd_owns (.refl _))
  | set =>
    refine .ite (.throw _) (.still_bind (Still.must _) fun flags => .ite (.throw _) ?_)
    exact twoFields_owns (hfield 1) hfield fun key value => .set ⟨key, value, flags &&& 0x01 ≠ 0⟩
  | vinsert =>
    refine .bind (hfield 0) fun key => .errdefer (.bind (hfield _) fun vector => .errdefer ?_)
    refine .still_bind (readVectorFlags_still _ _) fun flags => ?_
    refine .bind (hfield _) fun ns => .errdefer (.bind (hfield _) fun metric => .errdefer ?_)
    exact .still_bind (readInt_still _ _ _) fun ts => atEnd_owns (.refl _)
  | vrabitqInstall =>
    refine .bind (hfield 0) fun ns => .errdefer ?_
    refine .still_bind (readInt_still _ _ _) fun dim => .still_bind (readInt_still _ _ _) fun seed => ?_
    refine .bind (hfield _) fun centroid => .errdefer (.bind (hfield _) fun rotation => .errdefer ?_)
    exact .still_bind (checkRabitqSizes_still _ _ _) fun _ => atEnd_owns (.refl _)

/-- **VBULKINSERT** accounts for its buffers. -/
theorem parseVbulkinsert_owns (fails : Nat → Bool) (payload : Bytes) :
    Owns [] [] Parsed.buffers (parseVbulkinsert fails payload) := by
  refine .bind (readBytesField_takes _ _ _) fun ns => .errdefer ?_
  refine .bind (readBytesField_takes _ _ _) fun metric => .errdefer ?_
  refine .still_bind (readVectorFlags_still _ _) fun flags => ?_
  refine .still_bind (readInt_still _ _ _) fun count => ?_
  refine .still_bind (Still.must _) fun left => .still_bind (Still.must _) fun fit => ?_
  refine .ite (.throw _) (.bind (alloc_takes _ _) fun array => ?_)
  refine .surely_bind (readBulkItems_surely _ _ _ _ [] []) fun r => ?_
  exact Owns.perm (.errdefer (.still_bind (Still.outcome _) fun _ => atEnd_owns (.refl _)))
    perm_append_comm

end

/-! ## EXEC -/

section
variable {fails : Nat → Bool} {payload bytes : Bytes} {pos pos' : Nat}

/-- **The arguments are all read** where the plain reader reads them and there is memory for
each of them. -/
theorem readArgs_ok_iff (fails : Nat → Bool) (hlen : payload.length < 2 ^ 63) (count : Nat)
    {pos : Nat} (hpos : pos ≤ payload.length) (args : List Buf) (heap : Heap) :
    ∃ args' read heap', readArgs fails payload count pos args heap =
        some (.ok (args', read), heap') ∧
      ∀ stop, read = .ok stop ↔ ∃ bs,
        readItemsAt (WormDB.readBytesField payload) count pos = .ok (bs, stop) ∧
        GrantedFrom fails heap.requests.length (bs.map List.length) := by
  induction count generalizing pos args heap with
  | zero =>
    refine ⟨args, .ok pos, heap, rfl, fun stop => ⟨?_, ?_⟩⟩
    · rintro ⟨⟩
      exact ⟨[], rfl, trivial⟩
    · rintro ⟨bs, h, -⟩
      cases h
      rfl
  | succ count ih =>
    rw [readArgs, readItemsAt]
    cases hread : WormDB.readBytesField payload pos with
    | error fault =>
      obtain ⟨e, hrun⟩ := readBytesField_error_run fails heap hlen hpos hread
      refine ⟨args, .error e, heap, attempt_run hrun, fun stop => ⟨by rintro ⟨⟩, ?_⟩⟩
      rintro ⟨bs, h, -⟩
      cases h
    | ok r =>
      obtain ⟨bytes, pos'⟩ := r
      have hpos' := readBytesField_le hread
      rcases readBytesField_cases fails heap hlen hpos hread with
        ⟨names, heap₁, hrun, hgot⟩ | ⟨hrefused, hrun⟩
      · obtain ⟨args', read, heap', hrest, hiff⟩ := ih hpos' (args ++ [⟨bytes, names⟩]) heap₁
        refine ⟨args', read, heap', (attempt_run hrun).trans hrest, fun stop => ?_⟩
        rw [hiff, ok_bind]
        simp only
        constructor
        · rintro ⟨bs, hitems, hgranted⟩
          refine ⟨bytes :: bs, ?_, hgot.granted_iff.mpr hgranted⟩
          simp only [hitems, ok_bind]
          rfl
        · rintro ⟨bs, hitems, hgranted⟩
          obtain ⟨⟨bs', stop'⟩, hitems', h⟩ := bind_ok hitems
          cases h
          exact ⟨bs', hitems', hgot.granted_iff.mp hgranted⟩
      · refine ⟨args, .error .outOfMemory, heap.refuse bytes.length, attempt_run hrun,
          fun stop => ⟨by rintro ⟨⟩, ?_⟩⟩
        rintro ⟨bs, h, hgranted⟩
        rw [ok_bind] at h
        simp only at h
        obtain ⟨⟨bs', stop'⟩, -, h⟩ := bind_ok h
        cases h
        exact absurd hgranted hrefused.not_granted

/-- EXEC can be read up to `stop`. -/
def ExecRead (payload procedure : Bytes) (args : List Bytes) (stop : Nat) : Prop :=
  ∃ pos pos', WormDB.readBytesField payload 0 = .ok (procedure, pos) ∧
    WormDB.readInt 4 payload pos = .ok (args.length, pos') ∧
    readItemsAt (WormDB.readBytesField payload) args.length pos' = .ok (args, stop)

/-- What the arguments ask for. -/
def execSizes (args : List Bytes) : List Nat := args.length :: args.map List.length

/-- How EXEC ends that has got the buffers `names` for the name: `new` are those of the
arguments. -/
inductive ExecEnds (fails : Nat → Bool) (payload procedure : Bytes) (names : List Nat)
    (heap : Heap) : Option (Except WireError Parsed × Heap) → Prop where
  /-- The arguments are cut short, or there is no memory for one of them. -/
  | short {e : WireError} {heap' : Heap} {new gone : List Nat}
      (hshort : ∀ args stop, ExecRead payload procedure args stop →
        ¬GrantedFrom fails heap.requests.length (execSizes args))
      (hnew : heap'.allocated = heap.allocated ++ new) (hgone : gone.Perm new)
      (hfreed : heap'.freed = heap.freed ++ (gone ++ names) ++ names) :
      ExecEnds fails payload procedure names heap (some (.error e, heap'))
  /-- The payload goes on behind them. -/
  | long {e : WireError} {heap' : Heap} {new gone : List Nat} {args : List Bytes} {stop : Nat}
      (hread : ExecRead payload procedure args stop)
      (hgranted : GrantedFrom fails heap.requests.length (execSizes args))
      (hstop : stop ≠ payload.length) (hempty : new = [] ↔ args = [])
      (hnew : heap'.allocated = heap.allocated ++ new) (hgone : gone.Perm new)
      (hfreed : heap'.freed = heap.freed ++ (gone ++ names) ++ (gone ++ names) ++ names) :
      ExecEnds fails payload procedure names heap (some (.error e, heap'))
  | ok {parsed : Parsed} {heap' : Heap} {new : List Nat} {args : List Bytes}
      (hread : ExecRead payload procedure args payload.length)
      (hgranted : GrantedFrom fails heap.requests.length (execSizes args))
      (hnew : heap'.allocated = heap.allocated ++ new)
      (hown : parsed.buffers.Perm (names ++ new)) (hfreed : heap'.freed = heap.freed) :
      ExecEnds fails payload procedure names heap (some (.ok parsed, heap'))

variable {heap heap₁ : Heap} {procedure : Buf}

section
variable (hlen : payload.length < 2 ^ 63)
include hlen

/-- EXEC without a count. -/
theorem exec_noCount_run {fault : WireFault} (hpos : pos ≤ payload.length)
    (hproc : readBytesField fails payload 0 heap = some (.ok (procedure, pos), heap₁))
    (hcount : WormDB.readInt 4 payload pos = .error fault) :
    ∃ e, parseExec fails payload heap = some (.error e, ⟨heap₁.requests, heap₁.allocated,
      heap₁.freed ++ procedure.names ++ procedure.names⟩) := by
  have hint := readInt_run heap₁ hlen hpos (show 4 ≤ 8 by decide)
  rw [hcount, plainly] at hint
  generalize (errorOf fault).getD .corruption = e at hint
  rw [parseExec, bind_ok_run hproc]
  refine ⟨e, errdefer_error_run (?_ : _ = some (Except.error e,
    (⟨heap₁.requests, heap₁.allocated, heap₁.freed ++ procedure.names⟩ : Heap)))⟩
  exact attempt_run hint

/-- EXEC with its arguments, as far as they can be read. -/
theorem exec_args_run {heap₂ heap₃ : Heap} {argCount : Nat}
    {array : List Nat} {args : List Buf} {read : Except WireError Nat} (hpos : pos ≤ payload.length)
    (hproc : readBytesField fails payload 0 heap = some (.ok (procedure, pos), heap₁))
    (hcount : WormDB.readInt 4 payload pos = .ok (argCount, pos'))
    (harray : alloc fails argCount heap₁ = some (.ok array, heap₂))
    (hargs : readArgs fails payload argCount pos' [] heap₂ = some (.ok (args, read), heap₃)) :
    ∀ owned, owned = args.flatMap Buf.names ++ array ++ procedure.names →
    parseExec fails payload heap = match read with
      | .error e => some (.error e, ⟨heap₃.requests, heap₃.allocated,
          heap₃.freed ++ owned ++ procedure.names⟩)
      | .ok pos =>
          if pos ≠ payload.length then some (.error .corruption, ⟨heap₃.requests,
            heap₃.allocated, heap₃.freed ++ owned ++ owned ++ procedure.names⟩)
          else some (.ok ⟨.exec ⟨procedure.bytes, args.map Buf.bytes⟩, owned⟩, heap₃) := by
  rintro owned rfl
  have hint := readInt_run heap₁ hlen hpos (show 4 ≤ 8 by decide)
  rw [hcount] at hint
  rw [parseExec, bind_ok_run hproc]
  cases read with
  | error e =>
    refine errdefer_error_run (?_ : _ = some (Except.error e, (⟨heap₃.requests, heap₃.allocated,
      heap₃.freed ++ (args.flatMap Buf.names ++ array ++ procedure.names)⟩ : Heap)))
    refine (attempt_run hint).trans ((attempt_run harray).trans ((bind_ok_run hargs).trans ?_))
    exact errdefer_error_run rfl
  | ok stop =>
    simp only
    split
    case isTrue hstop =>
      refine errdefer_error_run (?_ : _ = some (Except.error WireError.corruption,
        (⟨heap₃.requests, heap₃.allocated,
          heap₃.freed ++ (args.flatMap Buf.names ++ array ++ procedure.names) ++
            (args.flatMap Buf.names ++ array ++ procedure.names)⟩ : Heap)))
      refine (attempt_run hint).trans ((attempt_run harray).trans ((bind_ok_run hargs).trans ?_))
      refine errdefer_error_run (?_ : _ = some (Except.error WireError.corruption,
        (⟨heap₃.requests, heap₃.allocated,
          heap₃.freed ++ (args.flatMap Buf.names ++ array ++ procedure.names)⟩ : Heap)))
      refine (bind_ok_run rfl).trans ?_
      rw [if_pos hstop]
      rfl
    case isFalse hstop =>
      refine errdefer_ok_run ?_
      refine (attempt_run hint).trans ((attempt_run harray).trans ((bind_ok_run hargs).trans ?_))
      refine errdefer_ok_run ((bind_ok_run rfl).trans ?_)
      rw [if_neg hstop]
      rfl

/-- **How EXEC ends**, once it has the name. -/
theorem parseExec_ends {names : List Nat}
    (hproc : WormDB.readBytesField payload 0 = .ok (bytes, pos))
    (hrun : readBytesField fails payload 0 Heap.empty = some (.ok (⟨bytes, names⟩, pos), heap)) :
    ExecEnds fails payload bytes names heap (parseExec fails payload Heap.empty) := by
  have hpos := readBytesField_le hproc
  cases hcount : WormDB.readInt 4 payload pos with
  | error fault =>
    obtain ⟨e, hend⟩ := exec_noCount_run hlen hpos hrun hcount
    rw [hend]
    refine .short ?_ (append_nil _).symm (.refl []) rfl
    rintro args stop ⟨_, _, hproc', hcount', -⟩
    cases hproc.symm.trans hproc'
    cases hcount.symm.trans hcount'
  | ok r =>
    obtain ⟨argCount, pos'⟩ := r
    have hread : ∀ args stop, ExecRead payload bytes args stop →
        args.length = argCount ∧
          readItemsAt (WormDB.readBytesField payload) argCount pos' = .ok (args, stop) := by
      rintro args stop ⟨_, _, hproc', hcount', hitems⟩
      cases hproc.symm.trans hproc'
      cases hcount.symm.trans hcount'
      exact ⟨rfl, hitems⟩
    -- the array is allocated before the arguments are read
    rcases alloc_cases fails heap argCount with ⟨array, heap₂, harray, hgot⟩ | ⟨hrefused, -⟩
    swap
    · rw [exec_refused_run hlen hpos hrun hcount hrefused.1 hrefused.2]
      refine .short ?_ (append_nil _).symm (.refl []) rfl
      intro args stop h
      obtain ⟨rfl, -⟩ := hread args stop h
      exact hrefused.not_granted
    obtain ⟨args, read, heap₃, hargs, hiff⟩ := readArgs_ok_iff fails hlen argCount
      (readInt_le hcount) [] heap₂
    -- what the loop allocates is what the arguments hold
    have hnew : heap₃.allocated = heap.allocated ++ (array ++ args.flatMap Buf.names) ∧
        heap₃.freed = heap.freed := by
      have h := readArgs_surely fails payload argCount pos' [] heap₂
      rw [hargs] at h
      rcases h with h | ⟨_, _, new, h, hnew, hfreed, hnames⟩
      · cases h
      cases h
      have hnames : args.flatMap Buf.names = new := hnames
      rw [hnew, hgot.allocated, append_assoc, hnames]
      exact ⟨rfl, hfreed.trans hgot.freed⟩
    -- the arguments are freed before their array
    have hgone : (args.flatMap Buf.names ++ array).Perm (array ++ args.flatMap Buf.names) :=
      perm_append_comm
    have hend := exec_args_run hlen hpos hrun hcount harray hargs _ rfl
    rw [hend]
    cases read with
    | error e =>
      refine .short ?_ hnew.1 hgone (by rw [hnew.2])
      intro args' stop h hgranted
      obtain ⟨rfl, hitems⟩ := hread args' stop h
      cases (hiff stop).mpr ⟨args', hitems, hgot.granted_iff.mp hgranted⟩
    | ok stop =>
      obtain ⟨args', hitems, hgranted⟩ := (hiff stop).mp rfl
      have hcount' := readItemsAt_length hitems
      subst hcount'
      have hread' : ExecRead payload bytes args' stop := ⟨pos, pos', hproc, hcount, hitems⟩
      have hgranted' := hgot.granted_iff.mpr hgranted
      simp only
      split
      case isTrue hstop =>
        refine .long hread' hgranted' hstop ?_ hnew.1 hgone (by rw [hnew.2])
        rw [append_eq_nil_iff, hgot.names_nil_iff, length_eq_zero_iff]
        refine ⟨fun h => h.1, ?_⟩
        rintro rfl
        cases hargs
        exact ⟨rfl, rfl⟩
      case isFalse hstop =>
        rw [not_not] at hstop
        subst hstop
        refine .ok hread' hgranted' hnew.1 ?_ hnew.2
        exact perm_append_comm.trans (hgone.append_left names)

end

end

/-! ## The account -/

/-- The command is the owner of all buffers, or each of them has been released, once. -/
inductive Accounted : Option (Except WireError Parsed × Heap) → Prop where
  | ok {parsed : Parsed} {heap : Heap} (hown : parsed.buffers.Perm heap.allocated)
      (hfreed : heap.freed = []) : Accounted (some (.ok parsed, heap))
  | error {e : WireError} {heap : Heap} (hfreed : heap.freed.Perm heap.allocated) :
      Accounted (some (.error e, heap))

/-- The payloads and requests with which EXEC keeps its books: a name that has got a buffer
stands in a payload that is read to its end, with memory for all of it; behind an empty one,
the arguments end with the payload, if they are all read. -/
structure ExecOrderly (fails : Nat → Bool) (payload : Bytes) : Prop where
  named : ∀ procedure pos, WormDB.readBytesField payload 0 = .ok (procedure, pos) →
    procedure ≠ [] → fails 0 = false → ∃ args, ExecRead payload procedure args payload.length ∧
      GrantedFrom fails 1 (execSizes args)
  unnamed : ∀ args stop, ExecRead payload [] args stop → GrantedFrom fails 0 (execSizes args) →
    args ≠ [] → stop = payload.length

/-- VRABITQ_INSTALL stops at the rotation's size. -/
def RabitqStops (fails : Nat → Bool) (payload : Bytes) : Prop :=
  ∃ ns dim centroid rotation, RabitqFields payload ns dim centroid rotation ∧ 2 ^ 31 ≤ dim ∧
    GrantedFrom fails 0 [ns.length, centroid.length, rotation.length]

section
variable {fails : Nat → Bool} {payload : Bytes} {own gone new : List Nat} {x : Parser Parsed}

/-- Behind a list that is released in full, nothing more may be. -/
theorem nothing_more {extra : List Nat} (hgone : gone.Perm new) (h : (gone ++ extra).Perm new) :
    extra = [] := by
  have hlen := h.length_eq
  rw [length_append, hgone.length_eq] at hlen
  exact length_eq_zero_iff.mp (by omega)

theorem Owns.accounted (h : Owns [] [] Parsed.buffers x) (hrun : x Heap.empty ≠ none) :
    Accounted (x Heap.empty) := by
  have h := h Heap.empty
  generalize x Heap.empty = r at h hrun ⊢
  cases h with
  | stop => exact absurd rfl hrun
  | ok hnew hown hfreed => exact .ok (by rwa [hnew]) hfreed
  | error hnew hgone hfreed =>
    refine .error ?_
    rw [hnew, hfreed]
    exact hgone

variable {procedure : Bytes}

theorem ExecRead.unique {procedure' : Bytes} {args args' : List Bytes} {stop stop' : Nat}
    (h : ExecRead payload procedure args stop) (h' : ExecRead payload procedure' args' stop') :
    procedure = procedure' ∧ args = args' ∧ stop = stop' := by
  obtain ⟨pos₁, pos₂, hproc, hcount, hitems⟩ := h
  obtain ⟨_, _, hproc', hcount', hitems'⟩ := h'
  cases hproc.symm.trans hproc'
  have hlength := hcount.symm.trans hcount'
  rw [Except.ok.injEq, Prod.mk.injEq] at hlength
  obtain ⟨hlength, rfl⟩ := hlength
  rw [hlength] at hitems
  cases hitems.symm.trans hitems'
  exact ⟨rfl, rfl, rfl⟩

variable {r : Option (Except WireError Parsed × Heap)}

/-- EXEC behind an empty name. -/
theorem exec_unnamed_iff (hends : ExecEnds fails payload [] [] Heap.empty r) (hproc : ∃ pos,
      WormDB.readBytesField payload 0 = .ok ([], pos)) :
    Accounted r ↔ ExecOrderly fails payload := by
  have hnamed : ∀ procedure pos, WormDB.readBytesField payload 0 = .ok (procedure, pos) →
      procedure ≠ [] → fails 0 = false → ∃ args, ExecRead payload procedure args payload.length ∧
        GrantedFrom fails 1 (execSizes args) := by
    obtain ⟨pos, hproc⟩ := hproc
    intro procedure pos' h hne
    cases hproc.symm.trans h
    exact absurd rfl hne
  cases hends with
  | short hshort hnew hgone hfreed =>
    refine ⟨fun _ => ⟨hnamed, ?_⟩, fun _ => .error ?_⟩
    · intro args stop hread hgranted
      exact absurd hgranted (hshort args stop hread)
    · rw [hnew, hfreed, append_nil, append_nil]
      exact hgone
  | @long e heap' new gone args stop hread hgranted hstop hempty hnew hgone hfreed =>
    constructor
    · rintro (_ | hperm)
      rw [hnew, hfreed] at hperm
      have hnil := nothing_more hgone (by simpa [Heap.empty] using hperm)
      subst hnil
      have hargs := hempty.mp hgone.nil_eq.symm
      refine ⟨hnamed, fun args' stop' hread' _ hne => ?_⟩
      exact absurd ((hread'.unique hread).2.1.trans hargs) hne
    · intro h
      refine .error ?_
      by_cases hargs : args = []
      · have hnil := hempty.mpr hargs
        subst hnil
        rw [hnew, hfreed, hgone.eq_nil]
        exact .refl _
      · exact absurd (h.unnamed args stop hread hgranted hargs) hstop
  | ok hread hgranted hnew hown hfreed =>
    refine ⟨fun _ => ⟨hnamed, fun args stop hread' _ _ => ?_⟩, fun _ => .ok ?_ hfreed⟩
    · exact (hread'.unique hread).2.2
    · rw [hnew]
      exact hown

/-- EXEC behind a name that has got a buffer. -/
theorem exec_named_iff {name pos : Nat} {heap : Heap} (hheap : heap.requests.length = 1)
    (hallocated : heap.allocated = [name]) (hfreed : heap.freed = [])
    (hends : ExecEnds fails payload procedure [name] heap r)
    (hproc : WormDB.readBytesField payload 0 = .ok (procedure, pos)) (hne : procedure ≠ [])
    (hfails : fails 0 = false) : Accounted r ↔ ExecOrderly fails payload := by
  have hunnamed : ∀ args stop, ExecRead payload [] args stop →
      GrantedFrom fails 0 (execSizes args) → args ≠ [] → stop = payload.length := by
    rintro args stop ⟨_, _, hproc', -⟩
    cases hproc.symm.trans hproc'
    exact absurd rfl hne
  have hall : ∀ {gone new : List Nat}, gone.Perm new → (gone ++ [name]).Perm ([name] ++ new) :=
    fun hgone => perm_append_comm.trans (hgone.append_left [name])
  cases hends with
  | short hshort hnew hgone hfreed' =>
    constructor
    · rintro (_ | hperm)
      rw [hnew, hfreed', hallocated, hfreed, nil_append] at hperm
      cases nothing_more (hall hgone) hperm
    · intro h
      obtain ⟨args, hread, hgranted⟩ := h.named procedure pos hproc hne hfails
      rw [← hheap] at hgranted
      exact absurd hgranted (hshort args _ hread)
  | long hread hgranted hstop hempty hnew hgone hfreed' =>
    constructor
    · rintro (_ | hperm)
      rw [hnew, hfreed', hallocated, hfreed, nil_append, append_assoc] at hperm
      have hnil := nothing_more (hall hgone) hperm
      simp at hnil
    · intro h
      obtain ⟨args, hread', -⟩ := h.named procedure pos hproc hne hfails
      exact absurd (hread.unique hread').2.2 hstop
  | @ok parsed heap' new args hread hgranted hnew hown hfreed' =>
    rw [hheap] at hgranted
    refine ⟨fun _ => ⟨fun procedure' pos' hproc' _ _ => ?_, hunnamed⟩, fun _ => .ok ?_ ?_⟩
    · cases hproc.symm.trans hproc'
      exact ⟨args, hread, hgranted⟩
    · rw [hnew, hallocated]
      exact hown
    · rw [hfreed', hfreed]

/-- **EXEC accounts for its buffers** exactly in the orderly cases. -/
theorem exec_accounted_iff (hlen : payload.length < 2 ^ 63) :
    Accounted (parseExec fails payload Heap.empty) ↔ ExecOrderly fails payload := by
  cases hproc : WormDB.readBytesField payload 0 with
  | error fault =>
    obtain ⟨e, hrun⟩ := readBytesField_error_run fails Heap.empty hlen (Nat.zero_le _) hproc
    rw [parseExec, bind_error_run hrun]
    refine ⟨fun _ => ⟨fun procedure pos h => ?_, ?_⟩, fun _ => .error (.refl [])⟩
    · cases hproc.symm.trans h
    · rintro args stop ⟨_, _, h, -⟩
      cases hproc.symm.trans h
  | ok r =>
    obtain ⟨procedure, pos⟩ := r
    rcases readBytesField_cases fails Heap.empty hlen (Nat.zero_le _) hproc with
      ⟨names, heap, hrun, hgot⟩ | ⟨⟨hsize, hfails⟩, hrun⟩
    · have hends := parseExec_ends hlen hproc hrun
      cases hgot with
      | none hsize =>
        rw [length_eq_zero_iff] at hsize
        subst hsize
        exact exec_unnamed_iff hends ⟨pos, hproc⟩
      | one hsize hfails =>
        refine exec_named_iff rfl rfl rfl hends hproc ?_ hfails
        rintro rfl
        exact hsize rfl
    · rw [parseExec, bind_error_run hrun]
      refine ⟨fun _ => ⟨fun procedure' pos' h _ hgranted => ?_, ?_⟩, fun _ => .error (.refl [])⟩
      · cases hfails.symm.trans hgranted
      · rintro args stop ⟨_, _, h, -⟩
        cases hproc.symm.trans h
        exact absurd rfl hsize

/-- VRABITQ_INSTALL stops nowhere else. -/
theorem rabitqStops_iff (hlen : payload.length < 2 ^ 63) :
    parseCommandPayload fails .vrabitqInstall payload Heap.empty = none ↔
      RabitqStops fails payload := by
  constructor
  · intro hrun
    have hends : Ends fails payload.length Yields _ Heap.empty
        (parseCommandPayload fails .vrabitqInstall payload Heap.empty) :=
      (parse_tracks hlen (Nat.le_refl _) (by rintro ⟨⟩)).1 Heap.empty
    have htrap : WormDB.parseCommandPayload .vrabitqInstall payload = .error .trap := by
      rw [hrun] at hends
      cases hends with
      | trap htrap => exact htrap
    obtain ⟨ns, dim, centroid, rotation, hfields, hdim⟩ := parse_trap_iff.mp htrap
    exact ⟨ns, dim, centroid, rotation, hfields, hdim,
      (rabitq_none_iff fails hlen hfields hdim).mp hrun⟩
  · rintro ⟨ns, dim, centroid, rotation, hfields, hdim, hgranted⟩
    exact (rabitq_none_iff fails hlen hfields hdim).mpr hgranted

variable {cmdId : CommandId}

theorem parseCommandPayload_eq (fails : Nat → Bool) (payload : Bytes)
    (hexec : cmdId ≠ .exec) (hbulk : cmdId ≠ .vbulkinsert) :
    parseCommandPayload fails cmdId payload =
      parseFields (readBytesField fails payload) cmdId payload := by
  cases cmdId with
  | exec => exact absurd rfl hexec
  | vbulkinsert => exact absurd rfl hbulk
  | _ => rfl

theorem parse_owns (fails : Nat → Bool) (payload : Bytes) (hexec : cmdId ≠ .exec) :
    Owns [] [] Parsed.buffers (parseCommandPayload fails cmdId payload) := by
  by_cases hbulk : cmdId = .vbulkinsert
  · subst hbulk
    exact parseVbulkinsert_owns fails payload
  · rw [parseCommandPayload_eq fails payload hexec hbulk]
    exact parseFields_owns (readBytesField_takes fails payload) cmdId

/-- **The account of the parser**: whatever requests fail, it keeps its books with every
command but EXEC and VRABITQ_INSTALL, and with these where they say. -/
theorem parse_accounted_iff (fails : Nat → Bool) (cmdId : CommandId) (payload : Bytes)
    (hlen : payload.length < 2 ^ 63) :
    Accounted (parseCommandPayload fails cmdId payload Heap.empty) ↔
      (cmdId = .exec → ExecOrderly fails payload) ∧
      (cmdId = .vrabitqInstall → ¬RabitqStops fails payload) := by
  by_cases hexec : cmdId = .exec
  · subst hexec
    refine (exec_accounted_iff hlen).trans ⟨fun h => ⟨fun _ => h, nofun⟩, fun h => h.1 rfl⟩
  have howns := parse_owns fails payload hexec
  by_cases hrabitq : cmdId = .vrabitqInstall
  · subst hrabitq
    rw [← rabitqStops_iff hlen]
    refine ⟨fun h => ⟨nofun, fun _ hnone => ?_⟩, fun h => howns.accounted (h.2 rfl)⟩
    rw [hnone] at h
    cases h
  · have htracks : Tracks fails payload.length Yields (parseCommandPayload fails cmdId payload)
        (WormDB.parseCommandPayload cmdId payload) :=
      (parse_tracks hlen (Nat.le_refl _) fun h => absurd h hexec).1
    obtain ⟨r, heap, hrun, -⟩ := htracks.ends (parse_noTrap hrabitq payload)
    refine ⟨fun _ => ⟨fun h => absurd h hexec, fun h => absurd h hrabitq⟩, fun _ => ?_⟩
    refine howns.accounted ?_
    rw [hrun]
    rintro ⟨⟩

/-- A name, and no count behind it: its buffer is released twice. -/
theorem exec_released_twice :
    ¬Accounted (parseCommandPayload (fun _ => false) .exec [0, 0, 0, 1, 65] Heap.empty) := by
  have hrun : parseCommandPayload (fun _ => false) .exec [0, 0, 0, 1, 65] Heap.empty =
      some (.error .corruption, ⟨[1], [0], [0, 0]⟩) := by decide
  rw [hrun]
  rintro (_ | hperm)
  exact absurd hperm.length_eq (by decide)

/-- A value, cut off behind its announced length: the key's buffer is released. -/
theorem parse_accounted_short_set :
    parseCommandPayload (fun _ => false) .set [0, 0, 0, 0, 1, 65, 0, 0, 0, 2, 66] Heap.empty =
        some (.error .corruption, ⟨[1], [0], [0]⟩) ∧
      Accounted (parseCommandPayload (fun _ => false) .set [0, 0, 0, 0, 1, 65, 0, 0, 0, 2, 66]
        Heap.empty) :=
  ⟨by decide, (parse_accounted_iff (fun _ => false) .set [0, 0, 0, 0, 1, 65, 0, 0, 0, 2, 66]
    (by decide)).mpr ⟨nofun, nofun⟩⟩

end

end WireHeap
end WormDB
