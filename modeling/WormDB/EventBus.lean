import WormDB.PrefixMap

/-! # The subscriptions of the event bus

The channel map of `event/bus.zig`, with what its calls read and change.  A new channel takes
three steps: `getOrPut` makes the slot in the map, then the name is copied and the channel
allocated, then both are written into the slot.  A call that runs out of memory between them
leaves a slot without a channel, and every later call that finds it, and `deinit`, reads what
was never written; `none` is such a read.

`Memory` says which allocations of a call succeed.  The parser of filters and their matching
are the variables `parse` and `matches`.  `subscribe_clean_iff` says which runs are clean. -/
namespace WormDB
namespace EventBus
open ByteCodec PrefixMap

inductive Error where
  | outOfMemory | invalidPredicate

variable {Filter Sink : Type}

/-! ## The bus -/

/-- The functions and the context that a subscriber gives are its `sink`. -/
structure Subscriber (Filter Sink : Type) where
  id : UInt64
  sink : Sink
  filter : Option Filter
  filterSrc : Option Bytes
  deriving DecidableEq

structure Channel (Filter Sink : Type) where
  name : Bytes
  subscribers : List (UInt64 × Subscriber Filter Sink)
  nextSubId : UInt64
  deriving DecidableEq

def Channel.init (name : Bytes) : Channel Filter Sink := ⟨name, [], 1⟩

/-- What stands at a name in the channel map. -/
inductive Slot (Filter Sink : Type) where
  | undefined
  | channel (channel : Channel Filter Sink)
  deriving DecidableEq

def Slot.isChannel : Slot Filter Sink → Bool
  | .undefined => false
  | .channel _ => true

structure Bus (Filter Sink : Type) where
  channels : ByteMap (Slot Filter Sink)
  subscriberCount : UInt64
  publishCount : UInt64

def Bus.init : Bus Filter Sink := ⟨ByteMap.empty, 0, 0⟩

/-- The allocations of a call, in their order. -/
structure Memory where
  filterCopy : Bool
  filterParse : Bool
  slot : Bool
  nameCopy : Bool
  channel : Bool
  subscriber : Bool
  deriving DecidableEq

/-! ## Subscribing -/

/-- The owned copy of the filter, and what it parses to.  On an error both are freed. -/
def readFilter (parse : Bytes → Except Error Filter) (mem : Memory) :
    Option Bytes → Except Error (Option Filter)
  | none => .ok none
  | some raw =>
      if mem.filterCopy = false then .error .outOfMemory
      else if mem.filterParse = false then .error .outOfMemory
      else (parse raw).map some

/-- Whether the name was there, and the map with a slot for it.  The map that cannot grow is
still searched. -/
def getOrPut (mem : Memory) (channels : ByteMap (Slot Filter Sink)) (name : Bytes) :
    Except Error (Bool × ByteMap (Slot Filter Sink)) :=
  if (channels.get name).isSome then .ok (true, channels)
  else if mem.slot = false then .error .outOfMemory
  else .ok (false, channels.insert name .undefined)

/-- `AutoHashMap.put`, which needs memory for a new key only. -/
def Channel.put (mem : Memory) (self : Channel Filter Sink) (sub : Subscriber Filter Sink) :
    Except Error (List (UInt64 × Subscriber Filter Sink)) :=
  if self.subscribers.any (fun e => e.1 == sub.id) then
    .ok (self.subscribers.map fun e => if e.1 = sub.id then (sub.id, sub) else e)
  else if mem.subscriber = false then .error .outOfMemory
  else .ok (self.subscribers ++ [(sub.id, sub)])

/-- The subscriber goes into its channel.  Its number is taken before it is stored. -/
def addSubscriber (mem : Memory) (bus : Bus Filter Sink) (name : Bytes)
    (filter : Option Filter) (filterSrc : Option Bytes) (sink : Sink) :
    Option (Except Error UInt64 × Bus Filter Sink) :=
  match bus.channels.get name with
  | some (.channel channel) =>
      let subId := channel.nextSubId
      let numbered := { channel with nextSubId := subId + 1 }
      match numbered.put mem ⟨subId, sink, filter, filterSrc⟩ with
      | .error e =>
          some (.error e, { bus with channels := bus.channels.insert name (.channel numbered) })
      | .ok subscribers =>
          some (.ok subId,
            { bus with
              channels := bus.channels.insert name (.channel { numbered with subscribers := subscribers })
              subscriberCount := bus.subscriberCount + 1 })
  | _ => none

def subscribeFilteredHooks (parse : Bytes → Except Error Filter) (mem : Memory)
    (bus : Bus Filter Sink) (name : Bytes) (filterRaw : Option Bytes) (sink : Sink) :
    Option (Except Error UInt64 × Bus Filter Sink) :=
  match readFilter parse mem filterRaw with
  | .error e => some (.error e, bus)
  | .ok filter =>
      match getOrPut mem bus.channels name with
      | .error e => some (.error e, bus)
      | .ok (true, _) => addSubscriber mem bus name filter filterRaw sink
      | .ok (false, channels) =>
          -- the slot is in the map from here on
          if mem.nameCopy = false then some (.error .outOfMemory, { bus with channels := channels })
          else if mem.channel = false then
            some (.error .outOfMemory, { bus with channels := channels })
          else
            addSubscriber mem
              { bus with channels := channels.insert name (.channel (Channel.init name)) }
              name filter filterRaw sink

/-! ## The other calls -/

def unsubscribe (bus : Bus Filter Sink) (name : Bytes) (subId : UInt64) :
    Option (Bus Filter Sink) :=
  match bus.channels.get name with
  | none => some bus
  | some .undefined => none
  | some (.channel channel) =>
      if channel.subscribers.any (fun e => e.1 == subId) then
        some { bus with
          channels := bus.channels.insert name (.channel
            { channel with subscribers := channel.subscribers.filter (fun e => e.1 != subId) })
          subscriberCount := bus.subscriberCount - 1 }
      else some bus

/-- The memory that a publisher gets: for the event's text, and for the list of deliveries. -/
structure PublishMemory where
  eventMsg : Bool
  deliveries : Bool
  deriving DecidableEq

/-- The sinks that the message goes to. -/
def publish (selects : Filter → Bytes → Bool) (mem : PublishMemory) (bus : Bus Filter Sink)
    (name message : Bytes) : Option (Except Error (List Sink) × Bus Filter Sink) :=
  match bus.channels.get name with
  | none => some (.ok [], bus)
  | some .undefined => none
  | some (.channel channel) =>
      if mem.eventMsg = false then some (.error .outOfMemory, bus)
      else if channel.subscribers.length = 0 then
        some (.ok [], { bus with publishCount := bus.publishCount + 1 })
      else if mem.deliveries = false then some (.error .outOfMemory, bus)
      else
        some (.ok ((channel.subscribers.filter fun e =>
            e.2.filter.all fun filter => selects filter message).map fun e => e.2.sink),
          { bus with publishCount := bus.publishCount + 1 })

/-- Every channel is freed, with its key. -/
def deinit (bus : Bus Filter Sink) : Option Unit :=
  if bus.channels.entries.all (fun e => e.2.isChannel) then some () else none

/-! ## Runs -/

inductive Op (Sink : Type) where
  | subscribe (mem : Memory) (name : Bytes) (filterRaw : Option Bytes) (sink : Sink)
  | unsubscribe (name : Bytes) (subId : UInt64)
  | publish (mem : PublishMemory) (name message : Bytes)

section
variable (parse : Bytes → Except Error Filter) (selects : Filter → Bytes → Bool)

/-- The error of a call, or none, and the bus behind it. -/
def step (bus : Bus Filter Sink) : Op Sink → Option (Option Error × Bus Filter Sink)
  | .subscribe mem name filterRaw sink =>
      (subscribeFilteredHooks parse mem bus name filterRaw sink).map fun r =>
        (match r.1 with | .error e => some e | .ok _ => none, r.2)
  | .unsubscribe name subId => (unsubscribe bus name subId).map fun bus => (none, bus)
  | .publish mem name message =>
      (publish selects mem bus name message).map fun r =>
        (match r.1 with | .error e => some e | .ok _ => none, r.2)

/-- The subscribers at a slot, if there is a channel in it. -/
def Slot.subscribers : Slot Filter Sink → Option (List (UInt64 × Subscriber Filter Sink))
  | .undefined => none
  | .channel c => some c.subscribers

/-- The channel map, the subscribers of every channel and their count are as they were. -/
structure Unchanged (bus bus' : Bus Filter Sink) : Prop where
  channels : ∀ name, (bus'.channels.get name).map Slot.subscribers =
    (bus.channels.get name).map Slot.subscribers
  subscriberCount : bus'.subscriberCount = bus.subscriberCount

/-- In a run of calls each call reads channels only, leaves the bus as it was if it fails, and
the bus can be freed behind it. -/
def Clean : Bus Filter Sink → List (Op Sink) → Prop
  | _, [] => True
  | bus, op :: ops => ∃ err bus', step parse selects bus op = some (err, bus') ∧
      (err ≠ none → Unchanged bus bus') ∧ deinit bus' ≠ none ∧ Clean bus' ops

/-- The call has the memory that it needs once there is a slot for a new channel. -/
def Provided (bus : Bus Filter Sink) : Op Sink → Prop
  | .subscribe mem name filterRaw _ =>
      bus.channels.get name = none → (∃ filter, readFilter parse mem filterRaw = .ok filter) →
        mem.slot = true → mem.nameCopy = true ∧ mem.channel = true ∧ mem.subscriber = true
  | _ => True

/-- Every call of the run is provided for. -/
def AllProvided : Bus Filter Sink → List (Op Sink) → Prop
  | _, [] => True
  | bus, op :: ops => Provided parse bus op ∧
      ∀ err bus', step parse selects bus op = some (err, bus') → AllProvided bus' ops

end

/-! ## One call -/

/-- There is a channel in every slot. -/
def Initialised (bus : Bus Filter Sink) : Prop :=
  ∀ name slot, bus.channels.get name = some slot → slot.isChannel = true

section
variable {parse : Bytes → Except Error Filter} {selects : Filter → Bytes → Bool} {mem : Memory}
  {bus bus' : Bus Filter Sink} {name : Bytes} {channel : Channel Filter Sink}

theorem Unchanged.refl (bus : Bus Filter Sink) : Unchanged bus bus := ⟨fun _ => rfl, rfl⟩

theorem initialised_init : Initialised (Bus.init : Bus Filter Sink) := by
  intro name slot h
  cases h

variable {channels : ByteMap (Slot Filter Sink)}

/-- A channel in the one slot that may have been without. -/
theorem initialised_insert
    (h : ∀ name' slot, name' ≠ name → channels.get name' = some slot → slot.isChannel = true)
    (channel : Channel Filter Sink) (n m : UInt64) :
    Initialised ⟨channels.insert name (.channel channel), n, m⟩ := by
  intro name' slot hslot
  by_cases hname : name' = name
  · rw [hname, ByteMap.get_insert_self] at hslot
    cases hslot
    rfl
  · rw [ByteMap.get_insert_of_ne _ _ hname] at hslot
    exact h name' slot hname hslot

theorem Initialised.insert (h : Initialised bus) (name : Bytes) (channel : Channel Filter Sink)
    (n m : UInt64) : Initialised ⟨bus.channels.insert name (.channel channel), n, m⟩ :=
  initialised_insert (fun name' slot _ => h name' slot) channel n m

theorem deinit_iff : deinit bus ≠ none ↔ Initialised bus := by
  rw [deinit]
  constructor
  · intro h name slot hslot
    by_contra hno
    refine h (if_neg fun hall => hno ?_)
    exact List.all_eq_true.mp hall _ (ByteMap.mem_entries_iff.mpr hslot)
  · intro h
    rw [if_pos]
    · exact Option.some_ne_none _
    · refine List.all_eq_true.mpr fun e he => ?_
      exact h e.1 e.2 (ByteMap.mem_entries_iff.mp he)

/-- A slot that is read is a channel. -/
theorem Initialised.cases (h : Initialised bus) (name : Bytes) :
    bus.channels.get name = none ∨ ∃ channel, bus.channels.get name = some (.channel channel) := by
  cases hget : bus.channels.get name with
  | none => exact .inl rfl
  | some slot =>
    cases slot with
    | undefined => exact absurd (h name _ hget) Bool.false_ne_true
    | channel channel => exact .inr ⟨channel, rfl⟩

/-- What storing a subscriber does: it fails with the subscribers as they are, or it succeeds. -/
theorem addSubscriber_cases (hget : bus.channels.get name = some (.channel channel))
    (filter : Option Filter) (filterSrc : Option Bytes) (sink : Sink) :
    (∃ err, addSubscriber mem bus name filter filterSrc sink = some (.error err,
      ⟨bus.channels.insert name (.channel { channel with nextSubId := channel.nextSubId + 1 }),
        bus.subscriberCount, bus.publishCount⟩) ∧ mem.subscriber = false) ∨
    ∃ subId channel' n, addSubscriber mem bus name filter filterSrc sink = some (.ok subId,
      ⟨bus.channels.insert name (.channel channel'), n, bus.publishCount⟩) := by
  rw [addSubscriber, hget]
  simp only
  split
  case h_1 err hput =>
    refine .inl ⟨err, rfl, ?_⟩
    rw [Channel.put] at hput
    split at hput
    · cases hput
    split at hput
    · assumption
    · cases hput
  case h_2 => exact .inr ⟨_, _, _, rfl⟩

/-- The number that a failed call has taken changes no subscriber. -/
theorem unchanged_renumbered (hget : bus.channels.get name = some (.channel channel)) (n : UInt64) :
    Unchanged bus ⟨bus.channels.insert name (.channel { channel with nextSubId := n }),
      bus.subscriberCount, bus.publishCount⟩ := by
  refine ⟨fun name' => ?_, rfl⟩
  by_cases hname : name' = name
  · rw [hname, ByteMap.get_insert_self, hget]
    rfl
  · rw [ByteMap.get_insert_of_ne _ _ hname]

/-- A new name in the map is a change. -/
theorem not_unchanged (hget : bus.channels.get name = none) {slot : Slot Filter Sink}
    {n m : UInt64} :
    ¬Unchanged bus ⟨channels.insert name slot, n, m⟩ := by
  intro h
  have hname := h.channels name
  rw [ByteMap.get_insert_self, hget] at hname
  cases hname

variable {filterRaw : Option Bytes} {sink : Sink}

/-- **A call that is provided for**: it leaves channels in every slot, and the bus as it was
if it fails. -/
theorem subscribe_provided (h : Initialised bus)
    (hmem : Provided parse bus (.subscribe mem name filterRaw sink)) :
    ∃ r bus', subscribeFilteredHooks parse mem bus name filterRaw sink = some (r, bus') ∧
      Initialised bus' ∧ ∀ err, r = .error err → Unchanged bus bus' := by
  rw [subscribeFilteredHooks]
  cases hfilter : readFilter parse mem filterRaw with
  | error e => exact ⟨_, _, rfl, h, fun _ _ => .refl bus⟩
  | ok filter =>
    rcases h.cases name with hnone | ⟨channel, hget⟩
    · cases hslot : mem.slot with
      | false =>
        simp only [getOrPut, hnone, hslot, Option.isSome_none, Bool.false_eq_true, reduceIte]
        exact ⟨_, _, rfl, h, fun _ _ => .refl bus⟩
      | true =>
        obtain ⟨hname, hchannel, hsub⟩ := hmem hnone ⟨filter, hfilter⟩ hslot
        simp only [getOrPut, hnone, hslot, Option.isSome_none, hname, hchannel, Bool.true_eq_false,
          Bool.false_eq_true, reduceIte]
        have hopened : ∀ name' slot, name' ≠ name →
            (((bus.channels.insert name .undefined).insert name (.channel (Channel.init name))).get
              name') = some slot → slot.isChannel = true := by
          intro name' slot hne hslot
          rw [ByteMap.get_insert_of_ne _ _ hne, ByteMap.get_insert_of_ne _ _ hne] at hslot
          exact h name' slot hslot
        rcases @addSubscriber_cases _ _ mem
          ⟨(bus.channels.insert name .undefined).insert name (.channel (Channel.init name)),
            bus.subscriberCount, bus.publishCount⟩
          _ _ (ByteMap.get_insert_self _ _ _) filter filterRaw sink with
          ⟨err, -, hno⟩ | ⟨subId, channel', n, hadd⟩
        · cases hsub.symm.trans hno
        · exact ⟨_, _, hadd, initialised_insert hopened _ _ _, by rintro _ ⟨⟩⟩
    · simp only [getOrPut, hget, Option.isSome_some, reduceIte]
      rcases @addSubscriber_cases _ _ mem _ _ _ hget filter filterRaw sink with
        ⟨err, hadd, -⟩ | ⟨subId, channel', n, hadd⟩
      · exact ⟨_, _, hadd, h.insert name _ _ _, fun _ _ => unchanged_renumbered hget _⟩
      · exact ⟨_, _, hadd, h.insert name _ _ _, by rintro _ ⟨⟩⟩

/-- **A call that is not** fails, and there is a new name in the map. -/
theorem subscribe_not_provided (hmem : ¬Provided parse bus (.subscribe mem name filterRaw sink)) :
    ∃ err bus', subscribeFilteredHooks parse mem bus name filterRaw sink = some (.error err, bus') ∧
      ¬Unchanged bus bus' := by
  simp only [Provided, not_forall] at hmem
  obtain ⟨hnone, ⟨filter, hfilter⟩, hslot, hshort⟩ := hmem
  rw [subscribeFilteredHooks, hfilter]
  simp only [getOrPut, hnone, hslot, Option.isSome_none, Bool.true_eq_false, Bool.false_eq_true,
    reduceIte]
  by_cases hname : mem.nameCopy = false
  · rw [if_pos hname]
    exact ⟨_, _, rfl, not_unchanged hnone⟩
  rw [if_neg hname]
  by_cases hchannel : mem.channel = false
  · rw [if_pos hchannel]
    exact ⟨_, _, rfl, not_unchanged hnone⟩
  rw [if_neg hchannel]
  have hsub : mem.subscriber = false := by
    simp only [Bool.not_eq_false] at hname hchannel
    simpa [hname, hchannel] using hshort
  simp only [addSubscriber, ByteMap.get_insert_self, Channel.put, Channel.init, List.any_nil, hsub,
    Bool.false_eq_true, reduceIte]
  exact ⟨_, _, rfl, not_unchanged hnone⟩

theorem unsubscribe_initialised (h : Initialised bus) (name : Bytes) (subId : UInt64) :
    ∃ bus', unsubscribe bus name subId = some bus' ∧ Initialised bus' := by
  rw [unsubscribe]
  rcases h.cases name with hnone | ⟨channel, hget⟩
  · rw [hnone]
    exact ⟨bus, rfl, h⟩
  · rw [hget]
    simp only
    split
    · exact ⟨_, rfl, h.insert name _ _ _⟩
    · exact ⟨bus, rfl, h⟩

/-- Publishing counts, and changes nothing else. -/
theorem publish_initialised (h : Initialised bus) (mem : PublishMemory) (name message : Bytes) :
    ∃ r n, publish selects mem bus name message =
      some (r, ⟨bus.channels, bus.subscriberCount, n⟩) := by
  rw [publish]
  rcases h.cases name with hnone | ⟨channel, hget⟩
  · rw [hnone]
    exact ⟨_, _, rfl⟩
  · rw [hget]
    simp only
    split
    · exact ⟨_, _, rfl⟩
    split
    · exact ⟨_, _, rfl⟩
    split
    · exact ⟨_, _, rfl⟩
    · exact ⟨_, _, rfl⟩

/-! ## Every run -/

/-- What a call does that is provided for. -/
theorem step_provided (h : Initialised bus) (op : Op Sink) (hmem : Provided parse bus op) :
    ∃ err bus', step parse selects bus op = some (err, bus') ∧ Initialised bus' ∧
      (err ≠ none → Unchanged bus bus') := by
  cases op with
  | subscribe mem name filterRaw sink =>
    obtain ⟨r, bus', hrun, hinit, hfail⟩ := subscribe_provided h hmem
    cases r with
    | error e => exact ⟨some e, bus', by rw [step, hrun]; rfl, hinit, fun _ => hfail e rfl⟩
    | ok subId => exact ⟨none, bus', by rw [step, hrun]; rfl, hinit, fun hno => absurd rfl hno⟩
  | unsubscribe name subId =>
    obtain ⟨bus', hrun, hinit⟩ := unsubscribe_initialised h name subId
    exact ⟨none, bus', by rw [step, hrun]; rfl, hinit, fun hno => absurd rfl hno⟩
  | publish mem name message =>
    obtain ⟨r, n, hrun⟩ := @publish_initialised _ _ selects _ h mem name message
    have hinit : Initialised ⟨bus.channels, bus.subscriberCount, n⟩ := h
    have hsame : Unchanged bus ⟨bus.channels, bus.subscriberCount, n⟩ := ⟨fun _ => rfl, rfl⟩
    cases r with
    | error e => exact ⟨some e, _, by rw [step, hrun]; rfl, hinit, fun _ => hsame⟩
    | ok sinks => exact ⟨none, _, by rw [step, hrun]; rfl, hinit, fun _ => hsame⟩

theorem step_not_provided {op : Op Sink} (hmem : ¬Provided parse bus op) :
    ∃ err bus', step parse selects bus op = some (some err, bus') ∧ ¬Unchanged bus bus' := by
  cases op with
  | subscribe mem name filterRaw sink =>
    obtain ⟨err, bus', hrun, hchanged⟩ := subscribe_not_provided hmem
    exact ⟨err, bus', by rw [step, hrun]; rfl, hchanged⟩
  | unsubscribe | publish => exact absurd trivial hmem

theorem clean_iff (h : Initialised bus) (ops : List (Op Sink)) :
    Clean parse selects bus ops ↔ AllProvided parse selects bus ops := by
  induction ops generalizing bus with
  | nil => exact Iff.rfl
  | cons op ops ih =>
    constructor
    · rintro ⟨err, bus', hstep, hfail, hfree, hclean⟩
      refine ⟨?_, fun err' bus'' hstep' => ?_⟩
      · by_contra hmem
        obtain ⟨e, bus'', hstep', hchanged⟩ := @step_not_provided _ _ _ selects _ _ hmem
        cases hstep.symm.trans hstep'
        exact hchanged (hfail (Option.some_ne_none e))
      · cases hstep.symm.trans hstep'
        exact (ih (deinit_iff.mp hfree)).mp hclean
    · rintro ⟨hmem, hrest⟩
      obtain ⟨err, bus', hstep, hinit, hfail⟩ := @step_provided _ _ _ selects _ h op hmem
      exact ⟨err, bus', hstep, hfail, deinit_iff.mpr hinit, (ih hinit).mpr (hrest err bus' hstep)⟩

/-- **Which runs of the bus are clean**: those in which no call runs out of memory behind the
new slot of its channel. -/
theorem subscribe_clean_iff (parse : Bytes → Except Error Filter) (selects : Filter → Bytes → Bool)
    (ops : List (Op Sink)) :
    Clean parse selects Bus.init ops ↔ AllProvided parse selects Bus.init ops :=
  clean_iff initialised_init ops

/-- **A slot without a channel** stays behind where the name cannot be copied, and the next
publisher reads it. -/
theorem undefined_slot_read :
    let parse : Bytes → Except Error Unit := fun _ => .error .invalidPredicate
    let ops : List (Op Unit) := [.subscribe ⟨true, true, true, false, true, true⟩ (ascii "a") none (),
      .publish ⟨true, true⟩ (ascii "a") (ascii "m")]
    (∃ bus, step parse (fun _ _ => true) Bus.init (ops.getD 0 (.unsubscribe [] 0)) =
        some (some .outOfMemory, bus) ∧
      bus.channels.get (ascii "a") = some .undefined ∧
      publish (fun _ _ => true) ⟨true, true⟩ bus (ascii "a") (ascii "m") = none ∧
      deinit bus = none) ∧
    ¬Clean parse (fun _ _ => true) Bus.init ops := by
  refine ⟨⟨_, rfl, by decide, by decide, by decide⟩, ?_⟩
  rw [clean_iff initialised_init]
  rintro ⟨hmem, -⟩
  exact Bool.false_ne_true (hmem rfl ⟨none, rfl⟩ rfl).1

end

end EventBus
end WormDB
