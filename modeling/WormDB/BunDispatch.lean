import WormDB.EventBus
import WormDB.Utf8

/-! # The subscriptions of one client

`subscribe` and `dispatchEvent` of `apps/bun/src/lib/wormdb.ts`, with the connection they go to
and the event bus behind it.  The client sends `SUB` for the first handler of a channel only,
and gives an event to every handler whose channel is a prefix of the event's; the server has the
filter of the first one, and takes channels exactly.  A string is its bytes in UTF-8.

`delivered_eq` says what a handler receives, and `independent_iff` when that does not depend on
the connection's other subscriptions. -/
namespace WormDB.BunDispatch
open List ByteCodec PrefixMap EventBus

variable {Filter : Type}

structure Subscription where
  channel : Bytes
  filter : Option Bytes
  handler : Nat
  deriving DecidableEq

structure Event where
  channel : Bytes
  message : Bytes
  deriving DecidableEq

/-- What a client has under a channel.  Handlers are a set, in the order they came. -/
structure SubEntry where
  channel : Bytes
  handlers : List Nat

/-- The client's `subs`, the channels of its connection on the server, and the bus, with the
subscribers of this connection. -/
structure Conn (Filter : Type) where
  subs : List SubEntry
  subscriptions : List (Bytes × UInt64)
  bus : Bus Filter Unit

def Conn.init : Conn Filter := ⟨[], [], Bus.init⟩

def SubEntry.add (entry : SubEntry) (handler : Nat) : SubEntry :=
  if handler ∈ entry.handlers then entry
  else { entry with handlers := entry.handlers ++ [handler] }

section
variable (parse : Bytes → Except Error Filter) (selects : Filter → Bytes → Bool)

/-- `subscribe` of the server's connection, which has the memory it needs; a channel that it has
already stays as it is. -/
def Conn.serve (conn : Conn Filter) (channel : Bytes) (filter : Option Bytes) :
    Option (Conn Filter) :=
  if conn.subscriptions.any (fun e => e.1 == channel) then some conn
  else
    match subscribeFilteredHooks parse ⟨true, true, true, true, true, true⟩ conn.bus channel
        filter () with
    | some (.ok subId, bus) =>
        some { conn with subscriptions := conn.subscriptions ++ [(channel, subId)], bus := bus }
    | _ => none

/-- `subscribe` of the client, up to the answer of the server. -/
def Conn.subscribe (conn : Conn Filter) (sub : Subscription) : Option (Conn Filter) :=
  if conn.subs.any (fun entry => entry.channel == sub.channel) then
    some { conn with subs := conn.subs.map fun entry =>
      if entry.channel = sub.channel then entry.add sub.handler else entry }
  else
    (conn.serve parse sub.channel sub.filter).map fun conn =>
      { conn with subs := conn.subs ++ [⟨sub.channel, [sub.handler]⟩] }

/-- The connection with a set of subscriptions, none of which has failed. -/
def connect (subs : List Subscription) : Option (Conn Filter) :=
  subs.foldlM (Conn.subscribe parse) Conn.init

/-- The handlers that are called for an event of a channel. -/
def dispatchEvent (subs : List SubEntry) (channel : Bytes) : List (Bytes × Nat) :=
  (subs.filter fun entry => entry.channel.isPrefixOf channel).flatMap fun entry =>
    entry.handlers.map fun handler => (entry.channel, handler)

/-- What a published event brings about.  The bus counts it and stays as it is. -/
def Conn.receive (conn : Conn Filter) (evt : Event) : List (Bytes × Nat) :=
  match publish selects ⟨true, true⟩ conn.bus evt.channel evt.message with
  | some (.ok sinks, _) =>
      sinks.flatMap fun _ => dispatchEvent conn.subs (Utf8.decode evt.channel)
  | _ => []

/-- The events that a handler is called for, once for each call. -/
def delivered (conn : Conn Filter) (sub : Subscription) (evts : List Event) : List Event :=
  evts.flatMap fun evt =>
    ((conn.receive selects evt).filter fun call => call = (sub.channel, sub.handler)).map fun _ => evt

/-- Whether a filter lets a message through. -/
def Matches (filter : Option Bytes) (message : Bytes) : Bool :=
  match filter with
  | none => true
  | some raw =>
      match parse raw with
      | .ok filter => selects filter message
      | .error _ => false

/-- The first subscription on a channel. -/
def first (subs : List Subscription) (channel : Bytes) : Option Subscription :=
  subs.find? fun sub => sub.channel == channel

/-- There is a subscription on the channel of the event, and the filter of the first one lets
the message through. -/
def Forwards (subs : List Subscription) (evt : Event) : Bool :=
  (first subs evt.channel).any fun sub => Matches parse selects sub.filter evt.message

end

/-! ## The connection with a set of subscriptions -/

/-- What stands on the bus at a channel, with the subscription that came first. -/
def slot (parse : Bytes → Except Error Filter) (sub : Subscription) :
    Option (EventBus.Slot Filter Unit) :=
  match readFilter parse ⟨true, true, true, true, true, true⟩ sub.filter with
  | .ok filter =>
      some (.channel ⟨sub.channel, [(1, ⟨1, (), filter, sub.filter⟩)], 2⟩)
  | .error _ => none

/-- The client has an entry for every channel, with every handler. -/
structure Listed (subs : List Subscription) (entries : List SubEntry) : Prop where
  channels : (entries.map SubEntry.channel).Nodup
  handlers : ∀ entry ∈ entries, entry.handlers.Nodup
  entry : ∀ sub ∈ subs, ∃ entry ∈ entries, entry.channel = sub.channel ∧
    sub.handler ∈ entry.handlers
  known : ∀ entry ∈ entries, (first subs entry.channel).isSome

/-- The server has the first subscription on every channel. -/
structure Served (parse : Bytes → Except Error Filter) (subs : List Subscription)
    (conn : Conn Filter) : Prop where
  listed : ∀ channel, conn.subscriptions.any (fun e => e.1 == channel) =
    (first subs channel).isSome
  bus : ∀ channel, conn.bus.channels.get channel = (first subs channel).bind (slot parse)
  parsed : ∀ channel sub, first subs channel = some sub → (slot parse sub).isSome

section
variable {parse : Bytes → Except Error Filter} {selects : Filter → Bytes → Bool}
  {subs : List Subscription} {sub : Subscription} {conn conn' : Conn Filter}

theorem first_append (subs : List Subscription) (sub : Subscription) (channel : Bytes) :
    first (subs ++ [sub]) channel =
      (first subs channel).or (if sub.channel = channel then some sub else none) := by
  rw [first, find?_append]
  congr 1
  by_cases h : sub.channel = channel
  · simp [h]
  · simp [h]

/-- A channel keeps its first subscription. -/
theorem first_append_of_isSome (h : (first subs sub.channel).isSome) :
    first (subs ++ [sub]) = first subs := by
  funext channel
  rw [first_append]
  by_cases hc : sub.channel = channel
  · subst hc
    obtain ⟨s, hs⟩ := Option.isSome_iff_exists.mp h
    rw [hs, Option.or]
  · rw [if_neg hc, Option.or_none]

theorem isSome_first_append {channel : Bytes}
    (h : (first subs channel).isSome ∨ sub.channel = channel) :
    (first (subs ++ [sub]) channel).isSome := by
  rw [first_append, Option.isSome_or]
  rcases h with h | h
  · rw [h, Bool.true_or]
  · rw [if_pos h, Option.isSome_some, Bool.or_true]

variable {entries : List SubEntry}

/-- A handler of a channel that is there. -/
theorem Listed.join (h : Listed subs entries)
    (hthere : ∃ entry ∈ entries, entry.channel = sub.channel) :
    Listed (subs ++ [sub]) (entries.map fun entry =>
      if entry.channel = sub.channel then entry.add sub.handler else entry) := by
  have hchannel : ∀ entry : SubEntry, (if entry.channel = sub.channel then
      entry.add sub.handler else entry).channel = entry.channel := by
    intro entry
    unfold SubEntry.add
    split
    · split <;> rfl
    · rfl
  have hkeeps : ∀ entry : SubEntry, ∀ handler ∈ entry.handlers, handler ∈
      (if entry.channel = sub.channel then entry.add sub.handler else entry).handlers := by
    intro entry handler hmem
    unfold SubEntry.add
    split
    · split
      · exact hmem
      · exact mem_append_left _ hmem
    · exact hmem
  refine ⟨?_, ?_, ?_, ?_⟩
  · rw [map_map]
    simpa only [Function.comp_def, hchannel] using h.channels
  · intro entry hentry
    obtain ⟨old, hold, rfl⟩ := mem_map.mp hentry
    have hnodup := h.handlers old hold
    unfold SubEntry.add
    split
    · split
      · exact hnodup
      · rename_i hfresh
        rw [nodup_append_comm]
        exact nodup_cons.mpr ⟨hfresh, hnodup⟩
    · exact hnodup
  · intro s hs
    rcases mem_append.mp hs with hs | hs
    · obtain ⟨entry, hentry, hc, hmem⟩ := h.entry s hs
      exact ⟨_, mem_map_of_mem hentry, (hchannel entry).trans hc, hkeeps entry _ hmem⟩
    · obtain rfl := mem_singleton.mp hs
      obtain ⟨entry, hentry, hc⟩ := hthere
      refine ⟨_, mem_map_of_mem hentry, (hchannel entry).trans hc, ?_⟩
      unfold SubEntry.add
      rw [if_pos hc]
      split
      · assumption
      · exact mem_append_right _ (mem_singleton_self _)
  · intro entry hentry
    obtain ⟨old, hold, rfl⟩ := mem_map.mp hentry
    rw [hchannel]
    exact isSome_first_append (.inl (h.known old hold))

/-- The first handler of a channel. -/
theorem Listed.new (h : Listed subs entries)
    (hnew : ∀ entry ∈ entries, entry.channel ≠ sub.channel) :
    Listed (subs ++ [sub]) (entries ++ [⟨sub.channel, [sub.handler]⟩]) := by
  refine ⟨?_, ?_, ?_, ?_⟩
  · rw [map_append, nodup_append_comm]
    refine nodup_cons.mpr ⟨fun hmem => ?_, h.channels⟩
    obtain ⟨entry, hentry, hc⟩ := mem_map.mp hmem
    exact hnew entry hentry hc
  · intro entry hentry
    rcases mem_append.mp hentry with hentry | hentry
    · exact h.handlers entry hentry
    · obtain rfl := mem_singleton.mp hentry
      exact nodup_singleton _
  · intro s hs
    rcases mem_append.mp hs with hs | hs
    · obtain ⟨entry, hentry, hrest⟩ := h.entry s hs
      exact ⟨entry, mem_append_left _ hentry, hrest⟩
    · obtain rfl := mem_singleton.mp hs
      exact ⟨_, mem_append_right _ (mem_singleton_self _), rfl, mem_singleton_self _⟩
  · intro entry hentry
    rcases mem_append.mp hentry with hentry | hentry
    · exact isSome_first_append (.inl (h.known entry hentry))
    · obtain rfl := mem_singleton.mp hentry
      exact isSome_first_append (.inr rfl)

/-- What the server does with a subscription. -/
theorem Served.serve (h : Served parse subs conn)
    (hserve : conn.serve parse sub.channel sub.filter = some conn') :
    Served parse (subs ++ [sub]) conn' ∧ conn'.subs = conn.subs := by
  rw [Conn.serve, h.listed] at hserve
  split at hserve
  · rename_i hsome
    -- the channel is served already
    cases hserve
    have hfirst := first_append_of_isSome hsome
    exact ⟨⟨by rw [hfirst]; exact h.listed, by rw [hfirst]; exact h.bus,
      by rw [hfirst]; exact h.parsed⟩, rfl⟩
  · rename_i hnone
    have hnone : first subs sub.channel = none := by
      simpa only [Bool.not_eq_true, Option.isSome_eq_false_iff, Option.isNone_iff_eq_none] using hnone
    -- the channel is new on the bus
    have hget : conn.bus.channels.get sub.channel = none := by
      rw [h.bus, hnone]
      rfl
    have hlast : ∀ channel, first (subs ++ [sub]) channel =
        if channel = sub.channel then some sub else first subs channel := by
      intro channel
      rw [first_append]
      by_cases hc : sub.channel = channel
      · rw [if_pos hc, if_pos hc.symm, ← hc, hnone, Option.none_or]
      · rw [if_neg hc, if_neg (Ne.symm hc), Option.or_none]
    rw [subscribeFilteredHooks] at hserve
    cases hfilter : readFilter parse ⟨true, true, true, true, true, true⟩ sub.filter with
    | error e =>
      rw [hfilter] at hserve
      cases hserve
    | ok filter =>
      have hslot : slot parse sub =
          some (.channel ⟨sub.channel, [(1, ⟨1, (), filter, sub.filter⟩)], 2⟩) := by
        rw [slot, hfilter]
      simp only [hfilter, getOrPut, hget, Option.isSome_none, Bool.true_eq_false, Bool.false_eq_true,
        reduceIte, addSubscriber, ByteMap.get_insert_self, Channel.put, Channel.init, any_nil,
        nil_append] at hserve
      cases hserve
      refine ⟨⟨fun channel => ?_, fun channel => ?_, fun channel s hs => ?_⟩, rfl⟩
      · rw [any_append, h.listed, hlast]
        by_cases hc : channel = sub.channel
        · simp [hc]
        · simp [hc, Ne.symm hc]
      · rw [hlast]
        by_cases hc : channel = sub.channel
        · rw [if_pos hc, hc, ByteMap.get_insert_self]
          exact hslot.symm
        · rw [if_neg hc, ← h.bus, ByteMap.get_insert_of_ne _ _ hc, ByteMap.get_insert_of_ne _ _ hc,
            ByteMap.get_insert_of_ne _ _ hc]
      · rw [hlast] at hs
        split at hs
        · cases hs
          rw [hslot, Option.isSome_some]
        · exact h.parsed channel s hs

theorem subscribe_holds (h : Listed subs conn.subs ∧ Served parse subs conn)
    (hsub : conn.subscribe parse sub = some conn') :
    Listed (subs ++ [sub]) conn'.subs ∧ Served parse (subs ++ [sub]) conn' := by
  obtain ⟨hlisted, hserved⟩ := h
  rw [Conn.subscribe] at hsub
  split at hsub
  · rename_i hany
    obtain ⟨entry, hentry, hc⟩ := any_eq_true.mp hany
    have hc : entry.channel = sub.channel := eq_of_beq hc
    cases hsub
    have hfirst := first_append_of_isSome (hc ▸ hlisted.known entry hentry)
    exact ⟨hlisted.join ⟨entry, hentry, hc⟩, by rw [hfirst]; exact hserved.listed,
      by rw [hfirst]; exact hserved.bus, by rw [hfirst]; exact hserved.parsed⟩
  · rename_i hany
    obtain ⟨next, hnext, rfl⟩ := Option.map_eq_some_iff.mp hsub
    obtain ⟨hserved, hsubs⟩ := hserved.serve hnext
    refine ⟨?_, hserved.listed, hserved.bus, hserved.parsed⟩
    rw [hsubs]
    refine hlisted.new fun entry hentry hc => hany ?_
    exact any_eq_true.mpr ⟨entry, hentry, beq_iff_eq.mpr hc⟩

theorem foldlM_holds {before : List Subscription} (h : Listed before conn.subs ∧ Served parse before conn)
    (hrun : subs.foldlM (Conn.subscribe parse) conn = some conn') :
    Listed (before ++ subs) conn'.subs ∧ Served parse (before ++ subs) conn' := by
  induction subs generalizing before conn with
  | nil =>
    cases hrun
    rwa [append_nil]
  | cons sub subs ih =>
    obtain ⟨next, hnext, hrest⟩ := Option.bind_eq_some_iff.mp hrun
    rw [append_cons]
    exact ih (subscribe_holds h hnext) hrest

theorem connect_holds (h : connect parse subs = some conn) :
    Listed subs conn.subs ∧ Served parse subs conn := by
  have hinit : Listed [] (Conn.init : Conn Filter).subs ∧ Served parse [] (Conn.init : Conn Filter) :=
    ⟨⟨nodup_nil, by simp [Conn.init], by simp, by simp [Conn.init]⟩,
      fun _ => rfl, fun _ => rfl, by simp [first]⟩
  exact foldlM_holds hinit h

/-! ## What a handler receives -/

/-- The subscriber at a slot takes what the filter of the subscription lets through. -/
theorem slot_matches (h : (slot parse sub).isSome) :
    ∃ filter, slot parse sub =
        some (.channel ⟨sub.channel, [(1, ⟨1, (), filter, sub.filter⟩)], 2⟩) ∧
      ∀ message, filter.all (fun filter => selects filter message) =
        Matches parse selects sub.filter message := by
  obtain ⟨channel, raw, handler⟩ := sub
  cases raw with
  | none => exact ⟨none, rfl, fun _ => rfl⟩
  | some raw =>
    cases hfilter : parse raw with
    | error e => simp [slot, readFilter, hfilter, Except.map] at h
    | ok filter =>
      exact ⟨some filter, by simp [slot, readFilter, hfilter, Except.map],
        fun _ => by simp [Matches, hfilter]⟩

/-- What is on the bus sends an event on just when it is forwarded. -/
theorem Served.receive (h : Served parse subs conn) (evt : Event) :
    conn.receive selects evt = if Forwards parse selects subs evt then
      dispatchEvent conn.subs (Utf8.decode evt.channel) else [] := by
  rw [Conn.receive, publish, h.bus, Forwards]
  cases hfirst : first subs evt.channel with
  | none => rfl
  | some s =>
    obtain ⟨filter, hslot, hfilter⟩ :=
      @slot_matches _ parse selects s (h.parsed evt.channel s hfirst)
    rw [Option.bind_some, hslot, Option.any_some, ← hfilter]
    cases hall : filter.all fun filter => selects filter evt.message with
    | false | true => simp [hall]

/-- A handler is called once for an event, if its channel is a prefix of the event's. -/
theorem Listed.dispatch (h : Listed subs entries) (hsub : sub ∈ subs) (channel : Bytes) :
    ((dispatchEvent entries channel).filter fun call => call = (sub.channel, sub.handler)) =
      if sub.channel.isPrefixOf channel then [(sub.channel, sub.handler)] else [] := by
  have hnodup : (dispatchEvent entries channel).Nodup := by
    refine nodup_flatMap.mpr ⟨fun entry hentry => ?_, ?_⟩
    · exact (h.handlers entry (mem_filter.mp hentry).1).map fun a b hab => (Prod.mk.inj hab).2
    · have hchannels := pairwise_map.mp h.channels
      refine (hchannels.sublist filter_sublist).imp fun hne call hleft hright => ?_
      obtain ⟨_, -, rfl⟩ := mem_map.mp hleft
      obtain ⟨_, -, heq⟩ := mem_map.mp hright
      exact hne (Prod.mk.inj heq).1.symm
  have hmem : (sub.channel, sub.handler) ∈ dispatchEvent entries channel ↔
      sub.channel.isPrefixOf channel := by
    constructor
    · intro hcall
      obtain ⟨entry, hentry, hcall⟩ := mem_flatMap.mp hcall
      obtain ⟨_, -, heq⟩ := mem_map.mp hcall
      rw [← (Prod.mk.inj heq).1]
      exact (mem_filter.mp hentry).2
    · intro hstart
      obtain ⟨entry, hentry, hc, hhandler⟩ := h.entry sub hsub
      refine mem_flatMap.mpr ⟨entry, mem_filter.mpr ⟨hentry, hc ▸ hstart⟩, ?_⟩
      exact mem_map.mpr ⟨sub.handler, hhandler, by rw [hc]⟩
  rw [filter_eq]
  split
  · rw [count_eq_one_of_mem hnodup (hmem.mpr ‹_›), replicate_one]
  · rw [count_eq_zero_of_not_mem fun hcall => ‹¬_› (hmem.mp hcall), replicate_zero]

/-- **What a handler receives**, in the order it is published: each event once that the first
subscription on its channel lets through, of every channel that its own is a prefix of. -/
theorem delivered_eq (h : connect parse subs = some conn) (hsub : sub ∈ subs) (evts : List Event) :
    delivered selects conn sub evts = evts.filter fun evt =>
      sub.channel.isPrefixOf (Utf8.decode evt.channel) && Forwards parse selects subs evt := by
  induction evts with
  | nil => rfl
  | cons evt evts ih =>
    obtain ⟨hlisted, hserved⟩ := connect_holds h
    rw [delivered, flatMap_cons, ← delivered, ih, hserved.receive, filter_cons]
    cases Forwards parse selects subs evt with
    | false => simp
    | true =>
      rw [if_pos rfl, hlisted.dispatch hsub, Bool.and_true]
      split <;> rfl

end

/-- **When subscriptions are independent.**  A handler receives the same in both sets of
subscriptions just when, on every channel that begins with its own, the first subscriptions of
both let the same messages through.  It is called for events that match its filter only just
when these subscriptions let no others through. -/
theorem independent_iff (parse : Bytes → Except Error Filter) (selects : Filter → Bytes → Bool)
    {subs₁ subs₂ : List Subscription} {conn₁ conn₂ : Conn Filter} {sub : Subscription}
    (h₁ : connect parse subs₁ = some conn₁) (h₂ : connect parse subs₂ = some conn₂)
    (hsub₁ : sub ∈ subs₁) (hsub₂ : sub ∈ subs₂) :
    ((∀ evts, delivered selects conn₁ sub evts = delivered selects conn₂ sub evts) ↔
      ∀ evt : Event, sub.channel.isPrefixOf (Utf8.decode evt.channel) →
        Forwards parse selects subs₁ evt = Forwards parse selects subs₂ evt) ∧
    ((∀ evts, ∀ evt ∈ delivered selects conn₁ sub evts, Matches parse selects sub.filter evt.message) ↔
      ∀ evt : Event, sub.channel.isPrefixOf (Utf8.decode evt.channel) →
        Forwards parse selects subs₁ evt → Matches parse selects sub.filter evt.message) := by
  simp only [delivered_eq h₁ hsub₁, delivered_eq h₂ hsub₂]
  refine ⟨⟨fun h evt hstart => ?_, fun h evts => ?_⟩, fun h evt hstart hforward => ?_,
    fun h evts evt hevt => ?_⟩
  · have hone := h [evt]
    simp only [filter_cons, hstart, Bool.true_and,
      filter_nil] at hone
    cases hl : Forwards parse selects subs₁ evt <;> cases hr : Forwards parse selects subs₂ evt <;>
      simp_all
  · refine filter_congr fun evt _ => ?_
    cases hstart : sub.channel.isPrefixOf (Utf8.decode evt.channel) with
    | false => rfl
    | true => rw [h evt hstart]
  · refine h [evt] evt (mem_filter.mpr ⟨mem_singleton_self evt, ?_⟩)
    rw [hstart, hforward]
    rfl
  · obtain ⟨hstart, hforward⟩ := Bool.and_eq_true_iff.mp (mem_filter.mp hevt).2
    exact h evt hstart hforward

theorem second_handler_independent :
    let parse : Bytes → Except Error Unit := fun _ => .ok ()
    let selects : Unit → Bytes → Bool := fun _ _ => false
    let sub : Subscription := ⟨ascii "vec:", none, 0⟩
    let second : Subscription := ⟨ascii "vec:", none, 1⟩
    ∃ alone joined, connect parse [sub] = some alone ∧ connect parse [sub, second] = some joined ∧
      ∀ evts, delivered selects alone sub evts = delivered selects joined sub evts := by
  intro parse selects sub second
  refine ⟨_, _, rfl, rfl, ?_⟩
  refine (@independent_iff _ parse selects [sub] [sub, second] _ _ sub rfl rfl (by decide)
    (by decide)).1.mpr fun evt _ => ?_
  rw [Forwards, Forwards, show [sub, second] = [sub] ++ [second] from rfl,
    first_append_of_isSome rfl]

/-- **Other subscriptions decide.**  The one on `vec:ns` brings its events to the handler of
`vec:` too, and a filter given on a channel that has a handler already reaches nobody. -/
theorem others_decide :
    let parse : Bytes → Except Error Unit := fun _ => .ok ()
    let selects : Unit → Bytes → Bool := fun _ _ => false
    let sub : Subscription := ⟨ascii "vec:", none, 0⟩
    let other : Subscription := ⟨ascii "vec:ns", none, 1⟩
    let filtered : Subscription := ⟨ascii "vec:", some (ascii "score > 1"), 1⟩
    let evt : Event := ⟨ascii "vec:ns", ascii "e"⟩
    let plain : Event := ⟨ascii "vec:", ascii "e"⟩
    ∃ alone both joined, connect parse [sub] = some alone ∧
      connect parse [sub, other] = some both ∧ connect parse [sub, filtered] = some joined ∧
      delivered selects alone sub [evt] = [] ∧ delivered selects both sub [evt] = [evt] ∧
      delivered selects joined filtered [plain] = [plain] ∧
      Matches parse selects filtered.filter plain.message = false := by
  intro parse selects sub other filtered evt plain
  refine ⟨_, _, _, rfl, rfl, rfl, ?_, ?_, ?_, rfl⟩
  · exact (@delivered_eq _ parse _ [sub] _ _ rfl (by decide) _).trans (by decide)
  · exact (@delivered_eq _ parse _ [sub, other] _ _ rfl (by decide) _).trans (by decide)
  · exact (@delivered_eq _ parse _ [sub, filtered] _ _ rfl (by decide) _).trans (by decide)

end WormDB.BunDispatch
