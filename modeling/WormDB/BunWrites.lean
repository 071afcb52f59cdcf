import WormDB.ClientWire
import Mathlib.Data.List.Infix

/-! # What the Bun clients write

The write side of one connection of `apps/bun/src/lib/client.ts` and `wormdb.ts`, which have
the same `writeOrQueue` and `flushBacklog`.  `socket.write` takes as much as it likes of what
it is offered, or fails; what it does not take goes into the backlog, and `drain` callbacks go
on from there.  `wormdb.ts` sends its token and its subscriptions when the connection opens,
`client.ts` nothing; a connection finds no backlog when it opens.

Bytes are marked with their place in the stream, so that one byte that looks like another is
not taken for it.  `accepted_iff` says when what the socket takes is the beginning of the
stream: two writes lose what is not taken, that of the two magic bytes and one that fails in a
`drain` callback, and after one of these nothing more may be taken. -/
namespace WormDB.BunWrites
open List ByteCodec ClientWire

/-- A byte and its place in the stream. -/
abbrev Placed := UInt8 × Nat

/-- What `socket.write` returns: a number below zero, or how much it would take. -/
inductive Result where
  | failed
  | took (n : Nat)

/-- Where in the source the socket is written to. -/
inductive Site where
  | magic | send | drain

/-- One call of `socket.write`; `taken` is `none` when it failed. -/
structure Write where
  site : Site
  offered : Nat
  taken : Option Nat

namespace Write

/-- The rest of the magic bytes is not queued, and a chunk that fails in a `drain` is dropped. -/
def loses (w : Write) : Bool :=
  match w.site with
  | .magic => decide (w.taken ≠ some w.offered)
  | .send => false
  | .drain => w.taken.isNone

/-- The socket takes a byte. -/
def takes (w : Write) : Bool := w.taken.any (fun n => decide (0 < n))

end Write

structure Conn where
  writeBacklog : List (List Placed)
  accepted : List Placed
  sent : List CommandFrame
  ready : Bool
  log : List Write

namespace Conn

def fresh : Conn := ⟨[], [], [], false, []⟩

/-- The magic bytes and the frames that were sent. -/
def stream (c : Conn) : Bytes := wireMagic ++ c.sent.flatMap CommandFrame.bytes

def placed (c : Conn) : List Placed := c.stream.zipIdx

/-- The next frame. -/
def place (c : Conn) (frame : CommandFrame) : List Placed := frame.bytes.zipIdx c.stream.length

/-! ## Writing -/

/-- `socket.write`. -/
def write (c : Conn) (site : Site) (data : List Placed) : Result → Conn × Option Nat
  | .failed => ({ c with log := c.log ++ [⟨site, data.length, none⟩] }, none)
  | .took n =>
      let written := min n data.length
      ({ c with accepted := c.accepted ++ data.take written
                log := c.log ++ [⟨site, data.length, some written⟩] }, some written)

/-- `false` when it throws. -/
def writeOrQueue (c : Conn) (data : List Placed) (result : Result) : Conn × Bool :=
  if c.writeBacklog.length > 0 then ({ c with writeBacklog := c.writeBacklog ++ [data] }, true)
  else
    match c.write .send data result with
    | (c, none) => (c, false)
    | (c, some written) =>
        if written < data.length then
          ({ c with writeBacklog := c.writeBacklog ++ [data.drop written] }, true)
        else (c, true)

/-- The loop over the backlog; a write that fails drops its chunk. -/
def flush : List (List Placed) → List Result → Conn → Conn
  | [], _, c => { c with writeBacklog := [] }
  | chunk :: rest, results, c =>
      match c.write .drain chunk (results.headD (.took 0)) with
      | (c, none) => flush rest results.tail c
      | (c, some written) =>
          if written < chunk.length then { c with writeBacklog := chunk.drop written :: rest }
          else flush rest results.tail c

def flushBacklog (c : Conn) (results : List Result) : Conn := flush c.writeBacklog results c

/-- A frame that `writeOrQueue` takes is sent. -/
def send (c : Conn) (frame : CommandFrame) (result : Result) : Conn × Bool :=
  match c.writeOrQueue (c.place frame) result with
  | (c, true) => ({ c with sent := c.sent ++ [frame] }, true)
  | (c, false) => (c, false)

/-- What `onOpen` sends; a write that throws ends it. -/
def sendSetup : List CommandFrame → List Result → Conn → Conn
  | [], _, c => { c with ready := true }
  | frame :: rest, results, c =>
      match c.send frame (results.headD (.took 0)) with
      | (c, true) => sendSetup rest results.tail c
      | (c, false) => c

/-- What the write of the magic bytes returns is not looked at. -/
def onOpen (setup : List CommandFrame) (results : List Result) : Conn :=
  sendSetup setup results.tail
    (fresh.write .magic wireMagic.zipIdx (results.headD (.took 0))).1

end Conn

inductive Callback where
  | send (frame : CommandFrame) (result : Result)
  | drain (results : List Result)

def step (c : Conn) : Callback → Conn
  | .send frame result => if c.ready then (c.send frame result).1 else c
  | .drain results => c.flushBacklog results

/-- A connection from its `open` on.  With no set-up this is `client.ts`. -/
def run (setup : List CommandFrame) (results : List Result) (callbacks : List Callback) : Conn :=
  callbacks.foldl step (Conn.onOpen setup results)

/-! ## Bytes in their places -/

/-- No byte is taken after one that was lost. -/
def Clean (log : List Write) : Prop :=
  log.Pairwise (fun w w' => w.loses = true → w'.takes = false)

theorem clean_concat {log : List Write} {w : Write} : Clean (log ++ [w]) ↔
    Clean log ∧ ∀ v ∈ log, v.loses = true → w.takes = false := by
  simp [Clean, pairwise_append]

/-- What is taken and what is in the backlog, of a stream in the order of its places. -/
structure Flows (accepted pending stream : List Placed) (log : List Write) : Prop where
  ascending : stream.Pairwise (fun x y => x.2 < y.2)
  sub : (accepted ++ pending).Sublist stream
  whole : (∀ w ∈ log, w.loses = false) → accepted ++ pending = stream
  gap : (∃ w ∈ log, w.loses = true) →
    ∃ x ∈ stream, x ∉ accepted ∧ ∀ y ∈ pending, x.2 < y.2
  clean : accepted <+: stream ↔ Clean log

section
variable {accepted pending stream more : List Placed} {log : List Write} {w : Write} {k : Nat}

/-- A beginning has all that comes before what it has. -/
theorem mem_of_prefix (hstream : stream.Pairwise (fun x y => x.2 < y.2)) (h : accepted <+: stream)
    {x y : Placed} (hx : x ∈ stream) (hy : y ∈ accepted) (hlt : x.2 < y.2) : x ∈ accepted := by
  obtain ⟨rest, rfl⟩ := h
  rcases mem_append.mp hx with hx | hx
  · exact hx
  · exact absurd ((pairwise_append.mp hstream).2.2 y hy x hx) (lt_asymm hlt)

section
variable (h : Flows accepted pending stream log)
include h

theorem Flows.whole_of_not_lost
    (hlost : ¬ ∃ w ∈ log, w.loses = true) : accepted ++ pending = stream :=
  h.whole (fun w hw => Bool.eq_false_iff.mpr (fun hloses => hlost ⟨w, hw, hloses⟩))

/-- The socket takes a piece from the front. -/
theorem Flows.take (hk : k ≤ pending.length)
    (hloses : w.loses = false) (htakes : w.takes = decide (0 < k)) :
    Flows (accepted ++ pending.take k) (pending.drop k) stream (log ++ [w]) where
  ascending := h.ascending
  sub := by
    rw [append_assoc, take_append_drop]
    exact h.sub
  whole hnone := by
    rw [append_assoc, take_append_drop]
    exact h.whole (fun v hv => hnone v (mem_append_left _ hv))
  gap hlost := by
    obtain ⟨v, hv, hvloses⟩ := hlost
    rcases mem_append.mp hv with hv | hv
    · obtain ⟨x, hx, hout, hbefore⟩ := h.gap ⟨v, hv, hvloses⟩
      refine ⟨x, hx, ?_, fun y hy => hbefore y (mem_of_mem_drop hy)⟩
      rw [mem_append, not_or]
      refine ⟨hout, fun hin => ?_⟩
      exact lt_irrefl _ (hbefore x (mem_of_mem_take hin))
    · rw [mem_singleton.mp hv, hloses] at hvloses
      cases hvloses
  clean := by
    rw [clean_concat, htakes]
    by_cases hlost : ∃ v ∈ log, v.loses = true
    · obtain ⟨v, hv, hvloses⟩ := hlost
      cases k with
      | zero => simpa using h.clean
      | succ k =>
        -- a byte from behind the gap
        obtain ⟨x, hx, hout, hbefore⟩ := h.gap ⟨v, hv, hvloses⟩
        obtain ⟨y, rest, rfl⟩ := exists_cons_of_length_pos (lt_of_lt_of_le k.succ_pos hk)
        have hy : y ∈ accepted ++ (y :: rest).take (k + 1) := by simp
        refine iff_of_false (fun hprefix => ?_) (fun hclean => ?_)
        · have hin := mem_of_prefix h.ascending hprefix hx hy (hbefore y mem_cons_self)
          rcases mem_append.mp hin with hin | hin
          · exact hout hin
          · exact lt_irrefl _ (hbefore x (mem_of_mem_take hin))
        · exact absurd (hclean.2 v hv hvloses) (by simp)
    · have hwhole := h.whole_of_not_lost hlost
      refine iff_of_true ?_ ⟨h.clean.mp ?_, fun v hv hvloses => absurd ⟨v, hv, hvloses⟩ hlost⟩
      · rw [← hwhole, prefix_append_right_inj]
        exact take_prefix k pending
      · rw [← hwhole]
        exact prefix_append _ _

/-- A piece is lost. -/
theorem Flows.drop (hk : 0 < k) (hle : k ≤ pending.length)
    (hloses : w.loses = true) (htakes : w.takes = false) :
    Flows accepted (pending.drop k) stream (log ++ [w]) where
  ascending := h.ascending
  sub := ((drop_sublist k pending).append_left accepted).trans h.sub
  whole hnone := by
    have hw := hnone w (mem_append_right _ mem_cons_self)
    cases hloses.symm.trans hw
  gap _ := by
    by_cases hlost : ∃ v ∈ log, v.loses = true
    · obtain ⟨x, hx, hout, hbefore⟩ := h.gap hlost
      exact ⟨x, hx, hout, fun y hy => hbefore y (mem_of_mem_drop hy)⟩
    · have hwhole := h.whole_of_not_lost hlost
      obtain ⟨x, rest, rfl⟩ := exists_cons_of_length_pos (lt_of_lt_of_le hk hle)
      obtain ⟨k, rfl⟩ := Nat.exists_eq_succ_of_ne_zero (ne_of_gt hk)
      have hascending := h.ascending
      rw [← hwhole] at hascending ⊢
      obtain ⟨-, hpending, hbefore⟩ := pairwise_append.mp hascending
      refine ⟨x, by simp, fun hin => ?_, fun y hy => ?_⟩
      · exact lt_irrefl _ (hbefore x hin x mem_cons_self)
      · exact (pairwise_cons.mp hpending).1 y (mem_of_mem_drop hy)
  clean := by
    rw [clean_concat, h.clean]
    simp [htakes]

/-- A frame is sent. -/
theorem Flows.append
    (hascending : (stream ++ more).Pairwise (fun x y => x.2 < y.2)) :
    Flows accepted (pending ++ more) (stream ++ more) log where
  ascending := hascending
  sub := by
    rw [← append_assoc]
    exact h.sub.append (Sublist.refl more)
  whole hnone := by rw [← append_assoc, h.whole hnone]
  gap hlost := by
    obtain ⟨x, hx, hout, hbefore⟩ := h.gap hlost
    refine ⟨x, mem_append_left _ hx, hout, fun y hy => ?_⟩
    rcases mem_append.mp hy with hy | hy
    · exact hbefore y hy
    · exact (pairwise_append.mp hascending).2.2 x hx y hy
  clean := by
    rw [← h.clean]
    have hle : accepted.length ≤ stream.length :=
      ((sublist_append_left accepted pending).trans h.sub).length_le
    refine ⟨fun hprefix => ?_, fun hprefix => hprefix.trans (prefix_append _ _)⟩
    exact prefix_of_prefix_length_le hprefix (prefix_append _ _) hle

end

end

/-! ## A connection -/

theorem zipIdx_ascending {α : Type} (l : List α) (n : Nat) :
    (l.zipIdx n).Pairwise (fun x y => x.2 < y.2) := by
  induction l generalizing n with
  | nil => exact Pairwise.nil
  | cons a l ih =>
    rw [zipIdx_cons, pairwise_cons]
    exact ⟨fun y hy => le_snd_of_mem_zipIdx hy, ih (n + 1)⟩

namespace Conn
variable {c : Conn} {data rest stream : List Placed} {site : Site}

/-- What has been sent flows, in chunks that have something in them. -/
structure Ok (c : Conn) : Prop where
  flows : Flows c.accepted c.writeBacklog.flatten c.placed c.log
  chunks : ∀ chunk ∈ c.writeBacklog, 0 < chunk.length

theorem write_took (h : Flows c.accepted (data ++ rest) stream c.log) (hsite : site ≠ .magic)
    (n : Nat) : Flows (c.accepted ++ data.take (min n data.length))
      (data.drop (min n data.length) ++ rest) stream
      (c.log ++ [⟨site, data.length, some (min n data.length)⟩]) := by
  have hle : min n data.length ≤ data.length := min_le_right _ _
  have htake : (data ++ rest).take (min n data.length) = data.take (min n data.length) :=
    take_append_of_le_length hle
  rw [← htake, ← drop_append_of_le_length hle]
  refine h.take ?_ ?_ rfl
  · rw [length_append]
    omega
  · cases site with
    | magic => exact absurd rfl hsite
    | send | drain => rfl

theorem flush_ok {chunks : List (List Placed)} (results : List Result)
    (h : Flows c.accepted chunks.flatten c.placed c.log)
    (hchunks : ∀ chunk ∈ chunks, 0 < chunk.length) :
    (flush chunks results c).Ok := by
  induction chunks generalizing c results with
  | nil => exact ⟨h, by simp [flush]⟩
  | cons chunk chunks ih =>
    rw [flatten_cons] at h
    have hchunk := hchunks chunk mem_cons_self
    have hrest : ∀ chunk ∈ chunks, 0 < chunk.length :=
      fun chunk hmem => hchunks chunk (mem_cons_of_mem _ hmem)
    rw [flush]
    cases results.headD (.took 0) with
    | failed =>
      refine ih results.tail ?_ hrest
      have hdrop := h.drop (w := ⟨.drain, chunk.length, none⟩) hchunk (by simp) rfl rfl
      rwa [drop_left] at hdrop
    | took n =>
      have htook := write_took h (show Site.drain ≠ .magic by simp) n
      simp only [write]
      split
      · rename_i hlt
        refine ⟨htook, ?_⟩
        intro chunk' hmem
        rcases mem_cons.mp hmem with rfl | hmem
        · rw [length_drop]
          omega
        · exact hrest chunk' hmem
      · rename_i hall
        refine ih results.tail ?_ hrest
        rwa [drop_of_length_le (le_of_not_gt hall), nil_append] at htook

theorem placed_sent (c : Conn) (frame : CommandFrame) :
    { c with sent := c.sent ++ [frame] }.placed = c.placed ++ c.place frame := by
  have hstream : { c with sent := c.sent ++ [frame] }.stream = c.stream ++ frame.bytes := by
    simp [stream]
  rw [placed, hstream, zipIdx_append, zero_add, placed, place]

theorem place_length_pos (c : Conn) (frame : CommandFrame) : 0 < (c.place frame).length := by
  rw [place, length_zipIdx]
  exact framing.encode_pos frame.frame

theorem send_ok (h : c.Ok) (frame : CommandFrame) (result : Result) : (c.send frame result).1.Ok := by
  have hascending : (c.placed ++ c.place frame).Pairwise (fun x y => x.2 < y.2) := by
    rw [← placed_sent]
    exact zipIdx_ascending _ _
  have hsent := h.flows.append hascending
  have hpos := c.place_length_pos frame
  rw [← placed_sent] at hsent
  unfold send writeOrQueue
  by_cases hbacklog : c.writeBacklog.length > 0
  · rw [if_pos hbacklog]
    refine ⟨?_, fun chunk hmem => ?_⟩
    · show Flows c.accepted (c.writeBacklog ++ [c.place frame]).flatten _ c.log
      rw [flatten_append, flatten_singleton]
      exact hsent
    · rcases mem_append.mp hmem with hmem | hmem
      · exact h.chunks chunk hmem
      · rw [mem_singleton.mp hmem]
        exact hpos
  · have hnone : c.writeBacklog = [] := length_eq_zero_iff.mp (by omega)
    rw [if_neg hbacklog]
    cases result with
    | failed =>
      refine ⟨?_, h.chunks⟩
      have hfailed := h.flows.take (w := ⟨.send, (c.place frame).length, none⟩) (Nat.zero_le _) rfl
        (by rfl)
      rwa [take_zero, append_nil, drop_zero] at hfailed
    | took n =>
      have hfront : c.writeBacklog.flatten ++ c.place frame = c.place frame ++ [] := by
        rw [hnone, flatten_nil, nil_append, append_nil]
      rw [hfront] at hsent
      have htook := write_took hsent (show Site.send ≠ .magic by simp) n
      by_cases hlt : min n (c.place frame).length < (c.place frame).length
      · simp only [write, if_pos hlt, hnone, nil_append]
        refine ⟨?_, fun chunk hmem => ?_⟩
        · show Flows _ [(c.place frame).drop _].flatten _ _
          rwa [flatten_singleton, ← append_nil ((c.place frame).drop _)]
        · rw [mem_singleton.mp hmem, length_drop]
          omega
      · simp only [write, if_neg hlt]
        refine ⟨?_, h.chunks⟩
        rw [drop_of_length_le (le_of_not_gt hlt), append_nil] at htook
        show Flows _ c.writeBacklog.flatten _ _
        rwa [hnone]

theorem sendSetup_ok (h : c.Ok) (setup : List CommandFrame) (results : List Result) :
    (sendSetup setup results c).Ok := by
  induction setup generalizing c results with
  | nil => exact ⟨h.flows, h.chunks⟩
  | cons frame setup ih =>
    have hsend := send_ok h frame (results.headD (.took 0))
    rw [sendSetup]
    generalize c.send frame (results.headD (.took 0)) = sent at hsend
    obtain ⟨c', _ | _⟩ := sent
    · exact hsend
    · exact ih hsend results.tail

/-- Of the magic bytes there is what the socket takes. -/
theorem magic_flows {w : Write} {k : Nat} (hloses : w.loses = decide (k < 2)) :
    Flows (wireMagic.zipIdx.take k) [] wireMagic.zipIdx [w] where
  ascending := zipIdx_ascending _ _
  sub := by
    rw [append_nil]
    exact take_sublist k _
  whole hnone := by
    have hw := hnone w mem_cons_self
    rw [hloses] at hw
    have hk : 2 ≤ k := Nat.not_lt.mp (of_decide_eq_false hw)
    rw [append_nil]
    exact take_of_length_le hk
  gap hlost := by
    obtain ⟨v, hv, hvloses⟩ := hlost
    rw [mem_singleton.mp hv, hloses, decide_eq_true_eq] at hvloses
    refine ⟨(0x57, k), ?_, ?_, by simp⟩ <;>
      rcases Nat.lt_succ_iff_lt_or_eq.mp hvloses with hk | rfl
    · obtain rfl := Nat.lt_one_iff.mp hk
      decide
    · decide
    · obtain rfl := Nat.lt_one_iff.mp hk
      decide
    · decide
  clean := iff_of_true ( take_prefix k _) (pairwise_singleton _ w)

theorem magic_ok (result : Result) : (fresh.write .magic wireMagic.zipIdx result).1.Ok := by
  cases result with
  | failed =>
    have hflows := magic_flows (w := ⟨.magic, 2, none⟩) (k := 0) rfl
    exact ⟨hflows, by simp [write, fresh]⟩
  | took n =>
    have hflows := magic_flows (w := ⟨.magic, 2, some (min n 2)⟩) (k := min n 2) (by
      simp only [Write.loses, ne_eq, Option.some.injEq, decide_eq_decide]
      omega)
    exact ⟨hflows, by simp [write, fresh]⟩

theorem onOpen_ok (setup : List CommandFrame) (results : List Result) :
    (onOpen setup results).Ok := sendSetup_ok (magic_ok _) setup results.tail

end Conn

theorem step_ok {c : Conn} (h : c.Ok) (callback : Callback) : (step c callback).Ok := by
  cases callback with
  | send frame result =>
    by_cases hready : c.ready = true
    · rw [step, if_pos hready]
      exact Conn.send_ok h frame result
    · rw [step, if_neg hready]
      exact h
  | drain results => exact Conn.flush_ok results h.flows h.chunks

theorem run_ok (setup : List CommandFrame) (results : List Result) (callbacks : List Callback) :
    (run setup results callbacks).Ok := by
  unfold run
  have h := Conn.onOpen_ok setup results
  generalize Conn.onOpen setup results = c at h
  induction callbacks generalizing c with
  | nil => exact h
  | cons callback callbacks ih => exact ih _ (step_ok h callback)

/-- **What the socket takes is the beginning of the stream, unless it takes a byte after one that
was lost**: the rest of the magic bytes, or a chunk that failed in a `drain`.  Nothing is ever
repeated or out of order. -/
theorem accepted_iff (setup : List CommandFrame) (results : List Result)
    (callbacks : List Callback) :
    let c := run setup results callbacks
    (c.accepted <+: c.placed ↔ Clean c.log) ∧ c.accepted.Sublist c.placed := by
  have h := (run_ok setup results callbacks).flows
  exact ⟨h.clean, (sublist_append_left _ _).trans h.sub⟩

theorem empty_fits : ([] : Bytes).length ≤ maxPayload := Nat.zero_le _

def statusFrame : CommandFrame := ⟨.status, [], empty_fits⟩

/-- One magic byte is not taken, and then a frame is; or the rest of a frame fails in a `drain`,
and the next frame is taken. -/
theorem lost_bytes :
    (let c := run [] [.took 1] [.send statusFrame (.took 5)];
      ¬ (c.accepted.map Prod.fst <+: c.stream)) ∧
    (let c := run [] [.took 2]
        [.send statusFrame (.took 1), .drain [.failed], .send statusFrame (.took 5)];
      ¬ (c.accepted.map Prod.fst <+: c.stream)) := by
  decide

end WormDB.BunWrites
