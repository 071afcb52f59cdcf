import Mathlib.Data.List.Basic

/-! # Matching responses by order

Requests go out and responses come back in the same order, without a mark of their own.  Who
waits is a queue; a response goes to its head.  The match is right as long as those who wait are
the first of the requests that are still owed a response (`Ledger.Matched`): leaving the queue
from its end keeps that, and joining it does when nobody has left. -/
namespace FifoMatch
open List

/-- The requests in the order they went out, the responses in the order they came in, how many
of these have been taken, who waits, and who got which. -/
structure Ledger (Q R : Type) where
  requests : List Q
  replies : List R
  taken : Nat
  waiting : List Q
  log : List (Q × R)

namespace Ledger
variable {Q R : Type}

def Answered (l : Ledger Q R) (q : Q) (r : R) : Prop :=
  ∃ i : Nat, l.requests[i]? = some q ∧ l.replies[i]? = some r

def send (l : Ledger Q R) (q : Q) : Ledger Q R :=
  { l with requests := l.requests ++ [q], waiting := l.waiting ++ [q] }

def reply (l : Ledger Q R) (r : R) : Ledger Q R := { l with replies := l.replies ++ [r] }

/-- A response is taken: the head of the queue gets it. -/
def take (l : Ledger Q R) (r : R) : Ledger Q R :=
  { l with taken := l.taken + 1, waiting := l.waiting.tail,
           log := l.log ++ l.waiting.head?.toList.map (fun q => (q, r)) }

def leave (l : Ledger Q R) (waiting : List Q) : Ledger Q R := { l with waiting := waiting }

structure Matched (l : Ledger Q R) : Prop where
  waiting : l.waiting <+: l.requests.drop l.taken
  taken : l.taken ≤ l.replies.length
  replies : l.replies.length ≤ l.requests.length
  log : ∀ q r, (q, r) ∈ l.log → l.Answered q r

/-- Nobody has left: who is owed a response waits for it. -/
def Settled (l : Ledger Q R) : Prop := l.taken + l.waiting.length = l.requests.length

variable {l : Ledger Q R}

theorem getElem?_append_of_some {α : Type} {xs : List α} {i : Nat} {x : α} (ys : List α)
    (h : xs[i]? = some x) : (xs ++ ys)[i]? = some x := by
  rw [getElem?_append_left (List.getElem?_eq_some_iff.mp h).1]
  exact h

theorem Matched.send (h : l.Matched) (hall : l.Settled) (q : Q) : (l.send q).Matched where
  waiting := by
    have hle : l.taken ≤ l.requests.length := Nat.le_trans h.taken h.replies
    -- as many wait as are owed, so they are all of them
    have hwaiting : l.waiting = l.requests.drop l.taken := by
      refine h.waiting.eq_of_length ?_
      rw [length_drop, ← hall]
      omega
    rw [Ledger.send]
    have hsent : l.waiting ++ [q] = (l.requests ++ [q]).drop l.taken := by
      rw [drop_append_of_le_length hle, hwaiting]
    exact hsent ▸ prefix_refl _
  taken := h.taken
  replies := by
    rw [Ledger.send]
    dsimp only
    rw [length_append]
    exact Nat.le_trans h.replies (Nat.le_add_right _ _)
  log q' r hmem := by
    obtain ⟨i, hq, hr⟩ := h.log q' r hmem
    exact ⟨i, getElem?_append_of_some _ hq, hr⟩

theorem Matched.reply (h : l.Matched) (hlt : l.replies.length < l.requests.length) (r : R) :
    (l.reply r).Matched where
  waiting := h.waiting
  taken := by
    rw [Ledger.reply]
    dsimp only
    rw [length_append]
    exact Nat.le_trans h.taken (Nat.le_add_right _ _)
  replies := by
    rw [Ledger.reply]
    dsimp only
    rw [length_append]
    exact hlt
  log q r' hmem := by
    obtain ⟨i, hq, hr⟩ := h.log q r' hmem
    exact ⟨i, hq, getElem?_append_of_some _ hr⟩

theorem Matched.leave (h : l.Matched) {waiting : List Q} (hle : waiting <+: l.waiting) :
    (l.leave waiting).Matched :=
  ⟨hle.trans h.waiting, h.taken, h.replies, h.log⟩

/-- **The response that is taken is that of the head of the queue.** -/
theorem Matched.take (h : l.Matched) {r : R} (hr : l.replies[l.taken]? = some r) :
    (l.take r).Matched := by
  have hlt : l.taken < l.replies.length := (List.getElem?_eq_some_iff.mp hr).1
  refine ⟨?_, hlt, h.replies, ?_⟩
  · have htail : (l.requests.drop l.taken).tail = l.requests.drop (l.taken + 1) := by
      rw [← drop_one, drop_drop]
    rw [Ledger.take]
    dsimp only
    rw [← htail]
    obtain ⟨rest, hrest⟩ := h.waiting
    rw [← hrest]
    rcases l.waiting with _ | ⟨q, waiting⟩
    · exact nil_prefix
    · exact prefix_append _ _
  · intro q r' hmem
    rcases mem_append.mp hmem with hmem | hmem
    · exact h.log q r' hmem
    · obtain ⟨rest, hrest⟩ := h.waiting
      rcases hwaiting : l.waiting with _ | ⟨head, waiting⟩
      · rw [hwaiting] at hmem
        cases hmem
      · rw [hwaiting] at hmem hrest
        cases mem_singleton.mp hmem
        refine ⟨l.taken, ?_, hr⟩
        rw [Ledger.take]
        dsimp only
        rw [← head?_drop, ← hrest]
        rfl

end Ledger
end FifoMatch
