import WormDB.KBest
import Mathlib.Order.Lattice
import Mathlib.Order.Nat

/-! # The bounded top-K heap

`TopK` of `vector/topk.zig`: a min-heap in a buffer of the caller, into which candidates are
pushed one by one.  `items` is the populated part of the buffer.  Scores are elements of a
total order whose least one is minus infinity.

`push` returns at once where the buffer has no room at all, `thresholdScore` reads its first
place: there is none (`none`).  With room for one candidate the sorted heap has the best, and
checking the threshold first changes nothing; `best_kept_iff` says that this is all there is
to it. -/
namespace WormDB
open List
open HeapMerge (swapAt)
open BinaryHeap (beforeAt)

structure TopK (α : Type) where
  capacity : Nat
  items : List α

namespace TopK
variable {α S : Type} [LinearOrder S]

section
variable (scoreOf : α → S)

def lower (a b : α) : Bool := decide (scoreOf a < scoreOf b)

def siftUp (heap : List α) (start : Nat) : List α :=
  BinaryHeap.siftUp (lower scoreOf) start heap start

/-- The smallest of the element at `i` and its children. -/
def smallest (heap : List α) (i : Nat) : Nat :=
  let l := 2 * i + 1
  let r := 2 * i + 2
  let smallest := if l < heap.length ∧ beforeAt (lower scoreOf) heap l i = true then l else i
  if r < heap.length ∧ beforeAt (lower scoreOf) heap r smallest = true then r else smallest

/-- The loop goes down one level in each turn; the length is fuel enough. -/
def siftDown : Nat → List α → Nat → List α
  | 0, heap, _ => heap
  | fuel + 1, heap, i =>
      if smallest scoreOf heap i = i then heap
      else siftDown fuel (swapAt heap i (smallest scoreOf heap i)) (smallest scoreOf heap i)

/-- `init` over a buffer of this length. -/
def init (capacity : Nat) : TopK α := ⟨capacity, []⟩

/-- The score that a new candidate must exceed. -/
def thresholdScore [OrderBot S] (heap : TopK α) : Option S :=
  if heap.items.length < heap.capacity then some ⊥ else heap.items.head?.map scoreOf

def push (heap : TopK α) (item : α) : TopK α :=
  if heap.capacity = 0 then heap
  else if heap.items.length < heap.capacity then
    { heap with items := siftUp scoreOf (heap.items ++ [item]) heap.items.length }
  else
    match heap.items with
    | [] => heap
    | root :: rest =>
        if scoreOf item ≤ scoreOf root then heap
        else { heap with items := siftDown scoreOf heap.capacity (item :: rest) 0 }

/-- The callers' shortcut: what does not exceed the threshold is not pushed. -/
def pushAbove [OrderBot S] (heap : TopK α) (item : α) : Option (TopK α) := do
  let threshold ← heap.thresholdScore scoreOf
  if scoreOf item ≤ threshold then return heap
  return heap.push scoreOf item

/-- `std.sort.heap` sorts by the score, and may put equal ones in any order. -/
def sortedDesc (sort : UnstableSort fun a b : α => decide (scoreOf b < scoreOf a)) (heap : TopK α) :
    List α := sort.run heap.items

end

/-! ## The heap -/

section
variable {scoreOf : α → S} {heap : TopK α} {all : List α}

theorem lower_weakOrder : BinaryHeap.WeakOrder (lower scoreOf) where
  asymm h := decide_eq_false (not_lt_of_gt (of_decide_eq_true h))
  trans h h' := decide_eq_false (not_lt_of_ge
    (le_trans (not_lt.mp (of_decide_eq_false h')) (not_lt.mp (of_decide_eq_false h))))

variable {items : List α} {i : Nat}

theorem smallest_leaf (h : items.length ≤ 2 * i + 1) : smallest scoreOf items i = i := by
  rw [smallest, if_neg (by omega), if_neg (by omega)]

theorem beforeAt_getElem {items : List α} {i j : Nat} (hi : i < items.length)
    (hj : j < items.length) :
    beforeAt (lower scoreOf) items i j = true ↔ scoreOf items[i] < scoreOf items[j] := by
  rw [beforeAt, getElem?_eq_getElem hi, getElem?_eq_getElem hj]
  exact decide_eq_true_iff

/-- With children, the smallest is the first child where that is smaller. -/
theorem smallest_inner (h : 2 * i + 1 < items.length) : smallest scoreOf items i =
      if beforeAt (lower scoreOf) items
          (BinaryHeap.firstChild (lower scoreOf) items (2 * i + 1)) i = true then
        BinaryHeap.firstChild (lower scoreOf) items (2 * i + 1) else i := by
  have hi : i < items.length := by omega
  have hsucc : 2 * i + 1 + 1 = 2 * i + 2 := rfl
  simp only [smallest, BinaryHeap.firstChild, hsucc, h, true_and]
  by_cases hr : 2 * i + 2 < items.length
  swap
  · simp only [hr, false_and, if_false]
  have hli := @beforeAt_getElem _ _ _ scoreOf _ _ _ h hi
  have hri := @beforeAt_getElem _ _ _ scoreOf _ _ _ hr hi
  have hrl := @beforeAt_getElem _ _ _ scoreOf _ _ _ hr h
  simp only [hr, true_and]
  by_cases hlow : beforeAt (lower scoreOf) items (2 * i + 1) i = true
  · rw [if_pos hlow]
    by_cases hright : beforeAt (lower scoreOf) items (2 * i + 2) (2 * i + 1) = true
    · rw [if_pos hright, if_pos (hri.mpr (lt_trans (hrl.mp hright) (hli.mp hlow)))]
    · rw [if_neg hright, if_pos hlow]
  · rw [if_neg hlow]
    by_cases hright : beforeAt (lower scoreOf) items (2 * i + 2) (2 * i + 1) = true
    · rw [if_pos hright]
    · -- neither child is smaller, the right one because it is not smaller than the left one
      have hno : ¬beforeAt (lower scoreOf) items (2 * i + 2) i = true := fun hc =>
        hright (hrl.mpr (lt_of_lt_of_le (hri.mp hc) (not_lt.mp (mt hli.mpr hlow))))
      rw [if_neg hno, if_neg hright, if_neg hlow]

theorem siftDown_eq (fuel : Nat) (items : List α) (i : Nat) :
    siftDown scoreOf fuel items i = BinaryHeap.siftDown (lower scoreOf) fuel items i := by
  induction fuel generalizing items i with
  | zero => rfl
  | succ fuel ih =>
    rw [siftDown, BinaryHeap.siftDown]
    by_cases hleaf : 2 * i + 1 ≥ items.length
    · rw [smallest_leaf hleaf, if_pos rfl, if_pos hleaf]
    · rw [if_neg hleaf, smallest_inner (by omega)]
      by_cases hlow : beforeAt (lower scoreOf) items
          (BinaryHeap.firstChild (lower scoreOf) items (2 * i + 1)) i = true
      · have hleft : 2 * i + 1 < items.length := by omega
        have hweak : BinaryHeap.WeakOrder (lower scoreOf) := lower_weakOrder
        obtain ⟨-, -, hlt, -⟩ := BinaryHeap.firstChild_spec hweak hleft
        simp only [if_pos hlow]
        rw [if_neg (ne_of_gt hlt), ih]
      · simp only [if_neg hlow, if_true]

/-- **A push is an offer** of a bounded heap. -/
theorem push_items (hroom : 0 < heap.capacity) (hlen : heap.items.length ≤ heap.capacity) (item : α) :
    (heap.push scoreOf item).items =
      (BoundedHeap.offer (lower scoreOf) heap.capacity heap.items item).1 := by
  rw [push, if_neg (ne_of_gt hroom), BoundedHeap.offer.eq_def]
  by_cases hfull : heap.items.length = heap.capacity
  · rw [if_neg (by omega), if_pos ⟨hroom, hfull⟩]
    cases hitems : heap.items with
    | nil => simp only [hitems]
    | cons root rest =>
      have hlower : lower scoreOf root item = true ↔ ¬scoreOf item ≤ scoreOf root := by
        rw [lower, decide_eq_true_iff, not_le]
      simp only [hlower, siftDown_eq]
      by_cases hle : scoreOf item ≤ scoreOf root
      · rw [if_pos hle, if_neg (not_not.mpr hle), hitems]
      · rw [if_neg hle, if_pos hle]
  · rw [if_pos (by omega), if_neg (fun hand => hfull hand.2), if_pos hroom]
    rfl

theorem push_capacity (heap : TopK α) (item : α) :
    (heap.push scoreOf item).capacity = heap.capacity := by
  rw [push]
  split
  · rfl
  split
  · rfl
  split
  · rfl
  split <;> rfl

/-- The heap has the best of what was pushed. -/
structure Keeps (scoreOf : α → S) (k : Nat) (heap : TopK α) (all : List α) : Prop where
  capacity : heap.capacity = k
  best : BoundedHeap.Best (lower scoreOf) k heap.items all

theorem Keeps.init (k : Nat) : Keeps scoreOf k (TopK.init k) [] := ⟨rfl, BoundedHeap.Best.empty⟩

variable {k : Nat}

theorem Keeps.push (h : Keeps scoreOf k heap all) (hk : 0 < k) (item : α) :
    Keeps scoreOf k (heap.push scoreOf item) (item :: all) := by
  obtain ⟨rfl, hbest⟩ := h
  refine ⟨push_capacity heap item, ?_⟩
  rw [push_items hk (hbest.length hk)]
  exact (hbest.offer lower_weakOrder item).1

/-- **Whatever is pushed**, the heap has the best of it. -/
theorem Keeps.run (h : Keeps scoreOf k heap all) (hk : 0 < k) (items : List α) :
    Keeps scoreOf k (items.foldl (TopK.push scoreOf) heap) (items.reverse ++ all) := by
  induction items generalizing heap all with
  | nil => exact h
  | cons item items ih =>
    rw [foldl_cons, reverse_cons, append_assoc]
    exact ih (h.push hk item)

variable [OrderBot S]

/-- A candidate that does not exceed the threshold is refused by `push` too. -/
theorem Keeps.pushAbove (h : Keeps scoreOf k heap all) (hk : 0 < k) {item : α}
    (hscore : ⊥ < scoreOf item) : heap.pushAbove scoreOf item = some (heap.push scoreOf item) := by
  obtain ⟨rfl, hbest⟩ := h
  have hlen := hbest.length hk
  rw [TopK.pushAbove, thresholdScore]
  by_cases hroom : heap.items.length < heap.capacity
  · rw [if_pos hroom, Option.bind_eq_bind, Option.bind_some, if_neg (not_le_of_gt hscore)]
    rfl
  · rw [if_neg hroom, TopK.push, if_neg (ne_of_gt hk), if_neg hroom]
    cases hitems : heap.items with
    | nil =>
      rw [hitems, length_nil] at hroom
      exact absurd hk hroom
    | cons root rest =>
      rw [head?_cons, Option.map_some, Option.bind_eq_bind, Option.bind_some]
      simp only
      by_cases hle : scoreOf item ≤ scoreOf root
      · rw [if_pos hle, if_pos hle]
        rfl
      · rw [if_neg hle, if_neg hle]
        rfl

theorem Keeps.runAbove (h : Keeps scoreOf k heap all) (hk : 0 < k)
    (hscores : ∀ x ∈ items, ⊥ < scoreOf x) :
    items.foldlM (TopK.pushAbove scoreOf) heap = some (items.foldl (TopK.push scoreOf) heap) := by
  induction items generalizing heap all with
  | nil => rfl
  | cons item items ih =>
    obtain ⟨hscore, hscores⟩ := forall_mem_cons.mp hscores
    rw [foldlM_cons, h.pushAbove hk hscore, Option.bind_eq_bind, Option.bind_some,
      foldl_cons]
    exact ih (h.push hk item) hscores

end

/-! ## What comes out -/

section
variable [OrderBot S] (scoreOf : α → S)
  (sort : UnstableSort fun a b : α => decide (scoreOf b < scoreOf a))

/-- The sorted heap has the best of the candidates, and as good ones when the threshold is
checked before each push. -/
def BestKept (k : Nat) (items : List α) : Prop :=
  let heap := items.foldl (push scoreOf) (init k)
  KBest scoreOf k items (sortedDesc scoreOf sort heap) ∧
    ∃ above, items.foldlM (pushAbove scoreOf) (init k) = some above ∧
      ((sortedDesc scoreOf sort above).map scoreOf).Perm
        ((sortedDesc scoreOf sort heap).map scoreOf)

/-- **The best are kept** where there is room for one, or nothing comes. -/
theorem best_kept_iff {k : Nat} {items : List α} (hscores : ∀ x ∈ items, ⊥ < scoreOf x) :
    BestKept scoreOf sort k items ↔ 0 < k ∨ items = [] := by
  constructor
  · rintro ⟨-, above, hrun, -⟩
    refine or_iff_not_imp_left.mpr fun hk => ?_
    obtain rfl : k = 0 := Nat.eq_zero_of_not_pos hk
    cases items with
    | nil => rfl
    | cons item items => cases hrun
  · rintro (hk | rfl)
    · have hinit : Keeps scoreOf k (TopK.init k) [] := Keeps.init k
      have hkeeps := hinit.run hk items
      rw [append_nil] at hkeeps
      refine ⟨?_, _, (Keeps.init k).runAbove hk hscores, Perm.refl _⟩
      exact (kBest_of_best hk hkeeps.best sort).perm (reverse_perm items)
    · refine ⟨?_, _, rfl, Perm.refl _⟩
      have hnil : sortedDesc scoreOf sort (init k) = [] := (sort.perm []).eq_nil
      simp only [foldl_nil, hnil]
      exact KBest.nil

end

/-- Scores that are natural numbers, sorted by insertion. -/
def sortNat : UnstableSort fun a b : Nat => decide (id b < id a) where
  run xs := xs.insertionSort fun a b => b ≤ a
  perm xs := perm_insertionSort _ xs
  sorted xs := (pairwise_insertionSort (fun a b : Nat => b ≤ a) xs).imp fun h =>
    decide_eq_false (Nat.not_lt.mpr h)

/-- Two places and ties. -/
theorem best_kept_two : sortedDesc id sortNat ([2, 3, 1, 3].foldl (push id) (init 2)) = [3, 3] ∧
    BestKept id sortNat 2 [2, 3, 1, 3] :=
  ⟨by decide, (best_kept_iff id sortNat (by decide)).mpr (.inl (by decide))⟩

/-- No room, and the threshold is read outside of the buffer. -/
theorem threshold_outside : thresholdScore (id : Nat → Nat) (init 0) = none ∧
    sortedDesc id sortNat ((init 0).push id 1) = [] ∧ ¬BestKept id sortNat 0 [1] := by
  refine ⟨rfl, by decide, ?_⟩
  rintro ⟨-, above, hrun, -⟩
  cases hrun

end TopK
end WormDB
