import WormDB.BinaryHeap

/-! # The merge is in order

The cursors of a `k`-way merge form a heap, so the item that is emitted is one that
no item still to come is before (`mergeSlices_sorted`). -/
namespace HeapMerge
open List BinaryHeap

variable {α : Type} {less : α → α → Bool}

/-- Cursors are compared by their items. -/
def onItem (less : α → α → Bool) (a b : Cursor α) : Bool := less a.item b.item

theorem weakOrder_onItem (W : WeakOrder less) : WeakOrder (onItem less) where
  asymm := W.asymm
  trans := W.trans

theorem lessAt_eq (less : α → α → Bool) (heap : List (Cursor α)) (i j : Nat) :
    lessAt less heap i j = beforeAt (onItem less) heap i j := by
  rw [lessAt, beforeAt]
  cases heap[i]? <;> cases heap[j]? <;> rfl

theorem smallestChild_eq (less : α → α → Bool) (heap : List (Cursor α)) (left : Nat) :
    smallestChild less heap left = firstChild (onItem less) heap left := by
  simp only [smallestChild, firstChild, lessAt_eq]

theorem siftUp_eq (less : α → α → Bool) (fuel : Nat) (heap : List (Cursor α)) (idx : Nat) :
    siftUp less fuel heap idx = BinaryHeap.siftUp (onItem less) fuel heap idx := by
  induction fuel generalizing heap idx with
  | zero => rfl
  | succ fuel ih =>
    simp only [siftUp, BinaryHeap.siftUp, ih, lessAt_eq]

theorem siftDown_eq (less : α → α → Bool) (fuel : Nat) (heap : List (Cursor α)) (idx : Nat) :
    siftDown less fuel heap idx = BinaryHeap.siftDown (onItem less) fuel heap idx := by
  induction fuel generalizing heap idx with
  | zero => rfl
  | succ fuel ih =>
    simp only [siftDown, BinaryHeap.siftDown, ih, lessAt_eq, smallestChild_eq]

/-- No item is before an earlier one. -/
def Sorted (less : α → α → Bool) (items : List α) : Prop :=
  items.Pairwise (fun a b => less b a = false)

variable {slices : List (List α)}

/-- What a cursor has still to emit is not before its item. -/
theorem remaining_not_before (W : WeakOrder less) {c : Cursor α}
    (hsorted : ∀ slice ∈ slices, Sorted less slice) (hvalid : Valid slices c) :
    ∀ a ∈ remaining slices c, less a c.item = false := by
  intro a ha
  have hself : less c.item c.item = false := by
    by_contra hne
    have htrue : less c.item c.item = true := by simpa using hne
    exact hne (W.asymm htrue)
  have hslice : Sorted less (slices.getD c.slice []) := by
    rw [getD_eq_getElem?_getD]
    cases hget : slices[c.slice]? with
    | none => exact Pairwise.nil
    | some slice => exact hsorted slice (mem_of_getElem? hget)
  have htail : Sorted less (remaining slices c) := Pairwise.sublist (drop_sublist ..) hslice
  rw [remaining_of_valid hvalid] at ha htail
  rcases mem_cons.mp ha with rfl | ha
  · exact hself
  · exact (pairwise_cons.mp htail).1 a ha

variable {top : Cursor α} {rest : List (Cursor α)}

/-- The heap with a moved cursor at its root. -/
theorem ordered_advance (W : WeakOrder less) {next : Cursor α}
    (h : Ordered (onItem less) (top :: rest)) :
    Ordered (onItem less) (siftDown less (rest.length + 1) (next :: rest) 0) := by
  rw [siftDown_eq]
  refine siftDown_ordered (weakOrder_onItem W) (by simp) (h.downOrder_root ?_)
  intro i c hi hget
  obtain ⟨j, rfl⟩ : ∃ j, i = j + 1 := ⟨i - 1, by omega⟩
  exact hget

/-- The heap without the cursor at its root. -/
theorem ordered_drop (W : WeakOrder less) (h : Ordered (onItem less) (top :: rest)) :
    Ordered (onItem less) (siftDown less rest.length (popTop (top :: rest)) 0) := by
  have hlen : (popTop (top :: rest)).length = rest.length := (popTop_perm top rest).length_eq
  rw [siftDown_eq]
  refine siftDown_ordered (weakOrder_onItem W) (by omega) (h.downOrder_root ?_)
  intro i c hi hget
  rw [popTop] at hget
  split at hget
  · cases hget
  · rw [getElem?_set_ne (by omega)] at hget
    obtain ⟨hlt, hget⟩ := List.getElem?_eq_some_iff.mp hget
    rw [getElem_dropLast] at hget
    exact List.getElem?_eq_some_iff.mpr ⟨_, hget⟩

theorem mergeLoop_sorted (W : WeakOrder less)
    (hsorted : ∀ slice ∈ slices, Sorted less slice) (fuel : Nat) (heap : List (Cursor α))
    (hvalid : ∀ c ∈ heap, Valid slices c) (hfuel : (heap.flatMap (remaining slices)).length ≤ fuel)
    (hheap : Ordered (onItem less) heap) : Sorted less (mergeLoop less slices fuel heap) := by
  induction fuel generalizing heap with
  | zero => exact Pairwise.nil
  | succ fuel ih =>
    cases heap with
    | nil => exact Pairwise.nil
    | cons top rest =>
      have htop := hvalid top mem_cons_self
      have hperm := mergeLoop_perm less slices (fuel + 1) (top :: rest) hvalid hfuel
      have hrem := remaining_of_valid htop
      -- whatever is still to come stands behind some cursor, and no cursor is before the root
      have hfirst : ∀ a ∈ (top :: rest).flatMap (remaining slices), less a top.item = false := by
        intro a ha
        obtain ⟨c, hc, hac⟩ := mem_flatMap.mp ha
        exact W.trans (remaining_not_before W hsorted (hvalid c hc) a hac)
          (hheap.root (weakOrder_onItem W) c hc)
      rw [flatMap_cons, hrem, cons_append] at hfuel
      rw [length_cons] at hfuel
      rw [mergeLoop] at hperm ⊢
      refine pairwise_cons.mpr ⟨?_, ?_⟩
      · intro a ha
        exact hfirst a (hperm.mem_iff.mp (mem_cons_of_mem _ ha))
      · cases hnext : (slices.getD top.slice [])[top.pos + 1]? with
        | some next =>
          have hsift := siftDown_perm less (rest.length + 1) (⟨top.slice, top.pos + 1, next⟩ :: rest) 0
          refine ih _ ?_ ?_ (ordered_advance W hheap)
          · intro c hc
            rcases mem_cons.mp (hsift.mem_iff.mp hc) with rfl | hc
            · exact hnext
            · exact hvalid c (mem_cons_of_mem _ hc)
          · rw [(hsift.flatMap_right (remaining slices)).length_eq, flatMap_cons]
            exact Nat.le_of_succ_le_succ hfuel
        | none =>
          have hsift := (siftDown_perm less rest.length (popTop (top :: rest)) 0).trans
            (popTop_perm top rest)
          refine ih _ ?_ ?_ (ordered_drop W hheap)
          · intro c hc
            exact hvalid c (mem_cons_of_mem _ (hsift.mem_iff.mp hc))
          · rw [(hsift.flatMap_right (remaining slices)).length_eq]
            rw [length_append] at hfuel
            omega

theorem pushCursors_ordered (W : WeakOrder less) (index : Nat) (slices : List (List α))
    (heap : List (Cursor α)) (h : Ordered (onItem less) heap) :
    Ordered (onItem less) (pushCursors less index slices heap) := by
  induction slices generalizing index heap with
  | nil => exact h
  | cons slice slices ih =>
    cases slice with
    | nil => exact ih (index + 1) heap h
    | cons item items =>
      rw [pushCursors]
      refine ih _ _ ?_
      rw [siftUp_eq]
      exact siftUp_ordered (weakOrder_onItem W) (by simp) (h.upOrder_concat _)

/-- **The merge of sorted slices is sorted.** -/
theorem mergeSlices_sorted (W : WeakOrder less)
    (hsorted : ∀ slice ∈ slices, Sorted less slice) : Sorted less (mergeSlices less slices) := by
  have hpush := pushCursors_spec less slices [] []
  have hvalid := pushCursors_valid less slices [] [] (by simp)
  rw [nil_append, flatMap_nil, nil_append] at hpush
  refine mergeLoop_sorted W hsorted _ _ hvalid (Nat.le_of_eq hpush.length_eq) ?_
  refine pushCursors_ordered W 0 slices [] ?_
  intro i hi
  exact beforeAt_false_of_le (Nat.zero_le _)

end HeapMerge
