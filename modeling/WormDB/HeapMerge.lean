import Mathlib.Tactic.Common
import Mathlib.Data.List.Perm.Basic

/-! # Merging sorted slices through a binary heap

A `k`-way merge: one cursor into each nonempty slice, kept in a binary heap
ordered by the cursors' current items.  Each turn emits the item at the top and
moves its cursor on, or drops it at the end of its slice.

`mergeSlices_perm`: the output is the slices' items, each as often as it occurs
there, whatever the comparison is. -/
namespace HeapMerge
open List

variable {α : Type}

/-- A position in one of the slices, with the item there. -/
structure Cursor (α : Type) where
  slice : Nat
  pos : Nat
  item : α

/-! ## The heap -/

/-- Exchange the elements at two positions; nothing if one is out of range. -/
def swapAt {β : Type} (heap : List β) (i j : Nat) : List β :=
  match heap[i]?, heap[j]? with
  | some a, some b => (heap.set i b).set j a
  | _, _ => heap

variable (less : α → α → Bool)

/-- The elements at `i` and `j` exist, and the first is less. -/
def lessAt (heap : List (Cursor α)) (i j : Nat) : Bool :=
  match heap[i]?, heap[j]? with
  | some a, some b => less a.item b.item
  | _, _ => false

/-- Move the element at `idx` up while it is less than its parent. -/
def siftUp : Nat → List (Cursor α) → Nat → List (Cursor α)
  | 0, heap, _ => heap
  | fuel + 1, heap, idx =>
      if idx > 0 then
        let parent := (idx - 1) / 2
        if lessAt less heap idx parent then siftUp fuel (swapAt heap idx parent) parent else heap
      else heap

/-- The smaller one of the children at `left` and right after it. -/
def smallestChild (heap : List (Cursor α)) (left : Nat) : Nat :=
  let right := left + 1
  if right < heap.length ∧ lessAt less heap right left then right else left

/-- Move the element at `idx` down while its smaller child is less than it. -/
def siftDown : Nat → List (Cursor α) → Nat → List (Cursor α)
  | 0, heap, _ => heap
  | fuel + 1, heap, idx =>
      let left := 2 * idx + 1
      if left ≥ heap.length then heap
      else
        let smallest := smallestChild less heap left
        if lessAt less heap smallest idx then siftDown fuel (swapAt heap idx smallest) smallest
        else heap

/-! ## The merge -/

/-- Push a cursor for each nonempty slice; `index` is the number of the first. -/
def pushCursors : Nat → List (List α) → List (Cursor α) → List (Cursor α)
  | _, [], heap => heap
  | index, [] :: slices, heap => pushCursors (index + 1) slices heap
  | index, (item :: _) :: slices, heap =>
      let heap' := heap ++ [⟨index, 0, item⟩]
      pushCursors (index + 1) slices (siftUp less heap'.length heap' heap.length)

/-- What is left of the heap when the top cursor is at its end. -/
def popTop (heap : List (Cursor α)) : List (Cursor α) :=
  match heap.getLast? with
  | none => []
  | some last => heap.dropLast.set 0 last

/-- Emit the top item and advance its cursor, until the heap is empty. -/
def mergeLoop (slices : List (List α)) : Nat → List (Cursor α) → List α
  | 0, _ => []
  | _ + 1, [] => []
  | fuel + 1, top :: rest =>
      top.item ::
        match (slices.getD top.slice [])[top.pos + 1]? with
        | some next =>
            mergeLoop slices fuel
              (siftDown less (rest.length + 1) (⟨top.slice, top.pos + 1, next⟩ :: rest) 0)
        | none =>
            mergeLoop slices fuel (siftDown less rest.length (popTop (top :: rest)) 0)

def mergeSlices (slices : List (List α)) : List α :=
  mergeLoop less slices slices.flatten.length (pushCursors less 0 slices [])

/-! ## Nothing is lost or doubled -/

theorem swapAt_perm {β : Type} (heap : List β) (i j : Nat) : (swapAt heap i j).Perm heap := by
  unfold swapAt
  split
  · rename_i a b ha hb
    obtain ⟨hi, rfl⟩ := List.getElem?_eq_some_iff.mp ha
    obtain ⟨hj, rfl⟩ := List.getElem?_eq_some_iff.mp hb
    exact set_set_perm hi hj
  · exact Perm.refl _

theorem siftUp_perm (fuel : Nat) (heap : List (Cursor α)) (idx : Nat) :
    (siftUp less fuel heap idx).Perm heap := by
  induction fuel generalizing heap idx with
  | zero => exact Perm.refl _
  | succ fuel ih =>
    rw [siftUp]
    split
    · simp only []
      split
      · exact (ih _ _).trans (swapAt_perm ..)
      · exact Perm.refl _
    · exact Perm.refl _

theorem siftDown_perm (fuel : Nat) (heap : List (Cursor α)) (idx : Nat) :
    (siftDown less fuel heap idx).Perm heap := by
  induction fuel generalizing heap idx with
  | zero => exact Perm.refl _
  | succ fuel ih =>
    rw [siftDown]
    simp only []
    split
    · exact Perm.refl _
    · split
      · exact (ih _ _).trans (swapAt_perm ..)
      · exact Perm.refl _

theorem popTop_perm (top : Cursor α) (rest : List (Cursor α)) :
    (popTop (top :: rest)).Perm rest := by
  rcases eq_nil_or_concat rest with rfl | ⟨init, last, rfl⟩
  · exact Perm.refl _
  · have hpop : popTop (top :: init.concat last) = last :: init := by
      rw [concat_eq_append, popTop, ← cons_append, getLast?_concat]
      simp only [dropLast_concat]
      rfl
    rw [hpop, concat_eq_append]
    exact (perm_append_singleton last init).symm

/-- What a cursor still has to emit. -/
def remaining (slices : List (List α)) (c : Cursor α) : List α :=
  (slices.getD c.slice []).drop c.pos

/-- The cursor's item is the one at its position. -/
def Valid (slices : List (List α)) (c : Cursor α) : Prop :=
  (slices.getD c.slice [])[c.pos]? = some c.item

theorem remaining_of_valid {slices : List (List α)} {c : Cursor α} (h : Valid slices c) :
    remaining slices c = c.item :: (slices.getD c.slice []).drop (c.pos + 1) := by
  obtain ⟨hlt, hget⟩ := List.getElem?_eq_some_iff.mp h
  rw [remaining, drop_eq_getElem_cons hlt, hget]

theorem mergeLoop_perm (slices : List (List α)) (fuel : Nat) (heap : List (Cursor α))
    (hvalid : ∀ c ∈ heap, Valid slices c)
    (hfuel : (heap.flatMap (remaining slices)).length ≤ fuel) :
    (mergeLoop less slices fuel heap).Perm (heap.flatMap (remaining slices)) := by
  induction fuel generalizing heap with
  | zero =>
    rw [eq_nil_of_length_eq_zero (Nat.le_zero.mp hfuel)]
    exact Perm.refl _
  | succ fuel ih =>
    cases heap with
    | nil => exact Perm.refl _
    | cons top rest =>
      have hrem := remaining_of_valid (hvalid top mem_cons_self)
      rw [flatMap_cons, hrem, cons_append] at hfuel ⊢
      rw [length_cons] at hfuel
      rw [mergeLoop]
      refine Perm.cons _ ?_
      cases hnext : (slices.getD top.slice [])[top.pos + 1]? with
      | some next =>
        have hmoved : Valid slices ⟨top.slice, top.pos + 1, next⟩ := hnext
        have hperm := siftDown_perm less (rest.length + 1) (⟨top.slice, top.pos + 1, next⟩ :: rest) 0
        have hflat := hperm.flatMap_right (remaining slices)
        have hdrop : remaining slices ⟨top.slice, top.pos + 1, next⟩ =
          (slices.getD top.slice []).drop (top.pos + 1) := rfl
        rw [flatMap_cons, hdrop] at hflat
        refine (ih _ ?_ ?_).trans hflat
        · intro c hc
          rcases mem_cons.mp (hperm.mem_iff.mp hc) with rfl | hc
          · exact hmoved
          · exact hvalid c (mem_cons_of_mem _ hc)
        · rw [hflat.length_eq]
          omega
      | none =>
        have hend : (slices.getD top.slice []).drop (top.pos + 1) = [] :=
          drop_eq_nil_of_le (List.getElem?_eq_none_iff.mp hnext)
        have hperm := (siftDown_perm less rest.length (popTop (top :: rest)) 0).trans
          (popTop_perm top rest)
        have hflat := hperm.flatMap_right (remaining slices)
        rw [hend, nil_append] at hfuel ⊢
        refine (ih _ ?_ ?_).trans hflat
        · intro c hc
          exact hvalid c (mem_cons_of_mem _ (hperm.mem_iff.mp hc))
        · rw [hflat.length_eq]
          omega

/-- The cursors pushed for the slices from `index` on are valid and stand before
everything in them. -/
theorem pushCursors_spec (slices before : List (List α)) (heap : List (Cursor α)) :
    (pushCursors less before.length slices heap).flatMap (remaining (before ++ slices)) |>.Perm
      (heap.flatMap (remaining (before ++ slices)) ++ slices.flatten) := by
  induction slices generalizing before heap with
  | nil => simp [pushCursors]
  | cons slice slices ih =>
    have hassoc : before ++ slice :: slices = (before ++ [slice]) ++ slices := by simp
    have hlen : before.length + 1 = (before ++ [slice]).length := by simp
    cases slice with
    | nil =>
      rw [pushCursors, hassoc, hlen, flatten_cons, nil_append]
      exact ih (before ++ [[]]) heap
    | cons item items =>
      rw [pushCursors, hlen, hassoc]
      refine (ih (before ++ [item :: items]) _).trans ?_
      have hnew : remaining (before ++ [item :: items] ++ slices) ⟨before.length, 0, item⟩ =
          item :: items := by
        simp [remaining]
      generalize (⟨before.length, 0, item⟩ : Cursor α) = new at hnew ⊢
      have hperm := siftUp_perm less (heap ++ [new]).length (heap ++ [new]) heap.length
      have hflat := hperm.flatMap_right (remaining (before ++ [item :: items] ++ slices))
      rw [flatMap_append, flatMap_singleton, hnew] at hflat
      rw [flatten_cons, ← append_assoc]
      exact hflat.append_right _

theorem pushCursors_valid (slices before : List (List α)) (heap : List (Cursor α))
    (h : ∀ c ∈ heap, Valid (before ++ slices) c) :
    ∀ c ∈ pushCursors less before.length slices heap, Valid (before ++ slices) c := by
  induction slices generalizing before heap with
  | nil => simpa [pushCursors] using h
  | cons slice slices ih =>
    have hassoc : before ++ slice :: slices = (before ++ [slice]) ++ slices := by simp
    have hlen : before.length + 1 = (before ++ [slice]).length := by simp
    rw [hassoc] at h ⊢
    cases slice with
    | nil =>
      rw [pushCursors, hlen]
      exact ih _ heap h
    | cons item items =>
      rw [pushCursors, hlen]
      refine ih _ _ (fun c hc => ?_)
      rcases mem_append.mp ((siftUp_perm less _ _ _).mem_iff.mp hc) with hc | hc
      · exact h c hc
      · rw [mem_singleton.mp hc]
        simp [Valid]

/-- **The merge emits exactly what the slices hold.** -/
theorem mergeSlices_perm (slices : List (List α)) :
    (mergeSlices less slices).Perm slices.flatten := by
  have hpush := pushCursors_spec less slices [] []
  have hvalid := pushCursors_valid less slices [] [] (by simp)
  rw [nil_append, flatMap_nil, nil_append] at hpush
  exact (mergeLoop_perm less slices _ _ hvalid (Nat.le_of_eq hpush.length_eq)).trans hpush

end HeapMerge
