import WormDB.HeapMerge
import Mathlib.Logic.Equiv.Basic

/-! # Binary heaps in a list

A heap ordered by `before`: no element is before its parent.  `siftUp` and
`siftDown` restore the order after a change at one position, from a start in which
only the pairs at that position may be wrong (`UpOrder`, `DownOrder`); the element at
the root is one that no other is before (`Ordered.root`). -/
namespace BinaryHeap
open HeapMerge (swapAt)

variable {α : Type} (before : α → α → Bool)

/-- The elements at `i` and `j` exist, and the first is before the second. -/
def beforeAt (heap : List α) (i j : Nat) : Bool :=
  match heap[i]?, heap[j]? with
  | some a, some b => before a b
  | _, _ => false

def siftUp : Nat → List α → Nat → List α
  | 0, heap, _ => heap
  | fuel + 1, heap, idx =>
      if idx > 0 then
        let parent := (idx - 1) / 2
        if beforeAt before heap idx parent then siftUp fuel (swapAt heap idx parent) parent
        else heap
      else heap

/-- The one of the children at `left` and right after it that comes first. -/
def firstChild (heap : List α) (left : Nat) : Nat :=
  let right := left + 1
  if right < heap.length ∧ beforeAt before heap right left then right else left

def siftDown : Nat → List α → Nat → List α
  | 0, heap, _ => heap
  | fuel + 1, heap, idx =>
      let left := 2 * idx + 1
      if left ≥ heap.length then heap
      else
        let child := firstChild before heap left
        if beforeAt before heap child idx then siftDown fuel (swapAt heap idx child) child
        else heap

/-! ## Elements stay -/

theorem siftUp_perm (fuel : Nat) (heap : List α) (idx : Nat) :
    (siftUp before fuel heap idx).Perm heap := by
  induction fuel generalizing heap idx with
  | zero => exact List.Perm.refl _
  | succ fuel ih =>
    rw [siftUp]
    split
    · simp only
      split
      · exact (ih _ _).trans (HeapMerge.swapAt_perm ..)
      · exact List.Perm.refl _
    · exact List.Perm.refl _

theorem siftDown_perm (fuel : Nat) (heap : List α) (idx : Nat) :
    (siftDown before fuel heap idx).Perm heap := by
  induction fuel generalizing heap idx with
  | zero => exact List.Perm.refl _
  | succ fuel ih =>
    rw [siftDown]
    simp only
    split
    · exact List.Perm.refl _
    · split
      · exact (ih _ _).trans (HeapMerge.swapAt_perm ..)
      · exact List.Perm.refl _

/-! ## The order -/

/-- A strict weak order. -/
structure WeakOrder : Prop where
  asymm : ∀ {a b}, before a b = true → before b a = false
  trans : ∀ {a b c}, before a b = false → before b c = false → before a c = false

/-- No element is before its parent. -/
def Ordered (heap : List α) : Prop :=
  ∀ i, 0 < i → beforeAt before heap i ((i - 1) / 2) = false

/-- Only the element at `idx` may be before its parent; its children are not before
that parent. -/
structure UpOrder (heap : List α) (idx : Nat) : Prop where
  off : ∀ i, 0 < i → i ≠ idx → beforeAt before heap i ((i - 1) / 2) = false
  grand : ∀ c, 0 < c → (c - 1) / 2 = idx → 0 < idx →
    beforeAt before heap c ((idx - 1) / 2) = false

/-- Only the children of `idx` may be before it; they are not before its parent. -/
structure DownOrder (heap : List α) (idx : Nat) : Prop where
  off : ∀ i, 0 < i → (i - 1) / 2 ≠ idx → beforeAt before heap i ((i - 1) / 2) = false
  grand : ∀ c, 0 < c → (c - 1) / 2 = idx → 0 < idx →
    beforeAt before heap c ((idx - 1) / 2) = false

variable {before} {heap : List α}

variable {i j : Nat}

theorem beforeAt_lt (h : beforeAt before heap i j = true) : i < heap.length ∧ j < heap.length := by
  rw [beforeAt] at h
  split at h
  · rename_i a b ha hb
    exact ⟨(List.getElem?_eq_some_iff.mp ha).1, (List.getElem?_eq_some_iff.mp hb).1⟩
  · cases h

theorem beforeAt_false_of_le (h : heap.length ≤ i) : beforeAt before heap i j = false := by
  rw [beforeAt, List.getElem?_eq_none h]

theorem beforeAt_asymm (W : WeakOrder before)
    (h : beforeAt before heap i j = true) : beforeAt before heap j i = false := by
  rw [beforeAt] at h ⊢
  split at h
  · rename_i a b ha hb
    rw [ha, hb]
    exact W.asymm h
  · cases h

theorem beforeAt_trans (W : WeakOrder before) {k : Nat} (hj : j < heap.length)
    (hij : beforeAt before heap i j = false) (hjk : beforeAt before heap j k = false) :
    beforeAt before heap i k = false := by
  rw [beforeAt] at hij hjk ⊢
  rw [List.getElem?_eq_getElem hj] at hij hjk
  split
  · rename_i a c ha hc
    rw [ha] at hij
    rw [hc] at hjk
    exact W.trans hij hjk
  · rfl

/-- After an exchange the elements are found at the exchanged positions. -/
theorem getElem?_swapAt (hi : i < heap.length) (hj : j < heap.length) (k : Nat) :
    (swapAt heap i j)[k]? = heap[Equiv.swap i j k]? := by
  rw [swapAt, List.getElem?_eq_getElem hi, List.getElem?_eq_getElem hj]
  simp only
  by_cases hkj : k = j
  · subst hkj
    rw [Equiv.swap_apply_right, List.getElem?_set_self (by rw [List.length_set]; exact hj),
      List.getElem?_eq_getElem hi]
  rw [List.getElem?_set_ne (Ne.symm hkj)]
  by_cases hki : k = i
  · subst hki
    rw [Equiv.swap_apply_left, List.getElem?_set_self hi, List.getElem?_eq_getElem hj]
  · rw [List.getElem?_set_ne (Ne.symm hki), Equiv.swap_apply_of_ne_of_ne hki hkj]

theorem beforeAt_swapAt (hi : i < heap.length) (hj : j < heap.length) (a b : Nat) :
    beforeAt before (swapAt heap i j) a b =
      beforeAt before heap (Equiv.swap i j a) (Equiv.swap i j b) := by
  rw [beforeAt, getElem?_swapAt hi hj, getElem?_swapAt hi hj, beforeAt]

/-! ## Up -/

variable {idx : Nat}

/-- One step up. -/
theorem UpOrder.move (W : WeakOrder before) (h : UpOrder before heap idx)
    (hpos : 0 < idx) (hup : beforeAt before heap idx ((idx - 1) / 2) = true) :
    UpOrder before (swapAt heap idx ((idx - 1) / 2)) ((idx - 1) / 2) := by
  obtain ⟨hidx, hparent⟩ := beforeAt_lt hup
  have hback := beforeAt_asymm W hup
  generalize hp : (idx - 1) / 2 = p at *
  have hlt : p < idx := by omega
  refine ⟨?_, ?_⟩
  · intro i hi hne
    rw [beforeAt_swapAt hidx hparent]
    by_cases hi' : i = idx
    · rw [hi', hp, Equiv.swap_apply_left, Equiv.swap_apply_right]
      exact hback
    rw [Equiv.swap_apply_of_ne_of_ne hi' hne]
    by_cases hchild : (i - 1) / 2 = idx
    · rw [hchild, Equiv.swap_apply_left]
      rw [← hp]
      exact h.grand i hi hchild hpos
    by_cases hsibling : (i - 1) / 2 = p
    · -- a sibling is not before the parent, which is not before the new one
      have hsib := h.off i hi hi'
      rw [hsibling] at hsib ⊢
      rw [Equiv.swap_apply_right]
      exact beforeAt_trans W hparent hsib hback
    · rw [Equiv.swap_apply_of_ne_of_ne hchild hsibling]
      exact h.off i hi hi'
  · intro c hc hchild hp0
    rw [beforeAt_swapAt hidx hparent,
      Equiv.swap_apply_of_ne_of_ne (show (p - 1) / 2 ≠ idx by omega)
        (show (p - 1) / 2 ≠ p by omega)]
    have hgrand := h.off p hp0 (by omega)
    by_cases hc' : c = idx
    · rw [hc', Equiv.swap_apply_left]
      exact hgrand
    · rw [Equiv.swap_apply_of_ne_of_ne hc' (by omega)]
      have hchild' := h.off c hc hc'
      rw [hchild] at hchild'
      exact beforeAt_trans W hparent hchild' hgrand

/-- Nothing is wrong at `idx` either. -/
theorem UpOrder.finish {idx : Nat} (h : UpOrder before heap idx)
    (hstop : 0 < idx → beforeAt before heap idx ((idx - 1) / 2) = false) :
    Ordered before heap := by
  intro i hi
  by_cases hne : i = idx
  · rw [hne]
    exact hstop (hne ▸ hi)
  · exact h.off i hi hne

variable {fuel : Nat}

theorem siftUp_ordered (W : WeakOrder before) (hfuel : idx ≤ fuel)
    (h : UpOrder before heap idx) : Ordered before (siftUp before fuel heap idx) := by
  induction fuel generalizing heap idx with
  | zero =>
    refine h.finish ?_
    omega
  | succ fuel ih =>
    rw [siftUp]
    by_cases hpos : idx > 0
    · rw [if_pos hpos]
      simp only
      by_cases hup : beforeAt before heap idx ((idx - 1) / 2) = true
      · rw [if_pos hup]
        exact ih (by omega) (h.move W hpos hup)
      · rw [if_neg hup]
        exact h.finish (fun _ => Bool.eq_false_iff.mpr hup)
    · rw [if_neg hpos]
      exact h.finish (fun hpos' => absurd hpos' hpos)

/-- A new element at the end of an ordered heap. -/
theorem Ordered.upOrder_concat (h : Ordered before heap) (a : α) :
    UpOrder before (heap ++ [a]) heap.length := by
  have hlen : (heap ++ [a]).length = heap.length + 1 := by simp
  refine ⟨?_, ?_⟩
  · intro i hi hne
    rcases Nat.lt_or_ge i heap.length with hlt | hge
    · have hold := h i hi
      rw [beforeAt] at hold ⊢
      rwa [List.getElem?_append_left hlt, List.getElem?_append_left (by omega)]
    · exact beforeAt_false_of_le (by omega)
  · intro c hc hchild hpos
    exact beforeAt_false_of_le (by omega)

/-! ## Down -/

theorem firstChild_spec (W : WeakOrder before) (hleft : 2 * idx + 1 < heap.length) :
    firstChild before heap (2 * idx + 1) < heap.length ∧
      (firstChild before heap (2 * idx + 1) - 1) / 2 = idx ∧
      idx < firstChild before heap (2 * idx + 1) ∧ ∀ c, 0 < c → (c - 1) / 2 = idx →
        beforeAt before heap c (firstChild before heap (2 * idx + 1)) = false := by
  have hself : ∀ i, beforeAt before heap i i = false := by
    intro i
    by_contra hne
    have htrue : beforeAt before heap i i = true := by simpa using hne
    exact hne (beforeAt_asymm W htrue)
  rw [firstChild]
  split
  · rename_i hright
    refine ⟨hright.1, by omega, by omega, ?_⟩
    intro c hc hparent
    rcases (show c = 2 * idx + 1 ∨ c = 2 * idx + 1 + 1 by omega) with rfl | rfl
    · exact beforeAt_asymm W hright.2
    · exact hself _
  · rename_i hright
    refine ⟨hleft, by omega, by omega, ?_⟩
    intro c hc hparent
    rcases (show c = 2 * idx + 1 ∨ c = 2 * idx + 1 + 1 by omega) with rfl | rfl
    · exact hself _
    · by_cases hin : 2 * idx + 1 + 1 < heap.length
      · exact Bool.eq_false_iff.mpr (fun hbefore => hright ⟨hin, hbefore⟩)
      · exact beforeAt_false_of_le (Nat.not_lt.mp hin)

/-- One step down. -/
theorem DownOrder.move {child : Nat} (h : DownOrder before heap idx)
    (hchild : child < heap.length) (hparent : (child - 1) / 2 = idx) (hlt : idx < child)
    (hfirst : ∀ c, 0 < c → (c - 1) / 2 = idx → beforeAt before heap c child = false)
    (hdown : beforeAt before heap idx child = false) :
    DownOrder before (swapAt heap idx child) child := by
  have hidx : idx < heap.length := Nat.lt_trans hlt hchild
  refine ⟨?_, ?_⟩
  · intro i hi hne
    rw [beforeAt_swapAt hidx hchild]
    by_cases hi' : i = child
    · rw [hi', hparent, Equiv.swap_apply_right, Equiv.swap_apply_left]
      exact hdown
    by_cases hroot : i = idx
    · rw [hroot, Equiv.swap_apply_left, Equiv.swap_apply_of_ne_of_ne (by omega) (by omega)]
      exact h.grand child (by omega) hparent (by omega)
    rw [Equiv.swap_apply_of_ne_of_ne hroot hi']
    by_cases hsibling : (i - 1) / 2 = idx
    · rw [hsibling, Equiv.swap_apply_left]
      exact hfirst i hi hsibling
    · rw [Equiv.swap_apply_of_ne_of_ne hsibling hne]
      exact h.off i hi hsibling
  · intro c hc hgrand _
    rw [beforeAt_swapAt hidx hchild, hparent, Equiv.swap_apply_left,
      Equiv.swap_apply_of_ne_of_ne (by omega) (by omega)]
    have hoff := h.off c hc (by omega)
    rwa [hgrand] at hoff

/-- No child of `idx` is before it. -/
theorem DownOrder.finish {idx : Nat} (h : DownOrder before heap idx)
    (hstop : ∀ c, 0 < c → (c - 1) / 2 = idx → beforeAt before heap c idx = false) :
    Ordered before heap := by
  intro i hi
  by_cases hparent : (i - 1) / 2 = idx
  · rw [hparent]
    exact hstop i hi hparent
  · exact h.off i hi hparent

theorem siftDown_ordered (W : WeakOrder before) (hfuel : heap.length ≤ fuel + idx)
    (h : DownOrder before heap idx) : Ordered before (siftDown before fuel heap idx) := by
  induction fuel generalizing heap idx with
  | zero =>
    refine h.finish ?_
    intro c hc hparent
    exact beforeAt_false_of_le (by omega)
  | succ fuel ih =>
    rw [siftDown]
    simp only
    by_cases hleft : 2 * idx + 1 ≥ heap.length
    · rw [if_pos hleft]
      refine h.finish ?_
      intro c hc hparent
      exact beforeAt_false_of_le (by omega)
    rw [if_neg hleft]
    obtain ⟨hin, hparent, hlt, hfirst⟩ := firstChild_spec W (Nat.not_le.mp hleft)
    generalize firstChild before heap (2 * idx + 1) = child at *
    by_cases hdown : beforeAt before heap child idx = true
    · rw [if_pos hdown]
      refine ih ?_ (h.move hin hparent hlt hfirst (beforeAt_asymm W hdown))
      rw [(HeapMerge.swapAt_perm heap idx child).length_eq]
      omega
    · rw [if_neg hdown]
      refine h.finish ?_
      intro c hc hparent'
      exact beforeAt_trans W hin (hfirst c hc hparent') (Bool.eq_false_iff.mpr hdown)

/-- An ordered heap whose root was replaced, and which may have lost its end. -/
theorem Ordered.downOrder_root {heap' : List α} (h : Ordered before heap)
    (hrest : ∀ (i : Nat) (a : α), 0 < i → heap'[i]? = some a → heap[i]? = some a) :
    DownOrder before heap' 0 := by
  refine ⟨?_, ?_⟩
  · intro i hi hparent
    have hold := h i hi
    rw [beforeAt] at hold ⊢
    split
    · rename_i a b ha hb
      rw [hrest i a hi ha, hrest _ b (by omega) hb] at hold
      exact hold
    · rfl
  · intro c _ _ hpos
    omega

/-- **No element is before the root.** -/
theorem Ordered.root (W : WeakOrder before) {top : α} {rest : List α}
    (h : Ordered before (top :: rest)) : ∀ a ∈ top :: rest, before a top = false := by
  have hall : ∀ i, beforeAt before (top :: rest) i 0 = false := by
    intro i
    induction i using Nat.strongRecOn with
    | ind i ih =>
      by_cases hpos : 0 < i
      · rcases Nat.lt_or_ge i (top :: rest).length with hlt | hge
        · exact beforeAt_trans W (by omega) (h i hpos) (ih _ (by omega))
        · exact beforeAt_false_of_le hge
      · obtain rfl : i = 0 := by omega
        by_contra hne
        have htrue : beforeAt before (top :: rest) 0 0 = true := by simpa using hne
        exact hne (beforeAt_asymm W htrue)
  intro a ha
  obtain ⟨i, hi⟩ := List.mem_iff_getElem?.mp ha
  have hroot := hall i
  rw [beforeAt, hi] at hroot
  exact hroot

end BinaryHeap
