import WormDB.BinaryHeap

/-! # The priority queue of the standard library

A binary heap whose `siftDown` also exchanges equal elements.  `pop` gives an element that no
other is before (`pop_spec`), so the queue drains in order (`drain_pairwise`). -/
namespace PriorityQueue
open List BinaryHeap
open HeapMerge (swapAt)
variable {α : Type} (before : α → α → Bool)

def push (items : List α) (x : α) : List α :=
  siftUp before items.length (items ++ [x]) items.length

/-- Other than in `BinaryHeap`, equal elements are swapped. -/
def siftDown : Nat → List α → Nat → List α
  | 0, items, _ => items
  | fuel + 1, items, index =>
      let left := 2 * index + 1
      if left < items.length then
        let child := firstChild before items left
        if beforeAt before items index child then items
        else siftDown fuel (swapAt items index child) child
      else items

def pop : List α → Option (α × List α)
  | [] => none
  | item :: rest =>
      match rest.getLast? with
      | none => some (item, [])
      | some last => some (item, siftDown before rest.length (last :: rest.dropLast) 0)

/-- The elements in the order in which they are popped. -/
def drain : Nat → List α → List α
  | 0, _ => []
  | count + 1, items =>
      match pop before items with
      | none => []
      | some (item, items) => item :: drain count items

/-- What is left when `count` elements were popped. -/
def discard : Nat → List α → List α
  | 0, items => items
  | count + 1, items =>
      match pop before items with
      | none => []
      | some (_, items) => discard count items

/-! ## Elements stay -/

theorem push_perm (items : List α) (x : α) : (push before items x).Perm (x :: items) :=
  (siftUp_perm before _ _ _).trans (perm_append_singleton x items)

theorem siftDown_perm (fuel : Nat) (items : List α) (index : Nat) :
    (siftDown before fuel items index).Perm items := by
  induction fuel generalizing items index with
  | zero => exact Perm.refl _
  | succ fuel ih =>
    rw [siftDown]
    simp only
    split
    · split
      · exact Perm.refl _
      · exact (ih _ _).trans (HeapMerge.swapAt_perm ..)
    · exact Perm.refl _

variable {before} {items rest : List α} {item : α}

theorem pop_eq_none : pop before items = none ↔ items = [] := by
  cases items with
  | nil => simp [pop]
  | cons item rest =>
    rw [pop]
    split <;> simp

theorem pop_perm (h : pop before items = some (item, rest)) : (item :: rest).Perm items := by
  cases items with
  | nil => cases h
  | cons first others =>
    rw [pop] at h
    split at h
    · rename_i hlast
      cases h
      rw [getLast?_eq_none_iff.mp hlast]
    · rename_i last hlast
      cases h
      obtain ⟨front, rfl⟩ := getLast?_eq_some_iff.mp hlast
      rw [dropLast_concat]
      exact ((siftDown_perm before ..).trans (perm_append_singleton last front).symm).cons _

theorem pop_length (h : pop before items = some (item, rest)) : items.length = rest.length + 1 :=
  (pop_perm h).length_eq.symm

variable {count : Nat}

theorem drain_perm (hcount : items.length ≤ count) : (drain before count items).Perm items := by
  induction count generalizing items with
  | zero =>
    obtain rfl := length_eq_zero_iff.mp (Nat.le_zero.mp hcount)
    exact Perm.refl _
  | succ count ih =>
    rw [drain]
    split
    · rename_i hnone
      rw [pop_eq_none.mp hnone]
    · rename_i item rest hpop
      have hlen := pop_length hpop
      exact ((ih (by omega)).cons item).trans (pop_perm hpop)

theorem drain_subset {a : α} (h : a ∈ drain before count items) : a ∈ items := by
  induction count generalizing items with
  | zero => cases h
  | succ count ih =>
    rw [drain] at h
    split at h
    · cases h
    · rename_i item rest hpop
      refine (pop_perm hpop).mem_iff.mp ?_
      exact (mem_cons.mp h).elim (fun heq => heq ▸ mem_cons_self)
        (fun hrest => mem_cons_of_mem item (ih hrest))

theorem discard_subperm (count : Nat) (items : List α) :
    (discard before count items).Subperm items := by
  induction count generalizing items with
  | zero => exact List.Subperm.refl _
  | succ count ih =>
    rw [discard]
    split
    · exact nil_subperm
    · rename_i item rest hpop
      exact (ih rest).trans ((sublist_cons_self item rest).subperm.trans (pop_perm hpop).subperm)

theorem discard_length (hcount : count ≤ items.length) :
    (discard before count items).length = items.length - count := by
  induction count generalizing items with
  | zero => rfl
  | succ count ih =>
    rw [discard]
    split
    · rename_i hnone
      rw [pop_eq_none.mp hnone, length_nil, Nat.zero_sub]
    · rename_i item rest hpop
      have hlen := pop_length hpop
      rw [ih (by omega), hlen, Nat.add_sub_add_right]

/-! ## The order -/

theorem push_ordered (W : WeakOrder before) (h : Ordered before items) (x : α) :
    Ordered before (push before items x) :=
  siftUp_ordered W (Nat.le_refl _) (h.upOrder_concat x)

theorem siftDown_ordered (W : WeakOrder before) {fuel index : Nat}
    (hfuel : items.length ≤ fuel + index) (h : DownOrder before items index) :
    Ordered before (siftDown before fuel items index) := by
  induction fuel generalizing items index with
  | zero =>
    refine h.finish (fun c hc hparent => ?_)
    exact beforeAt_false_of_le (by omega)
  | succ fuel ih =>
    rw [siftDown]
    simp only
    by_cases hleft : 2 * index + 1 < items.length
    · rw [if_pos hleft]
      obtain ⟨hin, hparent, hlt, hfirst⟩ := firstChild_spec W hleft
      generalize firstChild before items (2 * index + 1) = child at *
      by_cases hstop : beforeAt before items index child = true
      · rw [if_pos hstop]
        refine h.finish (fun c hc hparent' => ?_)
        exact beforeAt_trans W hin (hfirst c hc hparent') (beforeAt_asymm W hstop)
      · rw [if_neg hstop]
        refine ih ?_ (h.move hin hparent hlt hfirst (Bool.eq_false_iff.mpr hstop))
        rw [(HeapMerge.swapAt_perm items index child).length_eq]
        omega
    · rw [if_neg hleft]
      refine h.finish (fun c hc hparent => ?_)
      exact beforeAt_false_of_le (by omega)

theorem ordered_nil : Ordered before ([] : List α) :=
  fun _ _ => beforeAt_false_of_le (Nat.zero_le _)

theorem pop_ordered (W : WeakOrder before) (h : Ordered before items)
    (hpop : pop before items = some (item, rest)) : Ordered before rest := by
  cases items with
  | nil => cases hpop
  | cons first others =>
    rw [pop] at hpop
    split at hpop
    · cases hpop
      exact ordered_nil
    · rename_i last hlast
      cases hpop
      obtain ⟨front, rfl⟩ := getLast?_eq_some_iff.mp hlast
      rw [dropLast_concat]
      refine siftDown_ordered W (by simp) (h.downOrder_root (fun i a hi ha => ?_))
      -- all but the root are where they were
      obtain ⟨i, rfl⟩ := Nat.exists_eq_succ_of_ne_zero (Nat.ne_of_gt hi)
      rw [getElem?_cons_succ] at ha ⊢
      exact getElem?_append_left (List.getElem?_eq_some_iff.mp ha).1 ▸ ha

/-- **Nothing that is left is before what is popped.** -/
theorem pop_spec (W : WeakOrder before) (h : Ordered before items)
    (hpop : pop before items = some (item, rest)) :
    Ordered before rest ∧ ∀ a ∈ rest, before a item = false := by
  refine ⟨pop_ordered W h hpop, fun a ha => ?_⟩
  have hmem : a ∈ items := (pop_perm hpop).mem_iff.mp (mem_cons_of_mem _ ha)
  cases items with
  | nil => cases hpop
  | cons first others =>
    obtain rfl : first = item := by
      rw [pop] at hpop
      split at hpop
      · exact (Prod.mk.inj (Option.some.inj hpop)).1
      · exact (Prod.mk.inj (Option.some.inj hpop)).1
    exact h.root W a hmem

theorem discard_ordered (W : WeakOrder before) (h : Ordered before items) (count : Nat) :
    Ordered before (discard before count items) := by
  induction count generalizing items with
  | zero => exact h
  | succ count ih =>
    rw [discard]
    split
    · exact ordered_nil
    · rename_i item rest hpop
      exact ih (pop_ordered W h hpop)

/-- The queue drains in order. -/
theorem drain_pairwise (W : WeakOrder before) (h : Ordered before items) (count : Nat) :
    (drain before count items).Pairwise fun a b => before b a = false := by
  induction count generalizing items with
  | zero => exact Pairwise.nil
  | succ count ih =>
    rw [drain]
    split
    · exact Pairwise.nil
    · rename_i item rest hpop
      obtain ⟨hrest, hfirst⟩ := pop_spec W h hpop
      refine Pairwise.cons (fun b hb => ?_) (ih hrest)
      exact hfirst b (drain_subset hb)

end PriorityQueue
