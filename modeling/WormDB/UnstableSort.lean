import Mathlib.Data.List.Sort

/-! # Sorts that are not stable

A sort by a comparison, of which only this much is used: it permutes the list, and no element
is less than one in front of it.  Elements that the comparison does not tell apart may come in
any order; where it tells all of them apart, the result is the one ascending list. -/

/-- A sort by `lt`. -/
structure UnstableSort {α : Type} (lt : α → α → Bool) where
  run : List α → List α
  perm : ∀ xs, (run xs).Perm xs
  sorted : ∀ xs, (run xs).Pairwise (fun a b => lt b a = false)

namespace UnstableSort
variable {α : Type} {lt : α → α → Bool}

variable {xs : List α}

theorem mem_run (sort : UnstableSort lt) {x : α} : x ∈ sort.run xs ↔ x ∈ xs :=
  (sort.perm xs).mem_iff

/-- Where the comparison tells the elements apart, they ascend. -/
theorem ascending (sort : UnstableSort lt)
    (h : xs.Pairwise fun a b => lt a b = true ∨ lt b a = true) :
    (sort.run xs).Pairwise (fun a b => lt a b = true) := by
  have hboth : (sort.run xs).Pairwise (fun a b => lt a b = true ∨ lt b a = true) :=
    ((sort.perm xs).pairwise_iff (fun hab => hab.symm)).mpr h
  refine hboth.imp₂ (fun a b hab hba => ?_) (sort.sorted xs)
  rcases hab with hab | hab
  · exact hab
  · cases hba.symm.trans hab

/-- Merge sort by an order is one, where nothing stands behind what it is less than. -/
def byOrder (le : α → α → Bool) (htrans : ∀ a b c, le a b = true → le b c = true → le a c = true)
    (htotal : ∀ a b, (le a b || le b a) = true) (hle : ∀ a b, le a b = true → lt b a = false) :
    UnstableSort lt where
  run xs := xs.mergeSort le
  perm xs := List.mergeSort_perm xs _
  sorted xs := (List.pairwise_mergeSort htrans htotal xs).imp fun h => hle _ _ h

theorem byOrder_pairwise {le : α → α → Bool}
    (htrans : ∀ a b c, le a b = true → le b c = true → le a c = true)
    (htotal : ∀ a b, (le a b || le b a) = true) (hle : ∀ a b, le a b = true → lt b a = false)
    (xs : List α) : ((byOrder le htrans htotal hle).run xs).Pairwise (fun a b => le a b = true) :=
  List.pairwise_mergeSort htrans htotal xs

/-- Merge sort is one, where not being less is transitive and total. -/
def merge (htrans : ∀ a b c, lt b a = false → lt c b = false → lt c a = false)
    (htotal : ∀ a b, lt b a = false ∨ lt a b = false) : UnstableSort lt where
  run xs := xs.mergeSort (fun a b => !lt b a)
  perm xs := List.mergeSort_perm xs _
  sorted xs := by
    have hsorted : (xs.mergeSort fun a b => !lt b a).Pairwise (fun a b => (!lt b a) = true) := by
      refine List.pairwise_mergeSort (fun a b c hab hbc => ?_) (fun a b => ?_) xs
      · simp only [Bool.not_eq_true'] at hab hbc ⊢
        exact htrans a b c hab hbc
      · simp only [Bool.or_eq_true, Bool.not_eq_true']
        exact htotal a b
    exact hsorted.imp fun h => by simpa using h

end UnstableSort
