import WormDB.BinaryHeap
import Mathlib.Data.List.Count

/-! # The best elements of several sorted sources

A heap of at most `limit` elements with the worst at its root, into which the elements
of sources are offered.  An element that does not beat the root of a full heap is
refused, and with it everything that comes after it in a source sorted from the best
on.  `Best` is what the heap then has: the best `limit` of all elements so far, whether
they were offered or not.  An element may be left out whenever `limit` others are not
worse (`Best.skip`), which covers the refused offer, the rest of a source after it and
what lies beyond the first `limit` elements of a source.  Without a limit (`limit = 0`)
everything is kept. -/
namespace BoundedHeap
open List BinaryHeap

variable {α : Type} (worse : α → α → Bool) (limit : Nat)

/-- Offer one element: the heap, and whether it took it. -/
def offer (heap : List α) (x : α) : List α × Bool :=
  if 0 < limit ∧ heap.length = limit then
    match heap with
    | [] => (heap, false)
    | root :: rest =>
        if worse root x then (siftDown worse limit (x :: rest) 0, true) else (heap, false)
  else if 0 < limit then (siftUp worse heap.length (heap ++ [x]) heap.length, true)
  else (heap ++ [x], true)

/-- Offer a source up to the first refusal; elements with `skip` are passed over. -/
def collect (skip : α → Bool) : List α → List α → List α
  | heap, [] => heap
  | heap, x :: xs =>
      if skip x then collect skip heap xs
      else
        match offer worse limit heap x with
        | (heap', true) => collect skip heap' xs
        | (heap', false) => heap'

/-- The heap has the best elements of `all`. -/
structure Best (heap all : List α) : Prop where
  ordered : 0 < limit → Ordered worse heap
  length : 0 < limit → heap.length ≤ limit
  split : ∃ rest, (heap ++ rest).Perm all ∧ (∀ a ∈ heap, ∀ b ∈ rest, worse a b = false) ∧
    (rest ≠ [] → 0 < limit ∧ heap.length = limit)

variable {worse limit} {heap all : List α}

theorem Best.empty : Best worse limit [] [] where
  ordered := by
    intro _ i _
    exact beforeAt_false_of_le (Nat.zero_le _)
  length := fun _ => Nat.zero_le _
  split := ⟨[], Perm.refl _, by simp, fun h => absurd rfl h⟩

theorem Best.perm {all' : List α} (h : Best worse limit heap all) (hp : all.Perm all') :
    Best worse limit heap all' := by
  obtain ⟨rest, hperm, hbest, hfull⟩ := h.split
  exact ⟨h.ordered, h.length, rest, hperm.trans hp, hbest, hfull⟩

/-- **What `limit` others are not worse than may be left out.** -/
theorem Best.skip (W : WeakOrder worse) (hlimit : 0 < limit) (h : Best worse limit heap all) {y : α}
    (hmany : limit ≤ all.countP (fun w => !worse w y)) : Best worse limit heap (y :: all) := by
  obtain ⟨rest, hperm, hbest, hfull⟩ := h.split
  have hlen := h.length hlimit
  have hself : ∀ a, worse a a = false := by
    intro a
    by_contra hne
    have htrue : worse a a = true := by simpa using hne
    exact hne (W.asymm htrue)
  have hy : ∀ a ∈ heap, worse a y = false := by
    intro a ha
    by_contra hne
    have hay : worse a y = true := by simpa using hne
    -- every one of the many is better than `a`, so all of them are in the heap beside it
    have hle : all.countP (fun w => !worse w y) ≤ all.countP (worse a) := by
      refine countP_mono_left (fun w _ hw => ?_)
      by_contra hnot
      have haw : worse a w = false := by simpa using hnot
      rw [W.trans haw (by simpa using hw)] at hay
      cases hay
    have hrest : rest.countP (worse a) = 0 := by
      refine countP_eq_zero.mpr (fun b hb hworse => ?_)
      rw [hbest a ha b hb] at hworse
      cases hworse
    have hheap : heap.countP (worse a) < heap.length := by
      have hcount := length_eq_countP_add_countP (worse a) (l := heap)
      have hpos : 0 < heap.countP (fun b => !worse a b) :=
        countP_pos_iff.mpr ⟨a, ha, by simp [hself a]⟩
      simp only [Bool.not_eq_true, Bool.decide_eq_false] at hcount
      omega
    rw [← hperm.countP_eq (worse a), countP_append, hrest] at hle
    omega
  refine ⟨h.ordered, h.length, y :: rest, ?_, ?_, ?_⟩
  · exact perm_middle.trans (hperm.cons y)
  · intro a ha b hb
    rcases mem_cons.mp hb with rfl | hb
    · exact hy a ha
    · exact hbest a ha b hb
  · intro _
    refine ⟨hlimit, ?_⟩
    by_cases hnil : rest = []
    · have hcount := countP_le_length (p := fun w => !worse w y) (l := all)
      rw [← hperm.length_eq, hnil, append_nil] at hcount
      omega
    · exact (hfull hnil).2

/-- The same for a list of them. -/
theorem Best.skipAll (W : WeakOrder worse) (hlimit : 0 < limit) (h : Best worse limit heap all)
    (ys : List α) (hmany : ∀ y ∈ ys, limit ≤ all.countP (fun w => !worse w y)) :
    Best worse limit heap (ys ++ all) := by
  induction ys with
  | nil => exact h
  | cons y ys ih =>
    obtain ⟨hy, hys⟩ := forall_mem_cons.mp hmany
    refine (ih hys).skip W hlimit ?_
    rw [countP_append]
    omega

/-! ## Offers -/

/-- Nothing has been left out while the heap has room. -/
theorem Best.perm_of_room (h : Best worse limit heap all)
    (hroom : ¬ (0 < limit ∧ heap.length = limit)) : heap.Perm all := by
  obtain ⟨rest, hperm, -, hfull⟩ := h.split
  have hnil : rest = [] := by
    by_contra hne
    exact hroom (hfull hne)
  rwa [hnil, append_nil] at hperm

/-- Without a limit the heap has everything. -/
theorem Best.perm_of_zero (h : Best worse 0 heap all) : heap.Perm all :=
  h.perm_of_room (fun hfull => Nat.lt_irrefl 0 hfull.1)

/-- Without a limit nothing is compared, and nothing refused. -/
theorem collect_zero (skip : α → Bool) (heap xs : List α) :
    collect worse 0 skip heap xs = heap ++ xs.filter (fun x => !skip x) := by
  induction xs generalizing heap with
  | nil => simp [collect]
  | cons x xs ih =>
    by_cases hskip : skip x = true
    · rw [collect, if_pos hskip, ih, filter_cons_of_neg (by simp [hskip])]
    · have hoffer : offer worse 0 heap x = (heap ++ [x], true) := by simp [offer]
      rw [collect, if_neg hskip, hoffer, filter_cons_of_pos (by simpa using hskip)]
      dsimp only
      rw [ih, append_assoc, singleton_append]

/-- An element joins a heap that has room. -/
theorem Best.push (W : WeakOrder worse) (h : Best worse limit heap all) (hlimit : 0 < limit)
    (hroom : heap.length ≠ limit) (x : α) :
    Best worse limit (siftUp worse heap.length (heap ++ [x]) heap.length) (x :: all) := by
  have hperm := h.perm_of_room (fun hfull => hroom hfull.2)
  have hup := siftUp_perm worse heap.length (heap ++ [x]) heap.length
  have hlen := h.length hlimit
  refine ⟨?_, ?_, [], ?_, by simp, fun hne => absurd rfl hne⟩
  · intro _
    exact siftUp_ordered W (Nat.le_refl _) ((h.ordered hlimit).upOrder_concat x)
  · intro _
    rw [hup.length_eq, length_append, length_singleton]
    omega
  · rw [append_nil]
    exact hup.trans ((perm_append_singleton x heap).trans (hperm.cons x))

section
variable {root : α} {tail : List α} (W : WeakOrder worse) (h : Best worse limit (root :: tail) all)
  (hlimit : 0 < limit) (hfull : (root :: tail).length = limit)
include W h hlimit hfull

variable {x : α}

/-- The root, which is the worst of a full heap, makes way for a better element. -/
theorem Best.replace (hworse : worse root x = true) :
    Best worse limit (siftDown worse limit (x :: tail) 0) (x :: all) := by
  obtain ⟨rest, hperm, hbest, -⟩ := h.split
  have hmax := (h.ordered hlimit).root W
  have hdown := siftDown_perm worse limit (x :: tail) 0
  have hlen : (siftDown worse limit (x :: tail) 0).length = limit := by
    rw [hdown.length_eq, length_cons]
    exact hfull
  refine ⟨?_, fun _ => Nat.le_of_eq hlen, root :: rest, ?_, ?_, fun _ => ⟨hlimit, hlen⟩⟩
  · intro _
    refine siftDown_ordered W ?_ ((h.ordered hlimit).downOrder_root ?_)
    · rw [length_cons] at hfull ⊢
      omega
    · intro i a hi ha
      obtain ⟨j, rfl⟩ : ∃ j, i = j + 1 := ⟨i - 1, by omega⟩
      exact ha
  · calc siftDown worse limit (x :: tail) 0 ++ root :: rest
        |>.Perm (x :: tail ++ root :: rest) := hdown.append_right _
      _ |>.Perm (root :: (x :: tail ++ rest)) := perm_middle
      _ |>.Perm (x :: (root :: tail ++ rest)) := Perm.swap x root _
      _ |>.Perm (x :: all) := hperm.cons x
  · intro a ha b hb
    have haroot : worse a root = false := by
      rcases mem_cons.mp (hdown.mem_iff.mp ha) with rfl | ha
      · exact W.asymm hworse
      · exact hmax a (mem_cons_of_mem _ ha)
    rcases mem_cons.mp hb with rfl | hb
    · exact haroot
    · exact W.trans haroot (hbest root mem_cons_self b hb)

/-- The whole of a full heap is not worse than an element that is not better than the root. -/
theorem Best.many_of_root (hworse : worse root x = false) :
    limit ≤ all.countP (fun w => !worse w x) := by
  obtain ⟨rest, hperm, -, -⟩ := h.split
  have hmax := (h.ordered hlimit).root W
  have hall : (root :: tail).countP (fun w => !worse w x) = (root :: tail).length := by
    refine countP_eq_length.mpr (fun a ha => ?_)
    simpa using W.trans (hmax a ha) hworse
  rw [← hperm.countP_eq, countP_append, hall, hfull]
  omega

end

/-- **An offer**: the heap has the best again, and a refused element is one that the
whole of a full heap is not worse than. -/
theorem Best.offer (W : WeakOrder worse) (h : Best worse limit heap all) (x : α) :
    Best worse limit (offer worse limit heap x).1 (x :: all) ∧
      ((offer worse limit heap x).2 = false →
        0 < limit ∧ limit ≤ all.countP (fun w => !worse w x)) := by
  rw [BoundedHeap.offer.eq_def]
  by_cases hroot : 0 < limit ∧ heap.length = limit
  · rw [if_pos hroot]
    obtain ⟨hlimit, hfull⟩ := hroot
    cases heap with
    | nil =>
      rw [length_nil] at hfull
      omega
    | cons root tail =>
      simp only
      by_cases hworse : worse root x = true
      · rw [if_pos hworse]
        exact ⟨h.replace W hlimit hfull hworse, nofun⟩
      · rw [if_neg hworse]
        have hmany := h.many_of_root W hlimit hfull (Bool.eq_false_iff.mpr hworse)
        exact ⟨h.skip W hlimit hmany, fun _ => ⟨hlimit, hmany⟩⟩
  · rw [if_neg hroot]
    by_cases hlimit : 0 < limit
    · rw [if_pos hlimit]
      exact ⟨h.push W hlimit (fun hfull => hroot ⟨hlimit, hfull⟩) x, nofun⟩
    · rw [if_neg hlimit]
      have hperm := (perm_append_singleton x heap).trans ((h.perm_of_room hroot).cons x)
      refine ⟨⟨fun hpos => absurd hpos hlimit, fun hpos => absurd hpos hlimit, [], ?_, by simp,
        fun hne => absurd rfl hne⟩, nofun⟩
      rw [append_nil]
      exact hperm

variable {xs : List α}

/-- **A source sorted from the best on**: after it the heap has the best of all elements
that are not passed over.  Without a limit the order does not matter. -/
theorem Best.collect (W : WeakOrder worse) (skip : α → Bool)
    (hsorted : 0 < limit → xs.Pairwise (fun a b => worse a b = false))
    (h : Best worse limit heap all) :
    Best worse limit (collect worse limit skip heap xs) (xs.filter (fun x => !skip x) ++ all) := by
  induction xs generalizing heap all with
  | nil => exact h
  | cons x xs ih =>
    have hxs : 0 < limit → xs.Pairwise (fun a b => worse a b = false) :=
      fun hlimit => (pairwise_cons.mp (hsorted hlimit)).2
    rw [BoundedHeap.collect]
    by_cases hskip : skip x = true
    · rw [if_pos hskip, filter_cons_of_neg (by simp [hskip])]
      exact ih hxs h
    rw [if_neg hskip, filter_cons_of_pos (by simpa using hskip)]
    obtain ⟨hoffer, hrefused⟩ := h.offer W x
    generalize BoundedHeap.offer worse limit heap x = result at hoffer hrefused ⊢
    obtain ⟨heap', taken⟩ := result
    cases taken with
    | true => exact (ih hxs hoffer).perm perm_middle
    | false =>
      -- the rest of the source is not better than the refused element
      obtain ⟨hlimit, hmany⟩ := hrefused rfl
      have hx := (pairwise_cons.mp (hsorted hlimit)).1
      have hskipped := hoffer.skipAll W hlimit (xs.filter (fun x => !skip x)) (by
        intro y hy
        have hmono : all.countP (fun w => !worse w x) ≤ all.countP (fun w => !worse w y) := by
          refine countP_mono_left (fun w _ hw => ?_)
          have hwx : worse w x = false := by simpa using hw
          simpa using W.trans hwx (hx y (mem_of_mem_filter hy))
        rw [countP_cons]
        omega)
      exact hskipped.perm perm_middle

/-! ## What the heap has -/

/-- Along a list on which a predicate goes over to what comes before, filtering is
taking the front. -/
theorem filter_eq_take {P : α → Bool} (h : xs.Pairwise (fun a b => P b = true → P a = true)) :
    xs.filter P = xs.take (xs.filter P).length := by
  induction xs with
  | nil => rfl
  | cons x xs ih =>
    obtain ⟨hx, hxs⟩ := pairwise_cons.mp h
    by_cases hP : P x = true
    · rw [filter_cons_of_pos hP, length_cons, take_succ_cons, ← ih hxs]
    · have hnil : xs.filter P = [] := filter_eq_nil_iff.mpr (fun y hy hPy => hP (hx y hy hPy))
      rw [filter_cons_of_neg hP, hnil]
      rfl

/-- **With a limit** the heap has the front of the elements in order. -/
theorem Best.perm_take (W : WeakOrder worse) (hlimit : 0 < limit) (h : Best worse limit heap all)
    {sorted : List α} (hsorted : sorted.Pairwise (fun a b => worse b a = true))
    (hall : sorted.Perm all) : heap.Perm (sorted.take limit) := by
  classical
  obtain ⟨rest, hperm, hbest, hfull⟩ := h.split
  have hlen := h.length hlimit
  have hnodup : (heap ++ rest).Nodup := by
    refine (hperm.trans hall.symm).nodup_iff.mpr (hsorted.imp ?_)
    rintro a b hworse rfl
    have hfalse := W.asymm hworse
    cases hworse.symm.trans hfalse
  have hdisjoint : ∀ b ∈ rest, b ∉ heap :=
    fun b hb ha => (nodup_append.mp hnodup).2.2 b ha b hb rfl
  have hfilter : (sorted.filter (fun a => decide (a ∈ heap))).Perm heap := by
    refine ((hall.trans hperm.symm).filter _).trans ?_
    rw [filter_append, filter_eq_self.mpr (by simp),
      filter_eq_nil_iff.mpr (by simpa using hdisjoint), append_nil]
  have hmem : ∀ a ∈ sorted, a ∈ heap ∨ a ∈ rest :=
    fun a ha => mem_append.mp (hperm.mem_iff.mpr (hall.mem_iff.mp ha))
  -- nothing in the heap comes after something that is not
  have htake : sorted.filter (fun a => decide (a ∈ heap)) = sorted.take _ := filter_eq_take (by
    refine Pairwise.imp_of_mem ?_ hsorted
    intro a b ha _ hworse hb
    rw [decide_eq_true_eq] at hb ⊢
    rcases hmem a ha with hin | hout
    · exact hin
    · rw [hbest b hb a hout] at hworse
      cases hworse)
  rw [hfilter.length_eq] at htake
  have hlength : sorted.take heap.length = sorted.take limit := by
    by_cases hnil : rest = []
    · rw [hnil, append_nil] at hperm
      have heq : sorted.length = heap.length := hall.length_eq.trans hperm.length_eq.symm
      rw [← heq, take_length, take_of_length_le (by omega)]
    · rw [(hfull hnil).2]
  rw [← hlength, ← htake]
  exact hfilter.symm

end BoundedHeap
