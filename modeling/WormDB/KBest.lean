import Mathlib.Data.List.Sort
import Mathlib.Data.List.Perm.Subperm
import WormDB.BoundedHeap
import WormDB.UnstableSort

/-! # The best `k` of a list

`KBest` says that a list has the `k` elements of another one with the highest scores, in
descending order; which of several elements with the same score come is left open.  The scores
are the same in every such list (`KBest.scores_eq`).  The best of a part are the best of the whole
where what is outside of the part is outscored (`KBest.extend_iff`).  A bounded heap into which
all was offered, sorted, is such a list (`kBest_of_best`). -/

variable {α S : Type} [LinearOrder S]

structure KBest (score : α → S) (k : Nat) (all out : List α) : Prop where
  split : ∃ rest, (out ++ rest).Perm all ∧ ∀ a ∈ out, ∀ b ∈ rest, score b ≤ score a
  length : out.length = min k all.length
  descending : out.Pairwise fun a b => score b ≤ score a

section
variable {score : α → S} {k : Nat} {all out : List α}

namespace KBest

theorem mem (h : KBest score k all out) {x : α} (hx : x ∈ out) : x ∈ all := by
  obtain ⟨rest, hperm, -⟩ := h.split
  exact hperm.mem_iff.mp (List.mem_append_left _ hx)

theorem perm {all' : List α} (h : KBest score k all out) (hp : all.Perm all') :
    KBest score k all' out := by
  obtain ⟨rest, hperm, hbest⟩ := h.split
  exact ⟨⟨rest, hperm.trans hp, hbest⟩, by rw [h.length, hp.length_eq], h.descending⟩

theorem nil : KBest score k [] [] :=
  ⟨⟨[], List.Perm.refl _, by simp⟩, by simp, List.Pairwise.nil⟩

/-- The scores are the first ones of all scores in descending order. -/
theorem scores_prefix (h : KBest score k all out) {sorted : List S} (hp : sorted.Perm (all.map score))
    (hsorted : sorted.Pairwise fun a b => b ≤ a) : out.map score = sorted.take (min k all.length) := by
  obtain ⟨rest, hperm, hbest⟩ := h.split
  let tail := (rest.map score).mergeSort fun a b => decide (b ≤ a)
  have htail : tail.Perm (rest.map score) := List.mergeSort_perm _ _
  have hdesc : tail.Pairwise fun a b => b ≤ a := by
    refine (List.pairwise_mergeSort (fun a b c hab hbc => ?_) (fun a b => ?_) _).imp of_decide_eq_true
    · exact decide_eq_true (le_trans (of_decide_eq_true hbc) (of_decide_eq_true hab))
    · simpa using le_total b a
  have hfull : (out.map score ++ tail).Pairwise fun a b => b ≤ a := by
    refine List.pairwise_append.mpr ⟨List.pairwise_map.mpr h.descending, hdesc, ?_⟩
    intro a ha b hb
    obtain ⟨x, hx, rfl⟩ := List.mem_map.mp ha
    obtain ⟨y, hy, rfl⟩ := List.mem_map.mp (htail.mem_iff.mp hb)
    exact hbest x hx y hy
  have hsame : (out.map score ++ tail).Perm sorted := by
    refine List.Perm.trans ?_ hp.symm
    refine List.Perm.trans (htail.append_left _) ?_
    rw [← List.map_append]
    exact hperm.map score
  have heq := List.Perm.eq_of_pairwise (fun a b _ _ hab hba => le_antisymm hba hab) hfull hsorted hsame
  have hlen : (out.map score).length = min k all.length := by rw [List.length_map, h.length]
  rw [← heq, ← hlen, List.take_left]

variable {out' : List α}

/-- **The scores are determined.** -/
theorem scores_eq (h : KBest score k all out) (h' : KBest score k all out') :
    out.map score = out'.map score := by
  let sorted := (all.map score).mergeSort fun a b => decide (b ≤ a)
  have hp : sorted.Perm (all.map score) := List.mergeSort_perm _ _
  have hsorted : sorted.Pairwise fun a b => b ≤ a := by
    refine (List.pairwise_mergeSort (fun a b c hab hbc => ?_) (fun a b => ?_) _).imp of_decide_eq_true
    · exact decide_eq_true (le_trans (of_decide_eq_true hbc) (of_decide_eq_true hab))
    · simpa using le_total b a
  rw [h.scores_prefix hp hsorted, h'.scores_prefix hp hsorted]

/-- Where the scores tell the elements apart, so is the list. -/
theorem eq_of_apart (h : KBest score k all out) (h' : KBest score k all out')
    (hapart : ∀ a ∈ all, ∀ b ∈ all, score a = score b → a = b) : out = out' := by
  have hscores := h.scores_eq h'
  have hlen : out.length = out'.length := h.length.trans h'.length.symm
  refine List.ext_getElem hlen (fun i hi hi' => ?_)
  refine hapart _ (h.mem (List.getElem_mem hi)) _ (h'.mem (List.getElem_mem hi')) ?_
  have hget : (out.map score)[i]? = (out'.map score)[i]? := by rw [hscores]
  rw [List.getElem?_map, List.getElem?_map, List.getElem?_eq_getElem hi,
    List.getElem?_eq_getElem hi'] at hget
  exact Option.some.inj hget

/-- **The best of a part are the best of the whole** where each element outside of the part has
`k` elements in it that are at least as good, and nowhere else. -/
theorem extend_iff {near far : List α} (h : KBest score k near out) :
    KBest score k (near ++ far) out ↔
      ∀ x ∈ far, k ≤ near.countP fun y => decide (score x ≤ score y) := by
  obtain ⟨rest, hperm, hbest⟩ := h.split
  constructor
  · intro hall x hx
    obtain ⟨rest', hperm', hbest'⟩ := hall.split
    have hrest : rest'.Perm (rest ++ far) := by
      refine (List.perm_append_left_iff out).mp (hperm'.trans ?_)
      rw [← List.append_assoc]
      exact hperm.symm.append_right far
    have hmem : x ∈ rest' := hrest.mem_iff.mpr (List.mem_append_right _ hx)
    have hcount : out.countP (fun y => decide (score x ≤ score y)) = out.length :=
      List.countP_eq_length.mpr fun a ha => decide_eq_true (hbest' a ha x hmem)
    have hlen := h.length
    have hlen' := hall.length
    have hpos : 0 < far.length := List.length_pos_of_mem hx
    rw [List.length_append] at hlen'
    rw [← hperm.countP_eq, List.countP_append, hcount]
    omega
  · intro hfar
    refine ⟨⟨rest ++ far, ?_, ?_⟩, ?_, h.descending⟩
    · rw [← List.append_assoc]
      exact hperm.append_right far
    · intro a ha b hb
      rcases List.mem_append.mp hb with hb | hb
      · exact hbest a ha b hb
      · by_contra hless
        -- all that is at least as good as `b` is better than `a`, and in the list beside it
        have hrest : rest.countP (fun y => decide (score b ≤ score y)) = 0 := by
          refine List.countP_eq_zero.mpr (fun y hy hle => ?_)
          exact hless (le_trans (of_decide_eq_true hle) (hbest a ha y hy))
        have hout : out.countP (fun y => decide (score b ≤ score y)) < out.length := by
          refine lt_of_le_of_ne (List.countP_le_length) (fun heq => ?_)
          exact hless (of_decide_eq_true (List.countP_eq_length.mp heq a ha))
        have hmany := hfar b hb
        rw [← hperm.countP_eq, List.countP_append, hrest] at hmany
        have hlen := h.length
        omega
    · rw [h.length, List.length_append]
      cases far with
      | nil => rfl
      | cons x far =>
        have hmany := hfar x List.mem_cons_self
        have hle := List.countP_le_length (p := fun y => decide (score x ≤ score y)) (l := near)
        omega

end KBest

/-- What a bounded heap has, sorted. -/
theorem kBest_of_best {heap : List α} (hk : 0 < k)
    (h : BoundedHeap.Best (fun a b => decide (score a < score b)) k heap all)
    (sort : UnstableSort fun a b : α => decide (score b < score a)) :
    KBest score k all (sort.run heap) := by
  obtain ⟨rest, hperm, hbest, hfull⟩ := h.split
  have hsort := sort.perm heap
  refine ⟨⟨rest, (hsort.append_right rest).trans hperm, fun a ha b hb => ?_⟩, ?_, ?_⟩
  · simpa using hbest a (hsort.mem_iff.mp ha) b hb
  · have hlen := h.length hk
    rw [hsort.length_eq, ← hperm.length_eq, List.length_append]
    by_cases hnil : rest = []
    · rw [hnil, List.length_nil]
      omega
    · rw [(hfull hnil).2]
      omega
  · exact (sort.sorted heap).imp fun hab => by simpa using hab

end
