import WormDB.MerkleList

/-! # The tree behind a root

Halving a list level by level computes the value of a binary tree whose leaves, from left to
right, are the list; an item that goes up without a partner only moves.  Two such trees with
one value are the same tree, when no hashed pairs collide and no leaf is the hash of a pair
(`Tree.eval_inj`).  So the root fixes the list also between lists of different lengths, and
the number of items need not be hashed (`root_inj_of_separated`).

The levels may be computed in one buffer: an item is written where everything has been read
already (`rootInPlace_eq`). -/
namespace MerkleList
open List

variable {H : Type}

inductive Tree (H : Type) where
  | leaf (value : H)
  | fork (left right : Tree H)

namespace Tree

variable (node : H → H → H)

def eval : Tree H → H
  | leaf value => value
  | fork left right => node left.eval right.eval

/-- The leaves from left to right. -/
def leaves : Tree H → List H
  | leaf value => [value]
  | fork left right => left.leaves ++ right.leaves

/-- The pairs that are hashed for its value. -/
def pairs : Tree H → List (H × H)
  | leaf _ => []
  | fork left right => (left.eval node, right.eval node) :: (left.pairs ++ right.pairs)

variable {node}

/-- **A value fixes the tree**, its shape included. -/
theorem eval_inj {t t' : Tree H}
    (hpairs : ∀ p ∈ t.pairs node, ∀ q ∈ t'.pairs node, node p.1 p.2 = node q.1 q.2 → p = q)
    (hleft : ∀ x ∈ t.leaves, ∀ q ∈ t'.pairs node, x ≠ node q.1 q.2)
    (hright : ∀ y ∈ t'.leaves, ∀ p ∈ t.pairs node, y ≠ node p.1 p.2)
    (h : t.eval node = t'.eval node) : t = t' := by
  induction t generalizing t' with
  | leaf x =>
    cases t' with
    | leaf y => exact congrArg leaf h
    | fork l' r' => exact absurd h (hleft x (mem_singleton_self x) _ mem_cons_self)
  | fork l r ihl ihr =>
    cases t' with
    | leaf y => exact absurd h.symm (hright y (mem_singleton_self y) _ mem_cons_self)
    | fork l' r' =>
      have heq := hpairs _ mem_cons_self _ mem_cons_self h
      obtain ⟨hl, hr⟩ := Prod.mk.inj heq
      have hlt : l = l' := by
        refine ihl (fun p hp q hq => ?_) (fun x hx q hq => ?_) (fun y hy p hp => ?_) hl
        · exact hpairs p (mem_cons_of_mem _ (mem_append_left _ hp)) q
            (mem_cons_of_mem _ (mem_append_left _ hq))
        · exact hleft x (mem_append_left _ hx) q
            (mem_cons_of_mem _ (mem_append_left _ hq))
        · exact hright y (mem_append_left _ hy) p
            (mem_cons_of_mem _ (mem_append_left _ hp))
      have hrt : r = r' := by
        refine ihr (fun p hp q hq => ?_) (fun x hx q hq => ?_) (fun y hy p hp => ?_) hr
        · exact hpairs p (mem_cons_of_mem _ (mem_append_right _ hp)) q
            (mem_cons_of_mem _ (mem_append_right _ hq))
        · exact hleft x (mem_append_right _ hx) q
            (mem_cons_of_mem _ (mem_append_right _ hq))
        · exact hright y (mem_append_right _ hy) p
            (mem_cons_of_mem _ (mem_append_right _ hp))
      rw [hlt, hrt]

end Tree

/-! ## The levels of trees -/

variable (node : H → H → H)

theorem pairUp_eval (level : List (Tree H)) :
    (pairUp Tree.fork level).map (Tree.eval node) = pairUp node (level.map (Tree.eval node)) := by
  induction level using pairUp.induct with
  | case1 => rfl
  | case2 t => rfl
  | case3 l r rest ih =>
    rw [pairUp, map_cons, ih]
    rfl

theorem levelsUp_eval (n : Nat) (level : List (Tree H)) :
    (levelsUp Tree.fork n level).map (Tree.eval node) =
      levelsUp node n (level.map (Tree.eval node)) := by
  induction n generalizing level with
  | zero => rfl
  | succ n ih => rw [levelsUp, levelsUp, ih, pairUp_eval]

theorem pairUp_leaves (level : List (Tree H)) :
    (pairUp Tree.fork level).flatMap Tree.leaves = level.flatMap Tree.leaves := by
  induction level using pairUp.induct with
  | case1 => rfl
  | case2 t => rfl
  | case3 l r rest ih =>
    rw [pairUp, flatMap_cons, flatMap_cons, flatMap_cons, ih, Tree.leaves,
      append_assoc]

theorem levelsUp_leaves (n : Nat) (level : List (Tree H)) :
    (levelsUp Tree.fork n level).flatMap Tree.leaves = level.flatMap Tree.leaves := by
  induction n generalizing level with
  | zero => rfl
  | succ n ih => rw [levelsUp, ih, pairUp_leaves]

/-- The new pairs of a level are those hashed on it. -/
theorem pairUp_pairs {level : List (Tree H)} {q : H × H}
    (h : q ∈ (pairUp Tree.fork level).flatMap (Tree.pairs node)) :
    q ∈ level.flatMap (Tree.pairs node) ∨ q ∈ levelPairs (level.map (Tree.eval node)) := by
  induction level using pairUp.induct with
  | case1 => cases h
  | case2 t => exact .inl h
  | case3 l r rest ih =>
    rw [pairUp, flatMap_cons, mem_append, Tree.pairs, mem_cons,
      mem_append] at h
    rcases h with (rfl | hl | hr) | hrest
    · exact .inr mem_cons_self
    · exact .inl (mem_flatMap.mpr ⟨l, mem_cons_self, hl⟩)
    · exact .inl (mem_flatMap.mpr
        ⟨r, mem_cons_of_mem _ mem_cons_self, hr⟩)
    · rcases ih hrest with hold | hnew
      · obtain ⟨t, ht, hq⟩ := mem_flatMap.mp hold
        exact .inl (mem_flatMap.mpr
          ⟨t, mem_cons_of_mem _ (mem_cons_of_mem _ ht), hq⟩)
      · exact .inr (mem_cons_of_mem _ hnew)

theorem levelsUp_pairs {n : Nat} {level : List (Tree H)} {q : H × H}
    (h : q ∈ (levelsUp Tree.fork n level).flatMap (Tree.pairs node)) :
    q ∈ level.flatMap (Tree.pairs node) ∨ q ∈ pairsUp node n (level.map (Tree.eval node)) := by
  induction n generalizing level with
  | zero => exact .inl h
  | succ n ih =>
    rw [pairsUp, mem_append, ← pairUp_eval]
    rcases ih h with hup | hlater
    · rcases pairUp_pairs node hup with hold | hnew
      · exact .inl hold
      · exact .inr (.inl hnew)
    · exact .inr (.inr hlater)

/-- **The tree of a root.** -/
theorem exists_tree (first : H) (rest : List H) :
    ∃ t : Tree H, t.eval node = root node first rest ∧ t.leaves = first :: rest ∧
      ∀ q ∈ t.pairs node, q ∈ rootPairs node (first :: rest) := by
  have hmap : ((first :: rest).map Tree.leaf).map (Tree.eval node) = first :: rest := by
    rw [map_map]
    exact map_id _
  have hflat : ((first :: rest).map Tree.leaf).flatMap Tree.leaves = first :: rest := by
    rw [flatMap_map]
    exact flatMap_singleton' _
  have hnone : ((first :: rest).map Tree.leaf).flatMap (Tree.pairs node) = [] := by
    rw [flatMap_map]
    exact flatMap_eq_nil_iff.mpr (fun _ _ => rfl)
  obtain ⟨t, ht⟩ := length_eq_one_iff.mp
    (@levelsUp_length (Tree H) Tree.fork rest.length ((first :: rest).map Tree.leaf)
      (Nat.succ_pos _) (Nat.le_of_eq (by simp)))
  have heval := levelsUp_eval node rest.length ((first :: rest).map Tree.leaf)
  have hleaves := levelsUp_leaves rest.length ((first :: rest).map Tree.leaf)
  rw [ht, hmap] at heval
  rw [ht, hflat, flatMap_singleton] at hleaves
  refine ⟨t, ?_, hleaves, fun q hq => ?_⟩
  · rw [root, ← heval]
    rfl
  · have hmem : q ∈ (levelsUp Tree.fork rest.length ((first :: rest).map Tree.leaf)).flatMap
        (Tree.pairs node) := by
      rwa [ht, flatMap_singleton]
    rcases levelsUp_pairs node hmem with hold | hnew
    · rw [hnone] at hold
      cases hold
    · rwa [hmap] at hnew

variable {node}

/-- **The root fixes the list, whatever the lengths**, when no item is the hash of a pair. -/
theorem root_inj_of_separated {x y : H} {xs ys : List H}
    (hpairs : ∀ p ∈ rootPairs node (x :: xs), ∀ q ∈ rootPairs node (y :: ys),
      node p.1 p.2 = node q.1 q.2 → p = q)
    (hleft : ∀ a ∈ x :: xs, ∀ q ∈ rootPairs node (y :: ys), a ≠ node q.1 q.2)
    (hright : ∀ b ∈ y :: ys, ∀ p ∈ rootPairs node (x :: xs), b ≠ node p.1 p.2)
    (h : root node x xs = root node y ys) : x :: xs = y :: ys := by
  obtain ⟨t, ht, htl, htp⟩ := exists_tree node x xs
  obtain ⟨t', ht', htl', htp'⟩ := exists_tree node y ys
  have htree : t = t' := by
    refine Tree.eval_inj (fun p hp q hq => hpairs p (htp p hp) q (htp' q hq))
      (fun a ha q hq => hleft a (htl ▸ ha) q (htp' q hq))
      (fun b hb p hp => hright b (htl' ▸ hb) p (htp p hp)) ?_
    rw [ht, ht', h]
  rw [← htl, ← htl', htree]

/-- A root is an item or the hash of a pair. -/
theorem root_cases (first : H) (rest : List H) :
    root node first rest ∈ first :: rest ∨
      ∃ q ∈ rootPairs node (first :: rest), root node first rest = node q.1 q.2 := by
  obtain ⟨t, ht, hleaves, hpairs⟩ := exists_tree node first rest
  rw [← ht]
  cases t with
  | leaf value => exact .inl (hleaves ▸ mem_singleton_self value)
  | fork left right => exact .inr ⟨_, hpairs _ mem_cons_self, rfl⟩

/-! ## One buffer for all levels -/

variable (node)

/-- One pass over the first `len` items: they are read from `inI` on and the next level is
written from `outI` on.  `none` is an access outside the buffer. -/
def halveInPlace (len : Nat) : Nat → List H → Nat → Nat → Option (List H × Nat)
  | 0, level, outI, _ => some (level, outI)
  | fuel + 1, level, outI, inI =>
      if inI < len then
        if inI + 1 = len then do
          let a ← level[inI]?
          halveInPlace len fuel (level.set outI a) (outI + 1) (inI + 1)
        else do
          let a ← level[inI]?
          let b ← level[inI + 1]?
          halveInPlace len fuel (level.set outI (node a b)) (outI + 1) (inI + 2)
      else some (level, outI)

/-- Passes until one item is left. -/
def shrinkInPlace : Nat → List H → Nat → Option (List H)
  | 0, level, _ => some level
  | fuel + 1, level, len =>
      if len > 1 then do
        let (level, len) ← halveInPlace node len len level 0 0
        shrinkInPlace fuel level len
      else some level

/-- The root of a list that is not empty; each pass takes at least one item away. -/
def rootInPlace (level : List H) : Option H := do
  let level ← shrinkInPlace node (level.length - 1) level level.length
  level[0]?

/-- The items of `xs` stand in the buffer from `start` on. -/
def Stands (level : List H) (start : Nat) (xs : List H) : Prop :=
  ∀ j < xs.length, level[start + j]? = xs[j]?

variable {node}

theorem Stands.head {level xs : List H} {start : Nat} {x : H} (h : Stands level start (x :: xs)) :
    level[start]? = some x := h 0 (Nat.succ_pos _)

theorem Stands.tail {level xs : List H} {start : Nat} {x : H} (h : Stands level start (x :: xs)) :
    Stands level (start + 1) xs := by
  intro j hj
  rw [Nat.add_assoc, Nat.add_comm 1 j]
  exact h (j + 1) (Nat.succ_lt_succ hj)

/-- A write before an item leaves it alone. -/
theorem Stands.set {level xs : List H} {start outI : Nat} (h : Stands level start xs)
    (hout : outI < start) (x : H) : Stands (level.set outI x) start xs := by
  intro j hj
  rw [getElem?_set_ne (by omega)]
  exact h j hj

theorem halveInPlace_end {len outI inI : Nat} (fuel : Nat) (level : List H) (h : ¬inI < len) :
    halveInPlace node len fuel level outI inI = some (level, outI) := by
  cases fuel with
  | zero => rfl
  | succ fuel => rw [halveInPlace, if_neg h]

/-- **A pass writes the next level.**  What is written lies before what is still to be read,
and what is written stays. -/
theorem halveInPlace_spec {xs : List H} {len fuel outI inI : Nat} {level : List H}
    (hlen : inI + xs.length = len) (hfuel : xs.length ≤ fuel) (hout : outI ≤ inI)
    (hxs : Stands level inI xs) :
    ∃ level', halveInPlace node len fuel level outI inI =
        some (level', outI + (pairUp node xs).length) ∧
      (∀ j < outI, level'[j]? = level[j]?) ∧ Stands level' outI (pairUp node xs) := by
  induction xs using pairUp.induct generalizing level fuel outI inI with
  | case1 =>
    refine ⟨level, halveInPlace_end fuel level ?_, fun _ _ => rfl, fun _ hj => absurd hj (Nat.not_lt_zero _)⟩
    rw [length_nil] at hlen
    omega
  | case2 a =>
    rw [length_singleton] at hlen hfuel
    obtain ⟨fuel, rfl⟩ := Nat.exists_eq_add_of_le' hfuel
    have hroom := (List.getElem?_eq_some_iff.mp hxs.head).1
    refine ⟨level.set outI a, ?_, fun j hj => getElem?_set_ne (by omega), ?_⟩
    · rw [halveInPlace, if_pos (by omega), if_pos hlen, hxs.head]
      exact halveInPlace_end fuel _ (by omega)
    · intro j hj
      obtain rfl : j = 0 := Nat.lt_one_iff.mp hj
      exact getElem?_set_self (by omega)
  | case3 a b rest ih =>
    rw [length_cons, length_cons] at hlen hfuel
    obtain ⟨fuel, rfl⟩ := Nat.exists_eq_add_of_le' (Nat.le_trans (Nat.le_add_left 1 _) hfuel)
    have hroom := (List.getElem?_eq_some_iff.mp hxs.head).1
    have hrest : Stands (level.set outI (node a b)) (inI + 2) rest :=
      hxs.tail.tail.set (by omega) _
    obtain ⟨level', hrun, hkeep, hstands⟩ := @ih (fuel) (outI + 1) (inI + 2)
      (level.set outI (node a b)) (by omega) (by omega) (by omega) hrest
    refine ⟨level', ?_, fun j hj => ?_, ?_⟩
    · rw [halveInPlace, if_pos (by omega), if_neg (by omega), hxs.head, hxs.tail.head]
      refine Eq.trans hrun ?_
      rw [pairUp, length_cons]
      congr 2
      omega
    · rw [hkeep j (by omega), getElem?_set_ne (by omega)]
    · intro j hj
      rw [pairUp] at hj ⊢
      cases j with
      | zero =>
        rw [Nat.add_zero, hkeep outI (by omega), getElem?_set_self (by omega)]
        rfl
      | succ j =>
        have hj' := hstands j (Nat.lt_of_succ_lt_succ hj)
        rwa [Nat.add_assoc, Nat.add_comm 1 j] at hj'

theorem levelsUp_singleton (n : Nat) (x : H) : levelsUp node n [x] = [x] := by
  induction n with
  | zero => rfl
  | succ n ih => exact ih

theorem shrinkInPlace_spec {fuel : Nat} {level xs : List H} (hpos : 0 < xs.length)
    (hxs : Stands level 0 xs) :
    ∃ level', shrinkInPlace node fuel level xs.length = some level' ∧
      level'[0]? = (levelsUp node fuel xs).head? := by
  induction fuel generalizing level xs with
  | zero =>
    refine ⟨level, rfl, ?_⟩
    rw [levelsUp, head?_eq_getElem?]
    exact hxs 0 hpos
  | succ fuel ih =>
    by_cases hlen : xs.length > 1
    · obtain ⟨level', hrun, -, hstands⟩ :=
        halveInPlace_spec (Nat.zero_add _) (Nat.le_refl _) (Nat.le_refl 0) hxs
      have hup : 0 < (pairUp node xs).length := by
        rw [pairUp_length]
        omega
      obtain ⟨level'', hrest, hhead⟩ := ih hup hstands
      refine ⟨level'', ?_, hhead⟩
      rw [shrinkInPlace, if_pos hlen, hrun, Nat.zero_add]
      exact hrest
    · obtain ⟨x, rfl⟩ := length_eq_one_iff.mp (show xs.length = 1 by omega)
      refine ⟨level, by rw [shrinkInPlace, if_neg hlen], ?_⟩
      rw [levelsUp_singleton]
      exact hxs 0 hpos

/-- **The buffer ends with the root in front.** -/
theorem rootInPlace_eq (first : H) (rest : List H) :
    rootInPlace node (first :: rest) = some (root node first rest) := by
  obtain ⟨level, hrun, hhead⟩ := @shrinkInPlace_spec H node rest.length
    (first :: rest) (first :: rest) (Nat.succ_pos _) (fun j _ => by rw [Nat.zero_add])
  obtain ⟨x, hx⟩ := length_eq_one_iff.mp
    (@levelsUp_length H node rest.length (first :: rest) (Nat.succ_pos _) (Nat.le_refl _))
  rw [rootInPlace, length_cons, Nat.add_sub_cancel, ← length_cons, hrun, root, hx]
  rw [hx] at hhead
  exact hhead

end MerkleList
