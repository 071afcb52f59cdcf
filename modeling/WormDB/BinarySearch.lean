import Mathlib.Order.Lattice

/-! # Bisection that stops at a match

The loop over `[lo, hi)` that compares the key in the middle with the wanted one, stops where
they are equal and goes on in one half otherwise.  Nothing is asked of the keys: in whatever
order they stand, `search_eq_some_iff` says which places the loop can stop at. -/
namespace WormDB
open List
namespace BinarySearch

variable {κ : Type} [LinearOrder κ]

/-- The middle of `[lo, hi)`. -/
def middle (lo hi : Nat) : Nat := lo + (hi - lo) / 2

theorem middle_lt {lo hi : Nat} (h : lo < hi) : middle lo hi < hi := by
  rw [middle]
  omega

theorem le_middle (lo hi : Nat) : lo ≤ middle lo hi := Nat.le_add_right _ _

def search (keys : Nat → κ) (key : κ) (lo hi : Nat) : Option Nat :=
  if lo < hi then
    if keys (middle lo hi) = key then some (middle lo hi)
    else if keys (middle lo hi) < key then search keys key (middle lo hi + 1) hi
    else search keys key lo (middle lo hi)
  else none
termination_by hi - lo
decreasing_by
  · have := le_middle lo hi
    omega
  · have := middle_lt (by assumption : lo < hi)
    omega

/-- The places where the loop looks before it gets to `i`. -/
def path (i lo hi : Nat) : List Nat :=
  if lo < hi then
    if middle lo hi = i then []
    else if middle lo hi < i then middle lo hi :: path i (middle lo hi + 1) hi
    else middle lo hi :: path i lo (middle lo hi)
  else []
termination_by hi - lo
decreasing_by
  · have := le_middle lo hi
    omega
  · have := middle_lt (by assumption : lo < hi)
    omega

/-- Each place on the way to `i` sends a search for the key at `i` on towards `i`. -/
def Reached (keys : Nat → κ) (i lo hi : Nat) : Prop :=
  ∀ j ∈ path i lo hi, (j < i → keys j < keys i) ∧ (i < j → keys i < keys j)

/-- **The loop stops at the places with the key that it can reach.** -/
theorem search_eq_some_iff (keys : Nat → κ) (key : κ) (lo hi i : Nat) :
    search keys key lo hi = some i ↔
      lo ≤ i ∧ i < hi ∧ keys i = key ∧ Reached keys i lo hi := by
  fun_induction search keys key lo hi with
  | case1 lo hi hlt heq =>
    have hmid := middle_lt hlt
    constructor
    · intro h
      cases h
      refine ⟨le_middle lo hi, hmid, heq, ?_⟩
      rw [Reached, path, if_pos hlt, if_pos rfl]
      simp
    · rintro ⟨-, -, hkey, hreach⟩
      -- a place off the middle has another key than the middle
      by_contra hne
      have hne : middle lo hi ≠ i := fun h => hne (congrArg some h)
      rw [Reached, path, if_pos hlt, if_neg hne] at hreach
      rcases Nat.lt_or_gt_of_ne hne with hside | hside
      · rw [if_pos hside] at hreach
        have hkeys := (hreach _ mem_cons_self).1 hside
        rw [heq, hkey] at hkeys
        exact lt_irrefl _ hkeys
      · rw [if_neg (by omega)] at hreach
        have hkeys := (hreach _ mem_cons_self).2 hside
        rw [heq, hkey] at hkeys
        exact lt_irrefl _ hkeys
  | case2 lo hi hlt hne hbelow ih =>
    have hlow := le_middle lo hi
    rw [ih]
    constructor
    · rintro ⟨hi₁, hi₂, hkey, hreach⟩
      refine ⟨by omega, hi₂, hkey, ?_⟩
      rw [Reached, path, if_pos hlt, if_neg (by omega), if_pos (by omega), forall_mem_cons]
      exact ⟨⟨fun _ => hkey ▸ hbelow, fun h => by omega⟩, hreach⟩
    · rintro ⟨hi₁, hi₂, hkey, hreach⟩
      have hother : middle lo hi ≠ i := by
        rintro rfl
        exact hne hkey
      rw [Reached, path, if_pos hlt, if_neg hother] at hreach
      by_cases hside : middle lo hi < i
      · rw [if_pos hside, forall_mem_cons] at hreach
        exact ⟨by omega, hi₂, hkey, hreach.2⟩
      · rw [if_neg hside] at hreach
        have hkeys := (hreach _ mem_cons_self).2 (by omega)
        rw [hkey] at hkeys
        exact absurd hbelow (not_lt_of_gt hkeys)
  | case3 lo hi hlt hne hnot ih =>
    have hmid := middle_lt hlt
    have habove : key < keys (middle lo hi) := lt_of_le_of_ne (not_lt.mp hnot) (Ne.symm hne)
    rw [ih]
    constructor
    · rintro ⟨hi₁, hi₂, hkey, hreach⟩
      refine ⟨hi₁, by omega, hkey, ?_⟩
      rw [Reached, path, if_pos hlt, if_neg (by omega), if_neg (by omega), forall_mem_cons]
      exact ⟨⟨fun h => by omega, fun _ => hkey ▸ habove⟩, hreach⟩
    · rintro ⟨hi₁, hi₂, hkey, hreach⟩
      have hother : middle lo hi ≠ i := by
        rintro rfl
        exact hne hkey
      rw [Reached, path, if_pos hlt, if_neg hother] at hreach
      by_cases hside : middle lo hi < i
      · rw [if_pos hside] at hreach
        have hkeys := (hreach _ mem_cons_self).1 hside
        rw [hkey] at hkeys
        exact absurd hkeys hnot
      · rw [if_neg hside, forall_mem_cons] at hreach
        exact ⟨hi₁, by omega, hkey, hreach.2⟩
  | case4 lo hi hge =>
    constructor
    · rintro ⟨⟩
    · rintro ⟨hi₁, hi₂, -⟩
      omega

end BinarySearch

end WormDB
