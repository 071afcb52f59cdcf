import Mathlib.Tactic.Common
import Mathlib.Data.List.Basic

/-! # Sorted lists searched by bisection

A list of items kept in ascending order of a key.  `lowerBound` is the binary
search for the first item whose key is not below a given one; the rest of the
module is what an index built on it needs: where an item with that key is, and
that inserting, replacing or erasing at the position found keeps the order. -/
namespace OrderedIndex
open List

variable {α κ : Type} [LT κ]

/-- The bisection loop over `[lo, hi)`; `before` says which indices are below. -/
def bisect (before : Nat → Bool) : Nat → Nat → Nat → Nat
  | 0, lo, _ => lo
  | fuel + 1, lo, hi =>
      if lo < hi then
        let mid := lo + (hi - lo) / 2
        if before mid then bisect before fuel (mid + 1) hi else bisect before fuel lo mid
      else lo

/-- The item at index `i` has a key that sorts before `k`. -/
def below [DecidableLT κ] (key : α → κ) (items : List α) (k : κ) (i : Nat) : Bool :=
  match items[i]? with
  | some item => decide (key item < k)
  | none => false

/-- First index whose item's key does not sort before `k`. -/
def lowerBound [DecidableLT κ] (key : α → κ) (items : List α) (k : κ) : Nat :=
  bisect (below key items k) items.length 0 items.length

/-- The items are in strictly ascending order of their keys. -/
def Ascending (key : α → κ) (items : List α) : Prop :=
  items.Pairwise (fun a b => key a < key b)

variable {key : α → κ} {items : List α}

theorem below_getElem [DecidableLT κ] {k : κ} {i : Nat}
    (h : i < items.length) : below key items k i = decide (key items[i] < k) := by
  rw [below, getElem?_eq_getElem h]

variable {before : Nat → Bool}

/-- Bisection finds the boundary of a predicate that holds up to some index and
not after it. -/
theorem bisect_spec {n : Nat} (hmono : ∀ i j, i < j → j < n → before j = true → before i = true)
    (fuel lo hi : Nat) (hfuel : hi - lo ≤ fuel) (hle : lo ≤ hi) (hhi : hi ≤ n)
    (hlo : ∀ i < lo, before i = true) (hup : ∀ i, hi ≤ i → i < n → before i = false) :
    bisect before fuel lo hi ≤ n ∧ (∀ i < bisect before fuel lo hi, before i = true) ∧
      ∀ i, bisect before fuel lo hi ≤ i → i < n → before i = false := by
  induction fuel generalizing lo hi with
  | zero =>
    have he : lo = hi := by omega
    subst he
    exact ⟨hhi, hlo, hup⟩
  | succ fuel ih =>
    rw [bisect]
    by_cases hlt : lo < hi
    · rw [if_pos hlt]
      simp only []
      cases hm : before (lo + (hi - lo) / 2) with
      | true =>
        rw [if_pos rfl]
        refine ih _ _ (by omega) (by omega) hhi ?_ hup
        intro i hi'
        rcases Nat.lt_or_eq_of_le (Nat.le_of_lt_succ hi') with h | h
        · exact hmono i _ h (by omega) hm
        · rw [h]
          exact hm
      | false =>
        rw [if_neg (by simp)]
        refine ih _ _ (by omega) (by omega) (by omega) hlo ?_
        intro i hi' hin
        by_contra hne
        have htrue : before i = true := by simpa using hne
        rcases Nat.lt_or_eq_of_le hi' with h | h
        · have := hmono _ i h hin htrue
          rw [hm] at this
          cases this
        · rw [← h, hm] at htrue
          cases htrue
    · rw [if_neg hlt]
      have he : lo = hi := by omega
      subst he
      exact ⟨hhi, hlo, hup⟩

theorem le_bisect (before : Nat → Bool) (fuel lo hi : Nat) : lo ≤ bisect before fuel lo hi := by
  induction fuel generalizing lo hi with
  | zero => exact Nat.le_refl lo
  | succ fuel ih =>
    rw [bisect]
    split
    · simp only []
      split
      · exact Nat.le_trans (by omega) (ih _ _)
      · exact ih _ _
    · exact Nat.le_refl lo

/-- The loop over indices that are read, where a read can fail. -/
def bisect? (before : Nat → Option Bool) : Nat → Nat → Nat → Option Nat
  | 0, lo, _ => some lo
  | fuel + 1, lo, hi =>
      if lo < hi then
        let mid := lo + (hi - lo) / 2
        match before mid with
        | none => none
        | some true => bisect? before fuel (mid + 1) hi
        | some false => bisect? before fuel lo mid
      else some lo

/-- Where every read of the interval succeeds, it is the plain loop. -/
theorem bisect?_eq {read : Nat → Option Bool} {before : Nat → Bool} (fuel lo hi : Nat)
    (h : ∀ i, lo ≤ i → i < hi → read i = some (before i)) :
    bisect? read fuel lo hi = some (bisect before fuel lo hi) := by
  induction fuel generalizing lo hi with
  | zero => rfl
  | succ fuel ih =>
    rw [bisect?, bisect]
    by_cases hlt : lo < hi
    · rw [if_pos hlt, if_pos hlt]
      simp only []
      rw [h _ (by omega) (by omega)]
      cases before (lo + (hi - lo) / 2) with
      | true => exact ih _ _ (fun i hlo hhi => h i (by omega) hhi)
      | false => exact ih _ _ (fun i hlo hhi => h i hlo (by omega))
    · rw [if_neg hlt, if_neg hlt]

/-- The loop looks at the interval only. -/
theorem bisect_congr {before' : Nat → Bool} (fuel lo hi : Nat)
    (h : ∀ i, lo ≤ i → i < hi → before i = before' i) :
    bisect before fuel lo hi = bisect before' fuel lo hi := by
  have hself := @bisect?_eq (fun i => some (before i)) before fuel lo hi (fun _ _ _ => rfl)
  have hother := @bisect?_eq (fun i => some (before i)) before' fuel lo hi
    (fun i hlo hhi => congrArg some (h i hlo hhi))
  exact Option.some.inj (hself.symm.trans hother)

variable {idx : Nat}

theorem insertIdx_eq_append (x : α) (h : idx ≤ items.length) :
    items.insertIdx idx x = items.take idx ++ x :: items.drop idx := by
  induction items generalizing idx with
  | nil =>
    obtain rfl : idx = 0 := Nat.le_zero.mp h
    rfl
  | cons a items ih =>
    cases idx with
    | zero => rfl
    | succ idx => rw [insertIdx_succ_cons, ih (Nat.le_of_succ_le_succ h)]; rfl

/-- Writing an item over one with its own key keeps the order. -/
theorem Ascending.set {x a : α}
    (h : Ascending key items) (hget : items[idx]? = some a) (hkey : key x = key a) :
    Ascending key (items.set idx x) := by
  obtain ⟨hlt, rfl⟩ := List.getElem?_eq_some_iff.mp hget
  refine pairwise_iff_getElem.mpr (fun i j hi hj hij => ?_)
  rw [length_set] at hi hj
  have hold := pairwise_iff_getElem.mp h i j hi hj hij
  rw [getElem_set, getElem_set]
  split <;> split <;> simp_all

theorem Ascending.eraseIdx (h : Ascending key items) (idx : Nat) :
    Ascending key (items.eraseIdx idx) :=
  Pairwise.sublist (eraseIdx_sublist ..) h

section Order
variable [DecidableLT κ] [Trans (fun a b : κ => a < b) (fun a b : κ => a < b) (fun a b : κ => a < b)]
  {key : α → κ} {items : List α}

section
variable (h : Ascending key items)
include h

/-- The search splits an ascending list: below `k` to its left, not below to its
right. -/
theorem lowerBound_split (k : κ) : lowerBound key items k ≤ items.length ∧
      (∀ a ∈ items.take (lowerBound key items k), key a < k) ∧
      ∀ a ∈ items.drop (lowerBound key items k), ¬ key a < k := by
  have hmono : ∀ i j, i < j → j < items.length → below key items k j = true →
      below key items k i = true := by
    intro i j hij hj hbefore
    have hlt := pairwise_iff_getElem.mp h i j (by omega) hj hij
    rw [below_getElem hj, decide_eq_true_eq] at hbefore
    rw [below_getElem (show i < items.length by omega), decide_eq_true_eq]
    exact Trans.trans hlt hbefore
  obtain ⟨hle, hleft, hright⟩ := bisect_spec hmono items.length 0 items.length (by omega)
    (by omega) (by omega) (by simp) (by omega)
  refine ⟨hle, ?_, ?_⟩
  · intro a ha
    obtain ⟨i, hi, rfl⟩ := mem_take_iff_getElem.mp ha
    have hb := hleft i (Nat.lt_of_lt_of_le hi (Nat.min_le_left _ _))
    rw [below_getElem (Nat.lt_of_lt_of_le hi (Nat.min_le_right _ _))] at hb
    exact of_decide_eq_true hb
  · intro a ha
    obtain ⟨i, hi, rfl⟩ := mem_drop_iff_getElem.mp ha
    have hi' : lowerBound key items k + i < items.length := Nat.add_comm .. ▸ hi
    have hb := hright (lowerBound key items k + i) (Nat.le_add_right _ _) hi'
    rw [below_getElem hi'] at hb
    exact of_decide_eq_false hb

/-- The lower bound counts the smaller keys. -/
theorem lowerBound_eq_countP (k : κ) :
    lowerBound key items k = items.countP fun a => decide (key a < k) := by
  obtain ⟨hle, hleft, hright⟩ := lowerBound_split h k
  have hall : (items.take (lowerBound key items k)).countP (fun a => decide (key a < k)) =
      (items.take (lowerBound key items k)).length :=
    countP_eq_length.mpr fun a ha => decide_eq_true (hleft a ha)
  have hnone : (items.drop (lowerBound key items k)).countP (fun a => decide (key a < k)) = 0 :=
    countP_eq_zero.mpr fun a ha => by simpa using hright a ha
  calc lowerBound key items k
      = (items.take (lowerBound key items k)).countP (fun a => decide (key a < k)) +
        (items.drop (lowerBound key items k)).countP (fun a => decide (key a < k)) := by
        rw [hall, hnone, length_take_of_le hle, Nat.add_zero]
    _ = items.countP fun a => decide (key a < k) := by
        rw [← countP_append, take_append_drop]

/-- An item with key `k` is found at the lower bound. -/
theorem getElem?_lowerBound [Std.Irrefl (fun a b : κ => a < b)] {a : α}
    (ha : a ∈ items) : items[lowerBound key items (key a)]? = some a := by
  obtain ⟨hle, hleft, hright⟩ := lowerBound_split h (key a)
  generalize lowerBound key items (key a) = idx at *
  rw [← take_append_drop idx items] at ha h
  have hmem : a ∈ items.drop idx := by
    rcases mem_append.mp ha with ht | hd
    · exact absurd (hleft a ht) (Std.Irrefl.irrefl _)
    · exact hd
  cases hd : items.drop idx with
  | nil => rw [hd] at hmem; cases hmem
  | cons b rest =>
    have hget : items[idx]? = some b := by
      rw [← head?_drop, hd]
      rfl
    rw [hd] at hmem h hright
    rcases mem_cons.mp hmem with rfl | hrest
    · exact hget
    · have hlt := (pairwise_cons.mp (pairwise_append.mp h).2.1).1 a hrest
      exact absurd hlt (hright b mem_cons_self)

/-- Inserting at the lower bound of a key that is not there keeps the order. -/
theorem Ascending.insertIdx [Std.Trichotomous (fun a b : κ => a < b)]
    {x : α} (hnew : ∀ a ∈ items, key a ≠ key x) :
    Ascending key (items.insertIdx (lowerBound key items (key x)) x) := by
  obtain ⟨hle, hleft, hright⟩ := lowerBound_split h (key x)
  generalize lowerBound key items (key x) = idx at *
  have habove : ∀ a ∈ items.drop idx, key x < key a := by
    intro a ha
    by_contra hnot
    exact hnew a (mem_of_mem_drop ha) (Std.Trichotomous.trichotomous _ _ (hright a ha) hnot)
  rw [insertIdx_eq_append x hle]
  rw [← take_append_drop idx items] at h
  obtain ⟨htake, hdrop, hcross⟩ := pairwise_append.mp h
  refine pairwise_append.mpr ⟨htake, pairwise_cons.mpr ⟨habove, hdrop⟩, ?_⟩
  intro a ha b hb
  rcases mem_cons.mp hb with rfl | hb
  · exact hleft a ha
  · exact hcross a ha b hb

end

end Order

end OrderedIndex
