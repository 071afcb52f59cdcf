import WormDB.ByteCodec
import WormDB.OrderedIndex

/-! # Keys with a prefix, in an ascending list

In lexicographic order the keys with a given prefix stand together, and the first
of them is the first key that is not below the prefix (`prefix_of_between`).  So
two bisections find them: one for the prefix itself, and one from there on for the
first key without it (`prefixRange_spec`). -/
namespace PrefixOrder
open List ByteCodec OrderedIndex

variable {p k : Bytes}

/-- A key sorts after its prefixes. -/
theorem prefix_not_lt (h : p <+: k) : ¬ k < p := by
  obtain ⟨t, rfl⟩ := h
  induction p with
  | nil => exact not_lt_nil _
  | cons a p ih =>
    rw [cons_append, cons_lt_cons_iff]
    rintro (hlt | ⟨-, htail⟩)
    · exact Nat.lt_irrefl _ (UInt8.lt_iff_toNat_lt.mp hlt)
    · exact ih htail

/-- A key between a prefix and a key that has it has it too. -/
theorem prefix_of_between {k' : Bytes} (hle : ¬ k < p) (hlt : k < k') (h : p <+: k') : p <+: k := by
  obtain ⟨t, rfl⟩ := h
  induction p generalizing k with
  | nil => exact nil_prefix
  | cons a p ih =>
    cases k with
    | nil => exact absurd (nil_lt_cons a p) hle
    | cons b k =>
      rw [cons_append, cons_lt_cons_iff] at hlt
      rw [cons_lt_cons_iff] at hle
      rcases hlt with hba | ⟨rfl, htail⟩
      · exact absurd (.inl hba) hle
      · exact prefix_cons_inj b |>.mpr (ih (fun hk => hle (.inr ⟨rfl, hk⟩)) htail)

variable {α : Type} {key : α → Bytes} {items : List α}

/-- In an ascending list the item at an earlier index has the smaller key. -/
theorem lt_of_index (h : Ascending key items) {i j : Nat} (hij : i < j) (hj : j < items.length) :
    key items[i] < key items[j] :=
  pairwise_iff_getElem.mp h i j (by omega) hj hij

/-- The index has the prefix, or is left of the interval that is searched. -/
def hasPrefix (key : α → Bytes) (items : List α) (p : Bytes) (lo i : Nat) : Bool :=
  decide (i < lo) || (items[i]?.any (fun a => p.isPrefixOf (key a)))

/-- First index at or after `lo` without the prefix. -/
def prefixEnd (key : α → Bytes) (items : List α) (p : Bytes) (lo : Nat) : Nat :=
  bisect (hasPrefix key items p lo) items.length lo items.length

/-- **The two bisections find the keys with the prefix.** -/
theorem prefixRange_spec (h : Ascending key items) (p : Bytes) :
    lowerBound key items p ≤ prefixEnd key items p (lowerBound key items p) ∧
      prefixEnd key items p (lowerBound key items p) ≤ items.length ∧
      ∀ i (hi : i < items.length), p <+: key items[i] ↔
        lowerBound key items p ≤ i ∧ i < prefixEnd key items p (lowerBound key items p) := by
  obtain ⟨hle, hleft, hright⟩ := lowerBound_split h p
  unfold prefixEnd
  generalize lowerBound key items p = lo at *
  have hbelow : ∀ i (hi : i < items.length), i < lo → key items[i] < p := by
    intro i hi hlo
    exact hleft _ (mem_take_iff_getElem.mpr ⟨i, by omega, rfl⟩)
  have habove : ∀ i (hi : i < items.length), lo ≤ i → ¬ key items[i] < p := by
    intro i hi hlo
    exact hright _ (mem_drop_iff_getElem.mpr ⟨i - lo, by omega, by simp [hlo]⟩)
  have hread : ∀ i (hi : i < items.length), lo ≤ i →
      (hasPrefix key items p lo i = true ↔ p <+: key items[i]) := by
    intro i hi hlo
    simp [hasPrefix, hi, Nat.not_lt.mpr hlo]
  have hmono : ∀ i j, i < j → j < items.length → hasPrefix key items p lo j = true →
      hasPrefix key items p lo i = true := by
    intro i j hij hj hp
    by_cases hlo : i < lo
    · simp [hasPrefix, hlo]
    · rw [hread j hj (by omega)] at hp
      rw [hread i (by omega) (by omega)]
      exact prefix_of_between (habove i (by omega) (by omega)) (lt_of_index h hij hj) hp
  obtain ⟨hend, hin, hout⟩ := bisect_spec hmono items.length lo items.length (by omega) hle
    (Nat.le_refl _) (fun i hi => by simp [hasPrefix, hi]) (by omega)
  have hlo := le_bisect (hasPrefix key items p lo) items.length lo items.length
  refine ⟨hlo, hend, fun i hi => ?_⟩
  constructor
  · intro hp
    have hilo : lo ≤ i := by
      by_contra hlt
      exact prefix_not_lt hp (hbelow i hi (by omega))
    refine ⟨hilo, ?_⟩
    by_contra hge
    have hfalse := hout i (by omega) hi
    rw [(hread i hi hilo).mpr hp] at hfalse
    cases hfalse
  · rintro ⟨hilo, hlt⟩
    exact (hread i hi hilo).mp (hin i hlt)

end PrefixOrder
