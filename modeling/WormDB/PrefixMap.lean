import WormDB.ByteCodec
import Mathlib.Data.List.Perm.Basic
import Mathlib.Data.List.Nodup

/-! # Finite maps with byte-string keys, scanned by prefix

A map is the list of its entries in ascending order of their keys.  Besides
lookup, insertion and removal there is the scan for a prefix.  A scan is
determined by the entries it must have: any ascending list of them is the scan
(`scan_eq`). -/
namespace PrefixMap
open List ByteCodec

structure ByteMap (V : Type) where
  entries : List (Bytes × V)
  ascending : entries.Pairwise (fun a b => a.1 < b.1)

variable {V : Type}

namespace ByteMap

def empty : ByteMap V := ⟨[], Pairwise.nil⟩

def get (m : ByteMap V) (key : Bytes) : Option V :=
  (m.entries.find? (fun e => decide (e.1 = key))).map Prod.snd

end ByteMap

/-- Insertion into an ascending list, in the place of an entry with the same key. -/
def insertSorted (key : Bytes) (v : V) : List (Bytes × V) → List (Bytes × V)
  | [] => [(key, v)]
  | e :: es =>
      if key < e.1 then (key, v) :: e :: es
      else if key = e.1 then (key, v) :: es
      else e :: insertSorted key v es

theorem bytes_lt_or_eq {a b : Bytes} (h : ¬ a < b) (hne : a ≠ b) : b < a := by
  rcases List.le_iff_lt_or_eq.mp (List.not_lt.mp h) with hlt | heq
  · exact hlt
  · exact absurd heq.symm hne

variable {key : Bytes} {v : V} {es : List (Bytes × V)}

theorem mem_insertSorted (h : es.Pairwise (fun a b => a.1 < b.1)) {e : Bytes × V} :
    e ∈ insertSorted key v es ↔ e = (key, v) ∨ e ∈ es ∧ e.1 ≠ key := by
  induction es with
  | nil => simp [insertSorted]
  | cons a es ih =>
    obtain ⟨ha, hes⟩ := pairwise_cons.mp h
    rw [insertSorted]
    split
    · -- everything is above the new key
      rename_i hlt
      rw [mem_cons]
      constructor
      · rintro (rfl | he)
        · exact .inl rfl
        · refine .inr ⟨he, ?_⟩
          rintro rfl
          rcases mem_cons.mp he with rfl | he
          · exact List.lt_irrefl _ hlt
          · exact List.lt_irrefl _ (List.lt_trans hlt (ha e he))
      · rintro (rfl | ⟨he, -⟩)
        · exact .inl rfl
        · exact .inr he
    · split
      · rename_i heq
        rw [mem_cons, mem_cons]
        constructor
        · rintro (rfl | he)
          · exact .inl rfl
          · refine .inr ⟨.inr he, ?_⟩
            rintro rfl
            exact List.lt_irrefl _ (heq ▸ ha e he)
        · rintro (rfl | ⟨rfl | he, hne⟩)
          · exact .inl rfl
          · exact absurd heq.symm hne
          · exact .inr he
      · rename_i hnot hne
        rw [mem_cons, ih hes, mem_cons]
        constructor
        · rintro (rfl | rfl | ⟨he, hek⟩)
          · exact .inr ⟨.inl rfl, fun heq => hne heq.symm⟩
          · exact .inl rfl
          · exact .inr ⟨.inr he, hek⟩
        · rintro (rfl | ⟨rfl | he, hek⟩)
          · exact .inr (.inl rfl)
          · exact .inl rfl
          · exact .inr (.inr ⟨he, hek⟩)

theorem insertSorted_ascending (h : es.Pairwise (fun a b => a.1 < b.1)) :
    (insertSorted key v es).Pairwise (fun a b => a.1 < b.1) := by
  induction es with
  | nil => exact pairwise_singleton _ _
  | cons a es ih =>
    obtain ⟨ha, hes⟩ := pairwise_cons.mp h
    rw [insertSorted]
    split
    · rename_i hlt
      refine pairwise_cons.mpr ⟨fun e he => ?_, h⟩
      rcases mem_cons.mp he with rfl | he
      · exact hlt
      · exact List.lt_trans hlt (ha e he)
    · split
      · rename_i heq
        refine pairwise_cons.mpr ⟨fun e he => ?_, hes⟩
        show key < e.1
        rw [heq]
        exact ha e he
      · rename_i hnot hne
        refine pairwise_cons.mpr ⟨fun e he => ?_, ih hes⟩
        rcases (mem_insertSorted hes).mp he with rfl | ⟨he, -⟩
        · exact bytes_lt_or_eq hnot hne
        · exact ha e he

namespace ByteMap

def insert (m : ByteMap V) (key : Bytes) (v : V) : ByteMap V :=
  ⟨insertSorted key v m.entries, insertSorted_ascending m.ascending⟩

def erase (m : ByteMap V) (key : Bytes) : ByteMap V :=
  ⟨m.entries.filter (fun e => decide (e.1 ≠ key)), m.ascending.filter _⟩

/-- The entries whose keys have the prefix, in ascending order. -/
def scan (m : ByteMap V) (pre : Bytes) : List (Bytes × V) :=
  m.entries.filter (fun e => pre.isPrefixOf e.1)

variable {m : ByteMap V} {key : Bytes} {v : V}

theorem mem_entries_iff : (key, v) ∈ m.entries ↔ m.get key = some v := by
  obtain ⟨es, hasc⟩ := m
  show (key, v) ∈ es ↔ (es.find? (fun e => decide (e.1 = key))).map Prod.snd = some v
  induction es with
  | nil => simp
  | cons a es ih =>
    obtain ⟨ha, hes⟩ := pairwise_cons.mp hasc
    rw [find?_cons, mem_cons]
    by_cases hk : a.1 = key
    · simp only [hk, decide_true, Option.map_some, Option.some.injEq]
      constructor
      · rintro (rfl | he)
        · rfl
        · exact absurd (hk ▸ ha _ he) (List.lt_irrefl _)
      · rintro rfl
        exact .inl (by rw [← hk])
    · simp only [hk, decide_false]
      rw [← ih hes]
      constructor
      · rintro (rfl | he)
        · exact absurd rfl hk
        · exact he
      · exact .inr

theorem get_ext {o : Option V} (h : ∀ v, (key, v) ∈ m.entries ↔ o = some v) : m.get key = o := by
  apply Option.ext
  intro v
  exact mem_entries_iff.symm.trans (h v)

@[simp] theorem get_empty (key : Bytes) : (empty : ByteMap V).get key = none := rfl

@[simp] theorem get_insert_self (m : ByteMap V) (key : Bytes) (v : V) :
    (m.insert key v).get key = some v := by
  refine mem_entries_iff.mp ((mem_insertSorted m.ascending).mpr (.inl rfl))

variable {k : Bytes}

theorem get_insert_of_ne (m : ByteMap V) (v : V) (h : k ≠ key) :
    (m.insert key v).get k = m.get k := by
  refine get_ext (fun w => (mem_insertSorted m.ascending).trans ?_)
  constructor
  · rintro (heq | ⟨he, -⟩)
    · exact absurd (Prod.mk.inj heq).1 h
    · exact mem_entries_iff.mp he
  · intro hw
    exact .inr ⟨mem_entries_iff.mpr hw, h⟩

@[simp] theorem get_erase_self (m : ByteMap V) (key : Bytes) : (m.erase key).get key = none := by
  refine get_ext (fun w => ?_)
  simp [erase]

theorem get_erase_of_ne (m : ByteMap V) (h : k ≠ key) : (m.erase key).get k = m.get k := by
  refine get_ext (fun w => ?_)
  rw [erase, mem_filter, mem_entries_iff]
  simp [h]

variable {pre : Bytes}

theorem mem_scan_iff : (key, v) ∈ m.scan pre ↔ pre <+: key ∧ m.get key = some v := by
  rw [scan, mem_filter, mem_entries_iff, isPrefixOf_iff_prefix, and_comm]

/-- **A scan is determined by its entries.** -/
theorem scan_eq (hasc : es.Pairwise (fun a b => a.1 < b.1))
    (hmem : ∀ key v, (key, v) ∈ es ↔ pre <+: key ∧ m.get key = some v) : m.scan pre = es := by
  have hscan : (m.scan pre).Pairwise (fun a b => a.1 < b.1) := m.ascending.filter _
  have hnodup : ∀ l : List (Bytes × V), l.Pairwise (fun a b => a.1 < b.1) → l.Nodup := by
    intro l hl
    refine hl.imp ?_
    rintro a b hlt rfl
    exact List.lt_irrefl _ hlt
  refine Perm.eq_of_pairwise ?_ hscan hasc ?_
  · intro a b _ _ hab hba
    exact absurd (List.lt_trans hab hba) (List.lt_irrefl _)
  · refine (perm_ext_iff_of_nodup (hnodup _ hscan) (hnodup _ hasc)).mpr ?_
    rintro ⟨key, v⟩
    rw [mem_scan_iff, hmem]

end ByteMap
end PrefixMap
