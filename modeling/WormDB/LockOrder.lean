import Mathlib.Tactic.Common
import Mathlib.Logic.Function.Basic
import Mathlib.Logic.Relation

/-! # Threads with locks

A thread is the sequence of locks it takes and gives back.  Threads run in any order; one that
comes to a lock which somebody holds waits there, unless both only read.  If the locks can be
numbered so that every thread takes a lock only while all it holds have smaller numbers
(`Climbs`), then no threads ever wait for each other in a circle (`climbs_no_deadlock`).

`Above lo` says this of a piece of a thread, whatever smaller locks are held around it; it is
kept by putting pieces one after the other (`Above.append`) and inside one another
(`Above.locking`, `Above.lockAll`), which is how code takes locks. -/
namespace LockOrder
open List

variable {L ι : Type}

inductive Mode where
  | shared
  | exclusive
  deriving DecidableEq

inductive Act (L : Type) where
  | acquire (lock : L) (mode : Mode)
  | release (lock : L)

abbrev Trace (L : Type) := List (Act L)

structure Thread (L : Type) where
  held : List (L × Mode)
  todo : Trace L

/-- Around `body`. -/
def locking (l : L) (mode : Mode) (body : Trace L) : Trace L :=
  .acquire l mode :: (body ++ [.release l])

section
variable [DecidableEq L] [DecidableEq ι]

def Act.apply (held : List (L × Mode)) : Act L → List (L × Mode)
  | acquire l mode => (l, mode) :: held
  | release l => held.filter (fun x => decide (x.1 ≠ l))

/-- Nobody holds the lock, or only readers do and one more comes. -/
def Free (s : ι → Thread L) (l : L) (mode : Mode) : Prop :=
  ∀ j m, (l, m) ∈ (s j).held → mode = .shared ∧ m = .shared

inductive Step : (ι → Thread L) → (ι → Thread L) → Prop where
  | act {s : ι → Thread L} (i : ι) {a : Act L} {rest : Trace L} (hnext : (s i).todo = a :: rest)
      (hfree : ∀ l mode, a = .acquire l mode → Free s l mode) :
      Step s (Function.update s i ⟨a.apply (s i).held, rest⟩)

def start (traces : ι → Trace L) : ι → Thread L := fun i => ⟨[], traces i⟩

def Reachable (traces : ι → Trace L) (s : ι → Thread L) : Prop :=
  Relation.ReflTransGen Step (start traces) s

end

/-- The next lock of thread `i` is one that thread `j` holds.  A reader behind a reader counts
too: the lock may make it wait when a writer waits already. -/
def WaitsFor (s : ι → Thread L) (i j : ι) : Prop :=
  ∃ l mode rest m, (s i).todo = .acquire l mode :: rest ∧ (l, m) ∈ (s j).held

/-- Threads wait for each other in a circle. -/
def Deadlocked (s : ι → Thread L) : Prop := ∃ i, Relation.TransGen (WaitsFor s) i i

/-! ## Climbing -/

section
variable [DecidableEq L] (rank : L → Nat)

/-- Every lock is above all that are held when it is taken. -/
def Climbs : List (L × Mode) → Trace L → Prop
  | _, [] => True
  | held, a :: rest =>
      (∀ l mode, a = .acquire l mode → ∀ x ∈ held, rank x.1 < rank l) ∧
        Climbs (a.apply held) rest

end

section
variable [DecidableEq L] [DecidableEq ι] {rank : L → Nat} {traces : ι → Trace L}
  {s s' : ι → Thread L}

theorem Step.climbs (hstep : Step s s') (h : ∀ i, Climbs rank (s i).held (s i).todo) (i : ι) :
    Climbs rank (s' i).held (s' i).todo := by
  cases hstep with
  | act j hnext hfree =>
    by_cases hi : i = j
    · subst hi
      have hclimbs := h i
      rw [hnext] at hclimbs
      simp only [Function.update_self]
      exact hclimbs.2
    · simp only [Function.update_of_ne hi]
      exact h i

theorem Reachable.climbs (hreach : Reachable traces s) (h : ∀ i, Climbs rank [] (traces i)) :
    ∀ i, Climbs rank (s i).held (s i).todo := by
  induction hreach with
  | refl => exact h
  | tail _ hstep ih => exact hstep.climbs ih

omit [DecidableEq ι] in
/-- Along a chain of waiting threads the locks go up. -/
theorem waits_up (h : ∀ i, Climbs rank (s i).held (s i).todo) {i j : ι} {l : L} {mode : Mode}
    {rest : Trace L} (hnext : (s i).todo = .acquire l mode :: rest)
    (hchain : Relation.TransGen (WaitsFor s) i j) :
    ∃ l' m, (l', m) ∈ (s j).held ∧ rank l ≤ rank l' := by
  induction hchain with
  | single hwait =>
    obtain ⟨l', mode', rest', m, hnext', hheld⟩ := hwait
    obtain ⟨⟨rfl, -⟩, -⟩ : (l = l' ∧ mode = mode') ∧ rest = rest' := by
      simpa using hnext.symm.trans hnext'
    exact ⟨l, m, hheld, Nat.le_refl _⟩
  | @tail j k _ hwait ih =>
    obtain ⟨l₁, m₁, hheld₁, hle⟩ := ih
    obtain ⟨l₂, mode₂, rest₂, m₂, hnext₂, hheld₂⟩ := hwait
    have hclimbs := h j
    rw [hnext₂] at hclimbs
    have hlt := hclimbs.1 l₂ mode₂ rfl _ hheld₁
    exact ⟨l₂, m₂, hheld₂, Nat.le_trans hle (Nat.le_of_lt hlt)⟩

/-- **Threads that climb never wait in a circle.** -/
theorem climbs_no_deadlock (rank : L → Nat) (h : ∀ i, Climbs rank [] (traces i)) (hreach : Reachable traces s) :
    ¬ Deadlocked s := by
  rintro ⟨i, hcycle⟩
  have hall := hreach.climbs h
  obtain ⟨j, ⟨l, mode, rest, m, hnext, -⟩, -⟩ := Relation.TransGen.head'_iff.mp hcycle
  obtain ⟨l', m', hheld, hle⟩ := waits_up hall hnext hcycle
  have hclimbs := hall i
  rw [hnext] at hclimbs
  have hlt := hclimbs.1 l mode rfl _ hheld
  exact absurd hlt (Nat.not_lt.mpr hle)

end

/-! ## Pieces of threads -/

section
variable [DecidableEq L] {rank : L → Nat} {lo lo' : Nat} {t t' : Trace L}
  {held : List (L × Mode)}

/-- What is held after a piece. -/
def heldAfter (held : List (L × Mode)) (t : Trace L) : List (L × Mode) := t.foldl Act.apply held

theorem heldAfter_cons (held : List (L × Mode)) (a : Act L) (t : Trace L) :
    heldAfter held (a :: t) = heldAfter (a.apply held) t := rfl

theorem heldAfter_append (held : List (L × Mode)) (t t' : Trace L) :
    heldAfter held (t ++ t') = heldAfter (heldAfter held t) t' := foldl_append

theorem climbs_append : Climbs rank held (t ++ t') ↔
    Climbs rank held t ∧ Climbs rank (heldAfter held t) t' := by
  induction t generalizing held with
  | nil => simp [Climbs, heldAfter]
  | cons a t ih =>
    simp only [cons_append, Climbs, ih, heldAfter, foldl_cons, and_assoc]

/-- With locks below `lo` held around it, the piece climbs and gives back what it takes. -/
def Above (rank : L → Nat) (lo : Nat) (t : Trace L) : Prop :=
  ∀ held : List (L × Mode), (∀ x ∈ held, rank x.1 < lo) →
    Climbs rank held t ∧ heldAfter held t = held

theorem Above.climbs (h : Above rank lo t) : Climbs rank [] t := (h [] (by simp)).1

theorem Above.nil : Above rank lo ([] : Trace L) := fun _ _ => ⟨trivial, rfl⟩

theorem Above.append (h : Above rank lo t) (h' : Above rank lo t') : Above rank lo (t ++ t') := by
  intro held hheld
  obtain ⟨hclimbs, hafter⟩ := h held hheld
  obtain ⟨hclimbs', hafter'⟩ := h' held hheld
  refine ⟨climbs_append.mpr ⟨hclimbs, ?_⟩, ?_⟩
  · rw [hafter]
    exact hclimbs'
  · rw [heldAfter_append, hafter, hafter']

theorem Above.flatMap {α : Type} {xs : List α} {f : α → Trace L}
    (h : ∀ x ∈ xs, Above rank lo (f x)) : Above rank lo (xs.flatMap f) := by
  induction xs with
  | nil => exact Above.nil
  | cons x xs ih =>
    rw [flatMap_cons]
    exact (h x mem_cons_self).append (ih (fun y hy => h y (mem_cons_of_mem x hy)))

/-- Locks taken one after the other, and others given back later. -/
def acquires (mode : Mode) (ls : List L) : Trace L := ls.map (fun l => .acquire l mode)

def releases (ls : List L) : Trace L := ls.map .release

variable {mode : Mode}

theorem climbs_acquires {ls : List L} (hheld : ∀ x ∈ held, ∀ l ∈ ls, rank x.1 < rank l)
    (hup : ls.Pairwise (fun l l' => rank l < rank l')) : Climbs rank held (acquires mode ls) := by
  induction ls generalizing held with
  | nil => trivial
  | cons l ls ih =>
    obtain ⟨hfirst, hrest⟩ := pairwise_cons.mp hup
    refine ⟨?_, ih ?_ hrest⟩
    · intro l' mode' hl x hx
      cases hl
      exact hheld x hx l mem_cons_self
    · intro x hx l' hl'
      rcases mem_cons.mp hx with rfl | hx
      · exact hfirst l' hl'
      · exact hheld x hx l' (mem_cons_of_mem l hl')

theorem heldAfter_acquires (mode : Mode) (ls : List L) :
    heldAfter held (acquires mode ls) = (ls.map (fun l => (l, mode))).reverse ++ held := by
  induction ls generalizing held with
  | nil => rfl
  | cons l ls ih =>
    rw [acquires, map_cons, heldAfter_cons, ← acquires, ih, Act.apply, map_cons,
      reverse_cons, append_assoc, singleton_append]

theorem climbs_releases (ls : List L) : Climbs rank held (releases ls) := by
  induction ls generalizing held with
  | nil => trivial
  | cons l ls ih => exact ⟨by simp, ih⟩

theorem heldAfter_releases (ls : List L) :
    heldAfter held (releases ls) = held.filter (fun x => decide (x.1 ∉ ls)) := by
  induction ls generalizing held with
  | nil => exact (filter_eq_self.mpr (by simp)).symm
  | cons l ls ih =>
    rw [releases, map_cons, heldAfter_cons, ← releases, ih, Act.apply, filter_filter]
    refine filter_congr (fun x _ => ?_)
    simp only [mem_cons, not_or, Bool.decide_and, Bool.and_comm]

/-- Several locks around a piece, taken upwards and given back in any order. -/
theorem Above.lockAll (ls ls' : List L) (hi : Nat) (hlo : ∀ l ∈ ls, lo ≤ rank l)
    (hup : ls.Pairwise (fun l l' => rank l < rank l')) (hlohi : lo ≤ hi)
    (hhi : ∀ l ∈ ls, rank l < hi) (hsame : ∀ l, l ∈ ls' ↔ l ∈ ls) (h : Above rank hi t) :
    Above rank lo (acquires mode ls ++ t ++ releases ls') := by
  intro held hheld
  have hbelow : ∀ x ∈ heldAfter held (acquires mode ls), rank x.1 < hi := by
    intro x hx
    rw [heldAfter_acquires, mem_append, mem_reverse, mem_map] at hx
    rcases hx with ⟨l, hl, rfl⟩ | hx
    · exact hhi l hl
    · exact Nat.lt_of_lt_of_le (hheld x hx) hlohi
  obtain ⟨hclimbs, hafter⟩ := h _ hbelow
  refine ⟨climbs_append.mpr ⟨climbs_append.mpr ⟨?_, hclimbs⟩, climbs_releases ls'⟩, ?_⟩
  · exact climbs_acquires
      (fun x hx l hl => Nat.lt_of_lt_of_le (hheld x hx) (hlo l hl)) hup
  · rw [heldAfter_append, heldAfter_append, hafter, heldAfter_acquires, heldAfter_releases,
      filter_append]
    have hgone : ((ls.map (fun l => (l, mode))).reverse).filter
        (fun x => decide (x.1 ∉ ls')) = [] := by
      rw [filter_eq_nil_iff]
      intro x hx
      rw [mem_reverse, mem_map] at hx
      obtain ⟨l, hl, rfl⟩ := hx
      simp [(hsame l).mpr hl]
    have hkept : held.filter (fun x => decide (x.1 ∉ ls')) = held := by
      rw [filter_eq_self]
      intro x hx
      rw [decide_eq_true_eq, hsame]
      intro hl
      exact absurd (hheld x hx) (Nat.not_lt.mpr (hlo x.1 hl))
    rw [hgone, hkept, nil_append]

/-- One lock around a piece. -/
theorem Above.locking {l : L} (hlo : lo ≤ rank l) (h : Above rank (rank l + 1) t) :
    Above rank lo (locking l mode t) :=
  Above.lockAll [l] [l] (rank l + 1) (by simpa using hlo) (pairwise_singleton _ l)
    (Nat.le_succ_of_le hlo) (by simp) (by simp) h

end

/-! ## Running one thread -/

section
variable [DecidableEq L]

/-- A thread gets through a piece that climbs, if nobody else holds what it takes. -/
theorem Reachable.advance [DecidableEq ι] {rank : L → Nat} {traces : ι → Trace L}
    {s : ι → Thread L} (hreach : Reachable traces s) (i : ι) {t rest : Trace L}
    (hnext : (s i).todo = t ++ rest) (hclimbs : Climbs rank (s i).held t)
    (hothers : ∀ l mode, .acquire l mode ∈ t → ∀ j, j ≠ i → ∀ m, (l, m) ∉ (s j).held) :
    Reachable traces (Function.update s i ⟨heldAfter (s i).held t, rest⟩) := by
  induction t generalizing s with
  | nil =>
    have hsame : (⟨heldAfter (s i).held [], rest⟩ : Thread L) = s i := by
      rw [show rest = (s i).todo from hnext.symm]
      rfl
    rw [hsame, Function.update_eq_self]
    exact hreach
  | cons a t ih =>
    rw [cons_append] at hnext
    have hfree : ∀ l mode, a = .acquire l mode → Free s l mode := by
      rintro l mode rfl j m hheld
      by_cases hj : j = i
      · -- its own locks are all below
        subst hj
        exact absurd (hclimbs.1 l mode rfl _ hheld) (Nat.lt_irrefl _)
      · exact absurd hheld (hothers l mode mem_cons_self j hj m)
    have hlater := ih (hreach.tail (Step.act i hnext hfree)) (by rw [Function.update_self])
    rw [Function.update_self, Function.update_idem] at hlater
    refine hlater hclimbs.2 ?_
    intro l mode hmem j hj m
    rw [Function.update_of_ne hj]
    exact hothers l mode (mem_cons_of_mem a hmem) j hj m

/-- **Two threads that each want what the other has** get there, and then nothing moves. -/
theorem two_deadlock {rank₁ rank₂ : L → Nat} {traces : Bool → Trace L} {t₁ t₂ r₁ r₂ : Trace L}
    {l₁ l₂ : L} {m₁ m₂ : Mode} (h₁ : traces false = t₁ ++ .acquire l₂ .exclusive :: r₁)
    (h₂ : traces true = t₂ ++ .acquire l₁ .exclusive :: r₂) (hclimbs₁ : Climbs rank₁ [] t₁)
    (hclimbs₂ : Climbs rank₂ [] t₂)
    (hapart : ∀ l mode, .acquire l mode ∈ t₂ → ∀ m, (l, m) ∉ heldAfter [] t₁)
    (hheld₁ : (l₁, m₁) ∈ heldAfter [] t₁) (hheld₂ : (l₂, m₂) ∈ heldAfter [] t₂) :
    ∃ s, Reachable traces s ∧ Deadlocked s ∧ ∀ s', ¬ Step s s' := by
  have hfirst := Reachable.advance (Relation.ReflTransGen.refl : Reachable traces (start traces))
    false h₁ hclimbs₁ (by simp [start])
  have hsecond := hfirst.advance true h₂ hclimbs₂ (by
    intro l mode hmem j hj m
    obtain rfl : j = false := by simpa using hj
    rw [Function.update_self]
    exact hapart l mode hmem m)
  refine ⟨_, hsecond, ?_⟩
  generalize hs : Function.update _ true _ = s
  have hs₁ : s false = ⟨heldAfter [] t₁, .acquire l₂ .exclusive :: r₁⟩ := by
    rw [← hs, Function.update_of_ne (by simp), Function.update_self]
    rfl
  have hs₂ : s true = ⟨heldAfter [] t₂, .acquire l₁ .exclusive :: r₂⟩ := by
    rw [← hs, Function.update_self, Function.update_of_ne (by simp)]
    rfl
  have hwait₁ : WaitsFor s false true :=
    ⟨l₂, .exclusive, r₁, m₂, by rw [hs₁], by rw [hs₂]; exact hheld₂⟩
  have hwait₂ : WaitsFor s true false :=
    ⟨l₁, .exclusive, r₂, m₁, by rw [hs₂], by rw [hs₁]; exact hheld₁⟩
  refine ⟨⟨false, Relation.TransGen.tail (Relation.TransGen.single hwait₁) hwait₂⟩, ?_⟩
  rintro s' ⟨i, hnext, hfree⟩
  cases i with
  | false =>
    rw [hs₁] at hnext
    injection hnext with hact
    have hnone := (hfree l₂ .exclusive hact.symm true m₂ (by rw [hs₂]; exact hheld₂)).1
    cases hnone
  | true =>
    rw [hs₂] at hnext
    injection hnext with hact
    have hnone := (hfree l₁ .exclusive hact.symm false m₁ (by rw [hs₁]; exact hheld₁)).1
    cases hnone

end

end LockOrder
