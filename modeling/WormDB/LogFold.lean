import Mathlib.Data.List.Induction
import Mathlib.Data.List.Basic

/-! # Folds over an append-only log

A reader folds a log from its start.  What it observes after a longer log differs
from what it observed after a prefix only if one of the entries between changed
it (`exists_change`); a fact about every log is one about the empty log and one
more entry (`foldl_induction`).  `Latest` names the last entry with a property. -/
namespace LogFold
open List
variable {σ α β : Type} {f : σ → α → σ} {s : σ}

variable {motive : List α → σ → Prop}

/-- What holds of the empty log and is kept by one more entry holds of every log. -/
theorem foldl_induction (nil : motive [] s) (concat : ∀ log e, motive log (log.foldl f s) →
      motive (log ++ [e]) (f (log.foldl f s) e)) (log : List α) : motive log (log.foldl f s) := by
  induction log using List.reverseRecOn with
  | nil => exact nil
  | append_singleton log e ih =>
    rw [foldl_concat]
    exact concat log e ih

/-- The same from a prefix on. -/
theorem foldl_induction_from (seen : List α) (base : motive [] (seen.foldl f s))
    (concat : ∀ more e, motive more ((seen ++ more).foldl f s) →
      motive (more ++ [e]) (f ((seen ++ more).foldl f s) e)) (more : List α) :
    motive more ((seen ++ more).foldl f s) := by
  induction more using List.reverseRecOn with
  | nil =>
    rw [append_nil]
    exact base
  | append_singleton more e ih =>
    rw [← append_assoc, foldl_concat]
    exact concat more e ih

/-- **A change has a first entry that made it.** -/
theorem exists_change (observe : σ → β) {seen more : List α}
    (h : observe ((seen ++ more).foldl f s) ≠ observe (seen.foldl f s)) :
    ∃ before e after, more = before ++ e :: after ∧
      observe ((seen ++ before).foldl f s) = observe (seen.foldl f s) ∧
      observe (f ((seen ++ before).foldl f s) e) ≠ observe (seen.foldl f s) := by
  induction more using List.reverseRecOn with
  | nil =>
    rw [append_nil] at h
    exact absurd rfl h
  | append_singleton more e ih =>
    by_cases hsame : observe ((seen ++ more).foldl f s) = observe (seen.foldl f s)
    · refine ⟨more, e, [], rfl, hsame, ?_⟩
      rwa [← append_assoc, foldl_concat] at h
    · obtain ⟨before, e', after, rfl, heq, hne⟩ := ih hsame
      exact ⟨before, e', after ++ [e], by simp, heq, hne⟩

/-- A place in an extended list is its end or a place in the list. -/
theorem concat_eq_append_cons {xs ys zs : List α} {x y : α} (h : xs ++ [x] = ys ++ y :: zs) :
    (ys = xs ∧ y = x) ∨ ∃ rest, xs = ys ++ y :: rest := by
  rcases eq_nil_or_concat zs with rfl | ⟨rest, z, rfl⟩
  · obtain ⟨hfront, hlast⟩ := append_inj' h rfl
    exact .inl ⟨hfront.symm, (cons.inj hlast).1.symm⟩
  · have hassoc : xs ++ [x] = (ys ++ y :: rest) ++ [z] := by
      rw [h, append_assoc, cons_append, concat_eq_append]
    exact .inr ⟨rest, (append_inj' hassoc rfl).1⟩

/-! ## The last entry with a property -/

/-- The last entry of the log with the property, if one has it. -/
def Latest (p : α → Prop) (log : List α) : Option α → Prop
  | none => ∀ e ∈ log, ¬ p e
  | some e => ∃ front back, log = front ++ e :: back ∧ p e ∧ ∀ x ∈ back, ¬ p x

variable {p q : α → Prop} {log : List α} {o o' : Option α} {e x : α}

theorem Latest.mem (h : Latest p log (some e)) : e ∈ log ∧ p e := by
  obtain ⟨front, back, rfl, hp, -⟩ := h
  exact ⟨mem_append_right front mem_cons_self, hp⟩

/-- The new entry has the property. -/
theorem Latest.hit (h : p x) : Latest p (log ++ [x]) (some x) := by
  refine ⟨log, [], rfl, h, ?_⟩
  intro y hy
  cases hy

/-- The new entry has not. -/
theorem Latest.miss (h : Latest p log o) (hx : ¬ p x) : Latest p (log ++ [x]) o := by
  cases o with
  | none =>
    intro y hy
    rcases mem_append.mp hy with hold | hnew
    · exact h y hold
    · rwa [mem_singleton.mp hnew]
  | some e =>
    obtain ⟨front, back, rfl, hp, hback⟩ := h
    refine ⟨front, back ++ [x], by simp, hp, ?_⟩
    intro y hy
    rcases mem_append.mp hy with hold | hnew
    · exact hback y hold
    · rwa [mem_singleton.mp hnew]

theorem Latest.concat_cases (h : Latest p (log ++ [x]) o) :
    (p x ∧ o = some x) ∨ (¬ p x ∧ Latest p log o) := by
  cases o with
  | none =>
    refine .inr ⟨h x (mem_append_right log (mem_singleton_self x)), ?_⟩
    intro y hy
    exact h y (mem_append_left _ hy)
  | some e =>
    obtain ⟨front, back, heq, hp, hback⟩ := h
    rcases eq_nil_or_concat back with rfl | ⟨rest, z, rfl⟩
    · obtain ⟨-, hlast⟩ := append_inj' heq rfl
      obtain rfl : x = e := (cons.inj hlast).1
      exact .inl ⟨hp, rfl⟩
    · rw [concat_eq_append] at heq hback
      have hassoc : log ++ [x] = (front ++ e :: rest) ++ [z] := by
        rw [heq, append_assoc, cons_append]
      obtain ⟨rfl, hlast⟩ := append_inj' hassoc rfl
      obtain rfl : x = z := (cons.inj hlast).1
      refine .inr ⟨hback x (mem_append_right _ (mem_singleton_self x)), ?_⟩
      refine ⟨front, rest, rfl, hp, ?_⟩
      intro y hy
      exact hback y (mem_append_left _ hy)

theorem Latest.unique (h : Latest p log o) (h' : Latest p log o') : o = o' := by
  induction log using List.reverseRecOn with
  | nil =>
    have hnil : ∀ {o : Option α}, Latest p [] o → o = none := by
      rintro (_ | e) he
      · rfl
      · exact absurd he.mem.1 (not_mem_nil)
    rw [hnil h, hnil h']
  | append_singleton log x ih =>
    rcases h.concat_cases with ⟨hp, rfl⟩ | ⟨hp, hold⟩
    · rcases h'.concat_cases with ⟨-, rfl⟩ | ⟨hnp, -⟩
      · rfl
      · exact absurd hp hnp
    · rcases h'.concat_cases with ⟨hp', -⟩ | ⟨-, hold'⟩
      · exact absurd hp' hp
      · exact ih hold hold'

theorem Latest.congr (h : Latest p log o) (hpq : ∀ e ∈ log, (p e ↔ q e)) : Latest q log o := by
  cases o with
  | none =>
    intro e he hq
    exact h e he ((hpq e he).mpr hq)
  | some e =>
    obtain ⟨front, back, rfl, hp, hback⟩ := h
    have hmem : e ∈ front ++ e :: back := mem_append_right front mem_cons_self
    refine ⟨front, back, rfl, (hpq e hmem).mp hp, ?_⟩
    intro x hx hq
    exact hback x hx ((hpq x (by simp [hx])).mpr hq)

end LogFold
