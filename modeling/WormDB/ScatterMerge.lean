import Mathlib.Data.Finset.Card
import Mathlib.Data.Finset.Image
import WormDB.PeerJson
import WormDB.UnstableSort

/-! # The best results of all peers

`scatterVsearch` of `cluster/node.zig` merges the results of the peers one payload after the
other, sorts the items by descending score and keeps the first `top_k`.  The items are the first
best entries of their keys among all that was merged (`Holds.gather`).  An element that is
malformed makes its peer a failed one, but what stands in front of it was merged:
`scatter_top_iff` says when that does no harm. -/
namespace WormDB
open List ByteCodec PrefixMap

namespace Scatter
variable {F S : Type} [LinearOrder S] (parseFromSlice : Bytes → Option (Json F))
  (floatCast : F → S) (floatFromInt : Int64 → S)

def greater (a b : ScatterItem S) : Bool := decide (b.score < a.score)

/-- The items that are returned. -/
def scatterTop (sort : UnstableSort (greater (S := S))) (responses : List (Option Bytes))
    (topK : Nat) : Option (List (ScatterItem S)) := do
  let (_, st) ← gather parseFromSlice floatCast floatFromInt responses 0 empty
  let items := sort.run st.items
  return items.take (min items.length topK)

/-! ## What the payloads say -/

/-- The entries in front of the first malformed element, and whether there is none. -/
def readItems : List (Json F) → List (ScatterItem S) × Bool
  | [] => ([], true)
  | it :: rest =>
      match readItem floatCast floatFromInt it with
      | some (.ok item) => (item :: (readItems rest).1, (readItems rest).2)
      | _ => ([], false)

def readPayload (response : Option Bytes) : List (ScatterItem S) × Bool :=
  match response.bind parseFromSlice with
  | some (.array items) => readItems floatCast floatFromInt items
  | _ => ([], false)

/-- All that is merged, in its order. -/
def seen (responses : List (Option Bytes)) : List (ScatterItem S) :=
  responses.flatMap fun response => (readPayload parseFromSlice floatCast floatFromInt response).1

/-- The peers that have not failed. -/
def answered (responses : List (Option Bytes)) : List (Option Bytes) :=
  responses.filter fun response => (readPayload parseFromSlice floatCast floatFromInt response).2

/-- The entries of the peers that have not failed. -/
def candidates (responses : List (Option Bytes)) : List (ScatterItem S) :=
  seen parseFromSlice floatCast floatFromInt
    (answered parseFromSlice floatCast floatFromInt responses)

def keys (entries : List (ScatterItem S)) : Finset Bytes := (entries.map (·.key)).toFinset

/-- The `k` best of some entries, one for each key. -/
structure TopK (entries : List (ScatterItem S)) (k : Nat) (out : List (ScatterItem S)) : Prop where
  length : out.length = min k (keys entries).card
  distinct : out.Pairwise fun a b => a.key ≠ b.key
  descending : out.Pairwise fun a b => b.score ≤ a.score
  best : ∀ x ∈ out, x ∈ entries ∧ ∀ y ∈ entries, y.key = x.key → y.score ≤ x.score
  omitted : ∀ y ∈ entries, (∀ x ∈ out, x.key ≠ y.key) →
    ∀ last, out.getLast? = some last → y.score ≤ last.score

/-- The first entry of its key with the highest score of that key. -/
def Winner (entries : List (ScatterItem S)) (x : ScatterItem S) : Prop :=
  ∃ pre post, entries = pre ++ x :: post ∧
    (∀ y ∈ pre, y.key = x.key → y.score < x.score) ∧
    ∀ y ∈ post, y.key = x.key → y.score ≤ x.score

/-- A winner that only failed peers have sent is outscored by `k` keys. -/
def Harmless (responses : List (Option Bytes)) (k : Nat) : Prop :=
  ∀ x, Winner (seen parseFromSlice floatCast floatFromInt responses) x →
    x ∉ candidates parseFromSlice floatCast floatFromInt responses →
      k ≤ (keys ((seen parseFromSlice floatCast floatFromInt responses).filter
        fun y => decide (x.score < y.score))).card

/-! ## Winners -/

section
variable {entries : List (ScatterItem S)} {x item : ScatterItem S}

theorem Winner.mem (h : Winner entries x) : x ∈ entries := by
  obtain ⟨pre, post, rfl, -⟩ := h
  exact mem_append_right _ mem_cons_self

theorem Winner.best (h : Winner entries x) {y : ScatterItem S} (hy : y ∈ entries)
    (hkey : y.key = x.key) : y.score ≤ x.score := by
  obtain ⟨pre, post, rfl, hpre, hpost⟩ := h
  rcases mem_append.mp hy with hy | hy
  · exact le_of_lt (hpre y hy hkey)
  · rcases mem_cons.mp hy with rfl | hy
    · exact le_refl _
    · exact hpost y hy hkey

theorem winner_concat_iff : Winner (entries ++ [item]) x ↔
    (Winner entries x ∧ (item.key = x.key → item.score ≤ x.score)) ∨
      (x = item ∧ ∀ y ∈ entries, y.key = item.key → y.score < item.score) := by
  constructor
  · rintro ⟨pre, post, heq, hpre, hpost⟩
    rcases eq_nil_or_concat post with rfl | ⟨post, last, rfl⟩
    · obtain ⟨rfl, hlast⟩ := append_inj' heq rfl
      obtain rfl : item = x := by simpa using hlast
      exact .inr ⟨rfl, hpre⟩
    · rw [concat_eq_append, ← cons_append, ← append_assoc] at heq
      obtain ⟨rfl, hlast⟩ := append_inj' heq rfl
      obtain rfl : item = last := by simpa using hlast
      refine .inl ⟨⟨pre, post, rfl, hpre, fun y hy => hpost y ?_⟩, hpost item ?_⟩
      · rw [concat_eq_append]
        exact mem_append_left _ hy
      · rw [concat_eq_append]
        exact mem_append_right _ mem_cons_self
  · rintro (⟨⟨pre, post, rfl, hpre, hpost⟩, hitem⟩ | ⟨rfl, hall⟩)
    · refine ⟨pre, post ++ [item], by simp, hpre, fun y hy => ?_⟩
      rcases mem_append.mp hy with hy | hy
      · exact hpost y hy
      · obtain rfl := mem_singleton.mp hy
        exact hitem
    · exact ⟨entries, [], rfl, hall, by simp⟩

/-- Every key has a winner. -/
theorem exists_winner (hx : x ∈ entries) : ∃ w, Winner entries w ∧ w.key = x.key := by
  induction entries using List.reverseRecOn generalizing x with
  | nil => cases hx
  | append_singleton entries item ih =>
    by_cases hnew : ∀ y ∈ entries, y.key = item.key → y.score < item.score
    · rcases mem_append.mp hx with hx | hx
      · by_cases hkey : x.key = item.key
        · exact ⟨item, winner_concat_iff.mpr (.inr ⟨rfl, hnew⟩), hkey.symm⟩
        · obtain ⟨w, hw, hwkey⟩ := ih hx
          refine ⟨w, winner_concat_iff.mpr (.inl ⟨hw, fun h => ?_⟩), hwkey⟩
          exact absurd (hwkey.symm.trans h.symm) hkey
      · obtain rfl := mem_singleton.mp hx
        exact ⟨x, winner_concat_iff.mpr (.inr ⟨rfl, hnew⟩), rfl⟩
    · push Not at hnew
      obtain ⟨held, hheld, hsame, hscore⟩ := hnew
      have hold : ∀ y ∈ entries, ∃ w, Winner (entries ++ [item]) w ∧ w.key = y.key := by
        intro y hy
        obtain ⟨w, hw, hwkey⟩ := ih hy
        refine ⟨w, winner_concat_iff.mpr (.inl ⟨hw, fun h => ?_⟩), hwkey⟩
        exact le_trans hscore (hw.best hheld (hsame.trans h))
      rcases mem_append.mp hx with hx | hx
      · exact hold x hx
      · obtain rfl := mem_singleton.mp hx
        obtain ⟨w, hw, hwkey⟩ := hold held hheld
        exact ⟨w, hw, hwkey.trans hsame⟩

end

/-! ## Merging -/

/-- The items are the winners of what was merged. -/
structure Holds (st : Scatter S) (entries : List (ScatterItem S)) : Prop where
  linked : st.Linked
  items : ∀ x, x ∈ st.items ↔ Winner entries x

theorem holds_empty : Holds (empty : Scatter S) [] where
  linked := linked_empty
  items x := by
    constructor
    · rintro ⟨⟩
    · intro h
      cases h.mem

section
variable {parseFromSlice floatCast floatFromInt} {st st' : Scatter S}
  {entries : List (ScatterItem S)} {item : ScatterItem S}

omit [LinearOrder S] in
/-- The item of a key is the only one. -/
theorem Linked.eq_of_key (h : st.Linked) {x y : ScatterItem S} (hx : x ∈ st.items)
    (hy : y ∈ st.items) (hkey : x.key = y.key) : x = y := by
  obtain ⟨i, hi⟩ := mem_iff_getElem?.mp hx
  obtain ⟨j, hj⟩ := mem_iff_getElem?.mp hy
  have hsame := h.indexed i x hi
  rw [hkey, h.indexed j y hj] at hsame
  cases hsame
  rw [hi] at hj
  exact Option.some.inj hj

/-- **One entry more.** -/
theorem Holds.put (h : Holds st entries) (item : ScatterItem S) :
    ∃ st', st.put item = some st' ∧ Holds st' (entries ++ [item]) := by
  obtain ⟨st', hput, hlinked⟩ := h.linked.put item
  refine ⟨st', hput, hlinked, fun x => ?_⟩
  rw [winner_concat_iff, ← h.items]
  rcases h.linked.put_cases item with
    ⟨i, held, hget, hheld, hkey, ⟨hless, hrun⟩ | ⟨hless, hrun⟩⟩ | ⟨hget, hrun⟩
  · -- the held item is replaced
    cases hput.symm.trans hrun
    have hmem : held ∈ st.items := mem_of_getElem? hheld
    have hbest : ∀ y ∈ entries, y.key = item.key → y.score < item.score := fun y hy hsame =>
      lt_of_le_of_lt (((h.items held).mp hmem).best hy (hsame.trans hkey.symm)) hless
    constructor
    · intro hx
      obtain ⟨j, hj⟩ := mem_iff_getElem?.mp hx
      by_cases hij : i = j
      · subst hij
        obtain ⟨hlt, -⟩ := List.getElem?_eq_some_iff.mp hheld
        rw [getElem?_set_self hlt] at hj
        exact .inr ⟨(Option.some.inj hj).symm, hbest⟩
      · rw [getElem?_set_ne hij] at hj
        refine .inl ⟨mem_of_getElem? hj, fun hsame => ?_⟩
        have hother := h.linked.indexed j x hj
        rw [← hsame, hget] at hother
        exact absurd (Option.some.inj hother) hij
    · rintro (⟨hx, hsame⟩ | ⟨rfl, -⟩)
      · obtain ⟨j, hj⟩ := mem_iff_getElem?.mp hx
        by_cases hij : i = j
        · subst hij
          cases hheld.symm.trans hj
          exact absurd hless (not_lt_of_ge (hsame hkey.symm))
        · exact mem_iff_getElem?.mpr ⟨j, by rw [getElem?_set_ne hij, hj]⟩
      · obtain ⟨hlt, -⟩ := List.getElem?_eq_some_iff.mp hheld
        exact mem_iff_getElem?.mpr ⟨i, getElem?_set_self hlt⟩
  · -- the held item stays
    rw [hput] at hrun
    obtain rfl := Option.some.inj hrun
    have hmem : held ∈ st'.items := mem_of_getElem? hheld
    constructor
    · intro hx
      refine .inl ⟨hx, fun hsame => ?_⟩
      obtain rfl := h.linked.eq_of_key hx hmem (hsame.symm.trans hkey.symm)
      exact le_of_not_gt hless
    · rintro (⟨hx, -⟩ | ⟨-, hall⟩)
      · exact hx
      · exact absurd (hall held ((h.items held).mp hmem).mem hkey) hless
  · -- the key is new
    cases hput.symm.trans hrun
    have hnew : ∀ y ∈ entries, y.key ≠ item.key := by
      intro y hy hsame
      obtain ⟨w, hw, hwkey⟩ := exists_winner hy
      obtain ⟨j, hj⟩ := mem_iff_getElem?.mp ((h.items w).mpr hw)
      have hindexed := h.linked.indexed j w hj
      rw [hwkey, hsame, hget] at hindexed
      cases hindexed
    rw [mem_append, mem_singleton]
    constructor
    · rintro (hx | rfl)
      · exact .inl ⟨hx, fun hsame => absurd hsame.symm (hnew x ((h.items x).mp hx).mem)⟩
      · exact .inr ⟨rfl, fun y hy hsame => absurd hsame (hnew y hy)⟩
    · rintro (⟨hx, -⟩ | ⟨rfl, -⟩)
      · exact .inl hx
      · exact .inr rfl

theorem Holds.mergeItems (h : Holds st entries) (items : List (Json F)) :
    ∃ r st', mergeItems floatCast floatFromInt items st = some (r, st') ∧
      (r = .ok () ↔ (readItems floatCast floatFromInt items).2 = true) ∧
      Holds st' (entries ++ (readItems floatCast floatFromInt items).1) := by
  induction items generalizing st entries with
  | nil =>
    refine ⟨.ok (), st, rfl, ⟨fun _ => rfl, fun _ => rfl⟩, ?_⟩
    rw [readItems, append_nil]
    exact h
  | cons it rest ih =>
    obtain ⟨r, hread⟩ := @readItem_total _ _ floatCast floatFromInt it
    rw [Scatter.mergeItems, readItems, hread, Option.bind_eq_bind, Option.bind_some]
    cases r with
    | error e =>
      refine ⟨.error e, st, rfl, ⟨by rintro ⟨⟩, by rintro ⟨⟩⟩, ?_⟩
      rw [append_nil]
      exact h
    | ok item =>
      obtain ⟨st', hput, hheld⟩ := h.put item
      obtain ⟨r, st'', hrun, hok, hholds⟩ := ih hheld
      rw [append_assoc, singleton_append] at hholds
      simp only [hput]
      exact ⟨r, st'', hrun, hok, hholds⟩

theorem Holds.mergeScatterPayload (h : Holds st entries) (payload : Bytes) :
    ∃ r st', mergeScatterPayload parseFromSlice floatCast floatFromInt payload st = some (r, st') ∧
      (r = .ok () ↔ (readPayload parseFromSlice floatCast floatFromInt (some payload)).2 = true) ∧
      Holds st' (entries ++
        (readPayload parseFromSlice floatCast floatFromInt (some payload)).1) := by
  rw [Scatter.mergeScatterPayload, readPayload, Option.bind_some]
  cases parseFromSlice payload with
  | none =>
    refine ⟨_, st, rfl, ⟨by rintro ⟨⟩, by rintro ⟨⟩⟩, ?_⟩
    rw [append_nil]
    exact h
  | some parsed =>
    cases parsed with
    | array items => exact h.mergeItems items
    | _ =>
      refine ⟨_, st, rfl, ⟨by rintro ⟨⟩, by rintro ⟨⟩⟩, ?_⟩
      rw [append_nil]
      exact h

/-- **All payloads.**  The items are the winners of what was merged, and every peer is counted as
failed whose payload is not well formed. -/
theorem Holds.gather (h : Holds st entries) (responses : List (Option Bytes)) (failed : Nat) :
    ∃ st', gather parseFromSlice floatCast floatFromInt responses failed st =
        some (failed + responses.countP fun response =>
          !(readPayload parseFromSlice floatCast floatFromInt response).2, st') ∧
      Holds st' (entries ++ seen parseFromSlice floatCast floatFromInt responses) := by
  induction responses generalizing st entries failed with
  | nil =>
    refine ⟨st, rfl, ?_⟩
    rw [seen, flatMap_nil, append_nil]
    exact h
  | cons response rest ih =>
    rw [seen, flatMap_cons, ← append_assoc, countP_cons]
    cases response with
    | none =>
      obtain ⟨st', hrun, hholds⟩ := ih h (failed + 1)
      refine ⟨st', ?_, ?_⟩
      · rw [Scatter.gather, hrun, add_assoc, add_comm 1]
        rfl
      · rw [readPayload, Option.bind_none, append_nil]
        exact hholds
    | some payload =>
      obtain ⟨r, st', hmerge, hok, hheld⟩ := @Holds.mergeScatterPayload _ _ _ parseFromSlice
        floatCast floatFromInt _ _ h payload
      rw [Scatter.gather, hmerge]
      cases r with
      | error e =>
        have hfailed :
            (readPayload parseFromSlice floatCast floatFromInt (some payload)).2 = false := by
          cases hsecond : (readPayload parseFromSlice floatCast floatFromInt (some payload)).2 with
          | false => rfl
          | true => cases hok.mpr hsecond
        obtain ⟨st'', hrun, hholds⟩ := ih hheld (failed + 1)
        refine ⟨st'', ?_, hholds⟩
        simp only [hfailed, hrun, add_assoc, add_comm 1]
        rfl
      | ok u =>
        obtain ⟨st'', hrun, hholds⟩ := ih hheld failed
        refine ⟨st'', ?_, hholds⟩
        simp only [hok.mp rfl, hrun]
        rfl

end

/-! ## The first `k` of a descending list -/

section
variable {entries items : List (ScatterItem S)} {k : Nat} {x : ScatterItem S}

omit [LinearOrder S] in
theorem mem_keys {key : Bytes} : key ∈ keys entries ↔ ∃ y ∈ entries, y.key = key := by
  rw [keys, mem_toFinset, mem_map]

omit [LinearOrder S] in
/-- As many items as keys, where each key has one. -/
theorem length_eq_card_keys (hdistinct : items.Pairwise fun a b => a.key ≠ b.key)
    (hsame : ∀ key, (∃ x ∈ items, x.key = key) ↔ ∃ y ∈ entries, y.key = key) :
    items.length = (keys entries).card := by
  have hkeys : keys entries = (items.map (·.key)).toFinset := by
    ext key
    rw [mem_keys, ← hsame, mem_toFinset, mem_map]
  rw [hkeys, toFinset_card_of_nodup (pairwise_map.mpr hdistinct), length_map]

/-- What is above one of the first `k` is among them too. -/
theorem above_lt_of_mem_take (hdesc : items.Pairwise fun a b => b.score ≤ a.score)
    (hx : x ∈ items.take k) : (items.filter fun y => decide (x.score < y.score)).length < k := by
  rw [← take_append_drop k items] at hdesc
  have hrest : (items.drop k).filter (fun y => decide (x.score < y.score)) = [] := by
    rw [filter_eq_nil_iff]
    intro y hy
    simpa using (pairwise_append.mp hdesc).2.2 x hx y hy
  have hfirst : ((items.take k).filter fun y => decide (x.score < y.score)).length <
      (items.take k).length := by
    refine length_filter_lt_length_iff_exists.mpr ⟨x, hx, ?_⟩
    simp
  rw [← take_append_drop k items, filter_append, hrest, append_nil]
  exact lt_of_lt_of_le hfirst (length_take_le k items)

/-- An item is among the first `k` where only items above it stand in front of it. -/
theorem mem_take_of_above {pre post : List (ScatterItem S)} (heq : items = pre ++ x :: post)
    (hpre : ∀ y ∈ pre, x.score < y.score)
    (hfew : (items.filter fun y => decide (x.score < y.score)).length < k) :
    x ∈ items.take k := by
  have hall : pre.filter (fun y => decide (x.score < y.score)) = pre :=
    filter_eq_self.mpr fun y hy => decide_eq_true (hpre y hy)
  have hlen : pre.length < k := by
    rw [heq, filter_append, length_append, hall] at hfew
    omega
  rw [heq, take_append]
  refine mem_append_right _ ?_
  obtain ⟨n, hn⟩ : ∃ n, k - pre.length = n + 1 := ⟨k - pre.length - 1, by omega⟩
  rw [hn, take_succ_cons]
  exact mem_cons_self

/-! ## Sorts that favour one item -/

/-- Descending scores, and the key in front of the others with its score. -/
def favours (key : Bytes) (a b : ScatterItem S) : Bool :=
  decide (b.score < a.score ∨ (a.score = b.score ∧ (a.key = key ∨ b.key ≠ key)))

theorem favours_trans (key : Bytes) (a b c : ScatterItem S) (hab : favours key a b = true)
    (hbc : favours key b c = true) : favours key a c = true := by
  simp only [favours, decide_eq_true_eq] at hab hbc ⊢
  rcases hab with hab | ⟨hab, hkey⟩
  · rcases hbc with hbc | ⟨hbc, -⟩
    · exact .inl (lt_trans hbc hab)
    · exact .inl (hbc ▸ hab)
  · rcases hbc with hbc | ⟨hbc, hkey'⟩
    · exact .inl (hab ▸ hbc)
    · refine .inr ⟨hab.trans hbc, ?_⟩
      rcases hkey with hkey | hkey
      · exact .inl hkey
      · exact .inr (hkey'.resolve_left hkey)

theorem favours_total (key : Bytes) (a b : ScatterItem S) :
    (favours key a b || favours key b a) = true := by
  simp only [favours, Bool.or_eq_true, decide_eq_true_eq]
  rcases lt_trichotomy a.score b.score with hlt | heq | hlt
  · exact .inr (.inl hlt)
  · by_cases hkey : b.key = key
    · exact .inr (.inr ⟨heq.symm, .inl hkey⟩)
    · exact .inl (.inr ⟨heq, .inr hkey⟩)
  · exact .inl (.inl hlt)

theorem not_greater_of_favours (key : Bytes) (a b : ScatterItem S) (h : favours key a b = true) :
    greater b a = false := by
  simp only [favours, decide_eq_true_eq] at h
  rw [greater, decide_eq_false_iff_not]
  rcases h with h | ⟨h, -⟩
  · exact not_lt_of_gt h
  · exact not_lt_of_ge (le_of_eq h.symm)

def favouring (key : Bytes) : UnstableSort (greater (S := S)) :=
  UnstableSort.byOrder (favours key) (favours_trans key) (favours_total key)
    (not_greater_of_favours key)

/-- The favoured item has only items above it in front of it. -/
theorem favouring_run (hdistinct : items.Pairwise fun a b => a.key ≠ b.key) (hx : x ∈ items) :
    ∃ pre post, (favouring x.key).run items = pre ++ x :: post ∧ ∀ y ∈ pre, x.score < y.score := by
  have hmem : x ∈ (favouring x.key).run items := (favouring x.key).mem_run.mpr hx
  obtain ⟨pre, post, heq⟩ := append_of_mem hmem
  refine ⟨pre, post, heq, fun y hy => ?_⟩
  have horder := UnstableSort.byOrder_pairwise (favours_trans x.key) (favours_total x.key)
    (not_greater_of_favours x.key) items
  have hnodup : ((favouring x.key).run items).Pairwise fun a b => a.key ≠ b.key :=
    (((favouring x.key).perm items).pairwise_iff fun h => h.symm).mpr hdistinct
  rw [show (UnstableSort.byOrder _ _ _ _).run items = pre ++ x :: post from heq] at horder
  rw [heq] at hnodup
  have hle := (pairwise_append.mp horder).2.2 y hy x mem_cons_self
  have hne := (pairwise_append.mp hnodup).2.2 y hy x mem_cons_self
  simp only [favours, decide_eq_true_eq] at hle
  rcases hle with hle | ⟨-, hkey | hkey⟩
  · exact hle
  · exact absurd hkey hne
  · exact absurd rfl hkey

end

/-! ## The merge and the cap -/

section
variable {parseFromSlice floatCast floatFromInt} {st : Scatter S}
  {entries : List (ScatterItem S)} {k : Nat}

omit [LinearOrder S] in
theorem Linked.distinct (h : st.Linked) : st.items.Pairwise fun a b => a.key ≠ b.key := by
  rw [pairwise_iff_getElem]
  intro i j hi hj hij hkey
  have hfirst := h.indexed i st.items[i] (getElem?_eq_getElem hi)
  rw [hkey, h.indexed j st.items[j] (getElem?_eq_getElem hj)] at hfirst
  have hsame := Option.some.inj hfirst
  omega

/-- As many items are above a score as keys have an entry above it. -/
theorem Holds.card_above (h : Holds st entries) (s : S) :
    (st.items.filter fun y => decide (s < y.score)).length =
      (keys (entries.filter fun y => decide (s < y.score))).card := by
  refine length_eq_card_keys (h.linked.distinct.filter _) (fun key => ?_)
  simp only [mem_filter, decide_eq_true_eq]
  constructor
  · rintro ⟨x, ⟨hx, hscore⟩, rfl⟩
    exact ⟨x, ⟨((h.items x).mp hx).mem, hscore⟩, rfl⟩
  · rintro ⟨y, ⟨hy, hscore⟩, rfl⟩
    obtain ⟨w, hw, hwkey⟩ := exists_winner hy
    exact ⟨w, ⟨(h.items w).mpr hw, lt_of_lt_of_le hscore (hw.best hy hwkey.symm)⟩, hwkey⟩

theorem Holds.length_items (h : Holds st entries) :
    st.items.length = (keys entries).card := by
  refine length_eq_card_keys h.linked.distinct (fun key => ?_)
  constructor
  · rintro ⟨x, hx, rfl⟩
    exact ⟨x, ((h.items x).mp hx).mem, rfl⟩
  · rintro ⟨y, hy, rfl⟩
    obtain ⟨w, hw, hwkey⟩ := exists_winner hy
    exact ⟨w, (h.items w).mpr hw, hwkey⟩

/-- The items are sorted and capped. -/
theorem scatterTop_eq (sort : UnstableSort (greater (S := S))) (responses : List (Option Bytes)) :
    ∃ st, Holds st (seen parseFromSlice floatCast floatFromInt responses) ∧
      scatterTop parseFromSlice floatCast floatFromInt sort responses k =
        some ((sort.run st.items).take k) := by
  obtain ⟨st, hrun, hholds⟩ := @Holds.gather _ _ _ parseFromSlice floatCast floatFromInt _ _
    holds_empty responses 0
  refine ⟨st, hholds, ?_⟩
  rw [scatterTop, hrun, Option.bind_eq_bind, Option.bind_some]
  simp only
  rw [Nat.min_comm, ← take_eq_take_min]
  rfl

omit [LinearOrder S] in
theorem candidates_subset (responses : List (Option Bytes)) {x : ScatterItem S}
    (hx : x ∈ candidates parseFromSlice floatCast floatFromInt responses) :
    x ∈ seen parseFromSlice floatCast floatFromInt responses := by
  obtain ⟨response, hresponse, hread⟩ := mem_flatMap.mp hx
  exact mem_flatMap.mpr ⟨response, (mem_filter.mp hresponse).1, hread⟩

/-- The first `k` items are the `k` best candidates, where all of them are candidates. -/
theorem Holds.topK {cands : List (ScatterItem S)} (h : Holds st entries)
    (hsub : ∀ x ∈ cands, x ∈ entries) (sort : UnstableSort (greater (S := S)))
    (hfound : ∀ x ∈ (sort.run st.items).take k, x ∈ cands) :
    TopK cands k ((sort.run st.items).take k) := by
  have hdesc : (sort.run st.items).Pairwise fun a b => b.score ≤ a.score :=
    (sort.sorted st.items).imp fun hab => by simpa [greater] using hab
  have hdistinct : (sort.run st.items).Pairwise fun a b => a.key ≠ b.key :=
    ((sort.perm st.items).pairwise_iff fun hab => hab.symm).mpr h.linked.distinct
  have hwinner : ∀ x ∈ (sort.run st.items).take k, Winner entries x := fun x hx =>
    (h.items x).mp (sort.mem_run.mp (mem_of_mem_take hx))
  refine ⟨?_, hdistinct.sublist (take_sublist _ _), hdesc.sublist (take_sublist _ _),
    fun x hx => ⟨hfound x hx, fun y hy hkey => (hwinner x hx).best (hsub y hy) hkey⟩, ?_⟩
  · -- the keys of the first `k` are keys of candidates, and these are keys of items
    have hmore : (keys cands).card ≤ (keys entries).card := by
      refine Finset.card_le_card (fun key hkey => ?_)
      obtain ⟨y, hy, rfl⟩ := mem_keys.mp hkey
      exact mem_keys.mpr ⟨y, hsub y hy, rfl⟩
    have hless : ((sort.run st.items).take k).length ≤ (keys cands).card := by
      rw [length_eq_card_keys (hdistinct.sublist (take_sublist k _)) (fun key => Iff.rfl)]
      refine Finset.card_le_card (fun key hkey => ?_)
      obtain ⟨y, hy, rfl⟩ := mem_keys.mp hkey
      exact mem_keys.mpr ⟨y, hfound y hy, rfl⟩
    have hlength := (sort.perm st.items).length_eq.trans h.length_items
    rw [length_take] at hless ⊢
    omega
  · intro y hy hnot last hlast
    obtain ⟨w, hw, hwkey⟩ := exists_winner (hsub y hy)
    have hitem := sort.mem_run.mpr ((h.items w).mpr hw)
    rw [← take_append_drop k (sort.run st.items)] at hitem hdesc
    rcases mem_append.mp hitem with hin | hout
    · exact absurd hwkey (hnot w hin)
    · exact le_trans (hw.best (hsub y hy) hwkey.symm)
        ((pairwise_append.mp hdesc).2.2 last (mem_of_getLast? hlast) w hout)

end

/-- **When the result is the global top-k.**  Whatever the sort does with equal scores, the items
are the `k` best of the peers that have answered; this is so where every winner that only failed
peers have sent is outscored by `k` keys, and nowhere else. -/
theorem scatter_top_iff (responses : List (Option Bytes)) (k : Nat) :
    (∀ sort : UnstableSort (greater (S := S)), ∃ out,
      scatterTop parseFromSlice floatCast floatFromInt sort responses k = some out ∧
        TopK (candidates parseFromSlice floatCast floatFromInt responses) k out) ↔
      Harmless parseFromSlice floatCast floatFromInt responses k := by
  constructor
  · intro hall x hx hno
    by_contra hfew
    obtain ⟨st, hholds, hrun⟩ := @scatterTop_eq _ _ _ parseFromSlice floatCast floatFromInt k
      (favouring x.key) responses
    obtain ⟨out, hout, htop⟩ := hall (favouring x.key)
    cases hrun.symm.trans hout
    -- the sort that favours the winner puts it among the first `k`
    obtain ⟨pre, post, heq, hpre⟩ := favouring_run hholds.linked.distinct ((hholds.items x).mpr hx)
    have hperm := ((favouring x.key).perm st.items).filter fun y => decide (x.score < y.score)
    have hmem := mem_take_of_above (k := k) heq hpre (by
      rw [hperm.length_eq, hholds.card_above]
      exact Nat.not_le.mp hfew)
    exact hno (htop.best x hmem).1
  · intro hharmless sort
    obtain ⟨st, hholds, hrun⟩ := @scatterTop_eq _ _ _ parseFromSlice floatCast floatFromInt k
      sort responses
    refine ⟨_, hrun, hholds.topK (fun x => candidates_subset responses) sort (fun x hx => ?_)⟩
    by_contra hno
    have hdesc : (sort.run st.items).Pairwise fun a b => b.score ≤ a.score :=
      (sort.sorted st.items).imp fun hab => by simpa [greater] using hab
    have hwinner := (hholds.items x).mp (sort.mem_run.mp (mem_of_mem_take hx))
    have habove := above_lt_of_mem_take hdesc hx
    have hperm := (sort.perm st.items).filter fun y => decide (x.score < y.score)
    rw [hperm.length_eq, hholds.card_above] at habove
    exact absurd (hharmless x hwinner hno) (Nat.not_le.mpr habove)

/-- The parser on one text, whose second element is not an object. -/
def halfText : Bytes := ascii "[\x7b\"k\":\"a\",\"s\":9,\"ts\":1\x7d,5]"

def sampleParse (text : Bytes) : Option (Json Unit) :=
  if text = halfText then
    some (.array [.object [(ascii "k", .string (ascii "a")), (ascii "s", .integer 9),
      (ascii "ts", .integer 1)], .integer 5])
  else none

/-- **The item of a failed peer is returned**: its only payload has a malformed second element. -/
theorem failed_item_returned :
    (∀ sort : UnstableSort (greater (S := Int)),
      scatterTop sampleParse (fun _ => 0) Int64.toInt sort [some halfText] 1 =
        some [⟨ascii "a", 9, 1⟩]) ∧
    candidates sampleParse (fun _ => (0 : Int)) Int64.toInt [some halfText] = [] ∧
    ¬TopK (candidates sampleParse (fun _ => (0 : Int)) Int64.toInt [some halfText]) 1
      [⟨ascii "a", 9, 1⟩] := by
  have hnone : candidates sampleParse (fun _ => (0 : Int)) Int64.toInt [some halfText] = [] := by
    decide +kernel
  refine ⟨fun sort => ?_, hnone, fun h => ?_⟩
  · have hgather : gather sampleParse (fun _ => (0 : Int)) Int64.toInt [some halfText] 0 empty =
        some (1, ⟨ByteMap.empty.insert (ascii "a") 0, [⟨ascii "a", 9, 1⟩]⟩) := rfl
    rw [scatterTop, hgather, Option.bind_eq_bind, Option.bind_some]
    simp only
    rw [perm_singleton.mp (sort.perm _)]
    rfl
  · rw [hnone] at h
    cases (h.best _ mem_cons_self).1

end Scatter

end WormDB
