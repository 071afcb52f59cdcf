import Mathlib.Data.List.Perm.Subperm
import Mathlib.Data.List.Nodup
import WormDB.HnswGraph

/-! # The beam search of `vector/hnsw.zig`

A search stays in every set of nodes that has the entries and is closed under the links of the
level (`searchLayer_kept`), and it keeps no node twice, none that is skipped, and each with its
own distance.  What it keeps is a heap (`searchLayer_ordered`), so that `search` answers in
ascending order (`search_answers`). -/
namespace WormDB
open List ByteCodec BinaryHeap PriorityQueue

/-- A result of an index, with the key of the node. -/
structure IndexSearchResult (D : Type) where
  key : Bytes
  dist : D
  timestamp : UInt64

namespace Hnsw

variable {D : Type}

/-- `id` is the number of the node. -/
structure SearchResult (D : Type) where
  id : UInt32
  dist : D

/-- The results that are written to `out`, which has room for `k`. -/
def search (env : HnswEnv D) (metric : Metric) (g : Hnsw) (query : F32Slice) (k ef : Nat)
    (skip : Option (List Bool)) : Except RegistryError (List (SearchResult D)) :=
  match g.entryPoint with
  | none => .ok []
  | some ep =>
      if k = 0 then .ok []
      else if g.dim ≠ 0 ∧ query.len ≠ g.dim then .error .dimensionMismatch
      else
        let effectiveEf := max ef k
        let currentEp := descend env metric g query.bytes 0 g.topLevel.toNat ep
        let w := searchLayer env metric g query.bytes [currentEp] effectiveEf 0 skip
        let n := min k w.length
        let w := discard (pqMaxOrder env) (w.length - n) w
        .ok ((drain (pqMaxOrder env) n w).reverse.map fun top => ⟨top.id, top.dist⟩)

/-! ## What is kept -/

section
variable (env : HnswEnv D) (metric : Metric) (g : Hnsw) (query : Bytes) (skip : Option (List Bool))
variable (P : UInt32 → Prop)

structure Kept (w : List (PQItem D)) : Prop where
  nodup : (w.map PQItem.id).Nodup
  inside : ∀ item ∈ w, P item.id
  eligible : ∀ item ∈ w, isSkipped skip item.id = false
  dist : ∀ item ∈ w, item.dist = g.distToNode env metric query item.id

/-- A search that has not left `P`. -/
structure Beam.Within (beam : Beam D) : Prop where
  candidates : ∀ c ∈ beam.candidates, P c.id
  kept : Kept env metric g query skip P beam.w
  visited : ∀ item ∈ beam.w, item.id ∈ beam.visited

end

section
variable {env : HnswEnv D} {metric : Metric} {g : Hnsw} {query : Bytes} {skip : Option (List Bool)}
variable {P : UInt32 → Prop} {beam : Beam D} {w w' : List (PQItem D)}

theorem Kept.of_subperm (h : Kept env metric g query skip P w) (hw : w'.Subperm w) :
    Kept env metric g query skip P w' where
  nodup := by
    obtain ⟨l, hperm, hsub⟩ := hw
    exact ((hperm.map PQItem.id).nodup_iff).mp (h.nodup.sublist (hsub.map PQItem.id))
  inside item hitem := h.inside item (hw.subset hitem)
  eligible item hitem := h.eligible item (hw.subset hitem)
  dist item hitem := h.dist item (hw.subset hitem)

theorem keep_subperm (env : HnswEnv D) (ef : Nat) (w : List (PQItem D)) (item : PQItem D) :
    (keep env ef w item).Subperm (item :: w) := by
  rw [keep]
  have hpush := push_perm (pqMaxOrder env) w item
  split
  · cases hpop : pop (pqMaxOrder env) (push (pqMaxOrder env) w item) with
    | none => exact nil_subperm
    | some popped =>
      have hrest := pop_perm hpop
      exact ((sublist_cons_self popped.1 popped.2).subperm.trans hrest.subperm).trans hpush.subperm
  · exact hpush.subperm

/-- A node not seen before. -/
theorem Beam.Within.offer {id : UInt32} (h : beam.Within env metric g query skip P) (hid : P id)
    (hnew : id ∉ beam.visited) (hw' : w'.Subperm (⟨id, g.distToNode env metric query id⟩ :: beam.w)) :
    Beam.Within env metric g query skip P
      ⟨push (pqMinOrder env) beam.candidates ⟨id, g.distToNode env metric query id⟩,
        if isSkipped skip id then beam.w else w', id :: beam.visited⟩ := by
  refine ⟨fun c hc => ?_, ?_, fun item hitem => ?_⟩
  · rcases mem_cons.mp ((push_perm ..).mem_iff.mp hc) with rfl | hc
    · exact hid
    · exact h.candidates c hc
  · split
    · exact h.kept
    · rename_i hskip
      refine Kept.of_subperm ⟨?_, ?_, ?_, ?_⟩ hw'
      · refine nodup_cons.mpr ⟨fun hmem => ?_, h.kept.nodup⟩
        obtain ⟨item, hitem, hsame⟩ := mem_map.mp hmem
        have hseen := h.visited item hitem
        rw [hsame] at hseen
        exact hnew hseen
      · exact forall_mem_cons.mpr ⟨hid, h.kept.inside⟩
      · exact forall_mem_cons.mpr ⟨Bool.eq_false_iff.mpr hskip, h.kept.eligible⟩
      · exact forall_mem_cons.mpr ⟨rfl, h.kept.dist⟩
  · split at hitem
    · exact mem_cons_of_mem id (h.visited item hitem)
    · rcases mem_cons.mp (hw'.subset hitem) with rfl | hold
      · exact mem_cons_self
      · exact mem_cons_of_mem id (h.visited item hold)

variable {ep : UInt32}

theorem Beam.Within.seedEntry (h : beam.Within env metric g query skip P) (hep : P ep)
    (hnew : ep ∉ beam.visited) :
    (Hnsw.seedEntry env metric g query skip beam ep).Within env metric g query skip P := by
  rw [Hnsw.seedEntry]
  split
  · exact h
  · exact h.offer hep hnew (push_perm ..).subperm

/-- Each entry is offered once. -/
theorem seedEntries_rec (I : Beam D → Prop) {eps : List UInt32} (hnodup : eps.Nodup)
    (heps : ∀ ep ∈ eps, P ep ∧ ep ∉ beam.visited)
    (hstep : ∀ beam ep, P ep → ep ∉ beam.visited → I beam →
      I (Hnsw.seedEntry env metric g query skip beam ep))
    (h : I beam) : I (eps.foldl (Hnsw.seedEntry env metric g query skip) beam) := by
  induction eps generalizing beam with
  | nil => exact h
  | cons ep eps ih =>
    obtain ⟨hout, hnodup⟩ := nodup_cons.mp hnodup
    obtain ⟨hep, hnew⟩ := heps ep mem_cons_self
    refine ih hnodup (fun other hother => ?_) (hstep beam ep hep hnew h)
    obtain ⟨hP, hunseen⟩ := heps other (mem_cons_of_mem ep hother)
    refine ⟨hP, fun hseen => ?_⟩
    rw [Hnsw.seedEntry] at hseen
    split at hseen
    · exact hunseen hseen
    · rcases mem_cons.mp hseen with rfl | hseen
      · exact hout hother
      · exact hunseen hseen

variable {ef : Nat}

theorem Beam.Within.visitNeighbor {nbId : UInt32}
    (h : beam.Within env metric g query skip P) (hnb : P nbId) :
    (Hnsw.visitNeighbor env metric g query ef skip beam nbId).Within env metric g query skip P := by
  rw [Hnsw.visitNeighbor]
  dsimp only
  split
  · exact h
  · rename_i hnew
    split
    · exact h.offer hnb hnew (keep_subperm ..)
    · exact ⟨h.candidates, h.kept, fun item hitem => mem_cons_of_mem nbId (h.visited item hitem)⟩

theorem Beam.Within.visitNeighbors {nbrs : List UInt32}
    (h : beam.Within env metric g query skip P) (hnbrs : ∀ nb ∈ nbrs, P nb) :
    (nbrs.foldl (Hnsw.visitNeighbor env metric g query ef skip) beam).Within
      env metric g query skip P := by
  induction nbrs generalizing beam with
  | nil => exact h
  | cons nb nbrs ih =>
    exact ih (h.visitNeighbor (hnbrs nb mem_cons_self))
      (fun nb' hnb' => hnbrs nb' (mem_cons_of_mem nb hnb'))

variable {lc fuel : Nat}

theorem explore_kept (hclosed : ∀ id, P id → ∀ nb ∈ g.neighborsAt id lc, P nb)
    (h : beam.Within env metric g query skip P) :
    Kept env metric g query skip P (explore env metric g query ef lc skip fuel beam) := by
  induction fuel generalizing beam with
  | zero => exact h.kept
  | succ fuel ih =>
    rw [explore]
    split
    · exact h.kept
    · rename_i c candidates hpop
      split
      · exact h.kept
      · have hperm := pop_perm hpop
        have hc : P c.id := h.candidates c (hperm.mem_iff.mp mem_cons_self)
        have hrest : Beam.Within env metric g query skip P { beam with candidates := candidates } :=
          ⟨fun c' hc' => h.candidates c' (hperm.mem_iff.mp (mem_cons_of_mem c hc')),
            h.kept, h.visited⟩
        exact ih (hrest.visitNeighbors (hclosed c.id hc))

theorem kept_nil : Kept env metric g query skip P [] := by
  refine ⟨nodup_nil, ?_, ?_, ?_⟩
  all_goals exact fun _ h => absurd h not_mem_nil

variable {entryIds : List UInt32}

/-- **A search does not leave a set that is closed under the links of the level.** -/
theorem searchLayer_kept (hnodup : entryIds.Nodup)
    (hentries : ∀ ep ∈ entryIds, P ep) (hclosed : ∀ id, P id → ∀ nb ∈ g.neighborsAt id lc, P nb) :
    Kept env metric g query skip P (searchLayer env metric g query entryIds ef lc skip) := by
  have hempty : Beam.Within env metric g query skip P ⟨[], [], []⟩ :=
    ⟨fun _ h => absurd h not_mem_nil, kept_nil, fun _ h => absurd h not_mem_nil⟩
  refine explore_kept hclosed (seedEntries_rec _ hnodup
    (fun ep hep => ⟨hentries ep hep, not_mem_nil⟩) ?_ hempty)
  exact fun _ _ hep hnew hbeam => hbeam.seedEntry hep hnew

/-! ## The order -/

theorem keep_ordered (W : WeakOrder (pqMaxOrder env)) (h : Ordered (pqMaxOrder env) w) (ef : Nat)
    (item : PQItem D) : Ordered (pqMaxOrder env) (keep env ef w item) := by
  have hpush := push_ordered W h item
  rw [keep]
  split
  · cases hpop : pop (pqMaxOrder env) (push (pqMaxOrder env) w item) with
    | none => exact ordered_nil
    | some popped => exact pop_ordered W hpush hpop
  · exact hpush

theorem visitNeighbor_ordered (W : WeakOrder (pqMaxOrder env))
    (h : Ordered (pqMaxOrder env) beam.w) (nbId : UInt32) :
    Ordered (pqMaxOrder env) (visitNeighbor env metric g query ef skip beam nbId).w := by
  rw [visitNeighbor]
  dsimp only
  split
  · exact h
  split
  · dsimp only
    split
    · exact h
    · exact keep_ordered W h ef _
  · exact h

theorem seedEntry_ordered (W : WeakOrder (pqMaxOrder env)) (h : Ordered (pqMaxOrder env) beam.w)
    (ep : UInt32) : Ordered (pqMaxOrder env) (seedEntry env metric g query skip beam ep).w := by
  rw [seedEntry]
  split
  · exact h
  dsimp only
  split
  · exact h
  · exact push_ordered W h _

theorem explore_ordered (W : WeakOrder (pqMaxOrder env)) (h : Ordered (pqMaxOrder env) beam.w) :
    Ordered (pqMaxOrder env) (explore env metric g query ef lc skip fuel beam) := by
  induction fuel generalizing beam with
  | zero => exact h
  | succ fuel ih =>
    rw [explore]
    split
    · exact h
    split
    · exact h
    · refine ih ?_
      exact List.foldlRecOn _ _ (motive := fun beam : Beam D => Ordered (pqMaxOrder env) beam.w) h
        (fun beam hbeam nb _ => visitNeighbor_ordered W hbeam nb)

theorem searchLayer_ordered (W : WeakOrder (pqMaxOrder env)) (entryIds : List UInt32) (ef lc : Nat) :
    Ordered (pqMaxOrder env) (searchLayer env metric g query entryIds ef lc skip) := by
  refine explore_ordered W ?_
  exact List.foldlRecOn _ _ (motive := fun beam : Beam D => Ordered (pqMaxOrder env) beam.w)
    ordered_nil (fun beam hbeam ep _ => seedEntry_ordered W hbeam ep)

/-! ## The end of a search -/

/-- What is explored and what is not yet seen, within the turns that are left. -/
structure Beam.Budget (g : Hnsw) (fuel : Nat) (beam : Beam D) : Prop where
  turns : beam.candidates.length + g.nodes.length ≤ fuel + beam.visited.length
  nodup : beam.visited.Nodup
  valid : ∀ id ∈ beam.visited, id.toNat < g.nodes.length

theorem Beam.Budget.visited_length (h : beam.Budget g fuel) :
    beam.visited.length ≤ g.nodes.length := by
  have hnodup : (beam.visited.map UInt32.toNat).Nodup :=
    h.nodup.map (fun _ _ => UInt32.toNat_inj.mp)
  have hsub : beam.visited.map UInt32.toNat ⊆ List.range g.nodes.length := by
    intro i hi
    obtain ⟨id, hid, rfl⟩ := mem_map.mp hi
    exact mem_range.mpr (h.valid id hid)
  have hle := (hnodup.subperm hsub).length_le
  rwa [length_map, length_range] at hle

theorem Beam.Budget.visitNeighbor {nb : UInt32} (h : beam.Budget g fuel)
    (hnb : nb.toNat < g.nodes.length) :
    (Hnsw.visitNeighbor env metric g query ef skip beam nb).Budget g fuel := by
  have hturns := h.turns
  rw [Hnsw.visitNeighbor]
  dsimp only
  split
  · exact h
  · rename_i hnew
    have hnodup := nodup_cons.mpr ⟨hnew, h.nodup⟩
    have hvalid : ∀ id ∈ nb :: beam.visited, id.toNat < g.nodes.length :=
      forall_mem_cons.mpr ⟨hnb, h.valid⟩
    split
    · refine ⟨?_, hnodup, hvalid⟩
      rw [(push_perm ..).length_eq, length_cons, length_cons]
      omega
    · exact ⟨Nat.le_succ_of_le hturns, hnodup, hvalid⟩

/-- The loop of `explore` with no bound on its turns, and what it ends with. -/
inductive Explores (env : HnswEnv D) (metric : Metric) (g : Hnsw) (query : Bytes) (ef lc : Nat)
    (skip : Option (List Bool)) : Beam D → List (PQItem D) → Prop where
  /-- No candidate is left. -/
  | empty {beam : Beam D} (hpop : pop (pqMinOrder env) beam.candidates = none) :
      Explores env metric g query ef lc skip beam beam.w
  /-- The nearest one is further than all that is kept. -/
  | far {beam : Beam D} {c : PQItem D} {candidates : List (PQItem D)}
      (hpop : pop (pqMinOrder env) beam.candidates = some (c, candidates))
      (hfar : (env.less (furthestDist env beam.w) c.dist && decide (ef ≤ beam.w.length)) = true) :
      Explores env metric g query ef lc skip beam beam.w
  | turn {beam : Beam D} {c : PQItem D} {candidates w : List (PQItem D)}
      (hpop : pop (pqMinOrder env) beam.candidates = some (c, candidates))
      (hnear : (env.less (furthestDist env beam.w) c.dist && decide (ef ≤ beam.w.length)) = false)
      (hrest : Explores env metric g query ef lc skip ((g.neighborsAt c.id lc).foldl
        (visitNeighbor env metric g query ef skip) { beam with candidates := candidates }) w) :
      Explores env metric g query ef lc skip beam w

/-- **The turns of `searchLayer` suffice** for the loop to end. -/
theorem explores_explore (hclosed : ∀ id, ∀ nb ∈ g.neighborsAt id lc, nb.toNat < g.nodes.length)
    (h : beam.Budget g fuel) :
    Explores env metric g query ef lc skip beam (explore env metric g query ef lc skip fuel beam) := by
  induction fuel generalizing beam with
  | zero =>
    have hturns := h.turns
    have hseen := h.visited_length
    have hdone : beam.candidates = [] := length_eq_zero_iff.mp (by omega)
    exact .empty (by rw [hdone, pop])
  | succ fuel ih =>
    rw [explore]
    split
    · rename_i hpop
      exact .empty hpop
    · rename_i c candidates hpop
      split
      · rename_i hfar
        exact .far hpop hfar
      · rename_i hnear
        refine .turn hpop (Bool.eq_false_iff.mpr hnear) (ih ?_)
        have hlen := pop_length hpop
        have hturns := h.turns
        refine List.foldlRecOn _ _ (motive := fun beam : Beam D => beam.Budget g fuel)
          ⟨?_, h.nodup, h.valid⟩ (fun beam hbeam nb hnb => hbeam.visitNeighbor (hclosed c.id nb hnb))
        dsimp only
        omega

theorem Beam.Budget.seedEntry (h : beam.Budget g fuel)
    (hep : ep.toNat < g.nodes.length) (hnew : ep ∉ beam.visited) :
    (Hnsw.seedEntry env metric g query skip beam ep).Budget g fuel := by
  have hturns := h.turns
  rw [Hnsw.seedEntry, if_neg (Nat.not_le.mpr hep)]
  refine ⟨?_, nodup_cons.mpr ⟨hnew, h.nodup⟩, forall_mem_cons.mpr ⟨hep, h.valid⟩⟩
  rw [(push_perm ..).length_eq, length_cons, length_cons]
  omega

theorem explores_searchLayer (hnodup : entryIds.Nodup)
    (hentries : ∀ ep ∈ entryIds, ep.toNat < g.nodes.length)
    (hclosed : ∀ id, ∀ nb ∈ g.neighborsAt id lc, nb.toNat < g.nodes.length) :
    Explores env metric g query ef lc skip (entryIds.foldl (seedEntry env metric g query skip) ⟨[], [], []⟩)
      (searchLayer env metric g query entryIds ef lc skip) := by
  have hempty : Beam.Budget g (entryIds.length + g.nodes.length) (⟨[], [], []⟩ : Beam D) := by
    refine ⟨?_, nodup_nil, fun _ h => absurd h not_mem_nil⟩
    rw [length_nil, length_nil]
    omega
  refine explores_explore hclosed (seedEntries_rec _ hnodup
    (fun ep hep => ⟨hentries ep hep, not_mem_nil⟩) ?_ hempty)
  exact fun _ _ hep hnew hbeam => hbeam.seedEntry hep hnew

end

/-! ## The answers -/

/-- Sets of nodes, one for each level, that no link of the level leaves. -/
structure Layers (g : Hnsw) (P : Nat → UInt32 → Prop) : Prop where
  closed : ∀ lc id, P lc id → ∀ nb ∈ g.neighborsAt id lc, P lc nb
  down : ∀ lc id, P (lc + 1) id → P lc id

/-- What a search may answer. -/
structure Answers (env : HnswEnv D) (metric : Metric) (g : Hnsw) (query : Bytes) (k : Nat)
    (skip : Option (List Bool)) (results : List (SearchResult D)) : Prop where
  length : results.length ≤ k
  distinct : (results.map SearchResult.id).Nodup
  stored : ∀ r ∈ results, r.id.toNat < g.nodes.length
  eligible : ∀ r ∈ results, isSkipped skip r.id = false
  dist : ∀ r ∈ results, r.dist = g.distToNode env metric query r.id
  ascending : results.Pairwise fun a b => env.less b.dist a.dist = false

section
variable {env : HnswEnv D} {metric : Metric} {g : Hnsw} {skip : Option (List Bool)}
variable {P : Nat → UInt32 → Prop}

theorem Layers.descend (hP : Layers g P) (env : HnswEnv D) (metric : Metric) (query : Bytes)
    (newLevel : Nat) {count : Nat} {ep : UInt32} (hep : P count ep) :
    P (min count newLevel) (descend env metric g query newLevel count ep) := by
  induction count generalizing ep with
  | zero =>
    rw [Nat.zero_min]
    exact hep
  | succ lc ih =>
    rw [Hnsw.descend]
    split
    · rename_i hbelow
      have hmin : min (lc + 1) newLevel = min lc newLevel := by omega
      rw [hmin]
      refine ih (hP.down lc _ ?_)
      have hkept : Kept env metric g query none (P (lc + 1))
          (searchLayer env metric g query [ep] 1 (lc + 1) none) := by
        refine searchLayer_kept (nodup_singleton ep) ?_ (hP.closed (lc + 1))
        exact forall_mem_singleton.mpr hep
      cases hbest : (searchLayer env metric g query [ep] 1 (lc + 1) none).head? with
      | none => exact hep
      | some best => exact hkept.inside best (mem_of_mem_head? hbest)
    · rename_i hreached
      rw [Nat.min_eq_left (Nat.not_lt.mp hreached)]
      exact hep

variable {query : F32Slice} {k ef : Nat}

/-- Only a query of another dimension is refused. -/
theorem search_error {e : RegistryError} (h : g.search env metric query k ef skip = .error e) :
    e = .dimensionMismatch ∧ query.len ≠ g.dim := by
  rw [search] at h
  split at h
  · cases h
  split at h
  · cases h
  split at h
  · rename_i hdim
    exact ⟨(Except.error.inj h).symm, hdim.2⟩
  · cases h

/-- **What `search` answers.** -/
theorem search_answers (W : WeakOrder (pqMaxOrder env)) (hP : Layers g P)
    (hstored : ∀ id, P 0 id → id.toNat < g.nodes.length)
    (hentry : ∀ ep, g.entryPoint = some ep → P g.topLevel.toNat ep)
    {results : List (SearchResult D)} (h : g.search env metric query k ef skip = .ok results) :
    Answers env metric g query.bytes k skip results := by
  have hnone : Answers env metric g query.bytes k skip [] := by
    refine ⟨Nat.zero_le k, nodup_nil, ?_, ?_, ?_, Pairwise.nil⟩
    all_goals exact fun _ h => absurd h not_mem_nil
  rw [search] at h
  split at h
  · cases h
    exact hnone
  rename_i ep hep
  split at h
  · cases h
    exact hnone
  split at h
  · cases h
  dsimp only at h
  have hstart := hP.descend env metric query.bytes 0 (hentry ep hep)
  rw [Nat.min_zero] at hstart
  generalize Hnsw.descend env metric g query.bytes 0 g.topLevel.toNat ep = currentEp at h hstart
  have hkept : Kept env metric g query.bytes skip (P 0)
      (searchLayer env metric g query.bytes [currentEp] (max ef k) 0 skip) :=
    searchLayer_kept (nodup_singleton currentEp) (forall_mem_singleton.mpr hstart)
      (hP.closed 0)
  have hordered : Ordered (pqMaxOrder env)
      (searchLayer env metric g query.bytes [currentEp] (max ef k) 0 skip) :=
    searchLayer_ordered W [currentEp] (max ef k) 0
  generalize searchLayer env metric g query.bytes [currentEp] (max ef k) 0 skip = w at h hkept hordered
  -- the nearest ones are left, and they leave the heap furthest first
  have hleft : (discard (pqMaxOrder env) (w.length - min k w.length) w).Subperm w :=
    discard_subperm _ w
  have hlen : (discard (pqMaxOrder env) (w.length - min k w.length) w).length =
      min k w.length := by
    rw [discard_length (Nat.sub_le ..)]
    omega
  have horder := discard_ordered W hordered (w.length - min k w.length)
  generalize discard (pqMaxOrder env) (w.length - min k w.length) w = left at *
  have hdrain : (drain (pqMaxOrder env) (min k w.length) left).Perm left :=
    drain_perm (Nat.le_of_eq hlen)
  have hsorted := drain_pairwise W horder (min k w.length)
  generalize drain (pqMaxOrder env) (min k w.length) left = furthestFirst at *
  have hfinal := hkept.of_subperm (((reverse_perm furthestFirst).trans hdrain).subperm.trans hleft)
  cases h
  refine ⟨?_, ?_, ?_, ?_, ?_, ?_⟩
  · rw [length_map, length_reverse, hdrain.length_eq, hlen]
    exact Nat.min_le_left ..
  · rw [map_map]
    exact hfinal.nodup
  · exact forall_mem_map.mpr (fun item hitem => hstored item.id (hfinal.inside item hitem))
  · exact forall_mem_map.mpr hfinal.eligible
  · exact forall_mem_map.mpr hfinal.dist
  · exact pairwise_map.mpr (pairwise_reverse.mpr hsorted)

end
end Hnsw
end WormDB
