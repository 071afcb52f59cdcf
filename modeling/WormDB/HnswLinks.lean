import Mathlib.Order.Lattice
import Mathlib.Order.Nat
import WormDB.HnswSearch

/-! # The links of the neighbour graph

Every list of neighbours holds nodes of its level, other than its owner and each once, and the
entry is a node of the highest level (`Navigable`).  `init` has no nodes and an insertion keeps
this: the node that is linked level by level is met by no search on the levels still to come
(`Linking`), so no list takes it twice. -/
namespace WormDB
open List
namespace Hnsw
open ByteCodec BinaryHeap

def levels (g : Hnsw) : List UInt8 := g.nodes.map GraphNode.level

/-- The node is there, and takes part in the level. -/
def Reaches (g : Hnsw) (lc : Nat) (id : UInt32) : Prop :=
  ∃ level, g.levels[id.toNat]? = some level ∧ lc ≤ level.toNat

/-- What the list of the node on the level may be. -/
structure ListOk (g : Hnsw) (lc : Nat) (id : UInt32) (nbrs : List UInt32) : Prop where
  nodup : nbrs.Nodup
  other : ∀ nb ∈ nbrs, nb ≠ id
  reaches : ∀ nb ∈ nbrs, g.Reaches lc nb

def WellLinked (g : Hnsw) : Prop := ∀ lc id, g.ListOk lc id (g.neighborsAt id lc)

/-- Of the lists, only those of the level are changed. -/
structure RelinkedAt (lc : Nat) (g g' : Hnsw) : Prop where
  levels : g'.levels = g.levels
  others : ∀ l, l ≠ lc → ∀ id, g'.neighborsAt id l = g.neighborsAt id l

section
variable {g g' g'' : Hnsw} {id newId : UInt32} {lc l : Nat} {f : List UInt32 → List UInt32}

theorem RelinkedAt.trans (h : RelinkedAt lc g g') (h' : RelinkedAt lc g' g'') :
    RelinkedAt lc g g'' :=
  ⟨h'.levels.trans h.levels, fun l hl id => (h'.others l hl id).trans (h.others l hl id)⟩

theorem RelinkedAt.keeps (h : RelinkedAt lc g g') : g.levels <+: g'.levels :=
  h.levels ▸ prefix_rfl

theorem Reaches.down (h : g.Reaches lc id) (hl : l ≤ lc) : g.Reaches l id := by
  obtain ⟨level, hlevel, hle⟩ := h
  exact ⟨level, hlevel, le_trans hl hle⟩

theorem Reaches.lt (h : g.Reaches lc id) : id.toNat < g.nodes.length := by
  obtain ⟨level, hlevel, -⟩ := h
  have hlt := (List.getElem?_eq_some_iff.mp hlevel).1
  rwa [levels, length_map] at hlt

theorem Reaches.mono (h : g.Reaches lc id) (hlevels : g.levels <+: g'.levels) :
    g'.Reaches lc id := by
  obtain ⟨level, hlevel, hle⟩ := h
  obtain ⟨more, hmore⟩ := hlevels
  refine ⟨level, ?_, hle⟩
  rw [← hmore, getElem?_append_left (List.getElem?_eq_some_iff.mp hlevel).1, hlevel]

variable {nbrs : List UInt32}

theorem ListOk.mono (h : g.ListOk lc id nbrs)
    (hlevels : g.levels <+: g'.levels) : g'.ListOk lc id nbrs :=
  ⟨h.nodup, h.other, fun nb hnb => (h.reaches nb hnb).mono hlevels⟩

theorem ListOk.of_subperm {nbrs' : List UInt32} (h : g.ListOk lc id nbrs)
    (hsub : nbrs'.Subperm nbrs) : g.ListOk lc id nbrs' := by
  refine ⟨?_, fun nb hnb => h.other nb (hsub.subset hnb), fun nb hnb => h.reaches nb (hsub.subset hnb)⟩
  obtain ⟨mid, hperm, hmid⟩ := hsub
  exact hperm.nodup_iff.mp (h.nodup.sublist hmid)

theorem ListOk.concat (h : g.ListOk lc id nbrs) (hnew : newId ∉ nbrs)
    (hother : newId ≠ id) (hreaches : g.Reaches lc newId) : g.ListOk lc id (nbrs ++ [newId]) where
  nodup := nodup_append.mpr ⟨h.nodup, nodup_singleton newId,
    fun _ ha _ hb => by rw [mem_singleton.mp hb]; exact fun heq => hnew (heq ▸ ha)⟩
  other := forall_mem_append.mpr ⟨h.other, forall_mem_singleton.mpr hother⟩
  reaches := forall_mem_append.mpr ⟨h.reaches, forall_mem_singleton.mpr hreaches⟩

/-- The entry and the highest level do not matter. -/
theorem WellLinked.of_nodes (h : g.WellLinked) (hnodes : g'.nodes = g.nodes) : g'.WellLinked := by
  intro lc id
  have hlevels : g'.levels = g.levels := by rw [levels, hnodes, levels]
  have hnbrs : g'.neighborsAt id lc = g.neighborsAt id lc := by rw [neighborsAt, hnodes, neighborsAt]
  rw [hnbrs]
  exact (h lc id).mono (hlevels ▸ prefix_rfl)

theorem levels_modifyNeighbors (g : Hnsw) (id : UInt32) (lc : Nat)
    (f : List UInt32 → List UInt32) : (g.modifyNeighbors id lc f).levels = g.levels := by
  refine ext_getElem? (fun i => ?_)
  rw [levels, modifyNeighbors, getElem?_map, levels, getElem?_map, getElem?_modify]
  cases g.nodes[i]? with
  | none => rfl
  | some node =>
    simp only [Option.map_eq_map, Option.map_some]
    split <;> rfl

/-- One list is changed. -/
theorem neighborsAt_modifyNeighbors (g : Hnsw) (id id' : UInt32) (lc l : Nat)
    (f : List UInt32 → List UInt32) :
    (g.modifyNeighbors id lc f).neighborsAt id' l = g.neighborsAt id' l ∨
      (id' = id ∧ l = lc ∧
        (g.modifyNeighbors id lc f).neighborsAt id' l = f (g.neighborsAt id lc)) := by
  by_cases hl : l = lc
  swap
  · exact .inl (neighborsAt_modifyNeighbors_of_ne g id id' hl f)
  subst hl
  simp only [neighborsAt, modifyNeighbors, getElem?_modify]
  by_cases hid : id.toNat = id'.toNat
  swap
  · simp [hid]
  obtain rfl := UInt32.toNat_inj.mp hid
  cases g.nodes[id.toNat]? with
  | none => simp
  | some node => cases hnbrs : node.neighbors[l]? <;> simp [hnbrs]

theorem relinkedAt_modifyNeighbors (g : Hnsw) (id : UInt32) (lc : Nat)
    (f : List UInt32 → List UInt32) : RelinkedAt lc g (g.modifyNeighbors id lc f) :=
  ⟨levels_modifyNeighbors g id lc f, fun _ hl id' => neighborsAt_modifyNeighbors_of_ne g id id' hl f⟩

theorem WellLinked.modifyNeighbors (h : g.WellLinked)
    (hf : g.ListOk lc id (f (g.neighborsAt id lc))) : (g.modifyNeighbors id lc f).WellLinked := by
  intro l id'
  have hlevels := (relinkedAt_modifyNeighbors g id lc f).keeps
  rcases neighborsAt_modifyNeighbors g id id' lc l f with heq | ⟨rfl, rfl, heq⟩
  · rw [heq]
    exact (h l id').mono hlevels
  · rw [heq]
    exact hf.mono hlevels

end

/-! ## Insertion -/

section
variable {D : Type} (env : HnswEnv D) (metric : Metric) {g : Hnsw} {newId : UInt32} {lc count : Nat}

/-- The selected nodes take the new one into their lists. -/
theorem WellLinked.addBackEdges {selected : List UInt32} (h : g.WellLinked)
    (hnew : g.Reaches lc newId) (hnodup : selected.Nodup)
    (hselected : ∀ nb ∈ selected, nb ≠ newId ∧ newId ∉ g.neighborsAt nb lc) :
    (selected.foldl (addBackEdge env metric newId lc) g).WellLinked ∧
      RelinkedAt lc g (selected.foldl (addBackEdge env metric newId lc) g) := by
  induction selected generalizing g with
  | nil => exact ⟨h, rfl, fun _ _ _ => rfl⟩
  | cons nb selected ih =>
    obtain ⟨hout, hnodup⟩ := nodup_cons.mp hnodup
    obtain ⟨hother, hunseen⟩ := hselected nb mem_cons_self
    obtain ⟨f, hf, -, hsub⟩ := addBackEdge_eq env metric g newId nb lc
    have hrelinked := relinkedAt_modifyNeighbors g nb lc f
    rw [foldl_cons, hf]
    have hlinks : (g.modifyNeighbors nb lc f).WellLinked :=
      h.modifyNeighbors (((h lc nb).concat hunseen hother.symm hnew).of_subperm hsub)
    obtain ⟨hrest, hrest'⟩ := ih hlinks (hnew.mono hrelinked.keeps) hnodup (by
      intro nb' hnb'
      obtain ⟨hother', hunseen'⟩ := hselected nb' (mem_cons_of_mem nb hnb')
      refine ⟨hother', ?_⟩
      rcases neighborsAt_modifyNeighbors g nb nb' lc lc f with heq | ⟨rfl, -, -⟩
      · rw [heq]
        exact hunseen'
      · exact absurd hnb' hout)
    exact ⟨hrest, hrelinked.trans hrest'⟩

/-- The new node is linked on the levels from `count` on, and is in no list below. -/
structure Linking (newId : UInt32) (count : Nat) (g : Hnsw) : Prop where
  links : g.WellLinked
  reaches : ∀ lc < count, g.Reaches lc newId
  fresh : ∀ lc < count, g.neighborsAt newId lc = []
  unseen : ∀ lc < count, ∀ id, newId ∉ g.neighborsAt id lc

/-- The nodes that a search for the neighbours of the new one can meet. -/
theorem Linking.layers (h : Linking newId count g) :
    ∀ lc < count, ∀ id, id ≠ newId ∧ g.Reaches lc id →
      ∀ nb ∈ g.neighborsAt id lc, nb ≠ newId ∧ g.Reaches lc nb := by
  intro lc hlc id _ nb hnb
  exact ⟨fun heq => h.unseen lc hlc id (heq ▸ hnb), (h.links lc id).reaches nb hnb⟩

theorem Linking.connectLevels (query : Bytes) {eps : List UInt32} (h : Linking newId count g)
    (hnodup : eps.Nodup) (heps : ∀ ep ∈ eps, ep ≠ newId ∧ ∀ lc < count, g.Reaches lc ep) :
    (Hnsw.connectLevels env metric query newId count eps g).WellLinked ∧
      (Hnsw.connectLevels env metric query newId count eps g).levels = g.levels := by
  induction count generalizing eps g with
  | zero => exact ⟨h.links, rfl⟩
  | succ lc ih =>
    simp only [Hnsw.connectLevels]
    have hlc := Nat.lt_succ_self lc
    have hkept : Kept env metric g query none (fun id => id ≠ newId ∧ g.Reaches lc id)
        (searchLayer env metric g query eps g.params.efConstruction.toNat lc none) :=
      searchLayer_kept hnodup (fun ep hep => ⟨(heps ep hep).1, (heps ep hep).2 lc hlc⟩)
        (h.layers lc hlc)
    generalize searchLayer env metric g query eps g.params.efConstruction.toNat lc none = w at *
    have hsub : (g.selectNeighborsHeuristic env metric w (g.params.maxNeighborsAtLevel lc)).Subperm
        (w.map PQItem.id) := select_subperm env metric ..
    generalize g.selectNeighborsHeuristic env metric w (g.params.maxNeighborsAtLevel lc) = selected at *
    have hinside : ∀ id ∈ w.map PQItem.id, id ≠ newId ∧ g.Reaches lc id :=
      forall_mem_map.mpr hkept.inside
    have hselected : g.ListOk lc newId selected :=
      ListOk.of_subperm ⟨hkept.nodup, fun id hid => (hinside id hid).1,
        fun id hid => (hinside id hid).2⟩ hsub
    -- the list of the new node
    have hrelinked := relinkedAt_modifyNeighbors g newId lc (fun nbrs => nbrs ++ selected)
    have hself : (g.modifyNeighbors newId lc (fun nbrs => nbrs ++ selected)).WellLinked := by
      refine h.links.modifyNeighbors ?_
      rw [h.fresh lc hlc, nil_append]
      exact hselected
    have hunseen : ∀ nb ∈ selected, nb ≠ newId ∧
        newId ∉ (g.modifyNeighbors newId lc (fun nbrs => nbrs ++ selected)).neighborsAt nb lc := by
      intro nb hnb
      have hother := hselected.other nb hnb
      rcases neighborsAt_modifyNeighbors g newId nb lc lc (fun nbrs => nbrs ++ selected) with
        heq | ⟨rfl, -, -⟩
      · rw [heq]
        exact ⟨hother, h.unseen lc hlc nb⟩
      · exact absurd rfl hother
    generalize g.modifyNeighbors newId lc (fun nbrs => nbrs ++ selected) = self at *
    -- the lists of the selected nodes
    obtain ⟨hback, hback'⟩ := hself.addBackEdges env metric
      ((h.reaches lc hlc).mono hrelinked.keeps) hselected.nodup hunseen
    have hall := hrelinked.trans hback'
    generalize selected.foldl (addBackEdge env metric newId lc) self = back at *
    have hsame := hall.keeps
    have hnext : Linking newId lc back := by
      refine ⟨hback, fun l hl => ?_, fun l hl => ?_, fun l hl id => ?_⟩
      · exact (h.reaches l (Nat.lt_succ_of_lt hl)).mono hsame
      · rw [hall.others l (ne_of_lt hl)]
        exact h.fresh l (Nat.lt_succ_of_lt hl)
      · rw [hall.others l (ne_of_lt hl)]
        exact h.unseen l (Nat.lt_succ_of_lt hl) id
    obtain ⟨hlinks, hlevels⟩ := ih hnext hkept.nodup (fun id hid => ⟨(hinside id hid).1,
      fun l hl => ((hinside id hid).2.down (le_of_lt hl)).mono hsame⟩)
    exact ⟨hlinks, hlevels.trans hall.levels⟩

end

/-- The graph is empty, or its entry is a node of the highest level. -/
structure Entered (g : Hnsw) : Prop where
  first : g.entryPoint = none → g.levels = []
  entry : ∀ ep, g.entryPoint = some ep → g.levels[ep.toNat]? = some g.topLevel
  top : ∀ level ∈ g.levels, level ≤ g.topLevel

/-- With a node at the end that has no links yet. -/
def withNode (g : Hnsw) (vector : F32Slice) (level : UInt8) : Hnsw :=
  { g with dim := vector.len, nodes := g.nodes ++ [allocateNode vector level] }

section
variable {g : Hnsw}

theorem withNode_levels (g : Hnsw) (vector : F32Slice) (level : UInt8) :
    (g.withNode vector level).levels = g.levels ++ [level] := by
  simp [levels, withNode, allocateNode]

theorem withNode_neighborsAt (g : Hnsw) (vector : F32Slice) (level : UInt8) (id : UInt32) (lc : Nat) :
    (g.withNode vector level).neighborsAt id lc = g.neighborsAt id lc := by
  rw [neighborsAt, neighborsAt, withNode]
  rcases Nat.lt_trichotomy id.toNat g.nodes.length with hlt | heq | hgt
  · rw [getElem?_append_left hlt]
  · rw [heq, getElem?_concat_length, getElem?_eq_none (le_refl _), Option.bind_some,
      Option.bind_none, allocateNode, getElem?_replicate]
    split <;> rfl
  · rw [getElem?_eq_none (by simp; omega), getElem?_eq_none (le_of_lt hgt)]

theorem WellLinked.withNode (h : g.WellLinked) (vector : F32Slice) (level : UInt8) :
    (g.withNode vector level).WellLinked := by
  intro lc id
  rw [withNode_neighborsAt]
  exact (h lc id).mono ⟨[level], (withNode_levels g vector level).symm⟩

/-- The new node has the number of the nodes before it. -/
theorem withNode_level (hcount : g.nodes.length < 2 ^ 32) (vector : F32Slice) (level : UInt8) :
    (g.withNode vector level).levels[g.nodes.length.toUInt32.toNat]? = some level := by
  have hid : g.nodes.length.toUInt32.toNat = g.levels.length :=
    (Nat.mod_eq_of_lt hcount).trans (length_map _).symm
  rw [hid, withNode_levels, getElem?_concat_length]

theorem Reaches.ne_new {id : UInt32} {lc : Nat} (h : g.Reaches lc id)
    (hcount : g.nodes.length < 2 ^ 32) : id ≠ g.nodes.length.toUInt32 := by
  rintro rfl
  have hid : g.nodes.length.toUInt32.toNat = g.nodes.length := Nat.mod_eq_of_lt hcount
  exact lt_irrefl _ (hid ▸ h.lt)

theorem WellLinked.linking (h : g.WellLinked) (hcount : g.nodes.length < 2 ^ 32) (vector : F32Slice)
    (level : UInt8) {count : Nat} (hlevel : count ≤ level.toNat + 1) :
    Linking g.nodes.length.toUInt32 count (g.withNode vector level) where
  links := h.withNode vector level
  reaches lc hlc := ⟨level, withNode_level hcount vector level, by omega⟩
  fresh lc _ := grown_fresh hcount vector level lc
  unseen lc _ id hmem := by
    rw [withNode_neighborsAt] at hmem
    exact ((h lc id).reaches _ hmem).ne_new hcount rfl

variable {D : Type} (env : HnswEnv D) (metric : Metric)

variable {ep : UInt32}

/-- The links of an insertion into a graph that has nodes. -/
theorem WellLinked.connect (h : g.WellLinked) (hcount : g.nodes.length < 2 ^ 32) (vector : F32Slice)
    (level : UInt8) (hep : g.Reaches g.topLevel.toNat ep) :
    let grown := g.withNode vector level
    let linked := connectLevels env metric vector.bytes g.nodes.length.toUInt32
      (min g.topLevel.toNat level.toNat + 1)
      [descend env metric grown vector.bytes level.toNat g.topLevel.toNat ep] grown
    linked.WellLinked ∧ linked.levels = g.levels ++ [level] := by
  intro grown linked
  have hgrows : g.levels <+: grown.levels := ⟨[level], (withNode_levels g vector level).symm⟩
  have hlayers : Layers grown (fun lc id => id ≠ g.nodes.length.toUInt32 ∧ grown.Reaches lc id) := by
    refine ⟨fun lc id _ nb hnb => ?_, fun lc id hid => ⟨hid.1, hid.2.down (Nat.le_succ lc)⟩⟩
    rw [withNode_neighborsAt] at hnb
    have hreaches := (h lc id).reaches nb hnb
    exact ⟨hreaches.ne_new hcount, hreaches.mono hgrows⟩
  obtain ⟨hother, hstart⟩ := hlayers.descend env metric vector.bytes level.toNat
    ⟨hep.ne_new hcount, hep.mono hgrows⟩
  have hlinking := h.linking hcount vector level
    (Nat.succ_le_succ (min_le_right g.topLevel.toNat level.toNat))
  obtain ⟨hlinks, hlevels⟩ := hlinking.connectLevels env metric vector.bytes
    (nodup_singleton _) (forall_mem_singleton.mpr
      ⟨hother, fun lc hlc => hstart.down (Nat.le_of_lt_succ hlc)⟩)
  exact ⟨hlinks, hlevels.trans (withNode_levels g vector level)⟩

/-- What an insertion keeps; node numbers have four bytes. -/
structure Invariant (g : Hnsw) : Prop where
  count : g.nodes.length ≤ 2 ^ 32
  sized : g.Sized
  links : g.WellLinked
  entered : g.Entered

theorem invariant_init (params : HnswParams) : (init params).Invariant where
  count := Nat.zero_le _
  sized := sized_init params
  links _ _ := ⟨nodup_nil, fun _ h => absurd h not_mem_nil,
    fun _ h => absurd h not_mem_nil⟩
  entered := ⟨fun _ => rfl, fun _ h => absurd h.symm (Option.some_ne_none _), fun _ h => absurd h not_mem_nil⟩

/-- The new node is the entry of a graph without nodes. -/
theorem Entered.only {g : Hnsw} (h : g.levels = []) (vector : F32Slice) (level : UInt8) :
    Entered { g.withNode vector level with
      entryPoint := some g.nodes.length.toUInt32, topLevel := level } := by
  have hlevels : (g.withNode vector level).levels = [level] := by rw [withNode_levels, h]; rfl
  have hempty : g.nodes.length < 2 ^ 32 := by
    rw [map_eq_nil_iff.mp h]
    decide
  refine ⟨fun hnone => absurd hnone (Option.some_ne_none _), fun ep hep => ?_, fun l hl => ?_⟩
  · cases hep
    exact withNode_level hempty vector level
  · have hmem : l ∈ (g.withNode vector level).levels := hl
    rw [hlevels, mem_singleton] at hmem
    exact UInt8.le_of_eq hmem

variable {linked : Hnsw} {level : UInt8}

/-- A node above the highest level becomes the entry. -/
theorem Entered.promote {g : Hnsw} (h : g.Entered)
    (hcount : g.nodes.length < 2 ^ 32) (hlevels : linked.levels = g.levels ++ [level])
    (habove : g.topLevel < level) :
    Entered { linked with entryPoint := some g.nodes.length.toUInt32, topLevel := level } := by
  have hid : g.nodes.length.toUInt32.toNat = g.levels.length :=
    (Nat.mod_eq_of_lt hcount).trans (length_map _).symm
  refine ⟨fun hnone => absurd hnone (Option.some_ne_none _), fun ep hep => ?_, fun l hl => ?_⟩
  · cases hep
    have hlast : linked.levels[g.nodes.length.toUInt32.toNat]? = some level := by
      rw [hid, hlevels, getElem?_concat_length]
    exact hlast
  · have hmem : l ∈ linked.levels := hl
    rw [hlevels] at hmem
    rcases mem_append.mp hmem with hold | hnew
    · exact UInt8.le_trans (h.top l hold) (UInt8.le_of_lt habove)
    · exact UInt8.le_of_eq (mem_singleton.mp hnew)

/-- Another node leaves the entry as it is. -/
theorem Entered.stay {g : Hnsw} (h : g.Entered)
    (hep : g.entryPoint = some ep) (hlevels : linked.levels = g.levels ++ [level])
    (hentry : linked.entryPoint = g.entryPoint) (htop : linked.topLevel = g.topLevel)
    (hbelow : ¬ g.topLevel < level) : linked.Entered := by
  refine ⟨fun hnone => ?_, fun ep' hep' => ?_, fun l hl => ?_⟩
  · rw [hentry, hep] at hnone
    cases hnone
  · rw [hentry] at hep'
    rw [hlevels, htop, getElem?_append_left
      (List.getElem?_eq_some_iff.mp (h.entry ep' hep')).1]
    exact h.entry ep' hep'
  · rw [hlevels] at hl
    rw [htop]
    rcases mem_append.mp hl with hold | hnew
    · exact h.top l hold
    · rw [mem_singleton.mp hnew]
      exact UInt8.not_lt.mp hbelow

variable {g' : Hnsw} {vector : F32Slice} {id : Nat}

theorem dim_of_insert {g : Hnsw}
    (hins : g.insert env metric vector = .ok (id, g')) : g.dim = 0 ∨ vector.len = g.dim := by
  rw [Hnsw.insert] at hins
  split at hins
  · cases hins
  · omega

theorem inserted_of_insert {g : Hnsw}
    (hins : g.insert env metric vector = .ok (id, g')) : Inserted g vector g' := by
  obtain ⟨g'', hok, hinserted⟩ := insert_of_dim env metric (dim_of_insert env metric hins)
  have hsame : g'' = g' := (Prod.mk.inj (Except.ok.inj (hok.symm.trans hins))).2
  exact hsame ▸ hinserted

theorem Inserted.count {g : Hnsw} (h : Inserted g vector g') :
    g'.nodes.length = g.nodes.length + 1 := by
  have hlength := congrArg List.length h.vectors
  simpa only [length_map, length_append, length_singleton] using hlength

theorem Invariant.insert_links {g : Hnsw} (h : g.Invariant)
    (hcount : g.nodes.length < 2 ^ 32) (hins : g.insert env metric vector = .ok (id, g')) :
    g'.WellLinked ∧ g'.Entered := by
  rw [Hnsw.insert] at hins
  split at hins
  · cases hins
  dsimp only at hins
  split at hins
  · rename_i hnone
    cases hins
    exact ⟨(h.links.withNode vector (g.sampleLevel env)).of_nodes rfl,
      Entered.only (h.entered.first hnone) vector (g.sampleLevel env)⟩
  · rename_i ep hep
    cases hins
    obtain ⟨hlinks, hlevels⟩ := h.links.connect env metric hcount vector (g.sampleLevel env)
      ⟨g.topLevel, h.entered.entry ep hep, le_refl _⟩
    have hrelinked := relinked_connectLevels env metric vector.bytes g.nodes.length.toUInt32
      (min g.topLevel.toNat (g.sampleLevel env).toNat + 1)
      [descend env metric (g.withNode vector (g.sampleLevel env)) vector.bytes
        (g.sampleLevel env).toNat g.topLevel.toNat ep] (g.withNode vector (g.sampleLevel env))
    split
    · rename_i habove
      exact ⟨hlinks.of_nodes rfl, h.entered.promote hcount hlevels habove⟩
    · rename_i hbelow
      exact ⟨hlinks, h.entered.stay hep hlevels hrelinked.entryPoint hrelinked.topLevel hbelow⟩

/-- **An insertion keeps the invariant.** -/
theorem Invariant.insert {g : Hnsw} (h : g.Invariant)
    (hcount : g.nodes.length < 2 ^ 32) (hins : g.insert env metric vector = .ok (id, g')) :
    g'.Invariant := by
  have hinserted := inserted_of_insert env metric hins
  have hlength := hinserted.count
  obtain ⟨hlinks, hentered⟩ := h.insert_links env metric hcount hins
  exact ⟨by omega, hinserted.sized h.sized hcount, hlinks, hentered⟩

end

/-! ## Runs -/

structure NodeOk (g : Hnsw) (i : Nat) (node : GraphNode) : Prop where
  levels : node.neighbors.length = node.level.toNat + 1
  capacity : ∀ (lc : Nat) (nbrs : List UInt32), node.neighbors[lc]? = some nbrs →
    nbrs.length ≤ g.params.maxNeighborsAtLevel lc
  distinct : ∀ (lc : Nat) (nbrs : List UInt32), node.neighbors[lc]? = some nbrs → nbrs.Nodup
  valid : ∀ (lc : Nat) (nbrs : List UInt32), node.neighbors[lc]? = some nbrs → ∀ nb ∈ nbrs,
    nb.toNat ≠ i ∧ ∃ other : GraphNode, g.nodes[nb.toNat]? = some other ∧ lc ≤ other.level.toNat

/-- A search may index as it does. -/
structure Navigable (g : Hnsw) : Prop where
  nodes : ∀ (i : Nat) (node : GraphNode), g.nodes[i]? = some node → g.NodeOk i node
  entered : g.Entered

variable {g : Hnsw}

theorem Reaches.node {lc : Nat} {id : UInt32} (h : g.Reaches lc id) :
    ∃ node : GraphNode, g.nodes[id.toNat]? = some node ∧ lc ≤ node.level.toNat := by
  obtain ⟨level, hlevel, hle⟩ := h
  rw [levels, getElem?_map] at hlevel
  obtain ⟨node, hnode, rfl⟩ := Option.map_eq_some_iff.mp hlevel
  exact ⟨node, hnode, hle⟩

theorem Invariant.navigable (h : g.Invariant) : g.Navigable := by
  refine ⟨fun i node hnode => ?_, h.entered⟩
  have hsized := h.sized node (mem_of_getElem? hnode)
  have hi : i < g.nodes.length := (List.getElem?_eq_some_iff.mp hnode).1
  have hcount := h.count
  have hid : i.toUInt32.toNat = i := Nat.mod_eq_of_lt (by omega)
  have hlist : ∀ (lc : Nat) (nbrs : List UInt32), node.neighbors[lc]? = some nbrs → g.ListOk lc i.toUInt32 nbrs := by
    intro lc nbrs hnbrs
    have hok := h.links lc i.toUInt32
    rwa [neighborsAt, hid, hnode, Option.bind_some, hnbrs, Option.getD_some] at hok
  refine ⟨hsized.levels, fun _ _ => hsized.capacity, fun lc nbrs hnbrs => (hlist lc nbrs hnbrs).nodup,
    fun lc nbrs hnbrs nb hnb => ⟨fun heq => ?_, ((hlist lc nbrs hnbrs).reaches nb hnb).node⟩⟩
  exact (hlist lc nbrs hnbrs).other nb hnb (UInt32.toNat_inj.mp (heq.trans hid.symm))

theorem Invariant.layers (h : g.Invariant) : Layers g g.Reaches :=
  ⟨fun lc id _ nb hnb => (h.links lc id).reaches nb hnb, fun lc _ hid => hid.down (Nat.le_succ lc)⟩

section
variable {D : Type} (env : HnswEnv D) (metric : Metric)

/-- A vector of another dimension is refused; `@intCast` stops where the number of the node does
not fit. -/
def insertNext (g : Hnsw) (vector : F32Slice) : Option Hnsw :=
  match g.insert env metric vector with
  | .error _ => some g
  | .ok (_, g') => if g.nodes.length < 2 ^ 32 then some g' else none

/-- Into an empty graph. -/
def insertAll (params : HnswParams) (vectors : List F32Slice) : Option Hnsw :=
  vectors.foldlM (insertNext env metric) (init params)

variable {g g' : Hnsw}

theorem Invariant.insertNext {vector : F32Slice} (h : g.Invariant)
    (hnext : Hnsw.insertNext env metric g vector = some g') : g'.Invariant := by
  rw [Hnsw.insertNext] at hnext
  split at hnext
  · exact Option.some.inj hnext ▸ h
  · rename_i id inserted hins
    split at hnext
    · rename_i hcount
      cases hnext
      exact h.insert env metric hcount hins
    · cases hnext

theorem Invariant.run {vectors : List F32Slice} (h : g.Invariant)
    (hrun : vectors.foldlM (Hnsw.insertNext env metric) g = some g') : g'.Invariant := by
  induction vectors generalizing g with
  | nil => exact Option.some.inj hrun ▸ h
  | cons vector vectors ih =>
    rw [foldlM_cons] at hrun
    obtain ⟨mid, hmid, hrest⟩ := Option.bind_eq_some_iff.mp hrun
    exact ih (h.insertNext env metric hmid) hrest

end

/-- **Every search ends:** on a graph of inserts the loop of a layer, with no bound on its turns,
comes to its end with what `searchLayer` answers. -/
theorem searchLayer_ends {D : Type} (env : HnswEnv D) (metric : Metric) (params : HnswParams)
    (vectors : List F32Slice) (query : Bytes) (ep : UInt32) (ef lc : Nat)
    (skip : Option (List Bool)) :
    match insertAll env metric params vectors with
    | none => True
    | some g => Explores env metric g query ef lc skip (seedEntry env metric g query skip ⟨[], [], []⟩ ep)
        (searchLayer env metric g query [ep] ef lc skip) := by
  split
  · trivial
  rename_i g hrun
  have hinv : g.Invariant := (invariant_init params).run env metric hrun
  by_cases hep : ep.toNat < g.nodes.length
  · exact explores_searchLayer (nodup_singleton ep) (forall_mem_singleton.mpr hep)
      (fun id nb hnb => ((hinv.links lc id).reaches nb hnb).lt)
  · -- an entry beyond the nodes is not even a candidate
    have hseed : seedEntry env metric g query skip ⟨[], [], []⟩ ep = ⟨[], [], []⟩ :=
      if_pos (Nat.not_lt.mp hep)
    have hnone : searchLayer env metric g query [ep] ef lc skip = [] := by
      rw [searchLayer, foldl_cons, foldl_nil, hseed]
      cases [ep].length + g.nodes.length <;> simp [explore, PriorityQueue.pop]
    rw [hseed, hnone]
    exact .empty rfl

/-- Distances are compared as elements of the total order. -/
def orderedEnv {D : Type} [LinearOrder D] (distFn : Metric → Bytes → Bytes → D) (inf : D)
    (drawn : Nat → UInt8) : HnswEnv D :=
  ⟨distFn, fun a b => decide (a < b), inf, drawn⟩

theorem orderedEnv_weakOrder {D : Type} [LinearOrder D] (distFn : Metric → Bytes → Bytes → D)
    (inf : D) (drawn : Nat → UInt8) : WeakOrder (pqMaxOrder (orderedEnv distFn inf drawn)) where
  asymm h := decide_eq_false (not_lt.mpr (of_decide_eq_true h).le)
  trans hab hbc := decide_eq_false
    (not_lt.mpr ((not_lt.mp (of_decide_eq_false hab)).trans (not_lt.mp (of_decide_eq_false hbc))))

/-- **Whatever is inserted, the graph is navigable and a search answers with at most `k` nodes, in
ascending order, each once and none that is skipped.** -/
theorem insertAll_navigable {D : Type} [LinearOrder D] (distFn : Metric → Bytes → Bytes → D) (inf : D)
    (drawn : Nat → UInt8) (metric : Metric) (params : HnswParams) (vectors : List F32Slice)
    (g : Hnsw) (hrun : insertAll (orderedEnv distFn inf drawn) metric params vectors = some g) :
    g.Navigable ∧ ∀ (query : F32Slice) (k ef : Nat) (skip : Option (List Bool)),
      (∃ results, g.search (orderedEnv distFn inf drawn) metric query k ef skip = .ok results ∧
        Answers (orderedEnv distFn inf drawn) metric g query.bytes k skip results ∧
        results.Pairwise fun a b => a.dist ≤ b.dist) ∨
      (g.search (orderedEnv distFn inf drawn) metric query k ef skip = .error .dimensionMismatch ∧
        query.len ≠ g.dim) := by
  have hinv : g.Invariant := (invariant_init params).run _ metric hrun
  refine ⟨hinv.navigable, fun query k ef skip => ?_⟩
  cases hsearch : g.search (orderedEnv distFn inf drawn) metric query k ef skip with
  | error e =>
    obtain ⟨rfl, hdim⟩ := search_error hsearch
    exact .inr ⟨rfl, hdim⟩
  | ok results =>
    have hanswers := search_answers (orderedEnv_weakOrder distFn inf drawn) hinv.layers
      (fun _ h => h.lt) (fun ep hep => ⟨g.topLevel, hinv.entered.entry ep hep, le_refl _⟩) hsearch
    exact .inl ⟨results, rfl, hanswers,
      hanswers.ascending.imp fun h => not_lt.mp (of_decide_eq_false h)⟩

/-- Two nodes on two levels. -/
theorem insertAll_navigable_two :
    let env := orderedEnv (fun _ a b => if a = b then 0 else 1) (2 : Nat) (fun i => i.toUInt8)
    let near : F32Slice := ⟨[0, 0, 0, 0], by decide, by decide⟩
    let far : F32Slice := ⟨[0, 0, 128, 63], by decide, by decide⟩
    ∃ g, insertAll env .cosine HnswParams.default [near, far] = some g ∧ g.neighborsAt 0 0 = [1] ∧
      g.entryPoint = some 1 ∧ g.Navigable := by
  intro env near far
  have hrun : (insertAll env .cosine HnswParams.default [near, far]).map
      (fun g => (g.neighborsAt 0 0, g.entryPoint)) = some ([1], some 1) := by decide
  obtain ⟨g, hg, hsame⟩ := Option.map_eq_some_iff.mp hrun
  obtain ⟨hlink, hentry⟩ := Prod.mk.inj hsame
  exact ⟨g, hg, hlink, hentry, (insertAll_navigable _ _ _ _ _ _ g hg).1⟩
end Hnsw
end WormDB
