import Mathlib.Data.Finset.Card
import Mathlib.Data.List.Basic
import Mathlib.Data.List.Nodup
import Mathlib.Data.List.Perm.Basic
import ObjectFlow.Graph.Basic
import ObjectFlow.Proofs.Table

/-!
# Well-formed graphs

Every graph that is built by adding and removing has distinct identities, edges that end at its own
nodes, and a seating of just these nodes. Where the identities are new, adding does not fail
(`addNodes_eq_ok`, `addEdges_eq_ok`).

All later modules argue about graphs through two invariants and never through the order in which the
graph was built:

* `WellFormed` is about one graph. It has one lemma for each operation, of the form "if the
  operation is called with what it needs, the result is well-formed again".
* `Before` ties a graph to the supply of identities. A graph that is before a supply knows none of
  the identities that the supply will hand out, so that what is added under such an identity is new
  (`Before.next_not_mem_nodes`, `Before.next_not_mem_edges`).

Failing and total operations are paired. `addNode` and `addEdge` check their arguments and may fail;
`attachNode` and `withEdges` do not check anything. The lemmas `addNode_eq_ok_iff` and
`addEdge_eq_ok_iff` say when the former are the latter, and a proof about a run of additions goes
over to the total forms in its first line.
-/

namespace ObjectFlow

/-! ## Lists of one element at most

Several invariants say that there is at most one edge of some kind. They are stated by a count,
which can be computed, and used through these lemmas, by which any two such edges are the same. -/

theorem length_le_one_iff {α : Type} {l : List α} (hd : l.Nodup) :
    l.length ≤ 1 ↔ ∀ x ∈ l, ∀ y ∈ l, x = y :=
  Finset.card_le_one (s := ⟨(l : Multiset α), Multiset.coe_nodup.2 hd⟩)

theorem countP_le_one_iff {α : Type} {l : List α} (hd : l.Nodup) {p : α → Bool} :
    l.countP p ≤ 1 ↔ ∀ x ∈ l, ∀ y ∈ l, p x = true → p y = true → x = y := by
  rw [List.countP_eq_length_filter, length_le_one_iff (hd.filter p)]
  simp only [List.mem_filter]
  exact ⟨fun h x hx y hy hpx hpy => h x ⟨hx, hpx⟩ y ⟨hy, hpy⟩,
    fun h x hx y hy => h x hx.1 y hy.1 hx.2 hy.2⟩

/-! ## Places

A seating tells in which order a graph gives out its nodes. A node that is removed leaves its place
vacant, and the next node that comes takes the place that was left last. What matters elsewhere is
only who sits, not where: `Fits` says that those are the nodes of the graph. -/

namespace Seating

/-- Just the given nodes sit, and the places that count as vacant are empty. -/
structure Fits (s : Seating) (ids : List NodeId) : Prop where
  seated_perm : s.seated.Perm ids
  vacant_empty : ∀ i ∈ s.vacant, s.places[i]? = some none
  vacant_nodup : s.vacant.Nodup

theorem perm_set_some {places : List (Option NodeId)} {i : Nat} (h : places[i]? = some none)
    (id : NodeId) :
    ((places.set i (some id)).filterMap fun x => x).Perm (id :: places.filterMap fun x => x) := by
  induction places generalizing i with
  | nil => simp at h
  | cons p places ih =>
    cases i with
    | zero =>
      obtain rfl : p = none := by simpa using h
      simp
    | succ i =>
      have ih := ih (i := i) (by simpa using h)
      cases p with
      | none => simpa using ih
      | some q => simpa using (ih.cons q).trans (.swap _ _ _)

theorem perm_set_none {places : List (Option NodeId)} {i : Nat} {id : NodeId}
    (h : places[i]? = some (some id)) :
    (id :: (places.set i none).filterMap fun x => x).Perm (places.filterMap fun x => x) := by
  induction places generalizing i with
  | nil => simp at h
  | cons p places ih =>
    cases i with
    | zero =>
      obtain rfl : p = some id := by simpa using h
      simp
    | succ i =>
      have ih := ih (i := i) (by simpa using h)
      cases p with
      | none => simpa using ih
      | some q => simpa using (List.Perm.swap _ _ _).trans (ih.cons q)

theorem fits_empty : Fits {} [] :=
  ⟨List.Perm.refl _, by simp, List.nodup_nil⟩

theorem fits_inOrder (ids : List NodeId) : Fits (inOrder ids) ids :=
  ⟨by rw [seated_inOrder], by simp [inOrder], List.nodup_nil⟩

/-- A node that takes a vacant place, or a new one at the end, sits beside all others. -/
theorem Fits.seat {s : Seating} {ids : List NodeId} (h : s.Fits ids) (id : NodeId) :
    (s.seat id).Fits (ids ++ [id]) := by
  obtain ⟨places, vacant⟩ := s
  cases vacant with
  | nil =>
    refine ⟨?_, by simp [Seating.seat], List.nodup_nil⟩
    have := h.seated_perm.append_right [id]
    simpa [Seating.seat, seated] using this
  | cons i rest =>
    have hi : places[i]? = some none := h.vacant_empty i List.mem_cons_self
    have hd := List.nodup_cons.1 h.vacant_nodup
    refine ⟨?_, ?_, hd.2⟩
    · have := (perm_set_some hi id).trans (h.seated_perm.cons id)
      exact this.trans (List.perm_append_singleton id ids).symm
    · intro j hj
      have hne : i ≠ j := fun hij => hd.1 (hij ▸ hj)
      have := h.vacant_empty j (List.mem_cons_of_mem _ hj)
      simpa [Seating.seat, List.getElem?_set_ne hne] using this

/-- A node that gets up leaves the others where they are. -/
theorem Fits.unseat {s : Seating} {ids : List NodeId} (h : s.Fits ids) (hd : ids.Nodup)
    {id : NodeId} (hid : id ∈ ids) : (s.unseat id).Fits (ids.filter (· ≠ id)) := by
  obtain ⟨places, vacant⟩ := s
  have hmem : some id ∈ places := by
    have := h.seated_perm.symm.subset hid
    simpa [seated] using this
  obtain ⟨i, hi⟩ : ∃ i, places.findIdx? (· == some id) = some i := by
    rw [← Option.isSome_iff_exists, List.findIdx?_isSome, List.any_eq_true]
    exact ⟨some id, hmem, by simp⟩
  have hat : places[i]? = some (some id) := by
    obtain ⟨hlt, hp, -⟩ := List.findIdx?_eq_some_iff_getElem.1 hi
    rw [List.getElem?_eq_getElem hlt]
    simpa using hp
  have hnew : i ∉ vacant := by
    intro hv
    have := h.vacant_empty i hv
    rw [hat] at this
    cases this
  simp only [Seating.unseat, hi]
  refine ⟨?_, ?_, List.nodup_cons.2 ⟨hnew, h.vacant_nodup⟩⟩
  · have hp := (perm_set_none hat).trans h.seated_perm
    have he : ids.filter (· ≠ id) = ids.erase id := by
      rw [hd.erase_eq_filter id]
      exact List.filter_congr fun x _ => by simp [bne, beq_eq_decide]
    rw [he]
    exact (List.perm_cons id).1 (hp.trans (List.perm_cons_erase hid))
  · intro j hj
    rcases List.mem_cons.1 hj with rfl | hj
    · have hlt : j < places.length := (List.getElem?_eq_some_iff.1 hat).1
      simp [hlt]
    · have hne : i ≠ j := fun hij => hnew (hij ▸ hj)
      rw [List.getElem?_set_ne hne]
      exact h.vacant_empty j hj

end Seating

namespace Graph

variable {N E : Type}

/-! ## Nodes and edges of a graph

One lemma for each question about a graph and each operation on it, so that no later proof unfolds
either of them. The edges that are added go behind those that are there, and nothing else changes
their order. -/

theorem nodeIds_eq_keys (g : Graph N E) : g.nodeIds = Table.keys g.nodes := rfl

theorem hasNode_iff {g : Graph N E} {id : NodeId} : g.hasNode id = true ↔ id ∈ g.nodeIds :=
  Table.holds_iff

theorem hasEdge_iff {g : Graph N E} {id : EdgeId} :
    g.hasEdge id = true ↔ id ∈ g.edges.map Edge.id := by
  simp [hasEdge]

theorem mem_outEdges {g : Graph N E} {id : NodeId} {e : Edge E} :
    e ∈ g.outEdges id ↔ e ∈ g.edges ∧ e.source = id := by
  simp [outEdges]

theorem mem_inEdges {g : Graph N E} {id : NodeId} {e : Edge E} :
    e ∈ g.inEdges id ↔ e ∈ g.edges ∧ e.target = id := by
  simp [inEdges]

theorem outEdges_subset (g : Graph N E) (id : NodeId) : g.outEdges id ⊆ g.edges :=
  List.filter_sublist.subset

/-- A lookup fails just for what is no node. -/
theorem node?_eq_none_iff {g : Graph N E} {id : NodeId} : g.node? id = none ↔ id ∉ g.nodeIds :=
  Table.at?_eq_none_iff

theorem mem_nodeIds_of_node? {g : Graph N E} {id : NodeId} {x : N} (h : g.node? id = some x) :
    id ∈ g.nodeIds :=
  Table.mem_keys.2 ⟨x, Table.mem_of_at? h⟩

theorem exists_node?_of_mem {g : Graph N E} {id : NodeId} (h : id ∈ g.nodeIds) :
    ∃ x, g.node? id = some x := by
  cases hx : g.node? id with
  | none => exact absurd h (node?_eq_none_iff.1 hx)
  | some x => exact ⟨x, rfl⟩

/-- The node that is attached is found where no older one has its identity. -/
theorem node?_attachNode (g : Graph N E) (id : NodeId) (x : N) (id' : NodeId) :
    (g.attachNode id x).node? id' = (g.node? id').or (if id = id' then some x else none) :=
  Table.at?_append g.nodes [(id, x)] id'

@[simp] theorem nodeIds_attachNode (g : Graph N E) (id : NodeId) (x : N) :
    (g.attachNode id x).nodeIds = g.nodeIds ++ [id] := by
  simp [attachNode, nodeIds]

/-- The graph with further edges behind its own. -/
def withEdges (g : Graph N E) (es : List (Edge E)) : Graph N E := { g with edges := g.edges ++ es }

@[simp] theorem nodes_withEdges (g : Graph N E) (es : List (Edge E)) :
    (g.withEdges es).nodes = g.nodes := rfl

@[simp] theorem nodeIds_withEdges (g : Graph N E) (es : List (Edge E)) :
    (g.withEdges es).nodeIds = g.nodeIds := rfl

@[simp] theorem edges_withEdges (g : Graph N E) (es : List (Edge E)) :
    (g.withEdges es).edges = g.edges ++ es := rfl

theorem forall_mem_withEdges {g : Graph N E} {es : List (Edge E)} {p : Edge E → Prop} :
    (∀ e ∈ (g.withEdges es).edges, p e) ↔ (∀ e ∈ g.edges, p e) ∧ ∀ e ∈ es, p e :=
  List.forall_mem_append

@[simp] theorem node?_withEdges (g : Graph N E) (es : List (Edge E)) (id : NodeId) :
    (g.withEdges es).node? id = g.node? id := rfl

@[simp] theorem withEdges_nil (g : Graph N E) : g.withEdges [] = g := by
  simp [withEdges]

theorem withEdges_withEdges (g : Graph N E) (es fs : List (Edge E)) :
    (g.withEdges es).withEdges fs = g.withEdges (es ++ fs) := by
  simp [withEdges]

@[simp] theorem nodeIds_removeEdge (g : Graph N E) (id : EdgeId) :
    (g.removeEdge id).nodeIds = g.nodeIds := rfl

@[simp] theorem node?_removeEdge (g : Graph N E) (id : EdgeId) (id' : NodeId) :
    (g.removeEdge id).node? id' = g.node? id' := rfl

/-- All edges of another identity stay. -/
theorem mem_edges_removeEdge {g : Graph N E} {id : EdgeId} {e : Edge E} :
    e ∈ (g.removeEdge id).edges ↔ e ∈ g.edges ∧ e.id ≠ id := by
  simp [removeEdge]

theorem nodeIds_removeNode (g : Graph N E) (id : NodeId) :
    (g.removeNode id).nodeIds = g.nodeIds.filter (· ≠ id) := by
  unfold removeNode
  split
  · exact Table.keys_without g.nodes id
  · rename_i h
    rw [hasNode_iff] at h
    exact (List.filter_eq_self.2 fun x hx => by simpa using fun hxid : x = id => h (hxid ▸ hx)).symm

/-- All nodes of another identity stay, with their data. -/
theorem nodes_removeNode (g : Graph N E) (id : NodeId) :
    (g.removeNode id).nodes = g.nodes.filter fun n => n.1 ≠ id := by
  unfold removeNode
  split
  · rfl
  · rename_i h
    rw [hasNode_iff] at h
    refine (List.filter_eq_self.2 fun n hn => ?_).symm
    have hne : n.1 ≠ id := fun heq => h (heq ▸ List.mem_map_of_mem hn)
    exact decide_eq_true hne

@[simp] theorem metadata_removeNode (g : Graph N E) (id : NodeId) :
    (g.removeNode id).metadata = g.metadata := by
  unfold removeNode
  split <;> rfl

theorem node?_removeNode_of_ne (g : Graph N E) {id id' : NodeId} (h : id' ≠ id) :
    (g.removeNode id).node? id' = g.node? id' := by
  unfold removeNode
  split
  · exact Table.at?_without_of_ne g.nodes h
  · rfl

@[simp] theorem edges_adjustNode (g : Graph N E) (id : NodeId) (f : N → N) :
    (g.adjustNode id f).edges = g.edges := rfl

@[simp] theorem nodeIds_adjustNode (g : Graph N E) (id : NodeId) (f : N → N) :
    (g.adjustNode id f).nodeIds = g.nodeIds :=
  Table.keys_adjust f id g.nodes

/-- The data of one node change, and no others. -/
theorem node?_adjustNode (g : Graph N E) (id : NodeId) (f : N → N) (id' : NodeId) :
    (g.adjustNode id f).node? id' = if id' = id then (g.node? id').map f else g.node? id' :=
  Table.at?_adjust f id id' g.nodes

/-! ## Well-formedness

The structure, what follows from it at once, and that every operation keeps it up. A node may be
removed without a condition, since the edges at it are removed with it. -/

/--
Identities are distinct, edges end at nodes of the graph, and just these nodes have places.
-/
structure WellFormed (g : Graph N E) : Prop where
  nodes_nodup : g.nodeIds.Nodup
  edges_nodup : (g.edges.map Edge.id).Nodup
  source_mem : ∀ e ∈ g.edges, e.source ∈ g.nodeIds
  target_mem : ∀ e ∈ g.edges, e.target ∈ g.nodeIds
  seating_fits : g.seating.Fits g.nodeIds

/-- All identities in the graph were handed out before. -/
structure Before (g : Graph N E) (s : Supply) : Prop where
  node_lt : ∀ id ∈ g.nodeIds, id.value < s.next
  edge_lt : ∀ e ∈ g.edges, e.id.value < s.next

theorem Before.mono {g : Graph N E} {s s' : Supply} (h : g.Before s) (hs : s.next ≤ s'.next) :
    g.Before s' :=
  ⟨fun id hid => Nat.lt_of_lt_of_le (h.node_lt id hid) hs,
    fun e he => Nat.lt_of_lt_of_le (h.edge_lt e he) hs⟩

theorem Before.withEdges {g : Graph N E} {s s' : Supply} (h : g.Before s) (hs : s.next ≤ s'.next)
    {es : List (Edge E)} (he : ∀ e ∈ es, e.id.value < s'.next) : (g.withEdges es).Before s' := by
  refine ⟨(h.mono hs).node_lt, fun e hmem => ?_⟩
  rcases List.mem_append.1 hmem with hmem | hmem
  · exact (h.mono hs).edge_lt e hmem
  · exact he e hmem

/-- An edge with the next identity of the supply. -/
theorem Before.withEdge {g : Graph N E} {s : Supply} (h : g.Before s) {e : Edge E}
    (he : e.id = s.edge.1) : (g.withEdges [e]).Before s.edge.2 :=
  h.withEdges (Nat.le_succ _) (List.forall_mem_singleton.2 (he ▸ Nat.lt_succ_self _))

theorem Before.attachNode {g : Graph N E} {s : Supply} (h : g.Before s) (x : N) :
    (g.attachNode s.node.1 x).Before s.node.2 := by
  refine ⟨fun id hid => ?_, (h.mono (Nat.le_succ _)).edge_lt⟩
  rw [nodeIds_attachNode, List.mem_append, List.mem_singleton] at hid
  rcases hid with hid | rfl
  · exact Nat.lt_succ_of_lt (h.node_lt id hid)
  · exact Nat.lt_succ_self _

theorem Before.adjustNode {g : Graph N E} {s : Supply} (h : g.Before s) (id : NodeId) (f : N → N) :
    (g.adjustNode id f).Before s :=
  ⟨fun id' hid => h.node_lt id' (by rwa [nodeIds_adjustNode] at hid), h.edge_lt⟩

theorem Before.removeEdge {g : Graph N E} {s : Supply} (h : g.Before s) (id : EdgeId) :
    (g.removeEdge id).Before s :=
  ⟨h.node_lt, fun e he => h.edge_lt e (mem_edges_removeEdge.1 he).1⟩

theorem Before.removeNode {g : Graph N E} {s : Supply} (h : g.Before s) (id : NodeId) :
    (g.removeNode id).Before s := by
  refine ⟨fun id' hid => ?_, fun e he => ?_⟩
  · rw [nodeIds_removeNode] at hid
    exact h.node_lt id' (List.mem_of_mem_filter hid)
  · unfold Graph.removeNode at he
    split at he
    · exact h.edge_lt e (List.mem_of_mem_filter he)
    · exact h.edge_lt e he

theorem Before.next_not_mem_nodes {g : Graph N E} {s : Supply} (h : g.Before s) :
    (⟨s.next⟩ : NodeId) ∉ g.nodeIds := fun hm => Nat.lt_irrefl _ (h.node_lt _ hm)

theorem Before.next_not_mem_edges {g : Graph N E} {s : Supply} (h : g.Before s) :
    (⟨s.next⟩ : EdgeId) ∉ g.edges.map Edge.id := by
  intro hm
  obtain ⟨e, he, hid⟩ := List.mem_map.1 hm
  have := h.edge_lt e he
  rw [hid] at this
  exact Nat.lt_irrefl _ this

theorem WellFormed.empty : ({} : Graph N E).WellFormed :=
  ⟨List.nodup_nil, List.nodup_nil, by simp, by simp, Seating.fits_empty⟩

/-- Edges of one identity are one edge. -/
theorem WellFormed.edge_ext {g : Graph N E} (h : g.WellFormed) {e e' : Edge E} (he : e ∈ g.edges)
    (he' : e' ∈ g.edges) (hid : e.id = e'.id) : e = e' :=
  List.inj_on_of_nodup_map h.edges_nodup he he' hid

/-- An edge of the graph is told from its other edges by its identity. -/
theorem WellFormed.id_mem_iff {g : Graph N E} (h : g.WellFormed) {es : List (Edge E)}
    (hes : es ⊆ g.edges) {e : Edge E} (he : e ∈ g.edges) : e.id ∈ es.map Edge.id ↔ e ∈ es := by
  refine ⟨fun hm => ?_, List.mem_map_of_mem⟩
  obtain ⟨e', he', hid⟩ := List.mem_map.1 hm
  exact h.edge_ext (hes he') he hid ▸ he'

/-- Every edge has one place in the order of insertion. -/
theorem WellFormed.count_id_filter {g : Graph N E} (h : g.WellFormed) {e : Edge E}
    (he : e ∈ g.edges) (p : Edge E → Bool) :
    ((g.edges.filter p).map Edge.id).count e.id = if p e = true then 1 else 0 := by
  split
  · rename_i hp
    exact List.count_eq_one_of_mem (h.edges_nodup.sublist (List.filter_sublist.map _))
      (List.mem_map_of_mem (List.mem_filter.2 ⟨he, hp⟩))
  · rename_i hp
    refine List.count_eq_zero_of_not_mem fun hm => hp ?_
    exact (List.mem_filter.1 ((h.id_mem_iff List.filter_sublist.subset he).1 hm)).2

/-- A node is found just if it stands in the list of nodes. -/
theorem WellFormed.node?_eq_some_iff {g : Graph N E} (h : g.WellFormed) {id : NodeId} {x : N} :
    g.node? id = some x ↔ (id, x) ∈ g.nodes :=
  Table.at?_eq_some_iff h.nodes_nodup

theorem WellFormed.attachNode {g : Graph N E} (h : g.WellFormed) {id : NodeId} (x : N)
    (hid : id ∉ g.nodeIds) : (g.attachNode id x).WellFormed := by
  refine ⟨?_, h.edges_nodup, fun e he => ?_, fun e he => ?_, ?_⟩
  · rw [nodeIds_attachNode]
    exact h.nodes_nodup.append (List.nodup_singleton id) (by simpa using hid)
  · rw [nodeIds_attachNode]
    exact List.mem_append_left _ (h.source_mem e he)
  · rw [nodeIds_attachNode]
    exact List.mem_append_left _ (h.target_mem e he)
  · rw [nodeIds_attachNode]
    exact h.seating_fits.seat id

theorem WellFormed.withEdges {g : Graph N E} (h : g.WellFormed) {es : List (Edge E)}
    (hd : (es.map Edge.id).Nodup) (hnew : ∀ e ∈ es, e.id ∉ g.edges.map Edge.id)
    (hs : ∀ e ∈ es, e.source ∈ g.nodeIds) (ht : ∀ e ∈ es, e.target ∈ g.nodeIds) :
    (g.withEdges es).WellFormed := by
  refine ⟨h.nodes_nodup, ?_, fun e he => ?_, fun e he => ?_, h.seating_fits⟩
  · rw [edges_withEdges, List.map_append]
    refine h.edges_nodup.append hd fun id hid hid' => ?_
    obtain ⟨e, he, rfl⟩ := List.mem_map.1 hid'
    exact hnew e he hid
  · rcases List.mem_append.1 he with he | he
    · exact h.source_mem e he
    · exact hs e he
  · rcases List.mem_append.1 he with he | he
    · exact h.target_mem e he
    · exact ht e he

theorem WellFormed.withEdge {g : Graph N E} (h : g.WellFormed) {e : Edge E}
    (hnew : e.id ∉ g.edges.map Edge.id) (hs : e.source ∈ g.nodeIds) (ht : e.target ∈ g.nodeIds) :
    (g.withEdges [e]).WellFormed :=
  h.withEdges (List.nodup_singleton _) (List.forall_mem_singleton.2 hnew)
    (List.forall_mem_singleton.2 hs) (List.forall_mem_singleton.2 ht)

theorem WellFormed.filterEdges {g : Graph N E} (h : g.WellFormed) (p : Edge E → Bool) :
    ({ g with edges := g.edges.filter p } : Graph N E).WellFormed :=
  ⟨h.nodes_nodup, h.edges_nodup.sublist (List.filter_sublist.map _),
    fun e he => h.source_mem e (List.mem_of_mem_filter he),
    fun e he => h.target_mem e (List.mem_of_mem_filter he), h.seating_fits⟩

theorem WellFormed.removeEdge {g : Graph N E} (h : g.WellFormed) (id : EdgeId) :
    (g.removeEdge id).WellFormed := h.filterEdges _

theorem WellFormed.adjustNode {g : Graph N E} (h : g.WellFormed) (id : NodeId) (f : N → N) :
    (g.adjustNode id f).WellFormed := by
  refine ⟨?_, h.edges_nodup, fun e he => ?_, fun e he => ?_, ?_⟩
  · rw [nodeIds_adjustNode]
    exact h.nodes_nodup
  · rw [nodeIds_adjustNode]
    exact h.source_mem e he
  · rw [nodeIds_adjustNode]
    exact h.target_mem e he
  · rw [nodeIds_adjustNode]
    exact h.seating_fits

theorem mem_edges_removeNode_of_mem {g : Graph N E} {id : NodeId} (hid : id ∈ g.nodeIds)
    {e : Edge E} :
    e ∈ (g.removeNode id).edges ↔ e ∈ g.edges ∧ e.source ≠ id ∧ e.target ≠ id := by
  rw [removeNode, if_pos (hasNode_iff.2 hid)]
  simp

/-- Just the edges at the node go with it. -/
theorem edges_removeNode {g : Graph N E} (h : g.WellFormed) (id : NodeId) :
    (g.removeNode id).edges = g.edges.filter fun e => e.source ≠ id ∧ e.target ≠ id := by
  unfold Graph.removeNode
  split
  · rfl
  · rename_i hid
    rw [hasNode_iff] at hid
    refine (List.filter_eq_self.2 fun e he => decide_eq_true ⟨?_, ?_⟩).symm
    · rintro rfl
      exact hid (h.source_mem e he)
    · rintro rfl
      exact hid (h.target_mem e he)

theorem mem_edges_removeNode {g : Graph N E} (h : g.WellFormed) {id : NodeId} {e : Edge E} :
    e ∈ (g.removeNode id).edges ↔ e ∈ g.edges ∧ e.source ≠ id ∧ e.target ≠ id := by
  simp [edges_removeNode h]

theorem WellFormed.removeNode {g : Graph N E} (h : g.WellFormed) (id : NodeId) :
    (g.removeNode id).WellFormed := by
  have hmem := nodeIds_removeNode g id
  by_cases hid : id ∈ g.nodeIds
  · refine ⟨?_, ?_, fun e he => ?_, fun e he => ?_, ?_⟩
    · rw [hmem]
      exact h.nodes_nodup.filter _
    · rw [Graph.removeNode, if_pos (hasNode_iff.2 hid)]
      exact h.edges_nodup.sublist (List.filter_sublist.map _)
    · have he := (mem_edges_removeNode h).1 he
      rw [hmem, List.mem_filter]
      exact ⟨h.source_mem e he.1, by simpa using he.2.1⟩
    · have he := (mem_edges_removeNode h).1 he
      rw [hmem, List.mem_filter]
      exact ⟨h.target_mem e he.1, by simpa using he.2.2⟩
    · rw [hmem, Graph.removeNode, if_pos (hasNode_iff.2 hid)]
      exact h.seating_fits.unseat h.nodes_nodup hid
  · rw [Graph.removeNode, if_neg (by rwa [hasNode_iff])]
    exact h

theorem WellFormed.mapData {N' E' : Type} {g : Graph N E} (h : g.WellFormed)
    (onNode : NodeId → N → N') (onEdge : Edge E → E') : (g.mapData onNode onEdge).WellFormed := by
  have hids : (g.mapData onNode onEdge).edges.map Edge.id = g.edges.map Edge.id := by
    simp [Graph.mapData, Function.comp_def]
  refine ⟨?_, ?_, fun e he => ?_, fun e he => ?_, ?_⟩
  · rw [nodeIds_mapData]
    exact h.nodes_nodup
  · rw [hids]
    exact h.edges_nodup
  · obtain ⟨e₀, he₀, rfl⟩ := List.mem_map.1 he
    rw [nodeIds_mapData]
    exact h.source_mem e₀ he₀
  · obtain ⟨e₀, he₀, rfl⟩ := List.mem_map.1 he
    rw [nodeIds_mapData]
    exact h.target_mem e₀ he₀
  · rw [nodeIds_mapData]
    exact Seating.fits_inOrder _

/-! ## Adding what is new

The operations that check their arguments, where the check succeeds. -/

theorem addNode_eq_ok {g : Graph N E} {id : NodeId} (x : N) (h : id ∉ g.nodeIds) :
    g.addNode id x = .ok (g.attachNode id x) := by
  rw [addNode, if_neg (by rwa [hasNode_iff])]

theorem addEdge_eq_ok {g : Graph N E} {e : Edge E} (hnew : e.id ∉ g.edges.map Edge.id)
    (hs : e.source ∈ g.nodeIds) (ht : e.target ∈ g.nodeIds) :
    g.addEdge e = .ok (g.withEdges [e]) := by
  rw [addEdge, if_neg (by rwa [hasEdge_iff]), hasNode_iff.2 hs, hasNode_iff.2 ht]
  rfl

/-- A node can be added just if it is new. -/
theorem addNode_eq_ok_iff {g g' : Graph N E} {id : NodeId} {x : N} :
    g.addNode id x = .ok g' ↔ id ∉ g.nodeIds ∧ g' = g.attachNode id x := by
  constructor
  · intro h
    by_cases hid : id ∈ g.nodeIds
    · rw [addNode, if_pos (hasNode_iff.2 hid)] at h
      cases h
    · rw [addNode_eq_ok x hid] at h
      exact ⟨hid, (Except.ok.inj h).symm⟩
  · rintro ⟨hid, rfl⟩
    exact addNode_eq_ok x hid

/-- An edge can be added just if its identity is new and both its ends are there. -/
theorem addEdge_eq_ok_iff {g g' : Graph N E} {e : Edge E} :
    g.addEdge e = .ok g' ↔ e.id ∉ g.edges.map Edge.id ∧ e.source ∈ g.nodeIds ∧
      e.target ∈ g.nodeIds ∧ g' = g.withEdges [e] := by
  constructor
  · intro h
    have h' := h
    rw [addEdge] at h
    split at h
    · cases h
    rename_i hnew
    split at h
    · cases h
    rename_i hs
    split at h
    · cases h
    rename_i ht
    rw [hasEdge_iff] at hnew
    rw [Bool.not_eq_true', Bool.not_eq_false, hasNode_iff] at hs ht
    rw [addEdge_eq_ok hnew hs ht] at h'
    exact ⟨hnew, hs, ht, (Except.ok.inj h').symm⟩
  · rintro ⟨hnew, hs, ht, rfl⟩
    exact addEdge_eq_ok hnew hs ht

theorem WellFormed.addEdge {g g' : Graph N E} (h : g.WellFormed) {e : Edge E}
    (hok : g.addEdge e = .ok g') : g'.WellFormed := by
  obtain ⟨hnew, hs, ht, rfl⟩ := addEdge_eq_ok_iff.1 hok
  exact h.withEdge hnew hs ht

/-- Edges with new and distinct identities between nodes of a graph can be added to it. -/
theorem addEdges_eq_ok {g : Graph N E} {es : List (Edge E)} (hd : (es.map Edge.id).Nodup)
    (hnew : ∀ e ∈ es, e.id ∉ g.edges.map Edge.id) (hs : ∀ e ∈ es, e.source ∈ g.nodeIds)
    (ht : ∀ e ∈ es, e.target ∈ g.nodeIds) : g.addEdges es = .ok (g.withEdges es) := by
  induction es generalizing g with
  | nil => rw [withEdges_nil]; rfl
  | cons e es ih =>
    rw [List.map_cons, List.nodup_cons] at hd
    have h₁ : g.addEdge e = .ok (g.withEdges [e]) :=
      addEdge_eq_ok (hnew e List.mem_cons_self) (hs e List.mem_cons_self) (ht e List.mem_cons_self)
    have hnew' : ∀ e' ∈ es, e'.id ∉ (g.withEdges [e]).edges.map Edge.id := by
      intro e' he' hm
      rw [edges_withEdges, List.map_append, List.mem_append] at hm
      rcases hm with hm | hm
      · exact hnew e' (List.mem_cons_of_mem _ he') hm
      · have hid : e'.id = e.id := by simpa using hm
        exact hd.1 (hid ▸ List.mem_map_of_mem he')
    have ih := ih hd.2 hnew' (fun e' he' => hs e' (List.mem_cons_of_mem _ he'))
      (fun e' he' => ht e' (List.mem_cons_of_mem _ he'))
    rw [addEdges, List.foldlM_cons, h₁]
    exact ih.trans (by rw [withEdges_withEdges]; rfl)

/-! ## Several nodes

A run of additions is one total operation if all the identities are new and distinct. The induction
is on the list of nodes; what has to be carried along is that the nodes behind one that was just
attached are still new (`fresh_attachNode`). -/

/-- The graph with further nodes behind its own. -/
def withNodes (g : Graph N E) (ns : Table NodeId N) : Graph N E :=
  ns.foldl (fun g n => g.attachNode n.1 n.2) g

theorem withNodes_cons (g : Graph N E) (n : NodeId × N) (ns : Table NodeId N) :
    g.withNodes (n :: ns) = (g.attachNode n.1 n.2).withNodes ns := rfl

@[simp] theorem edges_withNodes (g : Graph N E) (ns : Table NodeId N) :
    (g.withNodes ns).edges = g.edges := by
  induction ns generalizing g with
  | nil => rfl
  | cons n ns ih => rw [withNodes_cons, ih, edges_attachNode]

@[simp] theorem nodes_withNodes (g : Graph N E) (ns : Table NodeId N) :
    (g.withNodes ns).nodes = g.nodes ++ ns := by
  induction ns generalizing g with
  | nil => simp [withNodes]
  | cons n ns ih => rw [withNodes_cons, ih, attachNode, List.append_assoc]; rfl

@[simp] theorem nodeIds_withNodes (g : Graph N E) (ns : Table NodeId N) :
    (g.withNodes ns).nodeIds = g.nodeIds ++ Table.keys ns := by
  rw [nodeIds_eq_keys, nodes_withNodes, Table.keys_append, nodeIds_eq_keys]

section

variable {g : Graph N E} {ns : Table NodeId N}

/-- The nodes behind a new one are new to the graph that has it. -/
theorem fresh_attachNode {n : NodeId × N} (hd : n.1 ∉ Table.keys ns)
    (hnew : ∀ id ∈ Table.keys (n :: ns), id ∉ g.nodeIds) :
    ∀ id ∈ Table.keys ns, id ∉ (g.attachNode n.1 n.2).nodeIds := by
  intro id hid hm
  rw [nodeIds_attachNode, List.mem_append, List.mem_singleton] at hm
  rcases hm with hm | rfl
  · exact hnew id (List.mem_cons_of_mem _ hid) hm
  · exact hd hid

theorem WellFormed.withNodes (h : g.WellFormed) (hd : (Table.keys ns).Nodup)
    (hnew : ∀ id ∈ Table.keys ns, id ∉ g.nodeIds) : (g.withNodes ns).WellFormed := by
  induction ns generalizing g with
  | nil => exact h
  | cons n ns ih =>
    obtain ⟨hn, hd⟩ := List.nodup_cons.1 hd
    exact ih (h.attachNode n.2 (hnew n.1 List.mem_cons_self)) hd (fresh_attachNode hn hnew)

theorem addNodes_eq_ok (hd : (Table.keys ns).Nodup)
    (hnew : ∀ id ∈ Table.keys ns, id ∉ g.nodeIds) : g.addNodes ns = .ok (g.withNodes ns) := by
  induction ns generalizing g with
  | nil => rfl
  | cons n ns ih =>
    obtain ⟨hn, hd⟩ := List.nodup_cons.1 hd
    rw [addNodes, List.foldlM_cons, addNode_eq_ok _ (hnew n.1 List.mem_cons_self)]
    exact ih hd (fresh_attachNode hn hnew)

end

end Graph

end ObjectFlow
