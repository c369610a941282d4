import ObjectFlow.Flow.Flatten
import ObjectFlow.Proofs.Graph.WellFormed
import ObjectFlow.Proofs.Outcome

/-!
# Parts of one graph in another

A graph takes over all that lies between the markers of another one with which it shares no node and
no edge (`graft_spec`), whatever the nodes are, and it can be given new edges between what it has
then (`connect_eq_ok`).

Both flattening and joining are made of these two operations. The first keeps the identities of
nodes and edges, and so must ask that the graphs have none in common. The second draws identities
from the supply, and so must ask that the graph was made before (`Graph.Before`).
-/

namespace ObjectFlow

namespace Flow

/-- The graphs have no node and no edge in common. -/
structure Apart (f g : Flow) : Prop where
  nodes : ∀ n ∈ f.graph.nodeIds, n ∉ g.graph.nodeIds
  edges : ∀ e ∈ f.graph.edges, ∀ e' ∈ g.graph.edges, e.id ≠ e'.id

/-- Two graphs have nothing in common either way. -/
theorem Apart.symm {f g : Flow} (h : f.Apart g) : g.Apart f :=
  ⟨fun n hg hf => h.nodes n hf hg, fun e he e' he' => (h.edges e' he' e he).symm⟩

/-! ## Between the markers

What lies between the markers is given by two lists, the nodes that are no markers and the edges
that touch none. -/

/-- The nodes that are no markers. -/
def innerNodes (f : Flow) : Table NodeId Node := f.graph.nodes.filter fun n => !f.isMarker n.1

/-- The edges between calls. -/
def innerEdges (f : Flow) : List (Edge Link) :=
  f.graph.edges.filter fun e => !f.isMarker e.source && !f.isMarker e.target

theorem isMarker_eq_false_iff {f : Flow} {n : NodeId} :
    f.isMarker n = false ↔ n ≠ f.input ∧ n ≠ f.output := by
  simp [isMarker]

/-- A node lies between the markers if it is neither of them. -/
theorem mem_keys_innerNodes {f : Flow} {n : NodeId} : n ∈ Table.keys f.innerNodes ↔
    n ∈ f.graph.nodeIds ∧ n ≠ f.input ∧ n ≠ f.output := by
  simp only [innerNodes, Table.mem_keys, List.mem_filter, Bool.not_eq_true', isMarker_eq_false_iff,
    exists_and_right, Graph.nodeIds_eq_keys]

/-- An edge lies between the markers if both of its ends do. -/
theorem mem_innerEdges_iff {f : Flow} {e : Edge Link} : e ∈ f.innerEdges ↔ e ∈ f.graph.edges ∧
    (e.source ≠ f.input ∧ e.source ≠ f.output) ∧ e.target ≠ f.input ∧ e.target ≠ f.output := by
  simp only [innerEdges, List.mem_filter, Bool.and_eq_true, Bool.not_eq_true',
    isMarker_eq_false_iff]

/-- The graph with what lies between the markers of another one. -/
def grafted (f g : Flow) : Flow :=
  { f with graph := (f.graph.withNodes g.innerNodes).withEdges g.innerEdges }

@[simp] theorem nodes_grafted (f g : Flow) :
    (f.grafted g).graph.nodes = f.graph.nodes ++ g.innerNodes := Graph.nodes_withNodes _ _

@[simp] theorem nodeIds_grafted (f g : Flow) :
    (f.grafted g).graph.nodeIds = f.graph.nodeIds ++ Table.keys g.innerNodes :=
  Graph.nodeIds_withNodes _ _

@[simp] theorem edges_grafted (f g : Flow) :
    (f.grafted g).graph.edges = f.graph.edges ++ g.innerEdges :=
  congrArg (· ++ g.innerEdges) (Graph.edges_withNodes f.graph g.innerNodes)

/-- What lies between the markers of a graph with nothing in common can be taken over. -/
theorem graft_spec {f g : Flow} (hf : f.graph.WellFormed) (hg : g.graph.WellFormed)
    (hap : f.Apart g) : f.adopt g = .ok (f.grafted g) ∧ (f.grafted g).graph.WellFormed := by
  have hd : (Table.keys g.innerNodes).Nodup :=
    hg.nodes_nodup.sublist (List.filter_sublist.map _)
  have hnew : ∀ n ∈ Table.keys g.innerNodes, n ∉ f.graph.nodeIds := fun n hn hm =>
    hap.nodes n hm (mem_keys_innerNodes.1 hn).1
  have hde : (g.innerEdges.map Edge.id).Nodup :=
    hg.edges_nodup.sublist (List.filter_sublist.map _)
  have hedge : ∀ e ∈ g.innerEdges,
      e.id ∉ (f.graph.withNodes g.innerNodes).edges.map Edge.id := by
    intro e he hm
    rw [Graph.edges_withNodes] at hm
    obtain ⟨e', he', hid⟩ := List.mem_map.1 hm
    exact hap.edges e' he' e (mem_innerEdges_iff.1 he).1 hid
  have hends : ∀ e ∈ g.innerEdges, e.source ∈ (f.graph.withNodes g.innerNodes).nodeIds ∧
      e.target ∈ (f.graph.withNodes g.innerNodes).nodeIds := by
    intro e he
    obtain ⟨he, hs, ht⟩ := mem_innerEdges_iff.1 he
    rw [Graph.nodeIds_withNodes, List.mem_append, List.mem_append]
    exact ⟨.inr (mem_keys_innerNodes.2 ⟨hg.source_mem e he, hs⟩),
      .inr (mem_keys_innerNodes.2 ⟨hg.target_mem e he, ht⟩)⟩
  refine ⟨?_, (hf.withNodes hd hnew).withEdges hde hedge (fun e he => (hends e he).1)
    fun e he => (hends e he).2⟩
  have hnodes : f.graph.addNodes g.inner.1 = .ok (f.graph.withNodes g.innerNodes) :=
    Graph.addNodes_eq_ok hd hnew
  have hedges : (f.graph.withNodes g.innerNodes).addEdges g.inner.2 = .ok (f.grafted g).graph :=
    Graph.addEdges_eq_ok hde hedge (fun e he => (hends e he).1) fun e he => (hends e he).2
  rw [adopt, hnodes, Outcome.ok_bind, hedges]
  rfl

/-- What is taken over was made before. -/
theorem before_grafted {f g : Flow} {s : Supply} (hf : f.graph.Before s) (hg : g.graph.Before s) :
    (f.grafted g).graph.Before s := by
  refine ⟨fun n hn => ?_, fun e he => ?_⟩
  · rw [nodeIds_grafted, List.mem_append] at hn
    rcases hn with hn | hn
    · exact hf.node_lt n hn
    · exact hg.node_lt n (mem_keys_innerNodes.1 hn).1
  · rw [edges_grafted, List.mem_append] at he
    rcases he with he | he
    · exact hf.edge_lt e he
    · exact hg.edge_lt e (mem_innerEdges_iff.1 he).1

/-! ## New edges

Nothing is asked of the links but that their ends are there; that new identities are new is by the
supply. -/

/-- New edges between nodes of a graph can be added. -/
theorem connect_eq_ok {f : Flow} {s : Supply} (hf : f.graph.WellFormed) (hb : f.graph.Before s)
    (links : List (NodeId × NodeId × Link)) (hs : ∀ l ∈ links, l.1 ∈ f.graph.nodeIds)
    (ht : ∀ l ∈ links, l.2.1 ∈ f.graph.nodeIds) :
    ∃ es s', f.connect s links = .ok ({ f with graph := f.graph.withEdges es }, s') ∧
      es.map (fun e => (e.source, e.target, e.data)) = links ∧
      (∀ e ∈ es, s.next ≤ e.id.value) ∧ s.next ≤ s'.next ∧
      (f.graph.withEdges es).WellFormed ∧ (f.graph.withEdges es).Before s' := by
  induction links generalizing f s with
  | nil =>
    refine ⟨[], s, ?_, rfl, fun e he => (nomatch he), Nat.le_refl _, ?_, ?_⟩ <;>
      rw [Graph.withEdges_nil]
    · rfl
    · exact hf
    · exact hb
  | cons l links ih =>
    set e : Edge Link := ⟨s.edge.1, l.1, l.2.1, l.2.2⟩
    have hl := List.mem_cons_self (a := l) (l := links)
    have hnew : e.id ∉ f.graph.edges.map Edge.id := hb.next_not_mem_edges
    have hf' : (f.graph.withEdges [e]).WellFormed := hf.withEdge hnew (hs l hl) (ht l hl)
    have hb' : (f.graph.withEdges [e]).Before s.edge.2 := hb.withEdge rfl
    obtain ⟨es, s', hok, hmap, hid, hle, hwf, hbef⟩ :=
      ih (f := { f with graph := f.graph.withEdges [e] }) hf' hb'
      (fun l' hl' => hs l' (List.mem_cons_of_mem _ hl'))
      fun l' hl' => ht l' (List.mem_cons_of_mem _ hl')
    dsimp only at hok hwf hbef
    rw [Graph.withEdges_withEdges] at hok hwf hbef
    refine ⟨e :: es, s', ?_, by rw [List.map_cons, hmap], fun e' he' => ?_,
      Nat.le_trans (Nat.le_succ _) hle, hwf, hbef⟩
    · have hadd : f.graph.addEdge e = .ok (f.graph.withEdges [e]) :=
        Graph.addEdge_eq_ok hnew (hs l hl) (ht l hl)
      exact (congrArg (· >>= _) hadd).trans hok
    · rcases List.mem_cons.1 he' with rfl | he'
      · exact Nat.le_refl _
      · exact Nat.le_trans (Nat.le_succ _) (hid e' he')

end Flow

end ObjectFlow
