import ObjectFlow.Graph.Document
import ObjectFlow.Proofs.Document
import ObjectFlow.Proofs.Graph.WellFormed

/-!
# Documents of graphs

A document is read just if its parts are, identities are distinct and the ends of all edges are
declared (`ofJson_eq_ok_iff`). What is read of a graph that was written is the same graph, seated in
the order of its nodes (`ofJson_toJson`); and what is read is a graph that a document can tell
(`exact_ofJson`).

How nodes and edges are written is left to parameters, of which it is assumed that they read back
what they write. So one proof serves for all kinds of graphs. A captured `null` cannot be told from
no value in any of them, and that condition is split off from the rest once for all graphs
(`exact_and_iff`).
-/

namespace ObjectFlow.Graph

open Document Outcome

variable {N E : Type} {node : N → Json} {edge : E → Json} {readNode : Json → Except DecodeError N}
  {readEdge : Json → Except DecodeError E} {ExactNode : N → Prop} {ExactEdge : E → Prop}

/-! ## Building a graph from its parts

A graph is built by adding its nodes and then its edges. That all of them are accepted is a
condition on the two lists. -/

/-- Nodes may be added if their identities are distinct and new. -/
theorem addNodes_eq_ok_iff {g g' : Graph N E} {ns : List (NodeId × N)} :
    g.addNodes ns = .ok g' ↔
      (Table.keys ns).Nodup ∧ (∀ id ∈ Table.keys ns, id ∉ g.nodeIds) ∧ g' = g.withNodes ns := by
  constructor
  · intro h
    induction ns generalizing g with
    | nil =>
      cases h
      exact ⟨List.nodup_nil, fun _ h => (List.not_mem_nil h).elim, rfl⟩
    | cons n ns ih =>
      rw [addNodes, List.foldlM_cons, bind_eq_ok_iff] at h
      obtain ⟨g₁, h₁, h⟩ := h
      obtain ⟨hn, rfl⟩ := addNode_eq_ok_iff.1 h₁
      obtain ⟨hd, hnew, hg⟩ := ih h
      have hnew' : ∀ id ∈ Table.keys ns, id ∉ g.nodeIds ∧ id ≠ n.1 := by
        intro id hid
        have := hnew id hid
        rw [nodeIds_attachNode, List.mem_append, List.mem_singleton, not_or] at this
        exact this
      refine ⟨List.nodup_cons.2 ⟨fun hm => (hnew' _ hm).2 rfl, hd⟩, fun id hid => ?_, hg⟩
      rcases List.mem_cons.1 hid with rfl | hid
      · exact hn
      · exact (hnew' id hid).1
  · rintro ⟨hd, hnew, rfl⟩
    exact addNodes_eq_ok hd hnew

/-- Edges may be added if their identities are distinct and new and their ends are there. -/
theorem addEdges_eq_ok_iff {g g' : Graph N E} {es : List (Edge E)} :
    g.addEdges es = .ok g' ↔ (es.map Edge.id).Nodup ∧ (∀ e ∈ es, e.id ∉ g.edges.map Edge.id) ∧
      (∀ e ∈ es, e.source ∈ g.nodeIds ∧ e.target ∈ g.nodeIds) ∧ g' = g.withEdges es := by
  constructor
  · intro h
    induction es generalizing g with
    | nil =>
      cases h
      exact ⟨List.nodup_nil, fun _ h => (List.not_mem_nil h).elim,
        fun _ h => (List.not_mem_nil h).elim, (withEdges_nil _).symm⟩
    | cons e es ih =>
      rw [addEdges, List.foldlM_cons, bind_eq_ok_iff] at h
      obtain ⟨g₁, h₁, h⟩ := h
      obtain ⟨hnew, hs, ht, rfl⟩ := addEdge_eq_ok_iff.1 h₁
      obtain ⟨hd, hrest, hends, hg⟩ := ih h
      have hrest' : ∀ e' ∈ es, e'.id ∉ g.edges.map Edge.id ∧ e'.id ≠ e.id := by
        intro e' he'
        have := hrest e' he'
        rw [edges_withEdges, List.map_append, List.mem_append, not_or, List.map_singleton,
          List.mem_singleton] at this
        exact this
      refine ⟨List.nodup_cons.2 ⟨fun hm => ?_, hd⟩,
        List.forall_mem_cons.2 ⟨hnew, fun e' he' => (hrest' e' he').1⟩,
        List.forall_mem_cons.2 ⟨⟨hs, ht⟩, hends⟩, hg.trans (withEdges_withEdges g [e] es)⟩
      obtain ⟨e', he', heq⟩ := List.mem_map.1 hm
      exact (hrest' e' he').2 heq
  · rintro ⟨hd, hnew, hends, rfl⟩
    exact addEdges_eq_ok hd hnew (fun e he => (hends e he).1) fun e he => (hends e he).2

/-- Nodes that are added one after the other take their places in this order. -/
theorem seating_withNodes {g : Graph N E} (h : g.seating = .inOrder g.nodeIds)
    (ns : Table NodeId N) : (g.withNodes ns).seating = .inOrder (g.nodeIds ++ Table.keys ns) := by
  induction ns generalizing g with
  | nil => rw [Table.keys_nil, List.append_nil, ← h]; rfl
  | cons n ns ih =>
    have hseat : (g.attachNode n.1 n.2).seating = .inOrder (g.attachNode n.1 n.2).nodeIds := by
      rw [nodeIds_attachNode, attachNode, h]
      simp [Seating.seat, Seating.inOrder]
    rw [withNodes_cons, ih hseat, nodeIds_attachNode, List.append_assoc]
    rfl

/-- Identities are distinct, and the ends of all edges are declared. -/
structure Declared (nodes : List (NodeId × N)) (edges : List (Edge E)) : Prop where
  nodes_nodup : (nodes.map Prod.fst).Nodup
  edges_nodup : (edges.map Edge.id).Nodup
  ends_mem : ∀ e ∈ edges, e.source ∈ nodes.map Prod.fst ∧ e.target ∈ nodes.map Prod.fst

/-- A graph is built of what is declared, with its nodes seated in their order. -/
theorem build_eq_ok_iff {metadata : Table String Json} {nodes : List (NodeId × N)}
    {edges : List (Edge E)} {g : Graph N E} : build metadata nodes edges = .ok g ↔
      Declared nodes edges ∧ g = ⟨nodes, edges, metadata, .inOrder (nodes.map Prod.fst)⟩ := by
  set g₀ : Graph N E := { metadata := metadata } with hg₀
  have hids : (g₀.withNodes nodes).nodeIds = nodes.map Prod.fst := nodeIds_withNodes g₀ nodes
  have hbuilt : (g₀.withNodes nodes).withEdges edges =
      ⟨nodes, edges, metadata, .inOrder (nodes.map Prod.fst)⟩ := by
    have hmeta : ∀ (g : Graph N E) (ns : Table NodeId N),
        (g.withNodes ns).metadata = g.metadata := by
      intro g ns
      induction ns generalizing g with
      | nil => rfl
      | cons n ns ih => exact ih _
    have hseating : (g₀.withNodes nodes).seating = .inOrder (nodes.map Prod.fst) :=
      seating_withNodes rfl nodes
    rw [withEdges, nodes_withNodes, edges_withNodes, hmeta, hseating]
    rfl
  rw [build, bind_eq_ok_iff]
  constructor
  · rintro ⟨g₁, h₁, h⟩
    obtain ⟨hd, -, rfl⟩ := addNodes_eq_ok_iff.1 h₁
    obtain ⟨hde, -, hends, rfl⟩ := addEdges_eq_ok_iff.1 h
    exact ⟨⟨hd, hde, fun e he => hids ▸ hends e he⟩, hbuilt⟩
  · rintro ⟨h, rfl⟩
    refine ⟨g₀.withNodes nodes, addNodes_eq_ok h.nodes_nodup fun _ _ => List.not_mem_nil,
      addEdges_eq_ok_iff.2 ⟨h.edges_nodup, fun e _ => ?_, fun e he => hids ▸ h.ends_mem e he,
        hbuilt.symm⟩⟩
    rw [edges_withNodes]
    exact List.not_mem_nil

/-! ## Nodes and edges

Both are records, with the data as a member of its own. -/

/-- A node is read where its identity and its data are. -/
theorem nodeOfJson_eq_ok_iff {j : Json} {n : NodeId × N} :
    nodeOfJson readNode j = .ok n ↔ ∃ fs, record ["id", "data"] j = .ok fs ∧
      required fs "id" nodeId = .ok n.1 ∧ required fs "data" readNode = .ok n.2 := by
  simp only [nodeOfJson, bind_eq_ok_iff]
  constructor
  · rintro ⟨fs, hfs, id, hid, data, hdata, ⟨⟩⟩
    exact ⟨fs, hfs, hid, hdata⟩
  · rintro ⟨fs, hfs, hid, hdata⟩
    exact ⟨fs, hfs, _, hid, _, hdata, rfl⟩

/-- A node is read back if its data are. -/
theorem readsBack_node (hf : ReadsBack node readNode ExactNode) :
    ReadsBack (fun n : NodeId × N => .obj [("id", writeNode n.1), ("data", node n.2)])
      (nodeOfJson readNode) fun n => n.1.value < 2 ^ 128 ∧ ExactNode n.2 where
  read_write n hn := nodeOfJson_eq_ok_iff.2 ⟨_, (inOrder_of_keys (by rfl)).record_eq (by simp),
    readsBack_nodeId.required (by simp) hn.1, hf.required (by simp) hn.2⟩
  exact_read j n h := by
    obtain ⟨fs, -, hid, hdata⟩ := nodeOfJson_eq_ok_iff.1 h
    exact ⟨readsBack_nodeId.exact_required hid, hf.exact_required hdata⟩

/-- An edge is read where its identity, its ends and its data are. -/
theorem edgeOfJson_eq_ok_iff {j : Json} {e : Edge E} :
    edgeOfJson readEdge j = .ok e ↔ ∃ fs, record ["id", "source", "target", "data"] j = .ok fs ∧
      required fs "id" edgeId = .ok e.id ∧ required fs "source" nodeId = .ok e.source ∧
      required fs "target" nodeId = .ok e.target ∧ required fs "data" readEdge = .ok e.data := by
  simp only [edgeOfJson, bind_eq_ok_iff]
  constructor
  · rintro ⟨fs, hfs, id, hid, source, hsource, target, htarget, data, hdata, ⟨⟩⟩
    exact ⟨fs, hfs, hid, hsource, htarget, hdata⟩
  · rintro ⟨fs, hfs, hid, hsource, htarget, hdata⟩
    exact ⟨fs, hfs, _, hid, _, hsource, _, htarget, _, hdata, rfl⟩

/-- The numbers of an edge and of its ends have 128 bits. -/
structure Labelled (e : Edge E) : Prop where
  id_lt : e.id.value < 2 ^ 128
  source_lt : e.source.value < 2 ^ 128
  target_lt : e.target.value < 2 ^ 128

/-- An edge is read back if its data are. -/
theorem readsBack_edge (hf : ReadsBack edge readEdge ExactEdge) :
    ReadsBack (fun e : Edge E => .obj [("id", writeEdge e.id), ("source", writeNode e.source),
      ("target", writeNode e.target), ("data", edge e.data)])
      (edgeOfJson readEdge) fun e => Labelled e ∧ ExactEdge e.data where
  read_write e he := edgeOfJson_eq_ok_iff.2 ⟨_, (inOrder_of_keys (by rfl)).record_eq (by simp),
    readsBack_edgeId.required (by simp) he.1.id_lt,
    readsBack_nodeId.required (by simp) he.1.source_lt,
    readsBack_nodeId.required (by simp) he.1.target_lt, hf.required (by simp) he.2⟩
  exact_read j e h := by
    obtain ⟨fs, -, hid, hsource, htarget, hdata⟩ := edgeOfJson_eq_ok_iff.1 h
    exact ⟨⟨readsBack_edgeId.exact_required hid, readsBack_nodeId.exact_required hsource,
      readsBack_nodeId.exact_required htarget⟩, hf.exact_required hdata⟩

/-! ## Graphs

All members but the metadata must be there. -/

/-- The graph as it is read again: only the places of its nodes are taken anew. -/
def reseated (g : Graph N E) : Graph N E := { g with seating := .inOrder g.nodeIds }

/-- A graph that is seated in order is the same when it is read again. -/
theorem reseated_eq_self {g : Graph N E} (h : g.seating = .inOrder g.nodeIds) :
    g.reseated = g := by
  rw [reseated, ← h]

/-- What a document can say of a graph whose nodes and edges it can tell. -/
structure Exact (ExactNode : N → Prop) (ExactEdge : E → Prop) (g : Graph N E) : Prop where
  metadata : ExactTable Json.Merged g.metadata
  nodes : ∀ n ∈ g.nodes, n.1.value < 2 ^ 128 ∧ ExactNode n.2
  edges : ∀ e ∈ g.edges, Labelled e ∧ ExactEdge e.data
  declared : Declared g.nodes g.edges

/-- A graph is read where its parts are and what they declare is a graph. -/
theorem ofJson_eq_ok_iff {j : Json} {g : Graph N E} : ofJson readNode readEdge j = .ok g ↔
    ∃ fs, record ["metadata", "nodes", "edges"] j = .ok fs ∧
      defaulted fs "metadata" [] (table anything) = .ok g.metadata ∧
      required fs "nodes" (list (nodeOfJson readNode)) = .ok g.nodes ∧
      required fs "edges" (list (edgeOfJson readEdge)) = .ok g.edges ∧
      Declared g.nodes g.edges ∧ g.seating = .inOrder g.nodeIds := by
  simp only [ofJson, bind_eq_ok_iff, mapError_eq_ok_iff, build_eq_ok_iff]
  constructor
  · rintro ⟨fs, hfs, metadata, hmetadata, nodes, hnodes, edges, hedges, hd, rfl⟩
    exact ⟨fs, hfs, hmetadata, hnodes, hedges, hd, rfl⟩
  · rintro ⟨fs, hfs, hmetadata, hnodes, hedges, hd, hseating⟩
    exact ⟨fs, hfs, _, hmetadata, _, hnodes, _, hedges, hd, (reseated_eq_self hseating).symm⟩

/-- A graph is read back as it was written, with its nodes seated in their order. -/
theorem ofJson_toJson (hn : ReadsBack node readNode ExactNode)
    (he : ReadsBack edge readEdge ExactEdge) {g : Graph N E} (h : g.Exact ExactNode ExactEdge) :
    ofJson readNode readEdge (g.toJson node edge) = .ok g.reseated :=
  ofJson_eq_ok_iff.2 ⟨_, (inOrder_of_keys (by rfl)).record_eq (by simp),
    (readsBack_table readsBack_anything).defaulted_of_some
      (by simp [writeTable, reseated]) h.metadata,
    (readsBack_list (readsBack_node hn)).required (by simp [reseated]) h.nodes,
    (readsBack_list (readsBack_edge he)).required (by simp [reseated]) h.edges, h.declared, rfl⟩

/-- What is read of a document is a graph that can be told from one. -/
theorem exact_ofJson (hn : ReadsBack node readNode ExactNode)
    (he : ReadsBack edge readEdge ExactEdge) {j : Json} {g : Graph N E}
    (h : ofJson readNode readEdge j = .ok g) :
    g.Exact ExactNode ExactEdge := by
  obtain ⟨fs, -, hmetadata, hnodes, hedges, hd, -⟩ := ofJson_eq_ok_iff.1 h
  exact ⟨(readsBack_table readsBack_anything).exact_defaulted exactTable_nil hmetadata,
    (readsBack_list (readsBack_node hn)).exact_required hnodes,
    (readsBack_list (readsBack_edge he)).exact_required hedges, hd⟩

/-- A graph is read back if it is seated in order. -/
theorem readsBack (hn : ReadsBack node readNode ExactNode)
    (he : ReadsBack edge readEdge ExactEdge) :
    ReadsBack (toJson node edge) (ofJson readNode readEdge)
      fun g => g.Exact ExactNode ExactEdge ∧ g.seating = .inOrder g.nodeIds where
  read_write _ h := (ofJson_toJson hn he h.1).trans (congrArg Except.ok (reseated_eq_self h.2))
  exact_read j g h := by
    obtain ⟨_, -, -, -, -, -, hseating⟩ := ofJson_eq_ok_iff.1 h
    exact ⟨exact_ofJson hn he h, hseating⟩

/-! ## Captured values

What is captured in a graph is captured in its nodes or on its edges. -/

/-- The values that are captured in the data of nodes and edges. -/
def payloads (ofNode : N → List Json) (ofEdge : E → List Json) (g : Graph N E) : List Json :=
  g.nodes.flatMap (fun n => ofNode n.2) ++ g.edges.flatMap fun e => ofEdge e.data

/-- That nothing captured is `null` is a condition on the graph as a whole. -/
theorem exact_and_iff {TypedNode : N → Prop} {TypedEdge : E → Prop} {ofNode : N → List Json}
    {ofEdge : E → List Json} {g : Graph N E} :
    g.Exact (fun n => TypedNode n ∧ .null ∉ ofNode n) (fun e => TypedEdge e ∧ .null ∉ ofEdge e) ↔
      g.Exact TypedNode TypedEdge ∧ .null ∉ g.payloads ofNode ofEdge := by
  simp only [payloads, List.mem_append, List.mem_flatMap, not_or, not_exists, not_and]
  constructor
  · intro h
    exact ⟨⟨h.metadata, fun n hn => ⟨(h.nodes n hn).1, (h.nodes n hn).2.1⟩,
      fun e he => ⟨(h.edges e he).1, (h.edges e he).2.1⟩, h.declared⟩,
      fun n hn => (h.nodes n hn).2.2, fun e he => (h.edges e he).2.2⟩
  · rintro ⟨h, hn, he⟩
    exact ⟨h.metadata, fun n hmem => ⟨(h.nodes n hmem).1, (h.nodes n hmem).2, hn n hmem⟩,
      fun e hmem => ⟨(h.edges e hmem).1, (h.edges e hmem).2, he e hmem⟩, h.declared⟩

/-- The same where nothing is captured on edges. -/
theorem exact_and_true_iff {TypedNode : N → Prop} {ofNode : N → List Json} {g : Graph N E} :
    g.Exact (fun n => TypedNode n ∧ .null ∉ ofNode n) (fun _ => True) ↔
      g.Exact TypedNode (fun _ => True) ∧ .null ∉ g.payloads ofNode fun _ => [] := by
  rw [← exact_and_iff]
  simp only [List.not_mem_nil, not_false_eq_true, and_true]

end ObjectFlow.Graph
