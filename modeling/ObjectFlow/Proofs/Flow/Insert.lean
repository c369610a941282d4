import ObjectFlow.Proofs.Flow.Graft
import ObjectFlow.Proofs.Flow.Tie
import ObjectFlow.Proofs.Graph.Order

/-!
# A graph in the place of a node

What lies between the markers of a body can take the place of a node of a graph with which the body
shares nothing (`insert_spec`), whatever stands at the node. Nothing new crosses the border, no
cycle arises (`Inserted.acyclic`), and no object is left at the end more often than before
(`Inserted.sole`).

## Outline

Inserting grafts the body, adds edges into it (`inward`) and out of it (`outward`), and removes the
node with all its edges. `Inserted` states the nodes and edges of the result as lists, with the new
edges in terms of what they join and carry. From it follow

* membership of nodes and edges, with a case analysis of the new edges (`edge_cases`);
* that there is no cycle, by a rank in which the nodes of the body stand where the node was
  (`spread`). The rank of the graph is stretched to make room for the nodes of the body, and the
  input marker comes before everything, because a body may take from it what its node did not;
* that no object is left twice, by counting: for each edge that led from the node to the end there
  is at most one new edge, as the body leaves each object once (`countP_outward_le`).

The conditions are those of `Fenced`. Other than a border they ask for both markers, allow edges
that leave the output marker if this is the input marker as well, and say nothing of objects that
are left twice.
-/

namespace ObjectFlow.Flow

/--
No edge enters the input marker or leads from there to the output marker, and none leaves the output
marker unless it is the input marker as well.
-/
structure Fenced (f : Flow) : Prop where
  wellFormed : f.graph.WellFormed
  input_mem : f.input ∈ f.graph.nodeIds
  output_mem : f.output ∈ f.graph.nodeIds
  target_ne_input : ∀ e ∈ f.graph.edges, e.target ≠ f.input
  not_across : ∀ e ∈ f.graph.edges, ¬ (e.source = f.input ∧ e.target = f.output)
  source_output : ∀ e ∈ f.graph.edges, e.source = f.output → f.output = f.input

/-- The edge leads an object to a node. -/
def Leads (n : NodeId) (o : ObjectId) (e : Edge Link) : Prop :=
  e.target = n ∧ e.data.object.id = some o

instance (n : NodeId) (o : ObjectId) (e : Edge Link) : Decidable (Leads n o e) :=
  inferInstanceAs (Decidable (_ ∧ _))

/-- Each object is left at the end once at most. -/
def Sole (f : Flow) : Prop := ∀ o, f.graph.edges.countP (fun e => Leads f.output o e) ≤ 1

variable {f body : Flow} {node : NodeId} {s : Supply}

/-- What comes from outside leads between the markers. -/
theorem Fenced.entry (h : f.Fenced) {e : Edge Link} (he : e ∈ f.graph.edges)
    (hs : e.source = f.input) : e.target ∈ f.graph.nodeIds ∧ e.target ≠ f.input ∧
      e.target ≠ f.output :=
  ⟨h.wellFormed.target_mem e he, h.target_ne_input e he, fun ht => h.not_across e he ⟨hs, ht⟩⟩

/-- What is left at the end comes from between the markers. -/
theorem Fenced.exit (h : f.Fenced) {e : Edge Link} (he : e ∈ f.graph.edges)
    (ht : e.target = f.output) : e.source ∈ f.graph.nodeIds ∧ e.source ≠ f.input ∧
      e.source ≠ f.output :=
  ⟨h.wellFormed.source_mem e he, fun hs => h.not_across e he ⟨hs, ht⟩,
    fun hs => h.target_ne_input e he (ht.trans (h.source_output e he hs))⟩

/-! ## The new edges

Both lists of new links are made before the node is removed, from the edges at the node and from the
border of the body. -/

theorem carries_some_iff {l : Link} {o : ObjectId} :
    l.carries (some o) = true ↔ l.object.id = some o := by
  simp [Link.carries]

/-- A link into the body leads from a node that fed the call, or from outside, to where the body
took something from outside. -/
theorem mem_inward {l : NodeId × NodeId × Link} (hl : l ∈ f.inward node body) :
    (l.1 = f.input ∨ ∃ e ∈ f.graph.edges, e.source = l.1 ∧ e.target = node) ∧
      ∃ e ∈ body.graph.edges, e.source = body.input ∧ e.target = l.2.1 := by
  obtain ⟨e, he, rfl⟩ := List.mem_map.1 hl
  obtain ⟨he, hs⟩ := Graph.mem_outEdges.1 he
  split
  · rename_i outer houter
    obtain ⟨houter, ht⟩ := Graph.mem_inEdges.1 (List.mem_of_find?_eq_some houter)
    exact ⟨.inr ⟨outer, houter, rfl, ht⟩, e, he, hs, rfl⟩
  · exact ⟨.inl rfl, e, he, hs, rfl⟩

/-- A link out of the body leads from where the body left something to a node that the call fed. -/
theorem mem_outward {l : NodeId × NodeId × Link} (hl : l ∈ f.outward node body) :
    (∃ e ∈ f.graph.edges, e.source = node ∧ e.target = l.2.1) ∧
      ∃ e ∈ body.graph.edges, e.source = l.1 ∧ e.target = body.output := by
  obtain ⟨e, he, hl⟩ := List.mem_flatMap.1 hl
  obtain ⟨outer, houter, rfl⟩ := List.mem_map.1 hl
  obtain ⟨he, ht⟩ := Graph.mem_inEdges.1 he
  obtain ⟨houter, hs⟩ := Graph.mem_outEdges.1 (List.mem_of_mem_filter houter)
  exact ⟨⟨outer, houter, hs, rfl⟩, e, he, rfl, ht⟩

/-- What is taken over touches no node of the first graph. -/
theorem edges_at_grafted (hb : body.graph.WellFormed) (hn : node ∉ body.graph.nodeIds) :
    (f.grafted body).graph.inEdges node = f.graph.inEdges node ∧
      (f.grafted body).graph.outEdges node = f.graph.outEdges node := by
  have hin : body.innerEdges.filter (fun e => e.target = node) = [] :=
    List.filter_eq_nil_iff.2 fun e he ht => hn (of_decide_eq_true ht ▸
      hb.target_mem e (mem_innerEdges_iff.1 he).1)
  have hout : body.innerEdges.filter (fun e => e.source = node) = [] :=
    List.filter_eq_nil_iff.2 fun e he ht => hn (of_decide_eq_true ht ▸
      hb.source_mem e (mem_innerEdges_iff.1 he).1)
  constructor
  · rw [Graph.inEdges, edges_grafted, List.filter_append, hin, List.append_nil]
    rfl
  · rw [Graph.outEdges, edges_grafted, List.filter_append, hout, List.append_nil]
    rfl

/-! ## Inserting

All that is proved of insertion later on is proved from this structure. -/

/-- What becomes of a graph in which a body takes the place of a node. -/
structure Inserted (f body : Flow) (node : NodeId) (s : Supply) (f' : Flow) (s' : Supply) :
    Prop where
  wellFormed : f'.graph.WellFormed
  before : f'.graph.Before s'
  next_le : s.next ≤ s'.next
  input_eq : f'.input = f.input
  output_eq : f'.output = f.output
  nodes_eq : f'.graph.nodes = Table.without (f.graph.nodes ++ body.innerNodes) node
  exists_links : ∃ es : List (Edge Link),
    es.map (fun e => (e.source, e.target, e.data)) = f.inward node body ++ f.outward node body ∧
    (∀ e ∈ es, s.next ≤ e.id.value) ∧
    f'.graph.edges = (f.graph.edges ++ body.innerEdges ++ es).filter fun e =>
      e.source ≠ node ∧ e.target ≠ node

/-- A fenced body can take the place of a node, if it has nothing in common with the graph. -/
theorem insert_spec (hf : f.graph.WellFormed) (hin : f.input ∈ f.graph.nodeIds) (hb : body.Fenced)
    (hap : f.Apart body) (hbf : f.graph.Before s) (hbb : body.graph.Before s)
    (hn : node ∈ f.graph.nodeIds) :
    ∃ f' s', f.inline s node body = .ok (f', s') ∧ f.Inserted body node s f' s' := by
  obtain ⟨hok, hgrafted⟩ := graft_spec hf hb.wellFormed hap
  obtain ⟨hinEdges, houtEdges⟩ :=
    edges_at_grafted (f := f) hb.wellFormed (hap.nodes node hn)
  have hlinks : (f.grafted body).inward node body ++ (f.grafted body).outward node body =
      f.inward node body ++ f.outward node body := by
    rw [inward, outward, hinEdges, houtEdges]
    rfl
  have hfirst : ∀ n ∈ f.graph.nodeIds, n ∈ (f.grafted body).graph.nodeIds := fun n hn =>
    nodeIds_grafted f body ▸ List.mem_append_left _ hn
  have hinner : ∀ n, n ∈ body.graph.nodeIds ∧ n ≠ body.input ∧ n ≠ body.output →
      n ∈ (f.grafted body).graph.nodeIds := fun n hn =>
    nodeIds_grafted f body ▸ List.mem_append_right _ (mem_keys_innerNodes.2 hn)
  obtain ⟨es, s', hconnect, hmap, hid, hle, hwf, hbefore⟩ :=
    connect_eq_ok hgrafted (before_grafted hbf hbb) (f.inward node body ++ f.outward node body)
      (fun l hl => by
        rcases List.mem_append.1 hl with hl | hl
        · rcases (mem_inward hl).1 with heq | ⟨e, he, heq, -⟩
          · exact heq ▸ hfirst _ hin
          · exact heq ▸ hfirst _ (hf.source_mem e he)
        · obtain ⟨-, e, he, heq, ht⟩ := mem_outward hl
          exact heq ▸ hinner _ (hb.exit he ht))
      (fun l hl => by
        rcases List.mem_append.1 hl with hl | hl
        · obtain ⟨-, e, he, hs, heq⟩ := mem_inward hl
          exact heq ▸ hinner _ (hb.entry he hs)
        · obtain ⟨⟨e, he, -, heq⟩, -⟩ := mem_outward hl
          exact heq ▸ hfirst _ (hf.target_mem e he))
  have hnode : ((f.grafted body).graph.withEdges es).hasNode node = true :=
    Graph.hasNode_iff.2 (hfirst node hn)
  refine ⟨{ f with graph := ((f.grafted body).graph.withEdges es).removeNode node }, s', ?_,
    hwf.removeNode node, hbefore.removeNode node, hle, rfl, rfl, ?_, es, hmap, hid, ?_⟩
  · rw [inline, hok, Outcome.ok_bind, hlinks, hconnect]
    rfl
  · show (((f.grafted body).graph.withEdges es).removeNode node).nodes = _
    rw [Graph.removeNode, if_pos hnode, Graph.nodes_withEdges,
      nodes_grafted]
  · show (((f.grafted body).graph.withEdges es).removeNode node).edges = _
    rw [Graph.removeNode, if_pos hnode, Graph.edges_withEdges,
      edges_grafted]

namespace Inserted

variable {f' : Flow} {s' : Supply}

/-- An edge was there before, lies in the body, or leads into the body or out of it. -/
theorem edge_cases (h : f.Inserted body node s f' s') {e : Edge Link} (he : e ∈ f'.graph.edges) :
    (e ∈ f.graph.edges ∧ e.source ≠ node ∧ e.target ≠ node) ∨ e ∈ body.innerEdges ∨
      s.next ≤ e.id.value ∧
        ((e.source = f.input ∨ ∃ x ∈ f.graph.edges, x.source = e.source ∧ x.target = node) ∧
            (∃ y ∈ body.graph.edges, y.source = body.input ∧ y.target = e.target) ∨
          (∃ x ∈ f.graph.edges, x.source = node ∧ x.target = e.target) ∧
            ∃ y ∈ body.graph.edges, y.source = e.source ∧ y.target = body.output) := by
  obtain ⟨es, hmap, hid, hedges⟩ := h.exists_links
  rw [hedges, List.mem_filter, List.mem_append, List.mem_append] at he
  obtain ⟨(he | he) | he, hne⟩ := he
  · exact .inl ⟨he, of_decide_eq_true hne⟩
  · exact .inr (.inl he)
  · have hl := List.mem_map_of_mem (f := fun e : Edge Link => (e.source, e.target, e.data)) he
    rw [hmap, List.mem_append] at hl
    exact .inr (.inr ⟨hid e he, hl.imp mem_inward mem_outward⟩)

/-- Edges that do not touch the node stay. -/
theorem mem_edges_of_first (h : f.Inserted body node s f' s') {e : Edge Link}
    (he : e ∈ f.graph.edges) (hs : e.source ≠ node) (ht : e.target ≠ node) :
    e ∈ f'.graph.edges := by
  obtain ⟨es, -, -, hedges⟩ := h.exists_links
  rw [hedges, List.mem_filter, List.mem_append, List.mem_append]
  exact ⟨.inl (.inl he), decide_eq_true ⟨hs, ht⟩⟩

/-- The inner edges of the body are there. -/
theorem mem_edges_of_body (h : f.Inserted body node s f' s') (hb : body.graph.WellFormed)
    (hn : node ∉ body.graph.nodeIds) {e : Edge Link} (he : e ∈ body.innerEdges) :
    e ∈ f'.graph.edges := by
  obtain ⟨es, -, -, hedges⟩ := h.exists_links
  have hmem := (mem_innerEdges_iff.1 he).1
  rw [hedges, List.mem_filter, List.mem_append, List.mem_append]
  exact ⟨.inl (.inr he), decide_eq_true ⟨fun heq => hn (heq ▸ hb.source_mem e hmem),
    fun heq => hn (heq ▸ hb.target_mem e hmem)⟩⟩

/-- The nodes are those of the graph and the inner ones of the body, without the node. -/
theorem mem_nodes_iff (h : f.Inserted body node s f' s') {n : NodeId × Node} :
    n ∈ f'.graph.nodes ↔ (n ∈ f.graph.nodes ∨ n ∈ body.innerNodes) ∧ n.1 ≠ node := by
  rw [h.nodes_eq, Table.without, List.mem_filter, List.mem_append, decide_eq_true_eq]

theorem mem_nodeIds_iff (h : f.Inserted body node s f' s') {n : NodeId} :
    n ∈ f'.graph.nodeIds ↔
      (n ∈ f.graph.nodeIds ∨ n ∈ Table.keys body.innerNodes) ∧ n ≠ node := by
  rw [Graph.nodeIds_eq_keys, h.nodes_eq, Table.keys_without, List.mem_filter, Table.keys_append,
    List.mem_append, decide_eq_true_eq]
  rfl

/-- What is apart from a graph and from a body is apart from the graph with the body in it. -/
theorem apart (h : f.Inserted body node s f' s') {x : Flow} (hx : x.graph.Before s)
    (hxf : x.Apart f) (hxb : x.Apart body) : x.Apart f' := by
  refine ⟨fun n hn hm => ?_, fun e he e' he' heq => ?_⟩
  · rcases (h.mem_nodeIds_iff.1 hm).1 with hm | hm
    · exact hxf.nodes n hn hm
    · exact hxb.nodes n hn (mem_keys_innerNodes.1 hm).1
  · rcases h.edge_cases he' with ⟨he', -⟩ | he' | ⟨hle, -⟩
    · exact hxf.edges e he e' he' heq
    · exact hxb.edges e he e' (mem_innerEdges_iff.1 he').1 heq
    · exact Nat.not_lt.2 hle (heq ▸ hx.edge_lt e he)

/--
The nodes of the body come where the node was, and the input marker before everything: what the node
does not take, its body takes from there.
-/
def spread (f body : Flow) (node : NodeId) (rank rank' : NodeId → Nat) (n : NodeId) : Nat :=
  if n = f.input then 0
  else if n ∈ body.graph.nodeIds then
    rank node * (body.graph.nodeIds.length + 1) + rank' n + 1
  else rank n * (body.graph.nodeIds.length + 1) + 1

theorem spread_input (rank rank' : NodeId → Nat) : spread f body node rank rank' f.input = 0 :=
  if_pos rfl

/-- Nodes of the graph keep their order. -/
theorem spread_of_mem (hap : f.Apart body) {rank rank' : NodeId → Nat} {n : NodeId}
    (hn : n ∈ f.graph.nodeIds) (hne : n ≠ f.input) :
    spread f body node rank rank' n = rank n * (body.graph.nodeIds.length + 1) + 1 := by
  rw [spread, if_neg hne, if_neg (hap.nodes n hn)]

/-- Nodes of the body stand behind the node in whose place they are, and before the next one. -/
theorem spread_of_mem_body (hap : f.Apart body) (hin : f.input ∈ f.graph.nodeIds)
    {rank rank' : NodeId → Nat} {n : NodeId} (hn : n ∈ body.graph.nodeIds) :
    spread f body node rank rank' n =
      rank node * (body.graph.nodeIds.length + 1) + rank' n + 1 := by
  have hne : n ≠ f.input := fun heq => hap.nodes _ hin (heq ▸ hn)
  rw [spread, if_neg hne, if_pos hn]

section

variable (h : f.Inserted body node s f' s') (hf : f.Fenced) (hb : body.Fenced)
  (hap : f.Apart body)
include h hf hb hap

/-- The graph is fenced again. -/
theorem fenced (hi : node ≠ f.input) (ho : node ≠ f.output) : f'.Fenced := by
  have hin : ∀ n ∈ body.graph.nodeIds, n ≠ f.input := fun n hn heq =>
    hap.nodes _ hf.input_mem (heq ▸ hn)
  have hout : ∀ n ∈ body.graph.nodeIds, n ≠ f.output := fun n hn heq =>
    hap.nodes _ hf.output_mem (heq ▸ hn)
  refine ⟨h.wellFormed, ?_, ?_, fun e he => ?_, fun e he => ?_, fun e he => ?_⟩
  · rw [h.input_eq, h.mem_nodeIds_iff]
    exact ⟨.inl hf.input_mem, hi.symm⟩
  · rw [h.output_eq, h.mem_nodeIds_iff]
    exact ⟨.inl hf.output_mem, ho.symm⟩
  · rw [h.input_eq]
    rcases h.edge_cases he with
      ⟨he, -⟩ | he | ⟨-, ⟨hx, y, hy, hys, hyt⟩ | ⟨⟨x, hx, hxs, hxt⟩, y, hy, hys, hyt⟩⟩
    · exact hf.target_ne_input e he
    · exact hin _ (hb.wellFormed.target_mem e (mem_innerEdges_iff.1 he).1)
    · exact hin _ (hyt ▸ hb.wellFormed.target_mem y hy)
    · exact fun heq => hf.target_ne_input x hx (hxt.trans heq)
  · rw [h.input_eq, h.output_eq]
    rcases h.edge_cases he with
      ⟨he, -⟩ | he | ⟨-, ⟨hx, y, hy, hys, hyt⟩ | ⟨⟨x, hx, hxs, hxt⟩, y, hy, hys, hyt⟩⟩
    · exact hf.not_across e he
    · exact fun heq => hin _ (hb.wellFormed.source_mem e (mem_innerEdges_iff.1 he).1) heq.1
    · exact fun heq => hout _ (hyt ▸ hb.wellFormed.target_mem y hy) heq.2
    · exact fun heq => hin _ (hys ▸ hb.wellFormed.source_mem y hy) heq.1
  · rw [h.input_eq, h.output_eq]
    intro hs
    rcases h.edge_cases he with
      ⟨he, -⟩ | he | ⟨-, ⟨hx, y, hy, hys, hyt⟩ | ⟨⟨x, hx, hxs, hxt⟩, y, hy, hys, hyt⟩⟩
    · exact hf.source_output e he hs
    · exact absurd hs (hout _ (hb.wellFormed.source_mem e (mem_innerEdges_iff.1 he).1))
    · rcases hx with heq | ⟨x, hx, heq, -⟩
      · exact hs.symm.trans heq
      · exact hf.source_output x hx (heq.trans hs)
    · exact absurd hs (hout _ (hys ▸ hb.wellFormed.source_mem y hy))

/-- Where neither graph has a cycle none arises. -/
theorem acyclic (hfa : f.graph.Acyclic)
    (hba : body.graph.Acyclic) : f'.graph.Acyclic := by
  obtain ⟨rank, hrank, -⟩ := Graph.exists_rank hf.wellFormed hfa
  obtain ⟨rank', hrank', hbound⟩ := Graph.exists_rank hb.wellFormed hba
  -- Ranks are spread so that the whole body fits in at the place of the call.
  have hle : ∀ n ∈ f.graph.nodeIds,
      spread f body node rank rank' n ≤ rank n * (body.graph.nodeIds.length + 1) + 1 := by
    intro n hn
    by_cases hne : n = f.input
    · rw [hne, spread_input]
      exact Nat.zero_le _
    · exact Nat.le_of_eq (spread_of_mem hap hn hne)
  have hstep : ∀ {a b : Nat}, a < b → a * (body.graph.nodeIds.length + 1) +
      (body.graph.nodeIds.length + 1) ≤ b * (body.graph.nodeIds.length + 1) := fun {a b} hlt => by
    rw [← Nat.succ_mul]
    exact Nat.mul_le_mul_right _ hlt
  refine Graph.acyclic_of_rank (spread f body node rank rank') fun e he => ?_
  rcases h.edge_cases he with
      ⟨he, -⟩ | he | ⟨-, ⟨hx, y, hy, hys, hyt⟩ | ⟨⟨x, hx, hxs, hxt⟩, y, hy, hys, hyt⟩⟩
  · rw [spread_of_mem hap (hf.wellFormed.target_mem e he) (hf.target_ne_input e he)]
    refine Nat.lt_of_le_of_lt (hle _ (hf.wellFormed.source_mem e he)) ?_
    have := hstep (hrank e he)
    omega
  · have he := (mem_innerEdges_iff.1 he).1
    rw [spread_of_mem_body hap hf.input_mem (hb.wellFormed.source_mem e he),
      spread_of_mem_body hap hf.input_mem (hb.wellFormed.target_mem e he)]
    have := hrank' e he
    omega
  · rw [← hyt, spread_of_mem_body hap hf.input_mem (hb.wellFormed.target_mem y hy)]
    rcases hx with heq | ⟨x, hx, heq, hxt⟩
    · rw [heq, spread_input]
      exact Nat.succ_pos _
    · rw [← heq]
      refine Nat.lt_of_le_of_lt (hle _ (hf.wellFormed.source_mem x hx)) ?_
      have := hstep (hxt ▸ hrank x hx)
      omega
  · have hmem := hb.wellFormed.source_mem y hy
    rw [← hys, ← hxt, spread_of_mem_body hap hf.input_mem hmem,
      spread_of_mem hap (hf.wellFormed.target_mem x hx) (hf.target_ne_input x hx)]
    have := hstep (hxs ▸ hrank x hx)
    have := hbound _ hmem
    omega

end

end Inserted

/-! ## What is left at the end

An edge to the end is one that was there, or one that replaces an edge of the node. -/

/-- For every edge that the node has to the end there is one from the body at most. -/
theorem countP_outward_le (hb : body.Sole) (n : NodeId) (o : ObjectId) :
    (f.outward node body).countP (fun l => l.2.1 = n ∧ l.2.2.object.id = some o) ≤
      f.graph.edges.countP fun e => e.source = node ∧ Leads n o e := by
  set K := f.graph.edges.countP fun e => e.source = node ∧ Leads n o e with hK
  -- One way out of the body meets each edge out of the node that takes its object.
  have hone : ∀ e : Edge Link, (((f.graph.outEdges node).filter fun outer =>
      outer.data.carries e.data.object.id).map fun outer =>
        (e.source, outer.target, { e.data with targetPin := outer.data.targetPin })).countP
          (fun l : NodeId × NodeId × Link => l.2.1 = n ∧ l.2.2.object.id = some o) ≤
        if e.data.object.id = some o then K else 0 := by
    intro e
    rw [List.countP_map]
    split
    · rename_i ho
      rw [hK, Graph.outEdges, List.countP_filter, List.countP_filter]
      refine List.countP_mono_left fun x _ hx => ?_
      simp only [ho, carries_some_iff, Function.comp_apply, Bool.and_eq_true,
        decide_eq_true_eq] at hx
      exact decide_eq_true ⟨hx.2, hx.1.1.1, hx.1.2⟩
    · rename_i ho
      refine Nat.le_of_eq (List.countP_eq_zero.2 fun x _ hx => ho ?_)
      exact (of_decide_eq_true hx).2
  have hsum : ∀ es : List (Edge Link), (es.flatMap fun e => ((f.graph.outEdges node).filter
      fun outer => outer.data.carries e.data.object.id).map fun outer =>
        (e.source, outer.target, { e.data with targetPin := outer.data.targetPin })).countP
          (fun l : NodeId × NodeId × Link => l.2.1 = n ∧ l.2.2.object.id = some o) ≤
        K * es.countP fun e => e.data.object.id = some o := by
    intro es
    induction es with
    | nil => exact Nat.zero_le _
    | cons e es ih =>
      rw [List.flatMap_cons, List.countP_append, List.countP_cons, Nat.mul_add,
        Nat.add_comm (K * _)]
      refine Nat.add_le_add (Nat.le_trans (hone e) ?_) ih
      by_cases ho : e.data.object.id = some o <;> simp [ho]
  refine Nat.le_trans (hsum (body.graph.inEdges body.output)) ?_
  -- And there is one way out of the body at most that carries the object.
  have hbody :
      (body.graph.inEdges body.output).countP (fun e => e.data.object.id = some o) ≤ 1 := by
    refine Nat.le_trans (Nat.le_of_eq ?_) (hb o)
    rw [Graph.inEdges, List.countP_filter]
    refine List.countP_congr fun e _ => ?_
    rw [Bool.and_eq_true, decide_eq_true_iff, decide_eq_true_iff, decide_eq_true_iff]
    exact and_comm
  exact Nat.le_trans (Nat.mul_le_mul_left K hbody) (Nat.le_of_eq (Nat.mul_one K))

/-- If the graph and the body leave each object once, so does the result. -/
theorem Inserted.sole {f' : Flow} {s' : Supply} (h : f.Inserted body node s f' s')
    (hf : f.Sole) (hb : body.Sole) (hbf : body.Fenced) (hap : f.Apart body)
    (hout : f.output ∈ f.graph.nodeIds) : f'.Sole := by
  intro o
  obtain ⟨es, hmap, -, hedges⟩ := h.exists_links
  have hne : ∀ n ∈ body.graph.nodeIds, n ≠ f.output := fun n hn heq =>
    hap.nodes _ hout (heq ▸ hn)
  -- an edge that was there before keeps away from the node
  have hfirst : f.graph.edges.countP (fun e => Leads f.output o e &&
      decide (e.source ≠ node ∧ e.target ≠ node)) ≤
        f.graph.edges.countP fun e => Leads f.output o e ∧ e.source ≠ node :=
    List.countP_mono_left fun e _ he => by
      rw [Bool.and_eq_true, decide_eq_true_eq, decide_eq_true_eq] at he
      exact decide_eq_true ⟨he.1, he.2.1⟩
  have hinner : body.innerEdges.countP (fun e => Leads f.output o e &&
      decide (e.source ≠ node ∧ e.target ≠ node)) = 0 :=
    List.countP_eq_zero.2 fun e he hx => by
      rw [Bool.and_eq_true, decide_eq_true_eq] at hx
      exact hne _ (hbf.wellFormed.target_mem e (mem_innerEdges_iff.1 he).1) hx.1.1
  have hnew : es.countP (fun e => Leads f.output o e &&
      decide (e.source ≠ node ∧ e.target ≠ node)) ≤
        f.graph.edges.countP fun e => e.source = node ∧ Leads f.output o e := by
    have hinward : (f.inward node body).countP
        (fun l => l.2.1 = f.output ∧ l.2.2.object.id = some o) = 0 :=
      List.countP_eq_zero.2 fun l hl hx => by
        obtain ⟨-, x, hx', -, ht⟩ := mem_inward hl
        exact hne _ (ht ▸ hbf.wellFormed.target_mem x hx') (of_decide_eq_true hx).1
    have hlinks : es.countP (fun e => Leads f.output o e) =
        (f.outward node body).countP fun l => l.2.1 = f.output ∧ l.2.2.object.id = some o := by
      have := congrArg (List.countP fun l : NodeId × NodeId × Link =>
        l.2.1 = f.output ∧ l.2.2.object.id = some o) hmap
      rw [List.countP_append, hinward, Nat.zero_add, List.countP_map] at this
      exact this
    refine Nat.le_trans (List.countP_mono_left fun e _ he => ?_)
      (Nat.le_trans (Nat.le_of_eq hlinks) (countP_outward_le hb f.output o))
    exact (Bool.and_eq_true_iff.1 he).1
  have hsplit : f.graph.edges.countP (fun e => Leads f.output o e ∧ e.source ≠ node) +
      f.graph.edges.countP (fun e => e.source = node ∧ Leads f.output o e) =
        f.graph.edges.countP fun e => Leads f.output o e := by
    induction f.graph.edges with
    | nil => rfl
    | cons e es ih =>
      simp only [List.countP_cons, ← ih]
      by_cases hl : Leads f.output o e <;> by_cases hs : e.source = node <;> simp [hl, hs] <;> omega
  rw [hedges, h.output_eq, List.countP_filter, List.countP_append, List.countP_append, hinner]
  have := hf o
  omega

end ObjectFlow.Flow
