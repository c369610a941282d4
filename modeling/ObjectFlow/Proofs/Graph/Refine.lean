import ObjectFlow.Proofs.Graph.Indexed
import ObjectFlow.Proofs.Graph.Rewire

/-!
# A stored graph and its lists change alike

`Agrees` relates a stored graph to the graph of lists whose nodes and edges it has. Single changes
keep it: what is added comes last on both sides (`Agrees.insertNode`, `Agrees.insertEdge`), what is
removed leaves the rest in place (`Agrees.removeNode`, `Agrees.removeEdge`), and new data stands
where the old data stood.

A stored graph keeps its tables of identities beside the library that holds the elements under
numbers, and it is in order if the two fit together (`Coherent`). So each change has to be followed
in both, and the order of the elements is that of the tables. Of the library nothing is used but its
laws. In particular, the number of a new element is not known, only that it was free. Removing is
treated as one case, in which some elements are dropped and no edge loses an end
(`Coherent.restrict`), and new data as another (`Coherent.relabel`).
-/

namespace ObjectFlow.Indexed

variable {S : Type → Type → Type} [Slots S] {N E : Type}

/-- The stored graph is in order, and its nodes and edges are those of the other one. -/
structure Agrees (x : Indexed S N E) (g : Graph N E) : Prop where
  coherent : x.Coherent
  nodes : x.nodeList = g.nodes
  edges : x.edgeList = g.edges
  metadata : x.metadata = g.metadata

variable {x : Indexed S N E} {g : Graph N E}

/-! ## What a graph of lists is asked

Lookups go through the tables to the library on one side, and through the lists on the other. -/

theorem Agrees.nodeIds (h : x.Agrees g) : x.nodeIds = g.nodeIds := by
  rw [← h.coherent.keys_nodeList, h.nodes]
  rfl

theorem Agrees.hasNode (h : x.Agrees g) (id : NodeId) : x.hasNode id = g.hasNode id := by
  rw [Bool.eq_iff_iff, Graph.hasNode_iff, ← h.nodeIds]
  exact Table.holds_iff

theorem Agrees.node? (h : x.Agrees g) (id : NodeId) : x.node? id = g.node? id := by
  rw [h.coherent.node?_eq, h.nodes]
  rfl

theorem Agrees.edge? (h : x.Agrees g) (id : EdgeId) : x.edge? id = g.edge? id := by
  rw [h.coherent.edge?_eq, h.edges]
  rfl

theorem Agrees.keys_edges (h : x.Agrees g) : Table.keys x.edges = g.edges.map Edge.id := by
  rw [← h.coherent.ids_edgeList, h.edges]

theorem Agrees.hasEdge (h : x.Agrees g) (id : EdgeId) : x.hasEdge id = g.hasEdge id := by
  rw [Bool.eq_iff_iff, Graph.hasEdge_iff, ← h.keys_edges]
  exact Table.holds_iff

theorem Agrees.outEdges [LawfulSlots S] (h : x.Agrees g) (id : NodeId) :
    x.outEdges id = g.outEdges id := by
  rw [h.coherent.outEdges_eq, h.edges]
  rfl

theorem Agrees.inEdges [LawfulSlots S] (h : x.Agrees g) (id : NodeId) :
    x.inEdges id = g.inEdges id := by
  rw [h.coherent.inEdges_eq, h.edges]
  rfl

/-! ## Adding

What is added gets a number that was free, so whatever was stored is found under its own number
still. -/

variable [LawfulSlots S]

/-- The empty graphs agree. -/
theorem Agrees.empty (metadata : Table String Json) :
    (empty metadata : Indexed S N E).Agrees { metadata } :=
  ⟨⟨List.nodup_nil, List.nodup_nil, by simp [Indexed.empty, LawfulSlots.node?_empty],
    by simp [Indexed.empty, LawfulSlots.edge?_empty],
    by simp [Indexed.empty, LawfulSlots.edge?_empty],
    by simp [Indexed.empty, LawfulSlots.edge?_empty]⟩, rfl, rfl, rfl⟩

/-- What was under a number is there still when a node is added. -/
theorem node?_addNode_of_some {s : S (NodeId × N) (EdgeId × E)} {v : NodeId × N} {j : Nat}
    {w : NodeId × N} (hj : Slots.node? s j = some w) :
    Slots.node? (Slots.addNode s v).2 j = some w := by
  rw [LawfulSlots.node?_addNode, if_neg, hj]
  rintro rfl
  rw [LawfulSlots.addNode_vacant] at hj
  cases hj

/-- A new node comes last, and the graph stays in order. -/
theorem Coherent.insertNode (h : x.Coherent) {id : NodeId} (hid : id ∉ x.nodeIds) (data : N) :
    (x.insertNode id data).Coherent ∧
      (x.insertNode id data).nodeList = x.nodeList ++ [(id, data)] ∧
      (x.insertNode id data).edgeList = x.edgeList := by
  have hput : (x.insertNode id data).nodes =
      x.nodes ++ [(id, (Slots.addNode x.inner (id, data)).1)] := Table.put_eq_append hid _
  have hnew : Slots.node? (x.insertNode id data).inner (Slots.addNode x.inner (id, data)).1 =
      some (id, data) := (LawfulSlots.node?_addNode ..).trans (if_pos rfl)
  have hedge : ∀ k, Slots.edge? (x.insertNode id data).inner k = Slots.edge? x.inner k :=
    fun k => LawfulSlots.edge?_addNode ..
  have hlive : ∀ {j}, (Slots.node? x.inner j).isSome →
      Slots.node? (x.insertNode id data).inner j = Slots.node? x.inner j := by
    intro j hj
    obtain ⟨w, hw⟩ := Option.isSome_iff_exists.1 hj
    rw [hw]
    exact node?_addNode_of_some hw
  refine ⟨⟨?_, h.edges_nodup, fun {id' j} => ?_, ?_, ?_, ?_⟩, ?_, ?_⟩
  · rw [hput, Table.keys_append]
    exact h.nodes_nodup.append (List.nodup_singleton _) (List.disjoint_singleton.2 hid)
  · rw [hput, List.mem_append, List.mem_singleton, h.mem_nodes]
    -- Either the place is the new one, which was vacant, or the table is as before.
    by_cases hj : j = (Slots.addNode x.inner (id, data)).1
    · subst hj
      rw [hnew, LawfulSlots.addNode_vacant]
      simp [eq_comm]
    · have : Slots.node? (x.insertNode id data).inner j = Slots.node? x.inner j :=
        (LawfulSlots.node?_addNode ..).trans (if_neg hj)
      simp [this, hj]
  · simp only [hedge]
    exact h.mem_edges
  · intro k a ha
    rw [hedge] at ha
    rw [hlive (h.source_live ha)]
    exact h.source_live ha
  · intro k a ha
    rw [hedge] at ha
    rw [hlive (h.target_live ha)]
    exact h.target_live ha
  · rw [nodeList, hput, List.filterMap_append]
    refine congr (congrArg _ (List.filterMap_congr fun n hn => ?_)) ?_
    · obtain ⟨d, hd⟩ := h.exists_node hn
      rw [hlive (by rw [hd]; rfl)]
    · simp [hnew]
  · refine List.filterMap_congr fun e _ => view_congr (hedge _) fun a ha => ?_
    unfold nameOf
    rw [hlive (h.source_live ha), hlive (h.target_live ha)]
    exact ⟨rfl, rfl⟩

/-- A new node comes last on both sides. -/
theorem Agrees.insertNode (h : x.Agrees g) {id : NodeId} (hid : id ∉ g.nodeIds) (data : N) :
    (x.insertNode id data).Agrees (g.attachNode id data) := by
  rw [← h.nodeIds] at hid
  obtain ⟨hc, hn, he⟩ := h.coherent.insertNode hid data
  exact ⟨hc, by rw [hn, h.nodes]; rfl, by rw [he, h.edges]; rfl, h.metadata⟩

section InsertEdge

variable (h : x.Coherent) {e : Edge E} {s t : Nat} (hs : (e.source, s) ∈ x.nodes)
  (ht : (e.target, t) ∈ x.nodes)
include h hs ht

/-- An edge leaves the nodes where they are. -/
theorem Coherent.node?_insertEdge (i : Nat) :
    Slots.node? (x.insertEdge e.id s t e.data).inner i = Slots.node? x.inner i := by
  obtain ⟨ds, hds⟩ := h.exists_node hs
  obtain ⟨dt, hdt⟩ := h.exists_node ht
  exact LawfulSlots.node?_addEdge x.inner _ i (by rw [hds]; rfl) (by rw [hdt]; rfl)

/-- An edge leaves the names of numbers as they are. -/
theorem Coherent.nameOf_insertEdge (i : Nat) :
    (x.insertEdge e.id s t e.data).nameOf i = x.nameOf i := by
  rw [nameOf, nameOf, h.node?_insertEdge hs ht]

/-- The new edge is found under its number, and others under theirs. -/
theorem Coherent.edge?_insertEdge (k : Nat) :
    Slots.edge? (x.insertEdge e.id s t e.data).inner k =
      if k = (Slots.addEdge x.inner ⟨s, t, (e.id, e.data)⟩).1 then some ⟨s, t, (e.id, e.data)⟩
      else Slots.edge? x.inner k := by
  obtain ⟨ds, hds⟩ := h.exists_node hs
  obtain ⟨dt, hdt⟩ := h.exists_node ht
  exact LawfulSlots.edge?_addEdge x.inner _ k (by rw [hds]; rfl) (by rw [hdt]; rfl)

/-- The number of the new edge was not in use. -/
theorem Coherent.edge?_insertEdge_vacant :
    Slots.edge? x.inner (Slots.addEdge x.inner ⟨s, t, (e.id, e.data)⟩).1 = none := by
  obtain ⟨ds, hds⟩ := h.exists_node hs
  obtain ⟨dt, hdt⟩ := h.exists_node ht
  exact LawfulSlots.addEdge_vacant x.inner _ (by rw [hds]; rfl) (by rw [hdt]; rfl)

/-- An edge that was there is found still. -/
theorem Coherent.edge?_insertEdge_of_some {k : Nat} {b : Arc (EdgeId × E)}
    (hb : Slots.edge? x.inner k = some b) :
    Slots.edge? (x.insertEdge e.id s t e.data).inner k = some b := by
  rw [h.edge?_insertEdge hs ht, if_neg, hb]
  rintro rfl
  rw [h.edge?_insertEdge_vacant hs ht] at hb
  cases hb

/-- What is found is the new edge, or it was there. -/
theorem Coherent.edge?_insertEdge_cases {k : Nat} {b : Arc (EdgeId × E)}
    (hb : Slots.edge? (x.insertEdge e.id s t e.data).inner k = some b) :
    b = ⟨s, t, (e.id, e.data)⟩ ∨ Slots.edge? x.inner k = some b := by
  rw [h.edge?_insertEdge hs ht] at hb
  split at hb
  · exact .inl (Option.some.inj hb).symm
  · exact .inr hb

/-- The new edge is found under its number. -/
theorem Coherent.view_insertEdge :
    (x.insertEdge e.id s t e.data).view (Slots.addEdge x.inner ⟨s, t, (e.id, e.data)⟩).1 =
      some e := by
  refine view_eq_some_iff.2
    ⟨⟨s, t, (e.id, e.data)⟩, by rw [h.edge?_insertEdge hs ht, if_pos rfl], rfl, ?_, ?_⟩
  · exact (h.nameOf_insertEdge hs ht s).trans (h.nameOf_eq_some_iff.2 hs)
  · exact (h.nameOf_insertEdge hs ht t).trans (h.nameOf_eq_some_iff.2 ht)

/-- A new edge comes last, and the graph stays in order. -/
theorem Coherent.insertEdge (hid : e.id ∉ Table.keys x.edges) :
    (x.insertEdge e.id s t e.data).Coherent ∧
      (x.insertEdge e.id s t e.data).nodeList = x.nodeList ∧
      (x.insertEdge e.id s t e.data).edgeList = x.edgeList ++ [e] := by
  have hput : (x.insertEdge e.id s t e.data).edges =
      x.edges ++ [(e.id, (Slots.addEdge x.inner ⟨s, t, (e.id, e.data)⟩).1)] :=
    Table.put_eq_append hid _
  have hnode := h.node?_insertEdge hs ht
  obtain ⟨ds, hds⟩ := h.exists_node hs
  obtain ⟨dt, hdt⟩ := h.exists_node ht
  refine ⟨⟨h.nodes_nodup, ?_, ?_, fun {id k} => ?_, fun {k b} hb => ?_, fun {k b} hb => ?_⟩, ?_, ?_⟩
  · rw [hput, Table.keys_append]
    exact h.edges_nodup.append (List.nodup_singleton _) (List.disjoint_singleton.2 hid)
  · simp only [hnode]
    exact h.mem_nodes
  · rw [hput, List.mem_append, List.mem_singleton, h.mem_edges, h.edge?_insertEdge hs ht]
    by_cases hk : k = (Slots.addEdge x.inner ⟨s, t, (e.id, e.data)⟩).1
    · subst hk
      rw [h.edge?_insertEdge_vacant hs ht]
      simp [eq_comm]
    · simp [hk]
  · rw [hnode]
    rcases h.edge?_insertEdge_cases hs ht hb with rfl | hb
    · exact Option.isSome_iff_exists.2 ⟨_, hds⟩
    · exact h.source_live hb
  · rw [hnode]
    rcases h.edge?_insertEdge_cases hs ht hb with rfl | hb
    · exact Option.isSome_iff_exists.2 ⟨_, hdt⟩
    · exact h.target_live hb
  · exact List.filterMap_congr fun n _ => by rw [hnode]
  · rw [edgeList, hput, List.filterMap_append]
    refine congr (congrArg _ (List.filterMap_congr fun p hp => ?_)) ?_
    · obtain ⟨b, hb, -⟩ := h.mem_edges.1 (show (p.1, p.2) ∈ x.edges from hp)
      refine view_congr (by rw [hb]; exact h.edge?_insertEdge_of_some hs ht hb) fun _ _ => ?_
      exact ⟨h.nameOf_insertEdge hs ht _, h.nameOf_insertEdge hs ht _⟩
    · rw [List.filterMap_cons, List.filterMap_nil, h.view_insertEdge hs ht]

end InsertEdge

/-- A new edge comes last on both sides. -/
theorem Agrees.insertEdge (h : x.Agrees g) {e : Edge E} {s t : Nat}
    (hid : e.id ∉ g.edges.map Edge.id) (hs : (e.source, s) ∈ x.nodes)
    (ht : (e.target, t) ∈ x.nodes) :
    (x.insertEdge e.id s t e.data).Agrees (g.withEdges [e]) := by
  rw [← h.keys_edges] at hid
  obtain ⟨hc, hn, he⟩ := h.coherent.insertEdge hs ht hid
  exact ⟨hc, by rw [hn, h.nodes]; rfl, by rw [he, h.edges]; rfl, h.metadata⟩

/-! ## Removing

The library takes the edges at a node away with it, while the tables must be told which these are.
That both take away the same is what the lemmas on incident edges are about. -/

omit [LawfulSlots S] in
/-- An edge that is kept is found under its number still, and so are its ends. -/
theorem Coherent.exists_kept (h : x.Coherent) {y : Indexed S N E} {p : NodeId → Bool}
    {r : EdgeId → Bool}
    (hnode : ∀ i, Slots.node? y.inner i = (Slots.node? x.inner i).filter fun v => p v.1)
    (hedge : ∀ k, Slots.edge? y.inner k = (Slots.edge? x.inner k).filter fun a => r a.weight.1)
    (hends : ∀ e ∈ x.edgeList, r e.id → p e.source ∧ p e.target) {k : Nat} {e : Edge E}
    (he : x.view k = some e) (hr : r e.id = true) :
    ∃ a, Slots.edge? y.inner k = some a ∧ a.weight = (e.id, e.data) ∧
      (∃ d, Slots.node? y.inner a.source = some (e.source, d)) ∧
      ∃ d, Slots.node? y.inner a.target = some (e.target, d) := by
  obtain ⟨a, ha, hw, -⟩ := view_eq_some_iff.1 he
  obtain ⟨hs, ht⟩ := h.ends_of_view ha he
  obtain ⟨ds, hds⟩ := h.exists_node hs
  obtain ⟨dt, hdt⟩ := h.exists_node ht
  obtain ⟨hps, hpt⟩ := hends e (h.mem_edgeList.2 ⟨k, he⟩) hr
  refine ⟨a, ?_, hw, ⟨ds, ?_⟩, dt, ?_⟩
  · simp [hedge, ha, hw, hr, Option.filter]
  · simp [hnode, hds, hps, Option.filter]
  · simp [hnode, hdt, hpt, Option.filter]

omit [LawfulSlots S] in
/-- Some elements are dropped, from the tables and from the library, and no edge loses an end. -/
theorem Coherent.restrict (h : x.Coherent) {y : Indexed S N E} {p : NodeId → Bool}
    {r : EdgeId → Bool} (hnodes : y.nodes = x.nodes.filter fun n => p n.1)
    (hedges : y.edges = x.edges.filter fun e => r e.1)
    (hnode : ∀ i, Slots.node? y.inner i = (Slots.node? x.inner i).filter fun v => p v.1)
    (hedge : ∀ k, Slots.edge? y.inner k = (Slots.edge? x.inner k).filter fun a => r a.weight.1)
    (hends : ∀ e ∈ x.edgeList, r e.id → p e.source ∧ p e.target) :
    y.Coherent ∧ y.nodeList = x.nodeList.filter (fun n => p n.1) ∧
      y.edgeList = x.edgeList.filter fun e => r e.id := by
  have hkept := fun {k e} (he : x.view k = some e) => h.exists_kept hnode hedge hends he
  -- An edge that is left has both of its ends, as it was not dropped with one of them.
  have hlive : ∀ {k a}, Slots.edge? y.inner k = some a →
      (Slots.node? y.inner a.source).isSome ∧ (Slots.node? y.inner a.target).isSome := by
    intro k a ha
    have hold := ha
    rw [hedge, Option.filter_eq_some_iff] at hold
    obtain ⟨e, he, hw⟩ := h.exists_view hold.1
    obtain ⟨a', ha', -, ⟨d, hd⟩, d', hd'⟩ := hkept he (by simpa [hw] using hold.2)
    obtain rfl := Option.some.inj (ha.symm.trans ha')
    exact ⟨Option.isSome_iff_exists.2 ⟨_, hd⟩, Option.isSome_iff_exists.2 ⟨_, hd'⟩⟩
  refine ⟨⟨?_, ?_, fun {id i} => ?_, fun {id k} => ?_, fun ha => (hlive ha).1,
    fun ha => (hlive ha).2⟩, ?_, ?_⟩
  · rw [hnodes]
    exact h.nodes_nodup.sublist (List.filter_sublist.map _)
  · rw [hedges]
    exact h.edges_nodup.sublist (List.filter_sublist.map _)
  · rw [hnodes, List.mem_filter, h.mem_nodes, hnode]
    simp [Option.filter_eq_some_iff]
  · rw [hedges, List.mem_filter, h.mem_edges, hedge]
    simp only [Option.filter_eq_some_iff]
    constructor
    · rintro ⟨⟨a, ha, rfl⟩, hr⟩
      exact ⟨a, ⟨ha, hr⟩, rfl⟩
    · rintro ⟨a, ⟨ha, hr⟩, rfl⟩
      exact ⟨⟨a, ha, rfl⟩, hr⟩
  · rw [nodeList, nodeList, hnodes, List.filterMap_filter, List.filter_filterMap]
    refine List.filterMap_congr fun n hn => ?_
    obtain ⟨d, hd⟩ := h.exists_node (show (n.1, n.2) ∈ x.nodes from hn)
    by_cases hp : p n.1 = true <;> simp [hnode, hd, hp, Option.filter]
  · rw [edgeList, edgeList, hedges, List.filterMap_filter, List.filter_filterMap]
    refine List.filterMap_congr fun n hn => ?_
    obtain ⟨e, he, hid⟩ := h.view_of_mem (show (n.1, n.2) ∈ x.edges from hn)
    by_cases hr : r n.1 = true
    · obtain ⟨a, hya, hw, ⟨ds, hds⟩, dt, hdt⟩ := hkept he (hid ▸ hr)
      have hview : y.view n.2 = some e :=
        view_eq_some_iff.2 ⟨a, hya, hw, by simp [nameOf, hds], by simp [nameOf, hdt]⟩
      simp [hr, hview, he, hid, Option.filter]
    · simp [hr, he, hid, Option.filter]

/-- Removing an edge says what it carried. -/
theorem Agrees.removeEdge (h : x.Agrees g) (id : EdgeId) :
    (x.removeEdge id).1 = (g.edge? id).map Edge.data ∧
      (x.removeEdge id).2.Agrees (g.removeEdge id) := by
  have hlook := h.edge? id
  rw [Indexed.edge?] at hlook
  unfold Indexed.removeEdge
  cases hat : Table.at? x.edges id with
  | none =>
    rw [hat] at hlook
    have hne : ∀ e ∈ g.edges, e.id ≠ id := fun e he => by
      simpa using List.find?_eq_none.1 hlook.symm e he
    refine ⟨by rw [← hlook]; rfl, h.coherent, h.nodes, h.edges.trans ?_, h.metadata⟩
    exact (List.filter_eq_self.2 fun e he => decide_eq_true (hne e he)).symm
  | some k =>
    obtain ⟨e, he, hid⟩ := h.coherent.view_of_mem (Table.mem_of_at? hat)
    obtain ⟨a, ha, hw, -⟩ := view_eq_some_iff.1 he
    -- the number that is given up is the one under which the identity is
    have hedge : ∀ j, Slots.edge? (Slots.removeEdge x.inner k) j =
        (Slots.edge? x.inner j).filter fun b => b.weight.1 ≠ id := by
      intro j
      rw [LawfulSlots.edge?_removeEdge]
      cases hb : Slots.edge? x.inner j with
      | none => simp
      | some b =>
        obtain ⟨e', he', hw'⟩ := h.coherent.exists_view hb
        by_cases hj : j = k
        · subst hj
          obtain rfl := Option.some.inj (he.symm.trans he')
          simp [hw', hid, Option.filter]
        · have : e'.id ≠ id := fun heq => hj (h.coherent.view_inj he' he (heq.trans hid.symm))
          simp [hj, hw', this, Option.filter]
    obtain ⟨hc, hn, hes⟩ := h.coherent.restrict (p := fun _ => true) (r := fun i => i ≠ id)
      (y := { x with inner := Slots.removeEdge x.inner k, edges := Table.without x.edges id })
      (List.filter_eq_self.2 fun _ _ => rfl).symm rfl
      (fun i => by rw [LawfulSlots.node?_removeEdge]; cases Slots.node? x.inner i <;> rfl)
      hedge (fun _ _ _ => ⟨rfl, rfl⟩)
    refine ⟨?_, hc, ?_, ?_, h.metadata⟩
    · rw [← hlook, hat, Option.bind_some, he]
      simp [ha, hw]
    · rw [hn, List.filter_eq_self.2 fun _ _ => rfl, h.nodes]
      rfl
    · rw [hes, h.edges]
      rfl

/-- Taking out keys one by one takes out all of them. -/
theorem foldl_without (t : Table EdgeId Nat) (ids : List EdgeId) :
    ids.foldl Table.without t = t.filter fun e => e.1 ∉ ids := by
  induction ids generalizing t with
  | nil => simp
  | cons id ids ih =>
    rw [List.foldl_cons, ih, Table.without, List.filter_filter]
    exact List.filter_congr fun e _ => by simp [not_or, Bool.and_comm]

/-- The identities of the edges at a numbered node. -/
def incident (x : Indexed S N E) (i : Nat) : List EdgeId :=
  (Slots.outgoing x.inner i ++ Slots.incoming x.inner i).filterMap fun k =>
    (Slots.edge? x.inner k).map fun arc => arc.weight.1

section RemoveNode

variable (h : x.Coherent) {id : NodeId} {i : Nat} (hi : (id, i) ∈ x.nodes)
include h hi

/-- The edges at a node are those that have it as an end. -/
theorem Coherent.mem_incident {k : Nat} {e : Edge E} (he : x.view k = some e) :
    e.id ∈ x.incident i ↔ e.source = id ∨ e.target = id := by
  obtain ⟨a, ha, hw, -⟩ := view_eq_some_iff.1 he
  obtain ⟨hs, ht⟩ := h.ends_of_view ha he
  rw [h.node_eq_iff hs hi, h.node_eq_iff ht hi, incident, List.mem_filterMap]
  simp only [List.mem_append, LawfulSlots.mem_outgoing, LawfulSlots.mem_incoming,
    Option.map_eq_some_iff]
  constructor
  · rintro ⟨k', hk', a', ha', hid⟩
    obtain ⟨e', he', hw'⟩ := h.exists_view ha'
    rw [hw'] at hid
    obtain rfl := h.view_inj he' he hid
    obtain rfl := Option.some.inj (ha.symm.trans ha')
    simpa [ha] using hk'
  · intro hor
    exact ⟨k, by simpa [ha] using hor, a, ha, by rw [hw]⟩

/-- Of the nodes only the one that is removed goes. -/
theorem Coherent.node?_removeNode (j : Nat) :
    Slots.node? (Slots.removeNode x.inner i) j =
      (Slots.node? x.inner j).filter fun v => v.1 ≠ id := by
  obtain ⟨d, hd⟩ := h.exists_node hi
  rw [LawfulSlots.node?_removeNode _ _ (by rw [hd]; rfl)]
  cases hv : Slots.node? x.inner j with
  | none => simp
  | some v =>
    have hj := h.node_eq_iff (h.mem_nodes.2 ⟨v.2, hv⟩) hi
    by_cases hji : j = i
    · simp [hji, hj.2 hji, Option.filter]
    · simp [hji, mt hj.1 hji, Option.filter]

/-- Of the edges those at the node go. -/
theorem Coherent.edge?_removeNode (k : Nat) :
    Slots.edge? (Slots.removeNode x.inner i) k =
      (Slots.edge? x.inner k).filter fun a => a.weight.1 ∉ x.incident i := by
  obtain ⟨d, hd⟩ := h.exists_node hi
  rw [LawfulSlots.edge?_removeNode _ _ (by rw [hd]; rfl)]
  cases ha : Slots.edge? x.inner k with
  | none => simp
  | some a =>
    obtain ⟨e, he, hw⟩ := h.exists_view ha
    obtain ⟨hs, ht⟩ := h.ends_of_view ha he
    have := h.mem_incident hi he
    rw [h.node_eq_iff hs hi, h.node_eq_iff ht hi] at this
    simp [hw, this, Option.filter, not_or]

end RemoveNode

/-- Removing a node says what it carried. -/
theorem Agrees.removeNode (h : x.Agrees g) (id : NodeId) :
    (x.removeNode id).1 = g.node? id ∧ (x.removeNode id).2.Agrees (g.removeNode id) := by
  have hlook := h.node? id
  have hhas := h.hasNode id
  rw [Indexed.node?] at hlook
  rw [Indexed.hasNode, Table.holds] at hhas
  unfold Indexed.removeNode Graph.removeNode
  cases hat : Table.at? x.nodes id with
  | none =>
    rw [hat] at hlook hhas
    rw [← hhas, ← hlook]
    exact ⟨rfl, h⟩
  | some i =>
    have hi := Table.mem_of_at? hat
    rw [hat] at hlook hhas
    have hends : ∀ e ∈ x.edgeList, e.id ∉ x.incident i ↔ e.source ≠ id ∧ e.target ≠ id := by
      intro e he
      obtain ⟨k, he⟩ := h.coherent.mem_edgeList.1 he
      rw [h.coherent.mem_incident hi he, not_or]
    obtain ⟨hc, hn, hes⟩ := h.coherent.restrict (p := fun n => n ≠ id)
      (r := fun j => j ∉ x.incident i)
      (y := { x with
        inner := Slots.removeNode x.inner i
        nodes := Table.without x.nodes id
        edges := (x.incident i).foldl Table.without x.edges })
      rfl (foldl_without _ _) (h.coherent.node?_removeNode hi) (h.coherent.edge?_removeNode hi)
      fun e he hid => by simpa using (hends e he).1 (of_decide_eq_true hid)
    rw [← hhas, ← hlook]
    refine ⟨rfl, hc, hn.trans (by rw [h.nodes]; rfl), hes.trans ?_, h.metadata⟩
    rw [← h.edges]
    exact List.filter_congr fun e he => by simp [hends e he]

/-! ## Other data

Data stand in the library only, beside the identity that is kept there as well. -/

omit [LawfulSlots S] in
/-- Every element carries other data than before. -/
theorem Coherent.relabel (h : x.Coherent) {y : Indexed S N E} {p : NodeId → N → N}
    {q : EdgeId → E → E} (hnodes : y.nodes = x.nodes) (hedges : y.edges = x.edges)
    (hnode : ∀ i, Slots.node? y.inner i =
      (Slots.node? x.inner i).map fun v => (v.1, p v.1 v.2))
    (hedge : ∀ k, Slots.edge? y.inner k = (Slots.edge? x.inner k).map fun a =>
      { a with weight := (a.weight.1, q a.weight.1 a.weight.2) }) :
    y.Coherent ∧ y.nodeList = x.nodeList.map (fun n => (n.1, p n.1 n.2)) ∧
      y.edgeList = x.edgeList.map fun e => { e with data := q e.id e.data } := by
  have hname : ∀ i, y.nameOf i = x.nameOf i := fun i => by
    rw [nameOf, nameOf, hnode, Option.map_map]
    rfl
  -- An edge is seen as before but for its data, since names do not depend on data.
  have hview : ∀ k, y.view k = (x.view k).map fun e => { e with data := q e.id e.data } := by
    intro k
    unfold view
    rw [hedge]
    cases ha : Slots.edge? x.inner k with
    | none => rfl
    | some a =>
      simp only [Option.map_some, Option.bind_eq_bind, Option.bind_some, hname]
      cases x.nameOf a.source <;> cases x.nameOf a.target <;> rfl
  have hold : ∀ {k a}, Slots.edge? y.inner k = some a →
      ∃ b, Slots.edge? x.inner k = some b ∧ b.source = a.source ∧ b.target = a.target := by
    intro k a ha
    rw [hedge, Option.map_eq_some_iff] at ha
    obtain ⟨b, hb, rfl⟩ := ha
    exact ⟨b, hb, rfl, rfl⟩
  refine ⟨⟨?_, ?_, fun {id i} => ?_, fun {id k} => ?_, fun {k a} ha => ?_, fun {k a} ha => ?_⟩,
    ?_, ?_⟩
  · rw [hnodes]
    exact h.nodes_nodup
  · rw [hedges]
    exact h.edges_nodup
  · rw [hnodes, ← h.nameOf_eq_some_iff, ← hname]
    simp [nameOf]
  · rw [hedges, h.mem_edges, hedge]
    simp
  · obtain ⟨b, hb, hs, -⟩ := hold ha
    rw [hnode, Option.isSome_map, ← hs]
    exact h.source_live hb
  · obtain ⟨b, hb, -, ht⟩ := hold ha
    rw [hnode, Option.isSome_map, ← ht]
    exact h.target_live hb
  · rw [nodeList, nodeList, hnodes, List.map_filterMap]
    refine List.filterMap_congr fun n hn => ?_
    obtain ⟨d, hd⟩ := h.exists_node (show (n.1, n.2) ∈ x.nodes from hn)
    simp [hnode, hd]
  · rw [edgeList, edgeList, hedges, List.map_filterMap]
    exact List.filterMap_congr fun n _ => hview n.2

/-- The data of a node change on both sides. -/
theorem Agrees.adjustNode (h : x.Agrees g) (id : NodeId) (f : N → N) :
    (x.adjustNode id f).Agrees (g.adjustNode id f) := by
  have hlists : (g.adjustNode id f).nodes =
      g.nodes.map fun n => (n.1, if n.1 = id then f n.2 else n.2) := by
    refine (Table.adjust_eq_map f id ?_).trans (List.map_congr_left fun n _ => ?_)
    · rw [← h.nodes, h.coherent.keys_nodeList]
      exact h.coherent.nodes_nodup
    · split <;> rfl
  unfold Indexed.adjustNode
  cases hat : Table.at? x.nodes id with
  | none =>
    have hid : id ∉ Table.keys g.nodes := by
      rw [← h.nodes, h.coherent.keys_nodeList]
      exact Table.at?_eq_none_iff.1 hat
    exact ⟨h.coherent, h.nodes.trans (Table.adjust_eq_self hid).symm, h.edges, h.metadata⟩
  | some i =>
    have hi := Table.mem_of_at? hat
    obtain ⟨hc, hn, he⟩ := h.coherent.relabel
      (y := { x with inner := Slots.adjustNode x.inner i fun slot => (slot.1, f slot.2) })
      (p := fun n d => if n = id then f d else d) (q := fun _ d => d) rfl rfl
      (fun j => by
        rw [LawfulSlots.node?_adjustNode]
        cases hv : Slots.node? x.inner j with
        | none => simp
        | some v =>
          have := h.coherent.node_eq_iff (h.coherent.mem_nodes.2 ⟨v.2, hv⟩) hi
          by_cases hj : j = i
          · simp [hj, this.2 hj]
          · simp [hj, mt this.1 hj])
      (fun k => by
        rw [LawfulSlots.edge?_adjustNode]
        cases Slots.edge? x.inner k <;> rfl)
    refine ⟨hc, by rw [hn, hlists, h.nodes], ?_, h.metadata⟩
    rw [he, List.map_id', h.edges]
    rfl

/-- The data of an edge change on both sides. -/
theorem Agrees.adjustEdge (h : x.Agrees g) (id : EdgeId) (f : E → E) :
    (x.adjustEdge id f).Agrees (g.adjustEdge id f) := by
  unfold Indexed.adjustEdge
  cases hat : Table.at? x.edges id with
  | none =>
    have hid : ∀ e ∈ g.edges, e.id ≠ id := by
      rintro e he rfl
      refine Table.at?_eq_none_iff.1 hat ?_
      rw [h.keys_edges]
      exact List.mem_map_of_mem he
    refine ⟨h.coherent, h.nodes, h.edges.trans (Eq.symm ?_), h.metadata⟩
    exact (List.map_congr_left fun e he => if_neg (hid e he)).trans (List.map_id' _)
  | some k =>
    obtain ⟨e₀, he₀, hid₀⟩ := h.coherent.view_of_mem (Table.mem_of_at? hat)
    obtain ⟨hc, hn, he⟩ := h.coherent.relabel
      (y := { x with inner := Slots.adjustEdge x.inner k fun slot => (slot.1, f slot.2) })
      (p := fun _ d => d) (q := fun i d => if i = id then f d else d) rfl rfl
      (fun j => by
        rw [LawfulSlots.node?_adjustEdge]
        cases Slots.node? x.inner j <;> rfl)
      (fun j => by
        rw [LawfulSlots.edge?_adjustEdge]
        cases ha : Slots.edge? x.inner j with
        | none => simp
        | some a =>
          obtain ⟨e, he, hw⟩ := h.coherent.exists_view ha
          by_cases hj : j = k
          · subst hj
            obtain rfl := Option.some.inj (he.symm.trans he₀)
            simp [hw, hid₀]
          · have hne : a.weight.1 ≠ id := by
              rw [hw]
              exact fun heq => hj (h.coherent.view_inj he he₀ (heq.trans hid₀.symm))
            rw [if_neg hj, Option.map_some, if_neg hne])
    refine ⟨hc, ?_, ?_, h.metadata⟩
    · rw [hn, List.map_id', h.nodes]
      rfl
    · rw [he, h.edges]
      refine List.map_congr_left fun e _ => ?_
      split <;> rfl

end ObjectFlow.Indexed
