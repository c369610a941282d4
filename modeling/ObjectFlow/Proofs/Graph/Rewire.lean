import ObjectFlow.Proofs.Graph.Contract

/-!
# Subdividing keeps the paths

Inserting a node behind another one does not fail and leaves all paths between the old nodes
(`reaches_insertedAfter`). Nodes without a way in or without a way out lie on no path between other
nodes (`reaches_removeNodes`).

Like a contraction, an insertion is first shown to be a graph that is put together by total
operations (`insertedAfter`), and everything else is read off the edges of that graph. They are of
three kinds: those that were not selected and are as they were, those that were selected and start
at the new node, and the one link (`mem_edges_insertedAfter`). A path between old nodes that uses a
selected edge comes by the link to the new node first, since there is no other way there.
-/

namespace ObjectFlow.Graph

variable {N E : Type} {g : Graph N E}

/-! ## Removing several edges

 -/

/-- The graph without some of its edges. -/
def removeEdges (g : Graph N E) (ids : List EdgeId) : Graph N E :=
  { g with edges := g.edges.filter fun e => e.id ∉ ids }

theorem removeEdges_removeEdge (g : Graph N E) (id : EdgeId) (ids : List EdgeId) :
    (g.removeEdge id).removeEdges ids = g.removeEdges (id :: ids) := by
  have hedges : (g.edges.filter fun e => e.id ≠ id).filter (fun e => e.id ∉ ids) =
      g.edges.filter fun e => e.id ∉ id :: ids := by
    rw [List.filter_filter]
    exact List.filter_congr fun e _ => by simp [not_or, Bool.and_comm]
  exact congrArg (fun es => (⟨g.nodes, es, g.metadata, g.seating⟩ : Graph N E)) hedges

theorem removeEdges_withEdges (g : Graph N E) (es : List (Edge E)) (ids : List EdgeId) :
    (g.withEdges es).removeEdges ids =
      (g.removeEdges ids).withEdges (es.filter fun e => e.id ∉ ids) :=
  congrArg (fun es => (⟨g.nodes, es, g.metadata, g.seating⟩ : Graph N E))
    (List.filter_append g.edges es)

theorem foldl_removeEdge (g : Graph N E) (ids : List EdgeId) :
    ids.foldl removeEdge g = g.removeEdges ids := by
  induction ids generalizing g with
  | nil => simp [removeEdges]
  | cons id ids ih => rw [List.foldl_cons, ih, removeEdges_removeEdge]

/-- Thinning removes the edges that are superfluous. -/
theorem thin_eq (g : Graph N E) (id : NodeId) : (g.thin id).2 = g.removeEdges (g.superfluous id) :=
  foldl_removeEdge g _

theorem mem_edges_removeEdges {ids : List EdgeId} {e : Edge E} :
    e ∈ (g.removeEdges ids).edges ↔ e ∈ g.edges ∧ e.id ∉ ids := by
  simp [removeEdges]

@[simp] theorem nodeIds_removeEdges (g : Graph N E) (ids : List EdgeId) :
    (g.removeEdges ids).nodeIds = g.nodeIds := rfl

@[simp] theorem node?_removeEdges (g : Graph N E) (ids : List EdgeId) (n : NodeId) :
    (g.removeEdges ids).node? n = g.node? n := rfl

theorem WellFormed.removeEdges (h : g.WellFormed) (ids : List EdgeId) :
    (g.removeEdges ids).WellFormed := h.filterEdges _

theorem Before.removeEdges {s : Supply} (h : g.Before s) (ids : List EdgeId) :
    (g.removeEdges ids).Before s :=
  ⟨h.node_lt, fun e he => h.edge_lt e (mem_edges_removeEdges.1 he).1⟩

/-! ## Moving edges

Moving is removing and adding again under the same identity, one edge after the other. The edges
that were moved stand at the end then, in the order in which they were moved. -/

/-- Edges keep their identities when their ends are moved. -/
theorem moveEdges_eq_ok {moved : List (Edge E)} (hd : (moved.map Edge.id).Nodup)
    (hs : ∀ e ∈ moved, e.source ∈ g.nodeIds) (ht : ∀ e ∈ moved, e.target ∈ g.nodeIds) :
    g.moveEdges moved = .ok ((g.removeEdges (moved.map Edge.id)).withEdges moved) := by
  induction moved generalizing g with
  | nil =>
    have : g.removeEdges [] = g := by simp [removeEdges]
    rw [List.map_nil, this, withEdges_nil]
    rfl
  | cons e moved ih =>
    rw [List.map_cons, List.nodup_cons] at hd
    have hadd : (g.removeEdge e.id).addEdge e = .ok ((g.removeEdge e.id).withEdges [e]) := by
      refine addEdge_eq_ok (fun hm => ?_) (hs e List.mem_cons_self) (ht e List.mem_cons_self)
      obtain ⟨e₀, he₀, hid⟩ := List.mem_map.1 hm
      exact (mem_edges_removeEdge.1 he₀).2 hid
    have ih := ih (g := (g.removeEdge e.id).withEdges [e]) hd.2
      (fun e' he' => hs e' (List.mem_cons_of_mem _ he'))
      (fun e' he' => ht e' (List.mem_cons_of_mem _ he'))
    rw [moveEdges, List.foldlM_cons, hadd]
    have hstay : ([e].filter fun e => e.id ∉ moved.map Edge.id) = [e] :=
      List.filter_cons_of_pos (decide_eq_true hd.1)
    refine ih.trans (congrArg Except.ok ?_)
    rw [removeEdges_withEdges, hstay, withEdges_withEdges, removeEdges_removeEdge]
    rfl

/-! ## Changing the edges of a node

A pass over the edges that leave a node changes each of them by its identity. Identities are
distinct, so this is one map over all edges (`foldl_adjustEdge_outEdges`). -/

/-- The graph with other data on the edges that leave a node. -/
def adjustOut (g : Graph N E) (id : NodeId) (f : E → E) : Graph N E :=
  { g with edges := g.edges.map fun e => if e.source = id then { e with data := f e.data } else e }

theorem foldl_adjustEdge {es : List (Edge E)} (hd : (es.map Edge.id).Nodup) (f : E → E) :
    es.foldl (fun g e => g.adjustEdge e.id f) g =
      { g with edges := g.edges.map fun e =>
          if e.id ∈ es.map Edge.id then { e with data := f e.data } else e } := by
  induction es generalizing g with
  | nil => simp
  | cons e es ih =>
    rw [List.map_cons, List.nodup_cons] at hd
    rw [List.foldl_cons, ih hd.2, adjustEdge]
    simp only [List.map_map, List.map_cons, List.mem_cons]
    congr 1
    refine List.map_congr_left fun x _ => ?_
    by_cases hx : x.id = e.id
    · simp only [Function.comp_apply, hx, if_true, true_or]
      exact if_neg hd.1
    · simp [hx]

theorem foldl_adjustEdge_outEdges (h : g.WellFormed) (id : NodeId) (f : E → E) :
    (g.outEdges id).foldl (fun g e => g.adjustEdge e.id f) g = g.adjustOut id f := by
  have hd : ((g.outEdges id).map Edge.id).Nodup :=
    h.edges_nodup.sublist (List.filter_sublist.map _)
  rw [foldl_adjustEdge hd]
  refine congrArg (fun es => (⟨g.nodes, es, g.metadata, g.seating⟩ : Graph N E))
    (List.map_congr_left fun e he => ?_)
  refine if_congr ?_ rfl rfl
  rw [h.id_mem_iff (g.outEdges_subset id) he, mem_outEdges]
  exact and_iff_right he

@[simp] theorem nodes_adjustOut (g : Graph N E) (id : NodeId) (f : E → E) :
    (g.adjustOut id f).nodes = g.nodes := rfl

@[simp] theorem nodeIds_adjustOut (g : Graph N E) (id : NodeId) (f : E → E) :
    (g.adjustOut id f).nodeIds = g.nodeIds := rfl

/-- The edges that leave the node have new data, and all others are as they were. -/
theorem mem_edges_adjustOut {id : NodeId} {f : E → E} {e' : Edge E} :
    e' ∈ (g.adjustOut id f).edges ↔ (e' ∈ g.edges ∧ e'.source ≠ id) ∨
      ∃ e ∈ g.edges, e.source = id ∧ e' = { e with data := f e.data } := by
  simp only [adjustOut, List.mem_map]
  constructor
  · rintro ⟨e, he, rfl⟩
    by_cases hs : e.source = id
    · rw [if_pos hs]
      exact .inr ⟨e, he, hs, rfl⟩
    · rw [if_neg hs]
      exact .inl ⟨he, hs⟩
  · rintro (⟨he, hs⟩ | ⟨e, he, hs, rfl⟩)
    · exact ⟨e', he, if_neg hs⟩
    · exact ⟨e, he, if_pos hs⟩

theorem WellFormed.adjustOut (h : g.WellFormed) (id : NodeId) (f : E → E) :
    (g.adjustOut id f).WellFormed := by
  have hids : (g.adjustOut id f).edges.map Edge.id = g.edges.map Edge.id := by
    simp only [Graph.adjustOut, List.map_map]
    refine List.map_congr_left fun e _ => ?_
    dsimp only [Function.comp_apply]
    split <;> rfl
  refine ⟨h.nodes_nodup, hids ▸ h.edges_nodup, fun e he => ?_, fun e he => ?_, h.seating_fits⟩
  · rcases mem_edges_adjustOut.1 he with ⟨he, -⟩ | ⟨e₀, he₀, -, rfl⟩
    · exact h.source_mem e he
    · exact h.source_mem e₀ he₀
  · rcases mem_edges_adjustOut.1 he with ⟨he, -⟩ | ⟨e₀, he₀, -, rfl⟩
    · exact h.target_mem e he
    · exact h.target_mem e₀ he₀

/-! ## A node behind a node

 -/

/-- The graph with a new node behind a node, which some of its edges leave instead. -/
def insertedAfter (g : Graph N E) (id hub : NodeId) (x : N) (link : EdgeId × E)
    (select : Edge E → Bool) : Graph N E :=
  let moved := ((g.outEdges id).filter select).map fun e => { e with source := hub }
  (((g.attachNode hub x).removeEdges (moved.map Edge.id)).withEdges moved).withEdges
    [⟨link.1, id, hub, link.2⟩]

variable {id hub : NodeId} {x : N} {link : EdgeId × E} {select : Edge E → Bool}

theorem mem_moved {e' : Edge E} :
    e' ∈ ((g.outEdges id).filter select).map (fun e => { e with source := hub }) ↔
      ∃ e ∈ g.edges, e.source = id ∧ select e = true ∧ e' = { e with source := hub } := by
  simp only [List.mem_map, List.mem_filter, mem_outEdges, and_assoc]
  exact exists_congr fun e => by tauto

theorem ids_moved (g : Graph N E) (id hub : NodeId) (select : Edge E → Bool) :
    (((g.outEdges id).filter select).map fun e => { e with source := hub }).map Edge.id =
      ((g.outEdges id).filter select).map Edge.id := by
  simp [Function.comp_def]

theorem nodup_moved (h : g.WellFormed) (id hub : NodeId) (select : Edge E → Bool) :
    ((((g.outEdges id).filter select).map fun e => { e with source := hub }).map
      Edge.id).Nodup := by
  rw [ids_moved]
  exact h.edges_nodup.sublist ((List.filter_sublist.trans List.filter_sublist).map _)

/-- What was not selected, what was moved, and the link. -/
theorem mem_edges_insertedAfter (h : g.WellFormed) {e' : Edge E} :
    e' ∈ (g.insertedAfter id hub x link select).edges ↔
      (e' ∈ g.edges ∧ ¬ (e'.source = id ∧ select e' = true)) ∨
      (∃ e ∈ g.edges, e.source = id ∧ select e = true ∧ e' = { e with source := hub }) ∨
      e' = ⟨link.1, id, hub, link.2⟩ := by
  have hmem : e' ∈ g.edges → (e'.id ∈ ((g.outEdges id).filter select).map Edge.id ↔
      e'.source = id ∧ select e' = true) := by
    intro he'
    have hsub : (g.outEdges id).filter select ⊆ g.edges :=
      fun _ hm => g.outEdges_subset id (List.mem_of_mem_filter hm)
    rw [h.id_mem_iff hsub he', List.mem_filter, mem_outEdges, and_assoc]
    exact and_iff_right he'
  rw [insertedAfter, edges_withEdges, List.mem_append, List.mem_singleton, edges_withEdges,
    List.mem_append, mem_moved, mem_edges_removeEdges, ids_moved, edges_attachNode]
  constructor
  · rintro ((⟨he', hn⟩ | he') | he')
    · exact .inl ⟨he', fun hx => hn ((hmem he').2 hx)⟩
    · exact .inr (.inl he')
    · exact .inr (.inr he')
  · rintro (⟨he', hn⟩ | he' | he')
    · exact .inl (.inl ⟨he', fun hx => hn ((hmem he').1 hx)⟩)
    · exact .inl (.inr he')
    · exact .inr he'

@[simp] theorem nodeIds_insertedAfter :
    (g.insertedAfter id hub x link select).nodeIds = g.nodeIds ++ [hub] := by
  simp [insertedAfter]

theorem node?_insertedAfter {n : NodeId} (hn : n ≠ hub) :
    (g.insertedAfter id hub x link select).node? n = g.node? n := by
  simp [insertedAfter, node?_attachNode, Ne.symm hn]

theorem node?_hub_insertedAfter (hhub : hub ∉ g.nodeIds) :
    (g.insertedAfter id hub x link select).node? hub = some x := by
  simp [insertedAfter, node?_attachNode, node?_eq_none_iff.2 hhub]

/-- What the edges that are moved and the new one need in order to be added. -/
theorem moved_fits (hw : g.WellFormed) (id hub : NodeId) (x : N) (select : Edge E → Bool)
    (hlink : link.1 ∉ g.edges.map Edge.id) :
    (∀ e ∈ ((g.outEdges id).filter select).map (fun e => { e with source := hub }),
      e.source ∈ (g.attachNode hub x).nodeIds ∧ e.target ∈ (g.attachNode hub x).nodeIds) ∧
    link.1 ∉ ((((g.attachNode hub x).removeEdges
        ((((g.outEdges id).filter select).map fun e => { e with source := hub }).map
          Edge.id)).withEdges
        (((g.outEdges id).filter select).map fun e => { e with source := hub })).edges.map
          Edge.id) := by
  refine ⟨fun e' he' => ?_, fun hm => ?_⟩
  · obtain ⟨e, he, -, -, rfl⟩ := mem_moved.1 he'
    have ht := hw.target_mem e he
    simp [ht]
  · obtain ⟨e', he', hid⟩ := List.mem_map.1 hm
    rcases List.mem_append.1 he' with he' | he'
    · exact hlink (List.mem_map.2 ⟨e', (mem_edges_removeEdges.1 he').1, hid⟩)
    · obtain ⟨e, he, -, -, rfl⟩ := mem_moved.1 he'
      exact hlink (List.mem_map.2 ⟨e, he, hid⟩)

/-- An insertion behind a node of the graph does not fail if the node and the link are new. -/
theorem insertAfter_eq_ok (h : g.WellFormed) (hid : id ∈ g.nodeIds) (hhub : hub ∉ g.nodeIds)
    (hlink : link.1 ∉ g.edges.map Edge.id) :
    g.insertAfter id hub x link select = .ok (g.insertedAfter id hub x link select) := by
  obtain ⟨hends, hnew⟩ := moved_fits h id hub x select hlink
  have hmove := moveEdges_eq_ok (g := g.attachNode hub x) (nodup_moved h id hub select)
    (fun e he => (hends e he).1) fun e he => (hends e he).2
  have hlast := addEdge_eq_ok (e := ⟨link.1, id, hub, link.2⟩) hnew (by simp [hid]) (by simp)
  rw [insertAfter, hasNode_iff.2 hid]
  dsimp only
  rw [if_neg (by simp), addNode_eq_ok x hhub]
  rw [Outcome.ok_bind, hmove, Outcome.ok_bind]
  exact hlast

theorem WellFormed.insertedAfter (h : g.WellFormed) (hid : id ∈ g.nodeIds)
    (hhub : hub ∉ g.nodeIds) (hlink : link.1 ∉ g.edges.map Edge.id) :
    (g.insertedAfter id hub x link select).WellFormed := by
  obtain ⟨hends, hnew⟩ := moved_fits h id hub x select hlink
  refine (((h.attachNode x hhub).removeEdges _).withEdges (nodup_moved h id hub select)
    (fun e he hm => ?_) (fun e he => (hends e he).1) fun e he => (hends e he).2).withEdge
    hnew (by simp [hid]) (by simp)
  obtain ⟨e₀, he₀, heq⟩ := List.mem_map.1 hm
  exact (mem_edges_removeEdges.1 he₀).2 (heq ▸ List.mem_map_of_mem he)

/-- A step is one that stayed, one that starts at the new node, or the link. -/
theorem step_insertedAfter (h : g.WellFormed) {u v : NodeId} :
    (g.insertedAfter id hub x link select).Step u v ↔
      (∃ e ∈ g.edges, ¬ (e.source = id ∧ select e = true) ∧ e.source = u ∧ e.target = v) ∨
      (u = hub ∧ ∃ e ∈ g.edges, e.source = id ∧ select e = true ∧ e.target = v) ∨
      u = id ∧ v = hub := by
  constructor
  · rintro ⟨e', he', rfl, rfl⟩
    rcases (mem_edges_insertedAfter h).1 he' with ⟨he, hn⟩ | ⟨e, he, hs, hsel, rfl⟩ | rfl
    · exact .inl ⟨e', he, hn, rfl, rfl⟩
    · exact .inr (.inl ⟨rfl, e, he, hs, hsel, rfl⟩)
    · exact .inr (.inr ⟨rfl, rfl⟩)
  · rintro (⟨e, he, hn, rfl, rfl⟩ | ⟨rfl, e, he, hs, hsel, rfl⟩ | ⟨rfl, rfl⟩)
    · exact .of_mem ((mem_edges_insertedAfter h).2 (.inl ⟨he, hn⟩))
    · exact ⟨{ e with source := u }, (mem_edges_insertedAfter h).2
        (.inr (.inl ⟨e, he, hs, hsel, rfl⟩)), rfl, rfl⟩
    · exact ⟨⟨link.1, u, v, link.2⟩, (mem_edges_insertedAfter h).2 (.inr (.inr rfl)), rfl, rfl⟩

/-- Paths between old nodes are the same as before. -/
theorem reaches_insertedAfter (h : g.WellFormed) (hhub : hub ∉ g.nodeIds) {u v : NodeId}
    (hu : u ∈ g.nodeIds) (hv : v ∈ g.nodeIds) :
    (g.insertedAfter id hub x link select).Reaches u v ↔ g.Reaches u v := by
  have hne : ∀ n ∈ g.nodeIds, n ≠ hub := fun n hn heq => hhub (heq ▸ hn)
  constructor
  · -- a path that is at the new node came from the node in front of it
    have key : ∀ {z}, (g.insertedAfter id hub x link select).Reaches u z →
        (z ≠ hub → g.Reaches u z) ∧ (z = hub → u = id ∨ g.Reaches u id) := by
      intro z hr
      induction hr with
      | single hs =>
        rcases (step_insertedAfter h).1 hs with ⟨e, he, -, rfl, rfl⟩ | ⟨rfl, -⟩ | ⟨rfl, rfl⟩
        · exact ⟨fun _ => (Step.of_mem he).reaches,
            fun heq => absurd heq (hne _ (h.target_mem e he))⟩
        · exact absurd rfl (hne u hu)
        · exact ⟨fun hz => absurd rfl hz, fun _ => .inl rfl⟩
      | @tail y z hy hs ih =>
        rcases (step_insertedAfter h).1 hs with
          ⟨e, he, -, rfl, rfl⟩ | ⟨rfl, e, he, rfl, -, rfl⟩ | ⟨rfl, rfl⟩
        · exact ⟨fun _ => (ih.1 (hne _ (h.source_mem e he))).trans (Step.of_mem he).reaches,
            fun heq => absurd heq (hne _ (h.target_mem e he))⟩
        · refine ⟨fun _ => ?_, fun heq => absurd heq (hne _ (h.target_mem e he))⟩
          rcases ih.2 rfl with rfl | hr
          · exact (Step.of_mem he).reaches
          · exact hr.trans (Step.of_mem he).reaches
        · refine ⟨fun hz => absurd rfl hz, fun _ => ?_⟩
          by_cases hyz : y = z
          · exact ih.2 hyz
          · exact .inr (ih.1 hyz)
    exact fun hr => (key hr).1 (hne v hv)
  · have hstep : ∀ {a b}, g.Step a b → (g.insertedAfter id hub x link select).Reaches a b := by
      rintro a b ⟨e, he, rfl, rfl⟩
      by_cases hsel : e.source = id ∧ select e = true
      · have hin : (g.insertedAfter id hub x link select).Step e.source hub :=
          (step_insertedAfter h).2 (.inr (.inr ⟨hsel.1, rfl⟩))
        have hout : (g.insertedAfter id hub x link select).Step hub e.target :=
          (step_insertedAfter h).2 (.inr (.inl ⟨rfl, e, he, hsel.1, hsel.2, rfl⟩))
        exact hin.reaches.trans hout.reaches
      · exact Step.reaches ((step_insertedAfter h).2 (.inl ⟨e, he, hsel, rfl, rfl⟩))
    intro hr
    induction hr with
    | single hs => exact hstep hs
    | tail hy hs ih => exact (ih (h.step_mem hs).1).trans (hstep hs)

/-- A cycle through the new node would be one through the node that it stands behind. -/
theorem Acyclic.insertedAfter (ha : g.Acyclic) (h : g.WellFormed) (hid : id ∈ g.nodeIds)
    (hhub : hub ∉ g.nodeIds) (hlink : link.1 ∉ g.edges.map Edge.id) :
    (g.insertedAfter id hub x link select).Acyclic := by
  intro u hr
  have hmem := ((h.insertedAfter hid hhub hlink).reaches_mem hr).1
  rw [nodeIds_insertedAfter, List.mem_append, List.mem_singleton] at hmem
  rcases hmem with hu | rfl
  · exact ha u ((reaches_insertedAfter h hhub hu hu).1 hr)
  · -- a cycle through the new node leads through the one in front of it
    obtain ⟨w, hw, hs⟩ := Relation.TransGen.tail'_iff.1 hr
    have hwid : w = id := by
      rcases (step_insertedAfter h).1 hs with ⟨e, he, -, -, ht⟩ | ⟨-, e, he, -, -, ht⟩ | ⟨hw, -⟩
      · exact absurd (ht ▸ h.target_mem e he) hhub
      · exact absurd (ht ▸ h.target_mem e he) hhub
      · exact hw
    subst hwid
    have hcycle : (g.insertedAfter w u x link select).Reaches w w :=
      Relation.TransGen.head' hs hw
    exact ha w ((reaches_insertedAfter h hhub hid hid).1 hcycle)

theorem Before.insertedAfter {s : Supply} (hb : g.Before s) (id : NodeId) (x : N) (t : E)
    (select : Edge E → Bool) :
    (g.insertedAfter id s.node.1 x (s.node.2.edge.1, t) select).Before s.node.2.edge.2 := by
  have hle : s.next ≤ s.node.2.edge.2.next := Nat.le_add_right _ 2
  refine (((hb.attachNode x).removeEdges _).withEdges (Nat.le_succ _) fun e' he' => ?_).withEdges
    (Nat.le_refl _) fun e he => ?_
  · obtain ⟨e, he, -, -, rfl⟩ := mem_moved.1 he'
    exact Nat.lt_of_lt_of_le (hb.edge_lt e he) hle
  · rw [List.mem_singleton.1 he]
    exact Nat.lt_succ_self _

/-! ## A node in front of a node

Here nothing is moved: the new node only feeds an old one. -/

/-- The graph with a new node and one edge that leaves it. -/
def fedBy (g : Graph N E) (hub : NodeId) (x : N) (link : EdgeId × E) (id : NodeId) : Graph N E :=
  (g.attachNode hub x).withEdges [⟨link.1, hub, id, link.2⟩]

theorem step_fedBy {u v : NodeId} :
    (g.fedBy hub x link id).Step u v ↔ g.Step u v ∨ u = hub ∧ v = id := by
  rw [fedBy, step_withEdges, step_attachNode]
  simp [eq_comm]

theorem WellFormed.fedBy (h : g.WellFormed) (hid : id ∈ g.nodeIds) (hhub : hub ∉ g.nodeIds)
    (hlink : link.1 ∉ g.edges.map Edge.id) : (g.fedBy hub x link id).WellFormed :=
  (h.attachNode x hhub).withEdge hlink (by simp) (by simp [hid])

/-- Nothing leads to the new node, so that no path between old nodes does. -/
theorem reaches_fedBy (h : g.WellFormed) (hhub : hub ∉ g.nodeIds) {u v : NodeId}
    (hu : u ∈ g.nodeIds) :
    (g.fedBy hub x link id).Reaches u v ↔ g.Reaches u v := by
  constructor
  · intro hr
    induction hr with
    | single hs =>
      rcases step_fedBy.1 hs with hs | ⟨rfl, -⟩
      · exact hs.reaches
      · exact absurd hu hhub
    | tail hy hs ih =>
      rcases step_fedBy.1 hs with hs | ⟨rfl, -⟩
      · exact ih.trans hs.reaches
      · exact absurd (h.reaches_mem ih).2 hhub
  · exact Reaches.mono fun a b hs => step_fedBy.2 (.inl hs)

theorem Acyclic.fedBy (ha : g.Acyclic) (h : g.WellFormed) (hid : id ∈ g.nodeIds)
    (hhub : hub ∉ g.nodeIds) : (g.fedBy hub x link id).Acyclic := by
  intro u hr
  by_cases hu : u = hub
  · subst hu
    obtain ⟨w, -, hs⟩ := Relation.TransGen.tail'_iff.1 hr
    rcases step_fedBy.1 hs with hs | ⟨-, rfl⟩
    · exact hhub (h.step_mem hs).2
    · exact hhub hid
  · obtain ⟨w, hs, -⟩ := reaches_iff_head.1 hr
    rcases step_fedBy.1 hs with hs | ⟨rfl, -⟩
    · exact ha u ((reaches_fedBy h hhub (h.step_mem hs).1).1 hr)
    · exact hu rfl

/-! ## Dead ends

A path between other nodes would have to come to such a node and go on from it. -/

/-- Nodes without a way in or without a way out lie on no path between other nodes. -/
theorem reaches_removeNodes (h : g.WellFormed) {ids : List NodeId}
    (hdead : ∀ n ∈ ids, (∀ m, ¬ g.Step m n) ∨ ∀ m, ¬ g.Step n m) {u v : NodeId} (hu : u ∉ ids)
    (hv : v ∉ ids) : (g.removeNodes ids).Reaches u v ↔ g.Reaches u v := by
  have hstep : ∀ {a b}, (g.removeNodes ids).Step a b ↔ g.Step a b ∧ a ∉ ids ∧ b ∉ ids := by
    intro a b
    constructor
    · rintro ⟨e, he, rfl, rfl⟩
      obtain ⟨he, hs, ht⟩ := (mem_edges_removeNodes h).1 he
      exact ⟨.of_mem he, hs, ht⟩
    · rintro ⟨⟨e, he, rfl, rfl⟩, hs, ht⟩
      exact .of_mem ((mem_edges_removeNodes h).2 ⟨he, hs, ht⟩)
  refine ⟨Reaches.mono fun a b hs => (hstep.1 hs).1, fun hr => ?_⟩
  induction hr with
  | single hs => exact (hstep.2 ⟨hs, hu, hv⟩).reaches
  | @tail y z hy hs ih =>
    -- the node before the end is reached and goes on, so that it is not removed
    have hyi : y ∉ ids := by
      intro hm
      obtain ⟨w, -, hw⟩ := Relation.TransGen.tail'_iff.1 hy
      rcases hdead y hm with hin | hout
      · exact hin w hw
      · exact hout z hs
    exact (ih hyi).trans (hstep.2 ⟨hs, hyi, hv⟩).reaches

end ObjectFlow.Graph
