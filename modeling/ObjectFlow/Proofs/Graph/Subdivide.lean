import ObjectFlow.Proofs.Graph.Reachability

/-!
# What an insertion leaves

A node that is put in front of another one, or behind it, divides the selected edges there. That the
one is the other in the graph with all edges turned round (`insertBefore_of_reversed`) leaves one of
them to be looked at. Nothing but the selected edges changes, of these only the near end, and
between the old nodes the same paths lead (`insert_subdivides`).

`Subdivides` is what both insertions have in common: which node and which link are new, which edges
were moved and how. It is shown for an insertion behind a node from the lemmas of `Graph.Rewire`,
and carried over to one in front by turning the graph round twice (`Subdivides.reversed`). A loop at
the node is moved by both of them, by its start or by its end.
-/

namespace ObjectFlow

/-- The same edge in the other direction. -/
def Edge.reversed {E : Type} (e : Edge E) : Edge E :=
  { e with source := e.target, target := e.source }

@[simp] theorem Edge.reversed_reversed {E : Type} (e : Edge E) : e.reversed.reversed = e := rfl

namespace Graph

variable {N E : Type} {g g' : Graph N E}

/-! ## Edges turned round

Turning all edges round changes no identity, swaps what goes out with what comes in, and turns every
path round. -/

/-- The same nodes with every edge turned round. -/
def reversed (g : Graph N E) : Graph N E := { g with edges := g.edges.map Edge.reversed }

@[simp] theorem reversed_reversed (g : Graph N E) : g.reversed.reversed = g := by
  simp [reversed, Function.comp_def]

@[simp] theorem nodeIds_reversed (g : Graph N E) : g.reversed.nodeIds = g.nodeIds := rfl

@[simp] theorem ids_reversed (g : Graph N E) :
    g.reversed.edges.map Edge.id = g.edges.map Edge.id :=
  List.map_map.trans rfl

theorem mem_edges_reversed {e : Edge E} : e ∈ g.reversed.edges ↔ e.reversed ∈ g.edges := by
  constructor
  · intro he
    obtain ⟨e₀, he₀, rfl⟩ := List.mem_map.1 he
    exact he₀
  · exact fun he => List.mem_map.2 ⟨e.reversed, he, rfl⟩

theorem WellFormed.reversed (h : g.WellFormed) : g.reversed.WellFormed :=
  ⟨h.nodes_nodup, g.ids_reversed.symm ▸ h.edges_nodup,
    fun _ he => h.target_mem _ (mem_edges_reversed.1 he),
    fun _ he => h.source_mem _ (mem_edges_reversed.1 he), h.seating_fits⟩

theorem outEdges_reversed (g : Graph N E) (id : NodeId) :
    g.reversed.outEdges id = (g.inEdges id).map Edge.reversed :=
  List.filter_map

theorem step_reversed {u v : NodeId} : g.reversed.Step u v ↔ g.Step v u := by
  constructor
  · rintro ⟨e, he, rfl, rfl⟩
    exact ⟨e.reversed, mem_edges_reversed.1 he, rfl, rfl⟩
  · rintro ⟨e, he, rfl, rfl⟩
    exact ⟨e.reversed, mem_edges_reversed.2 he, rfl, rfl⟩

/-- A path leads back in the graph turned round. -/
theorem reaches_reversed {u v : NodeId} : g.reversed.Reaches u v ↔ g.Reaches v u := by
  have hstep : g.reversed.Step = Function.swap g.Step := by
    funext u v
    exact propext step_reversed
  rw [Reaches, hstep, Relation.transGen_swap, Reaches]

theorem acyclic_reversed : g.reversed.Acyclic ↔ g.Acyclic :=
  forall_congr' fun _ => not_congr reaches_reversed

/-! ## Changes in the graph turned round

 -/

theorem removeEdge_reversed (g : Graph N E) (id : EdgeId) :
    g.reversed.removeEdge id = (g.removeEdge id).reversed :=
  congrArg (fun es => (⟨g.nodes, es, g.metadata, g.seating⟩ : Graph N E)) List.filter_map

/-- Only which error is reported can differ, where both ends are missing. -/
theorem addEdge_reversed {e : Edge E} (h : g.addEdge e = .ok g') :
    g.reversed.addEdge e.reversed = .ok g'.reversed := by
  obtain ⟨hnew, hs, ht, rfl⟩ := addEdge_eq_ok_iff.1 h
  rw [addEdge_eq_ok (by rwa [ids_reversed]) ht hs, withEdges, withEdges, reversed, reversed,
    List.map_append]
  rfl

/-- Edges are moved to the ends that are swapped. -/
theorem moveEdges_reversed {es : List (Edge E)} (h : g.moveEdges es = .ok g') :
    g.reversed.moveEdges (es.map Edge.reversed) = .ok g'.reversed := by
  induction es generalizing g with
  | nil =>
    cases h
    rfl
  | cons e es ih =>
    rw [moveEdges, List.foldlM_cons] at h
    obtain ⟨g₁, h₁, h₂⟩ := Outcome.bind_eq_ok_iff.1 h
    have hstep : (g.reversed.removeEdge e.id).addEdge e.reversed = .ok g₁.reversed := by
      rw [removeEdge_reversed]
      exact addEdge_reversed h₁
    rw [List.map_cons, moveEdges, List.foldlM_cons]
    exact (congrArg (· >>= _) hstep).trans (ih h₂)

/-- In front of a node is behind it in the graph turned round. -/
theorem insertBefore_of_reversed {id hub : NodeId} {x : N} {link : EdgeId × E}
    {select : Edge E → Bool}
    (h : g.reversed.insertAfter id hub x link (fun e => select e.reversed) = .ok g') :
    g.insertBefore id hub x link select = .ok g'.reversed := by
  have hmoved : ((((g.reversed.outEdges id).filter fun e => select e.reversed).map
      fun e => { e with source := hub }).map Edge.reversed) =
      ((g.inEdges id).filter select).map fun e => { e with target := hub } := by
    rw [outEdges_reversed, List.filter_map, List.map_map, List.map_map]
    rfl
  unfold insertAfter at h
  split at h
  · cases h
  · rename_i hid
    obtain ⟨g₁, h₁, h⟩ := Outcome.bind_eq_ok_iff.1 h
    obtain ⟨g₂, h₂, h₃⟩ := Outcome.bind_eq_ok_iff.1 h
    obtain ⟨hhub, rfl⟩ := addNode_eq_ok_iff.1 h₁
    have hmove := moveEdges_reversed h₂
    rw [hmoved] at hmove
    have hback : (g.reversed.attachNode hub x).reversed = g.attachNode hub x :=
      congrArg (fun g : Graph N E => g.attachNode hub x) g.reversed_reversed
    rw [hback] at hmove
    have hadd : g.addNode hub x = .ok (g.attachNode hub x) := addNode_eq_ok x hhub
    rw [insertBefore, if_neg (show ¬ (!g.hasNode id) = true from hid), hadd]
    rw [Outcome.ok_bind, hmove, Outcome.ok_bind]
    exact addEdge_reversed h₃

/-! ## What changes and what stays

 -/

/--
One graph comes from another by a new node, to which some of the edges are moved, and by a link:
nothing else changes, and no paths between the old nodes come or go.
-/
structure Subdivides (g g' : Graph N E) (hub : NodeId) (x : N) (moved : Edge E → Bool)
    (move : Edge E → Edge E) (link : Edge E) : Prop where
  wellFormed : g'.WellFormed
  nodes : g'.nodes = g.nodes ++ [(hub, x)]
  metadata : g'.metadata = g.metadata
  edges : g'.edges = (g.edges.filter fun e => !moved e) ++ (g.edges.filter moved).map move ++ [link]
  reaches : ∀ u ∈ g.nodeIds, ∀ v ∈ g.nodeIds, (g'.Reaches u v ↔ g.Reaches u v)
  acyclic : g'.Acyclic ↔ g.Acyclic

variable {id hub : NodeId} {x : N} {link : EdgeId × E} {select : Edge E → Bool}

/-- The edges by what became of them, in the order in which they stand. -/
theorem edges_insertedAfter (h : g.WellFormed) :
    (g.insertedAfter id hub x link select).edges =
      (g.edges.filter fun e => !(decide (e.source = id) && select e)) ++
        (g.edges.filter fun e => decide (e.source = id) && select e).map
          (fun e => { e with source := hub }) ++ [⟨link.1, id, hub, link.2⟩] := by
  have hsel : (g.outEdges id).filter select =
      g.edges.filter fun e => decide (e.source = id) && select e := by
    rw [outEdges, List.filter_filter]
    exact List.filter_congr fun e _ => Bool.and_comm _ _
  rw [insertedAfter, hsel]
  refine congrArg (· ++ [_]) (congrArg (· ++ _) (List.filter_congr fun e he => ?_))
  have hmem : e.id ∈ (g.edges.filter fun e => decide (e.source = id) && select e).map Edge.id ↔
      (decide (e.source = id) && select e) = true := by
    rw [h.id_mem_iff List.filter_sublist.subset he, List.mem_filter]
    exact and_iff_right he
  rw [List.map_map]
  by_cases hm : (decide (e.source = id) && select e) = true
  · rw [hm]
    exact decide_eq_false fun hn => hn (hmem.2 hm)
  · rw [Bool.eq_false_iff.2 hm]
    exact decide_eq_true fun hn => hm (hmem.1 hn)

/-- A cycle of old nodes stays, and there is no other. -/
theorem acyclic_insertedAfter (h : g.WellFormed) (hid : id ∈ g.nodeIds) (hhub : hub ∉ g.nodeIds)
    (hlink : link.1 ∉ g.edges.map Edge.id) :
    (g.insertedAfter id hub x link select).Acyclic ↔ g.Acyclic := by
  refine ⟨fun ha u hr => ?_, fun ha => ha.insertedAfter h hid hhub hlink⟩
  have hu := (h.reaches_mem hr).1
  exact ha u ((reaches_insertedAfter h hhub hu hu).2 hr)

/-- An insertion behind a node subdivides. -/
theorem subdivides_insertedAfter (h : g.WellFormed) (hid : id ∈ g.nodeIds) (hhub : hub ∉ g.nodeIds)
    (x : N) (hlink : link.1 ∉ g.edges.map Edge.id) (select : Edge E → Bool) :
    g.Subdivides (g.insertedAfter id hub x link select) hub x
      (fun e => decide (e.source = id) && select e) (fun e => { e with source := hub })
      ⟨link.1, id, hub, link.2⟩ where
  wellFormed := h.insertedAfter hid hhub hlink
  nodes := rfl
  metadata := rfl
  edges := edges_insertedAfter h
  reaches _ hu _ hv := reaches_insertedAfter h hhub hu hv
  acyclic := acyclic_insertedAfter h hid hhub hlink

/-- What subdivides the graph turned round subdivides the graph, when it is turned round itself. -/
theorem Subdivides.reversed {moved : Edge E → Bool} {move : Edge E → Edge E} {link : Edge E}
    (hs : g.reversed.Subdivides g' hub x moved move link) :
    g.Subdivides g'.reversed hub x (fun e => moved e.reversed)
      (fun e => (move e.reversed).reversed) link.reversed where
  wellFormed := hs.wellFormed.reversed
  nodes := hs.nodes
  metadata := hs.metadata
  edges := by
    rw [Graph.reversed, hs.edges, Graph.reversed, List.map_append, List.map_append, List.filter_map,
      List.filter_map, List.map_map, List.map_map, List.map_map]
    exact congrArg (· ++ _) (congrArg (· ++ _) (List.map_id _))
  reaches u hu v hv := by
    rw [reaches_reversed, hs.reaches v hv u hu, reaches_reversed]
  acyclic := by
    rw [acyclic_reversed, hs.acyclic, acyclic_reversed]

/--
Putting a new node in front of a node of a graph, or behind it, does not fail. The selected edges
there keep their identity, their data and their far end, and end or start at the new node; one edge
more links the two; all else stays. The same paths lead between the old nodes, also from a node to
itself, and the graph has a cycle just if it had one.
-/
theorem insert_subdivides (h : g.WellFormed) (hid : id ∈ g.nodeIds) (hhub : hub ∉ g.nodeIds) (x : N)
    (hlink : link.1 ∉ g.edges.map Edge.id) (select : Edge E → Bool) :
    (∃ g', g.insertBefore id hub x link select = .ok g' ∧
      g.Subdivides g' hub x (fun e => decide (e.target = id) && select e)
        (fun e => { e with target := hub }) ⟨link.1, hub, id, link.2⟩) ∧
    ∃ g', g.insertAfter id hub x link select = .ok g' ∧
      g.Subdivides g' hub x (fun e => decide (e.source = id) && select e)
        (fun e => { e with source := hub }) ⟨link.1, id, hub, link.2⟩ := by
  -- One side is proved outright, and the other is that side in the graph turned round.
  have hlink' : link.1 ∉ g.reversed.edges.map Edge.id := by rwa [ids_reversed]
  refine ⟨⟨_, insertBefore_of_reversed (insertAfter_eq_ok h.reversed hid hhub hlink'), ?_⟩,
    _, insertAfter_eq_ok h hid hhub hlink, subdivides_insertedAfter h hid hhub x hlink select⟩
  exact (subdivides_insertedAfter h.reversed hid hhub x hlink' _).reversed

/-- Two edges from the first node to the second, and a loop of the second. -/
def History.knotted : History Unit Bool :=
  ((((History.start.next (.addNode ⟨1⟩ ())).next (.addNode ⟨2⟩ ())).next
    (.addEdge ⟨⟨3⟩, ⟨1⟩, ⟨2⟩, true⟩)).next (.addEdge ⟨⟨4⟩, ⟨1⟩, ⟨2⟩, false⟩)).next
    (.addEdge ⟨⟨5⟩, ⟨2⟩, ⟨2⟩, true⟩)

/-- A loop comes to lead through the new node, on whichever side of its own that stands. -/
theorem insert_subdivides_knotted :
    History.knotted.plain.WellFormed ∧
      (∃ g', History.knotted.plain.insertBefore ⟨2⟩ ⟨8⟩ () (⟨9⟩, false) Edge.data = .ok g' ∧
        g'.edges = [⟨⟨4⟩, ⟨1⟩, ⟨2⟩, false⟩, ⟨⟨3⟩, ⟨1⟩, ⟨8⟩, true⟩, ⟨⟨5⟩, ⟨2⟩, ⟨8⟩, true⟩,
          ⟨⟨9⟩, ⟨8⟩, ⟨2⟩, false⟩] ∧ g'.Reaches ⟨2⟩ ⟨2⟩) ∧
      ∃ g', History.knotted.plain.insertAfter ⟨2⟩ ⟨8⟩ () (⟨9⟩, false) Edge.data = .ok g' ∧
        g'.edges = [⟨⟨3⟩, ⟨1⟩, ⟨2⟩, true⟩, ⟨⟨4⟩, ⟨1⟩, ⟨2⟩, false⟩, ⟨⟨5⟩, ⟨8⟩, ⟨2⟩, true⟩,
          ⟨⟨9⟩, ⟨2⟩, ⟨8⟩, false⟩] ∧ ¬ g'.Acyclic := by
  have hw : History.knotted.plain.WellFormed :=
    History.wellFormed (by simp [History.knotted, History.Fresh, Command.Fresh])
  have hloop : History.knotted.plain.Reaches ⟨2⟩ ⟨2⟩ := Step.reaches (linked_iff.1 (by decide))
  have hid : ⟨2⟩ ∈ History.knotted.plain.nodeIds := by decide
  have hhub : ⟨8⟩ ∉ History.knotted.plain.nodeIds := by decide
  have hlink : ((⟨9⟩, false) : EdgeId × Bool).1 ∉ History.knotted.plain.edges.map Edge.id := by
    decide
  obtain ⟨⟨g₁, hok₁, hs₁⟩, g₂, hok₂, hs₂⟩ := insert_subdivides hw hid hhub () hlink Edge.data
  refine ⟨hw, ⟨g₁, hok₁, ?_, ?_⟩, g₂, hok₂, ?_, ?_⟩
  · rw [hs₁.edges]
    decide
  · exact (hs₁.reaches _ (by decide) _ (by decide)).2 hloop
  · rw [hs₂.edges]
    decide
  · exact fun ha => hs₂.acyclic.1 ha _ hloop

end Graph

end ObjectFlow
