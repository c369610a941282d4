import ObjectFlow.Flow.Basic
import ObjectFlow.Proofs.Graph.WellFormed

/-!
# Graphs between two markers

The nodes of a framed graph are its two markers and then its calls. What comes from outside leaves
the one marker, and what is left at the end enters the other. All that is done to a flow graph keeps
it framed.

The nodes are given as a list (`frame`), so the calls of a framed graph determine its nodes with
their order, and a change of the graph can be told as a change of the table of calls: a call is
attached behind the others, changed at its place, or removed.
-/

namespace ObjectFlow

namespace Flow

/-- The nodes of a graph with the given markers and calls. -/
def frame (input output : NodeId) (cs : Table NodeId Call) : Table NodeId Node :=
  (input, .input) :: (output, .output) :: cs.map fun c => (c.1, .call c.2)

/-- No edge enters the input marker, leaves the output marker, or leads from one to the other. -/
structure Framed (f : Flow) : Prop where
  wellFormed : f.graph.WellFormed
  nodes_eq : f.graph.nodes = frame f.input f.output f.calls
  target_ne_input : ∀ e ∈ f.graph.edges, e.target ≠ f.input
  source_ne_output : ∀ e ∈ f.graph.edges, e.source ≠ f.output
  not_across : ∀ e ∈ f.graph.edges, ¬ (e.source = f.input ∧ e.target = f.output)

/-! ## Markers and calls

The two markers differ from each other and from all calls, because no node occurs twice. -/

@[simp] theorem keys_frame (input output : NodeId) (cs : Table NodeId Call) :
    Table.keys (frame input output cs) = input :: output :: Table.keys cs := by
  simp [frame, Table.keys, Function.comp_def]

/-- The calls of a frame are those it was made with. -/
theorem calls_eq {f : Flow} {cs : Table NodeId Call}
    (h : f.graph.nodes = frame f.input f.output cs) : f.calls = cs := by
  unfold calls
  rw [h]
  simp [frame, Node.call?, List.filterMap_map]

/-- A call of the graph is a node that is a call. -/
theorem mem_calls {f : Flow} {n : NodeId} {c : Call} :
    (n, c) ∈ f.calls ↔ (n, .call c) ∈ f.graph.nodes := by
  rw [calls, List.mem_filterMap]
  constructor
  · rintro ⟨⟨m, d⟩, hm, hd⟩
    obtain ⟨c', hc', heq⟩ := Option.map_eq_some_iff.1 hd
    obtain ⟨rfl, rfl⟩ := Prod.mk.inj heq
    cases d with
    | call c =>
      obtain rfl := Option.some.inj hc'
      exact hm
    | input => cases hc'
    | output => cases hc'
  · exact fun hm => ⟨_, hm, rfl⟩

theorem keys_calls_sublist (f : Flow) : (Table.keys f.calls).Sublist f.graph.nodeIds := by
  rw [calls, Graph.nodeIds]
  induction f.graph.nodes with
  | nil => exact List.Sublist.slnil
  | cons n ns ih =>
    rw [List.filterMap_cons]
    cases n.2 with
    | call c => exact ih.cons_cons n.1
    | input => exact ih.cons n.1
    | output => exact ih.cons n.1

theorem mem_nodeIds_of_mem_calls {f : Flow} {c : NodeId × Call} (hc : c ∈ f.calls) :
    c.1 ∈ f.graph.nodeIds := f.keys_calls_sublist.subset (Table.mem_keys.2 ⟨c.2, hc⟩)

/-- The nodes are the markers and then the calls. -/
theorem Framed.nodeIds_eq {f : Flow} (h : f.Framed) :
    f.graph.nodeIds = f.input :: f.output :: Table.keys f.calls := by
  rw [Graph.nodeIds_eq_keys, h.nodes_eq, keys_frame]

theorem Framed.input_mem {f : Flow} (h : f.Framed) : f.input ∈ f.graph.nodeIds := by
  simp [h.nodeIds_eq]

theorem Framed.output_mem {f : Flow} (h : f.Framed) : f.output ∈ f.graph.nodeIds := by
  simp [h.nodeIds_eq]

/-- The markers and the calls are all distinct. -/
theorem Framed.nodup {f : Flow} (h : f.Framed) :
    (f.input :: f.output :: Table.keys f.calls).Nodup := h.nodeIds_eq ▸ h.wellFormed.nodes_nodup

theorem Framed.input_ne_output {f : Flow} (h : f.Framed) : f.input ≠ f.output := by
  rintro heq
  have := (List.nodup_cons.1 h.nodup).1
  simp [heq] at this

theorem Framed.calls_nodup {f : Flow} (h : f.Framed) : (Table.keys f.calls).Nodup :=
  (List.nodup_cons.1 (List.nodup_cons.1 h.nodup).2).2

theorem Framed.input_not_mem {f : Flow} (h : f.Framed) : f.input ∉ Table.keys f.calls := fun hm =>
  (List.nodup_cons.1 h.nodup).1 (List.mem_cons_of_mem _ hm)

theorem Framed.output_not_mem {f : Flow} (h : f.Framed) : f.output ∉ Table.keys f.calls :=
  (List.nodup_cons.1 (List.nodup_cons.1 h.nodup).2).1

/-- A node is a marker or a call. -/
theorem Framed.mem_nodeIds_iff {f : Flow} (h : f.Framed) {id : NodeId} :
    id ∈ f.graph.nodeIds ↔ id = f.input ∨ id = f.output ∨ id ∈ Table.keys f.calls := by
  rw [h.nodeIds_eq, List.mem_cons, List.mem_cons]

theorem Framed.mem_of_call {f : Flow} (h : f.Framed) {id : NodeId}
    (hid : id ∈ Table.keys f.calls) : id ∈ f.graph.nodeIds :=
  h.mem_nodeIds_iff.2 (.inr (.inr hid))

theorem Framed.node?_eq_call_iff {f : Flow} (h : f.Framed) {id : NodeId} {c : Call} :
    f.graph.node? id = some (.call c) ↔ (id, c) ∈ f.calls := by
  rw [h.wellFormed.node?_eq_some_iff, h.nodes_eq]
  constructor
  · intro hm
    simpa [frame] using hm
  · intro hm
    exact List.mem_cons_of_mem _ (List.mem_cons_of_mem _ (List.mem_map.2 ⟨(id, c), hm, rfl⟩))

/-- What stands at a node is a call just if the node is one of the calls. -/
theorem Framed.exists_call_iff {f : Flow} (h : f.Framed) {id : NodeId} :
    (∃ c, f.graph.node? id = some (.call c)) ↔ id ∈ Table.keys f.calls := by
  rw [Table.mem_keys]
  exact exists_congr fun c => h.node?_eq_call_iff

/-- An edge comes from outside or from a call. -/
theorem Framed.source_cases {f : Flow} (h : f.Framed) {e : Edge Link} (he : e ∈ f.graph.edges) :
    e.source = f.input ∨ e.source ∈ Table.keys f.calls := by
  rcases h.mem_nodeIds_iff.1 (h.wellFormed.source_mem e he) with hs | hs | hs
  · exact .inl hs
  · exact absurd hs (h.source_ne_output e he)
  · exact .inr hs

/-- An edge leads outside or to a call. -/
theorem Framed.target_cases {f : Flow} (h : f.Framed) {e : Edge Link} (he : e ∈ f.graph.edges) :
    e.target = f.output ∨ e.target ∈ Table.keys f.calls := by
  rcases h.mem_nodeIds_iff.1 (h.wellFormed.target_mem e he) with ht | ht | ht
  · exact absurd ht (h.target_ne_input e he)
  · exact .inl ht
  · exact .inr ht

/-- What is left at the end comes from a call. -/
theorem Framed.source_call {f : Flow} (h : f.Framed) {e : Edge Link} (he : e ∈ f.graph.edges)
    (ht : e.target = f.output) : e.source ∈ Table.keys f.calls :=
  (h.source_cases he).resolve_left fun hs => h.not_across e he ⟨hs, ht⟩

/-- What comes from outside leads to a call. -/
theorem Framed.target_call {f : Flow} (h : f.Framed) {e : Edge Link} (he : e ∈ f.graph.edges)
    (hs : e.source = f.input) : e.target ∈ Table.keys f.calls :=
  (h.target_cases he).resolve_left fun ht => h.not_across e he ⟨hs, ht⟩

/-! ## Changes that keep a graph framed

For each change there is a lemma on the calls and one on the frame. -/

theorem calls_attachNode (f : Flow) (id : NodeId) (c : Call) :
    ({ f with graph := f.graph.attachNode id (.call c) } : Flow).calls = f.calls ++ [(id, c)] := by
  simp [calls, Graph.attachNode, Node.call?]

@[simp] theorem calls_withEdges (f : Flow) (es : List (Edge Link)) :
    ({ f with graph := f.graph.withEdges es } : Flow).calls = f.calls := rfl

/-- A changed call stays in its place. -/
theorem Framed.nodes_adjustCall {f : Flow} (h : f.Framed) (id : NodeId) (g : Call → Call) :
    (f.adjustCall id g).graph.nodes = frame f.input f.output (Table.adjust g id f.calls) := by
  have hcs : ∀ cs : Table NodeId Call,
      Table.adjust (Node.mapCall g) id (cs.map fun c => (c.1, Node.call c.2)) =
        (Table.adjust g id cs).map fun c => (c.1, Node.call c.2) := by
    intro cs
    induction cs with
    | nil => rfl
    | cons c cs ih =>
      rw [List.map_cons, Table.adjust, Table.adjust, ih]
      split <;> rfl
  have hself : ∀ cs : Table NodeId Call, id ∉ Table.keys cs → Table.adjust g id cs = cs :=
    fun cs hid => Table.adjust_eq_self hid
  show Table.adjust (Node.mapCall g) id f.graph.nodes = _
  rw [h.nodes_eq, frame, Table.adjust]
  split
  · rename_i heq
    rw [hself _ (heq ▸ h.input_not_mem)]
    rfl
  · rw [Table.adjust]
    split
    · rename_i heq
      rw [hself _ (heq ▸ h.output_not_mem)]
      rfl
    · rw [hcs]
      rfl

theorem Framed.calls_adjustCall {f : Flow} (h : f.Framed) (id : NodeId) (g : Call → Call) :
    (f.adjustCall id g).calls = Table.adjust g id f.calls :=
  calls_eq (h.nodes_adjustCall id g)

/-- A call that is removed leaves the others in their order. -/
theorem Framed.nodes_removeNode {f : Flow} (h : f.Framed) {id : NodeId}
    (hid : id ∈ Table.keys f.calls) :
    (f.graph.removeNode id).nodes = frame f.input f.output (Table.without f.calls id) := by
  have hi : f.input ≠ id := fun heq => h.input_not_mem (heq ▸ hid)
  have ho : f.output ≠ id := fun heq => h.output_not_mem (heq ▸ hid)
  have hmem : id ∈ f.graph.nodeIds := h.mem_of_call hid
  rw [Graph.removeNode, if_pos (Graph.hasNode_iff.2 hmem)]
  show Table.without f.graph.nodes id = _
  rw [h.nodes_eq]
  simp [Table.without, frame, hi, ho, List.filter_map, Function.comp_def]

theorem Framed.calls_removeNode {f : Flow} (h : f.Framed) {id : NodeId}
    (hid : id ∈ Table.keys f.calls) :
    ({ f with graph := f.graph.removeNode id } : Flow).calls = Table.without f.calls id :=
  calls_eq (h.nodes_removeNode hid)

/-- A new call may be attached. -/
theorem Framed.attachNode {f : Flow} (h : f.Framed) {id : NodeId} (hid : id ∉ f.graph.nodeIds)
    (c : Call) : ({ f with graph := f.graph.attachNode id (.call c) } : Flow).Framed := by
  refine ⟨h.wellFormed.attachNode _ hid, ?_, h.target_ne_input, h.source_ne_output, h.not_across⟩
  rw [calls_attachNode]
  show f.graph.nodes ++ [(id, .call c)] = _
  rw [h.nodes_eq]
  simp [frame]

/-- New edges may be added from the input marker or a call, to a call or the output marker. -/
theorem Framed.withEdges {f : Flow} (h : f.Framed) {es : List (Edge Link)}
    (hd : (es.map Edge.id).Nodup) (hnew : ∀ e ∈ es, e.id ∉ f.graph.edges.map Edge.id)
    (hs : ∀ e ∈ es, e.source = f.input ∨ e.source ∈ Table.keys f.calls)
    (ht : ∀ e ∈ es, e.target = f.output ∨ e.target ∈ Table.keys f.calls)
    (hx : ∀ e ∈ es, ¬ (e.source = f.input ∧ e.target = f.output)) :
    ({ f with graph := f.graph.withEdges es } : Flow).Framed := by
  have hti : ∀ e ∈ es, e.target ≠ f.input := by
    intro e he heq
    rcases ht e he with ht | ht
    · exact h.input_ne_output (heq.symm.trans ht)
    · exact h.input_not_mem (heq ▸ ht)
  have hso : ∀ e ∈ es, e.source ≠ f.output := by
    intro e he heq
    rcases hs e he with hs | hs
    · exact h.input_ne_output (hs.symm.trans heq)
    · exact h.output_not_mem (heq ▸ hs)
  refine ⟨h.wellFormed.withEdges hd hnew (fun e he => ?_) (fun e he => ?_), h.nodes_eq,
    Graph.forall_mem_withEdges.2 ⟨h.target_ne_input, hti⟩,
    Graph.forall_mem_withEdges.2 ⟨h.source_ne_output, hso⟩,
    Graph.forall_mem_withEdges.2 ⟨h.not_across, hx⟩⟩
  · rcases hs e he with hs | hs
    · exact hs ▸ h.input_mem
    · exact h.mem_of_call hs
  · rcases ht e he with ht | ht
    · exact ht ▸ h.output_mem
    · exact h.mem_of_call ht

/-- Edges may be removed. -/
theorem Framed.filterEdges {f : Flow} (h : f.Framed) (p : Edge Link → Bool) :
    ({ f with graph := { f.graph with edges := f.graph.edges.filter p } } : Flow).Framed :=
  ⟨h.wellFormed.filterEdges p, h.nodes_eq,
    fun e he => h.target_ne_input e (List.mem_of_mem_filter he),
    fun e he => h.source_ne_output e (List.mem_of_mem_filter he),
    fun e he => h.not_across e (List.mem_of_mem_filter he)⟩

/-- Calls may change. -/
theorem Framed.adjustCall {f : Flow} (h : f.Framed) (id : NodeId) (g : Call → Call) :
    (f.adjustCall id g).Framed := by
  refine ⟨h.wellFormed.adjustNode id _, ?_, h.target_ne_input, h.source_ne_output, h.not_across⟩
  rw [h.calls_adjustCall]
  exact h.nodes_adjustCall id g

/-- Calls may be removed. -/
theorem Framed.removeNode {f : Flow} (h : f.Framed) {id : NodeId}
    (hid : id ∈ Table.keys f.calls) :
    ({ f with graph := f.graph.removeNode id } : Flow).Framed := by
  have hsub : ∀ e ∈ (f.graph.removeNode id).edges, e ∈ f.graph.edges := fun e he =>
    ((Graph.mem_edges_removeNode h.wellFormed).1 he).1
  refine ⟨h.wellFormed.removeNode id, ?_, fun e he => h.target_ne_input e (hsub e he),
    fun e he => h.source_ne_output e (hsub e he), fun e he => h.not_across e (hsub e he)⟩
  rw [h.calls_removeNode hid]
  exact h.nodes_removeNode hid

/-- A graph with two markers and nothing else is framed. -/
theorem framed_empty (s : Supply) : (Flow.empty s).1.Framed := by
  have hne : (⟨s.next + 1⟩ : NodeId) ∉
      (({} : Graph Node Link).attachNode ⟨s.next⟩ .input).nodeIds := by
    simp [Graph.attachNode, Graph.nodeIds]
  exact ⟨(Graph.WellFormed.empty.attachNode _ (by simp [Graph.nodeIds])).attachNode _ hne, rfl,
    by simp [Flow.empty], by simp [Flow.empty], by simp [Flow.empty]⟩

end Flow

end ObjectFlow
