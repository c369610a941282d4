import ObjectFlow.Annotated.Build
import ObjectFlow.Proofs.Annotated.Collapse
import ObjectFlow.Proofs.Annotated.Draft
import ObjectFlow.Proofs.Annotated.Reify
import ObjectFlow.Proofs.Graph.Thin

/-!
# An annotated graph shows what depends on what

Between two calls with notes the annotated graph has a path exactly where the flow graph has one
(`AnnotatedGraph.ofFlow_reaches_iff`). Trimming takes away only nodes that are dead ends and edges
that run beside others.

There are four stages, and for each a relation that tells what becomes of actions with notes and of
the paths between them: drafting (`DraftOf`), collapsing (`Keeps`), turning objects into entities
(`Refines`), and trimming (`Spares`). Each stage succeeds on what the one before leaves. The
equivalences of paths are then put one after the other.
-/

namespace ObjectFlow

open ObjectFlow.Graph

namespace Annotated

/-! ## Trimming

Trimming removes actions without a note at which nothing enters or nothing leaves, then entities
that are dead ends beside no action with a note, and then all but one of the edges between an action
without a note and each of its neighbours. No path between two actions with notes goes through a
dead end. -/

/-- The node is an action with a note. -/
def NotedAction (g : Graph Node Thread) (n : NodeId) : Prop :=
  ∃ a, g.node? n = some (.action a) ∧ a.note.isSome = true

/-- Actions with notes, and the paths between them, are as they were. -/
structure Spares (g g' : Graph Node Thread) : Prop where
  wellFormed : g'.WellFormed
  node?_eq : ∀ n a, g.node? n = some (.action a) → a.note.isSome = true →
    g'.node? n = some (.action a)
  reaches_iff : ∀ u v, NotedAction g u → NotedAction g v → (g'.Reaches u v ↔ g.Reaches u v)

/-- What is spared twice is spared. -/
theorem Spares.trans {g g' g'' : Graph Node Thread} (h : Spares g g') (h' : Spares g' g'') :
    Spares g g'' := by
  have hnoted : ∀ n, NotedAction g n → NotedAction g' n := by
    rintro n ⟨a, ha, hn⟩
    exact ⟨a, h.node?_eq n a ha hn, hn⟩
  refine ⟨h'.wellFormed, fun n a ha hn => h'.node?_eq n a (h.node?_eq n a ha hn) hn,
    fun u v hu hv => ?_⟩
  exact (h'.reaches_iff u v (hnoted u hu) (hnoted v hv)).trans (h.reaches_iff u v hu hv)

/-- Dead ends may be pruned, unless they are actions with notes. -/
theorem spares_prune {g : Graph Node Thread} (h : g.WellFormed) {doomed : NodeId → Node → Bool}
    (hkept : ∀ n a, a.note.isSome = true → doomed n (.action a) = false)
    (hdead : ∀ n x, doomed n x = true → g.inEdges n = [] ∨ g.outEdges n = []) :
    Spares g (prune g doomed) := by
  set ids := (g.nodes.filter fun n => doomed n.1 n.2).map Prod.fst with hids
  have hmem : ∀ n ∈ ids, ∃ x, g.node? n = some x ∧ doomed n x = true := by
    intro n hn
    obtain ⟨⟨n, x⟩, hx, rfl⟩ := List.mem_map.1 hn
    rw [List.mem_filter] at hx
    exact ⟨x, h.node?_eq_some_iff.2 hx.1, hx.2⟩
  have hnoted : ∀ n, NotedAction g n → n ∉ ids := by
    rintro n ⟨a, ha, hn⟩ hd
    obtain ⟨y, hy, hdoom⟩ := hmem n hd
    obtain rfl := Option.some.inj (ha.symm.trans hy)
    exact Bool.false_ne_true ((hkept n a hn).symm.trans hdoom)
  refine ⟨h.removeNodes ids, fun n a ha hn => ?_, fun u v hu hv => ?_⟩
  · exact (node?_removeNodes (hnoted n ⟨a, ha, hn⟩)).trans ha
  · refine reaches_removeNodes h (fun n hn => ?_) (hnoted u hu) (hnoted v hv)
    obtain ⟨x, -, hdoom⟩ := hmem n hn
    refine (hdead n x hdoom).imp (fun hin m hs => ?_) fun hout m hs => ?_
    · obtain ⟨e, he, -, ht⟩ := hs
      exact List.not_mem_nil (hin ▸ mem_inEdges.2 ⟨he, ht⟩)
    · obtain ⟨e, he, hs, -⟩ := hs
      exact List.not_mem_nil (hout ▸ mem_outEdges.2 ⟨he, hs⟩)

/-- Actions that take nothing or give nothing may be pruned. -/
theorem spares_idle {g : Graph Node Thread} (h : g.WellFormed) : Spares g (prune g (isIdle g)) := by
  refine spares_prune h (fun n a ha => ?_) fun n x hx => ?_
  · simp [isIdle, Node.isPlain, Node.isNoted, Node.note, ha]
  · rw [isIdle, Bool.and_eq_true, Bool.or_eq_true, List.isEmpty_iff, List.isEmpty_iff] at hx
    exact hx.2

/-- An entity that is pruned may have a note, but it is a dead end. -/
theorem spares_stray {g : Graph Node Thread} (h : g.WellFormed) :
    Spares g (prune g (isStray g)) := by
  refine spares_prune h (fun n a _ => rfl) fun n x hx => ?_
  rw [isStray, Bool.and_eq_true, Bool.or_eq_true, Bool.and_eq_true, Bool.and_eq_true,
    List.isEmpty_iff, List.isEmpty_iff] at hx
  exact hx.2.imp And.left And.left

/-- Edges beside others may be thinned out. -/
theorem spares_thinPlain {g : Graph Node Thread} (h : g.WellFormed) : Spares g (thinPlain g) := by
  have key : ∀ (ids : List NodeId) (g : Graph Node Thread), g.WellFormed →
      (ids.foldl (fun g id => (g.thin id).2) g).WellFormed ∧
      (ids.foldl (fun g id => (g.thin id).2) g).nodes = g.nodes ∧
      ∀ u v, (ids.foldl (fun g id => (g.thin id).2) g).Step u v ↔ g.Step u v := by
    intro ids
    induction ids with
    | nil => exact fun g h => ⟨h, rfl, fun _ _ => Iff.rfl⟩
    | cons id ids ih =>
      intro g h
      have hthin := thin_eq g id
      obtain ⟨hw, hnodes, hstep⟩ := ih (g.thin id).2 (hthin ▸ h.removeEdges _)
      refine ⟨hw, hnodes.trans ?_, fun u v => (hstep u v).trans (step_thin h)⟩
      rw [hthin]
      rfl
  obtain ⟨hw, hnodes, hstep⟩ := key (g.nodesWhere Node.isPlain) g h
  refine ⟨hw, fun n a ha _ => ?_, fun u v _ _ => reaches_congr hstep u v⟩
  rw [node?, thinPlain, hnodes]
  exact ha

/-- Trimming spares actions with notes and the paths between them. -/
theorem spares_trim {g : Graph Node Thread} (h : g.WellFormed) : Spares g (trim g) := by
  have hidle := spares_idle h
  have hstray := spares_stray hidle.wellFormed
  exact (hidle.trans hstray).trans (spares_thinPlain hstray.wellFormed)

end Annotated

/-! ## From the flow graph to the annotated graph

The intermediate results are kept in one record elsewhere; here only their graphs matter. -/

/-- If the stages succeed one after the other, the annotated graph is what the last one leaves. -/
theorem AnnotatedGraph.ofFlow_eq_ok {f : Flow} {d d' : Annotated.Draft}
    {r : Graph Annotated.Node Annotated.Thread} {s s₁ s₂ s₃ : Supply}
    (hdraft : Annotated.Draft.ofFlow f s = .ok (d, s₁))
    (hcollapse : d.collapse s₁ = .ok (d', s₂)) (hreify : d'.reify s₂ = .ok (r, s₃)) :
    AnnotatedGraph.ofFlow f s =
      .ok ((Annotated.trim r).mapData (fun _ n => n) (fun e => e.data.link), s₃) := by
  rw [AnnotatedGraph.ofFlow, hdraft]
  dsimp only [Outcome.ok_bind]
  rw [hcollapse, Outcome.ok_bind]
  dsimp only
  rw [hreify, Outcome.ok_bind]
  rfl

/-- A call with a note is an action with this note all along. -/
theorem Annotated.Draft.DraftOf.node?_of_noted {f : Flow} {d d' : Draft}
    {r : Graph Annotated.Node Annotated.Thread} (hd : d.DraftOf f) (hkeeps : d.Keeps d')
    (href : Refines d'.graph r) {n : NodeId} {c : Flow.Call}
    (hn : f.graph.node? n = some (.call c)) (hc : c.note.isSome = true) :
    isNotedNode d.graph n = true ∧ d'.graph.node? n = some (.action (.ofNote c.note)) ∧
      r.node? n = some (.action (.ofNote c.note)) := by
  have hdraft := hd.node?_of_call hn
  have hnoted : isNotedNode d.graph n = true := isNotedNode_iff.2 ⟨_, hdraft, hc⟩
  have hcollapsed := hkeeps.node?_eq n _ hdraft (isCollapsible_of_isNotedNode hnoted)
  exact ⟨hnoted, hcollapsed, href.action n _ hcollapsed⟩

/--
The annotated graph of a flat flow graph exists. It has the calls with notes as actions with these
notes, and one of them depends on another exactly if it does in the flow graph.
-/
theorem AnnotatedGraph.ofFlow_reaches_iff {f : Flow} (h : f.Flat) {s : Supply}
    (hb : f.graph.Before s) :
    ∃ g s', AnnotatedGraph.ofFlow f s = .ok (g, s') ∧
      (∀ n c, f.graph.node? n = some (.call c) → c.note.isSome = true →
        g.node? n = some (.action (.ofNote c.note))) ∧
      ∀ u v, Annotated.Draft.isNoted f u = true → Annotated.Draft.isNoted f v = true →
        (g.Reaches u v ↔ f.graph.Reaches u v) := by
  obtain ⟨d, s₁, hok₁, hd, hb₁⟩ := Annotated.Draft.ofFlow_spec h hb
  obtain ⟨d', s₂, hok₂, hw₂, ha₂, hb₂, hkeeps⟩ :=
    Annotated.Draft.collapse_spec hd.wellFormed (hd.acyclic h.acyclic) hb₁
  have hsourceless : d'.Sourceless := by
    rw [hkeeps.eq_with]
    exact hd.sourceless
  obtain ⟨r, s₃, hok₃, hr, href⟩ := Annotated.Draft.reify_spec hsourceless ⟨hw₂, hb₂, ha₂⟩
  have htrim := Annotated.spares_trim hr.wellFormed
  refine ⟨(Annotated.trim r).mapData (fun _ n => n) fun e => e.data.link, s₃,
    AnnotatedGraph.ofFlow_eq_ok hok₁ hok₂ hok₃, fun n c hn hc => ?_, fun u v hu hv => ?_⟩
  · obtain ⟨-, -, hreified⟩ := hd.node?_of_noted hkeeps href hn hc
    refine (Table.at?_map (fun _ x => x) (Annotated.trim r).nodes n).trans ?_
    exact congrArg (Option.map fun x => x) (htrim.node?_eq n _ hreified hc)
  · obtain ⟨c, hn, hc⟩ := Annotated.Draft.exists_call_of_isNoted hu
    obtain ⟨c', hn', hc'⟩ := Annotated.Draft.exists_call_of_isNoted hv
    obtain ⟨hnoted, hcollapsed, hreified⟩ := hd.node?_of_noted hkeeps href hn hc
    obtain ⟨hnoted', hcollapsed', hreified'⟩ := hd.node?_of_noted hkeeps href hn' hc'
    calc _ ↔ (Annotated.trim r).Reaches u v := reaches_congr (fun _ _ => step_mapData) u v
      _ ↔ r.Reaches u v := htrim.reaches_iff u v ⟨_, hreified, hc⟩ ⟨_, hreified', hc'⟩
      _ ↔ d'.graph.Reaches u v := href.reaches_iff u (mem_nodeIds_of_node? hcollapsed) v
          (mem_nodeIds_of_node? hcollapsed')
      _ ↔ d.graph.Reaches u v := hkeeps.reaches_iff u v hnoted hnoted'
      _ ↔ f.graph.Reaches u v :=
        hd.reaches_iff h ((h.call_iff u _ hn).1 rfl).1 ((h.call_iff v _ hn').1 rfl).2

/-- A call with a note, one without, and one with a note again, each fed by the one before. -/
def Flow.relay : Flow :=
  let call (note : Option NoteKey) : Flow.Node := .call ⟨"", "", [], none, note, none⟩
  let key : NoteKey := ⟨"", "", ""⟩
  let g : Graph Flow.Node Flow.Link := {}
  let g := (g.attachNode ⟨0⟩ .input).attachNode ⟨1⟩ .output
  let g := ((g.attachNode ⟨2⟩ (call key)).attachNode ⟨3⟩ (call none)).attachNode ⟨4⟩ (call key)
  ⟨g.withEdges [⟨⟨5⟩, ⟨2⟩, ⟨3⟩, {}⟩, ⟨⟨6⟩, ⟨3⟩, ⟨4⟩, {}⟩], ⟨0⟩, ⟨1⟩⟩

/-- The three calls are a flat graph. -/
theorem Flow.flat_relay : Flow.relay.Flat where
  wellFormed := by
    refine ((((((WellFormed.empty.attachNode _ ?_).attachNode _ ?_).attachNode _ ?_).attachNode _
      ?_).attachNode _ ?_).withEdges ?_ ?_ ?_ ?_)
    all_goals decide
  acyclic := acyclic_of_rank NodeId.value (by decide)
  markers_ne := by decide
  call_iff := by
    intro n x hx
    have hnodes : ∀ p ∈ Flow.relay.graph.nodes,
        (p.2.call?.isSome ↔ p.1 ≠ Flow.relay.input ∧ p.1 ≠ Flow.relay.output) := by decide
    exact hnodes _ (Table.mem_of_at? hx)
  body_none := by
    intro n c hc
    have hnodes : ∀ p ∈ Flow.relay.graph.nodes, p.2.call?.bind Flow.Call.body = none := by decide
    exact hnodes _ (Table.mem_of_at? hc)
  target_ne_input := by decide
  source_ne_output := by decide

/-- The last call depends on the first one, and not the other way. -/
theorem AnnotatedGraph.ofFlow_relay : ∃ g s', AnnotatedGraph.ofFlow Flow.relay ⟨7⟩ = .ok (g, s') ∧
    g.Reaches ⟨2⟩ ⟨4⟩ ∧ ¬ g.Reaches ⟨4⟩ ⟨2⟩ := by
  obtain ⟨g, s', hok, -, hreaches⟩ :=
    AnnotatedGraph.ofFlow_reaches_iff Flow.flat_relay (s := ⟨7⟩) ⟨by decide, by decide⟩
  have hr : Flow.relay.graph.Reaches ⟨2⟩ ⟨4⟩ :=
    Reaches.trans (linked_iff.1 (by decide : Flow.relay.graph.linked ⟨2⟩ ⟨3⟩ = true)).reaches
      (linked_iff.1 (by decide)).reaches
  refine ⟨g, s', hok, (hreaches _ _ rfl rfl).2 hr, fun h => ?_⟩
  exact Flow.flat_relay.acyclic _ (hr.trans ((hreaches _ _ rfl rfl).1 h))

end ObjectFlow
