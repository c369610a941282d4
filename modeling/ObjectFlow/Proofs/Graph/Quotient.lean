import ObjectFlow.Proofs.Graph.Reachability

/-!
# What a contraction leaves

Nodes and edges that have nothing to do with the members stand as they stood. Every edge across the
boundary of the members is there once, between the nodes that stand for its ends, and there are no
others (`contract_quotient`).

The order of the edges across the boundary follows the members and is left open: they are a
permutation of the redirected edges of the old graph (`boundary_perm`). That both lists have the
same members is `mem_boundary_iff_redirect`, and neither has a repetition, since edges keep their
identities.
-/

namespace ObjectFlow.Graph

variable {N E : Type} {g : Graph N E} {members : List NodeId} {hub : NodeId}

/-- The edge between the nodes that stand for its ends after a contraction. -/
def redirect (members : List NodeId) (hub : NodeId) (e : Edge E) : Edge E :=
  { e with source := image members hub e.source, target := image members hub e.target }

/-- An edge across the boundary is one with just one end among the members, redirected. -/
theorem mem_boundary_iff_redirect {e' : Edge E} :
    e' ∈ g.boundary members hub ↔
      ∃ e ∈ g.edges, ¬ (e.source ∈ members ↔ e.target ∈ members) ∧ redirect members hub e = e' := by
  rw [mem_boundary]
  constructor
  · rintro (⟨e, he, ht, hs, rfl⟩ | ⟨e, he, hs, ht, rfl⟩)
    · exact ⟨e, he, by simp [hs, ht], by rw [redirect, image_of_not_mem hs, image_of_mem ht]⟩
    · exact ⟨e, he, by simp [hs, ht], by rw [redirect, image_of_mem hs, image_of_not_mem ht]⟩
  · rintro ⟨e, he, hcross, rfl⟩
    by_cases hs : e.source ∈ members
    · have ht : e.target ∉ members := fun ht => hcross (iff_of_true hs ht)
      exact .inr ⟨e, he, hs, ht, by rw [redirect, image_of_mem hs, image_of_not_mem ht]⟩
    · have ht : e.target ∈ members := by
        by_contra ht
        exact hcross (iff_of_false hs ht)
      exact .inl ⟨e, he, ht, hs, by rw [redirect, image_of_not_mem hs, image_of_mem ht]⟩

/-- Just the edges with one end among the members are listed, each of them once. -/
theorem boundary_perm (h : g.WellFormed) (hd : members.Nodup) (hub : NodeId) :
    (g.boundary members hub).Perm
      ((g.edges.filter fun e => ¬ (e.source ∈ members ↔ e.target ∈ members)).map
        (redirect members hub)) := by
  have hright : ((g.edges.filter fun e => ¬ (e.source ∈ members ↔ e.target ∈ members)).map
      (redirect members hub)).Nodup := by
    refine List.Nodup.of_map Edge.id ?_
    rw [List.map_map]
    exact h.edges_nodup.sublist (List.filter_sublist.map Edge.id)
  refine (List.perm_ext_iff_of_nodup (List.Nodup.of_map _ (nodup_boundary h hd hub)) hright).2
    fun e' => ?_
  rw [mem_boundary_iff_redirect]
  simp only [List.mem_map, List.mem_filter, decide_eq_true_eq, and_assoc]

/--
Contracting distinct nodes of a graph to a new one does not fail. The other nodes and the edges
between them stay in their order; every edge with one end among the members is attached to the new
node by that end, and edges with both go. Between other nodes there is a path afterwards just if
there was one before, or one to some member and one from some member.
-/
theorem contract_quotient (h : g.WellFormed) (hc : g.Contractible members hub) (x : N) :
    ∃ g' crossing, g.contract members hub x = .ok g' ∧
      g'.nodes = (g.nodes.filter fun n => n.1 ∉ members) ++ [(hub, x)] ∧
      g'.metadata = g.metadata ∧
      g'.edges = (g.edges.filter fun e => e.source ∉ members ∧ e.target ∉ members) ++ crossing ∧
      crossing.Perm
        ((g.edges.filter fun e => ¬ (e.source ∈ members ↔ e.target ∈ members)).map
          (redirect members hub)) ∧
      ∀ u ∈ g.nodeIds, ∀ v ∈ g.nodeIds, u ∉ members → v ∉ members →
        (g'.Reaches u v ↔ g.Reaches u v ∨
          ∃ m ∈ members, ∃ m' ∈ members, g.Reaches u m ∧ g.Reaches m' v) := by
  have hne : ∀ n ∈ g.nodeIds, n ≠ hub := fun n hn heq => hc.hub_new (heq ▸ hn)
  refine ⟨g.contracted members hub x, g.boundary members hub, contract_eq_ok h hc x, ?_, ?_, ?_,
    boundary_perm h hc.nodup hub, fun u hu v hv hum hvm =>
      reaches_contracted h hc x hum (hne u hu) hvm (hne v hv)⟩
  · rw [contracted, nodes_withEdges, nodes_removeNodes, attachNode, List.filter_append]
    exact congrArg _ (List.filter_cons_of_pos (decide_eq_true hc.hub_not_mem))
  · exact metadata_removeNodes _ members
  · rw [contracted, edges_withEdges, edges_removeNodes (h.attachNode x hc.hub_new),
      edges_attachNode]

/-- Two edges from the first node to the second, one from the third to the fourth, and one loop. -/
def History.parted : History Unit Unit :=
  (((((((History.start.next (.addNode ⟨1⟩ ())).next (.addNode ⟨2⟩ ())).next
    (.addNode ⟨3⟩ ())).next (.addNode ⟨4⟩ ())).next (.addEdge ⟨⟨5⟩, ⟨1⟩, ⟨2⟩, ()⟩)).next
    (.addEdge ⟨⟨6⟩, ⟨1⟩, ⟨2⟩, ()⟩)).next (.addEdge ⟨⟨7⟩, ⟨3⟩, ⟨4⟩, ()⟩)).next
    (.addEdge ⟨⟨8⟩, ⟨2⟩, ⟨2⟩, ()⟩)

/-- A path that enters one member and leaves the other was none before. -/
theorem contract_quotient_parted :
    History.parted.plain.WellFormed ∧ History.parted.plain.Contractible [⟨2⟩, ⟨3⟩] ⟨9⟩ ∧
      ∃ g', History.parted.plain.contract [⟨2⟩, ⟨3⟩] ⟨9⟩ () = .ok g' ∧
        g'.nodeIds = [⟨1⟩, ⟨4⟩, ⟨9⟩] ∧ g'.edges.length = 3 ∧ g'.Reaches ⟨1⟩ ⟨4⟩ := by
  have hw : History.parted.plain.WellFormed :=
    History.wellFormed (by simp [History.parted, History.Fresh, Command.Fresh])
  have hc : History.parted.plain.Contractible [⟨2⟩, ⟨3⟩] ⟨9⟩ :=
    ⟨by decide, by decide, by decide⟩
  obtain ⟨g', crossing, hok, hnodes, -, hedges, hperm, hreach⟩ := contract_quotient hw hc ()
  refine ⟨hw, hc, g', hok, ?_, ?_, ?_⟩
  · rw [nodeIds, hnodes]
    decide
  · rw [hedges, List.length_append, hperm.length_eq]
    decide
  · refine (hreach ⟨1⟩ (by decide) ⟨4⟩ (by decide) (by decide) (by decide)).2 (.inr ?_)
    exact ⟨⟨2⟩, by decide, ⟨3⟩, by decide, Step.reaches (linked_iff.1 (by decide)),
      Step.reaches (linked_iff.1 (by decide))⟩

end ObjectFlow.Graph
