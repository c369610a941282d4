import ObjectFlow.Proofs.Annotated.Build
import ObjectFlow.Proofs.Annotated.Course

/-!
# The shape of annotated graphs

Actions and entities alternate, an entity comes from one action at most, and nothing hangs in the
air (`AnnotatedGraph.ofFlow_shaped`).

That nodes alternate, and that an entity has one producer, is so as soon as all objects are
entities, and trimming adds no edge. The rest is about dead ends. An action without a note is spared
if it has neighbours in the collapsed draft on both sides, and then some entity beside it is spared
as well, because one of its neighbours is grounded (`exists_step_into`, `exists_step_from`).
-/

namespace ObjectFlow

open ObjectFlow.Graph ObjectFlow.Annotated

namespace Annotated.Course

variable {f : Flow} {s : Supply} (c : Course f s)

/-- What is left of the actions without a note can be collapsed, but not with each other. -/
theorem isCollapsible_of_plain {x : NodeId} (hx : x ∈ c.collapsed.graph.nodeIds)
    (hplain : Draft.isNotedNode c.collapsed.graph x = false) (ht : x ∈ (trim c.reified).nodeIds) :
    c.collapsed.isCollapsible x = true :=
  c.collapses.shaped.isCollapsible hx hplain (fun heq => c.not_mem_of_marker (.inl heq) ht)
    fun heq => c.not_mem_of_marker (.inr heq) ht

/-- Some entity in front of an action without a note is left. -/
theorem exists_step_into {x : NodeId} (hx : x ∈ c.collapsed.graph.nodeIds)
    (hplain : Draft.isNotedNode c.collapsed.graph x = false)
    (ht : x ∈ (trim c.reified).nodeIds) : ∃ n, (trim c.reified).Step n x := by
  have hs := c.collapses.shaped
  have hsound := c.collapses.sound
  have hmem := fun {n} => c.reifies.mem_trimmed_action hs c.trimmed (x := n)
  obtain ⟨⟨u, hu⟩, -⟩ := ((hmem hx).1 ht).resolve_left (by simp [hplain])
  obtain ⟨w, hw, hground⟩ := Draft.exists_grounded_before hsound.wellFormed hsound.acyclic hs
    c.collapses.settled (c.isCollapsible_of_plain hx hplain ht) hu
  obtain ⟨o, hc⟩ := Draft.step_iff_carries.1 hw
  obtain ⟨n, hn, hwn, hnx⟩ := c.reifies.exists_between hc
  have hspared : n ∈ (trim c.reified).nodeIds := by
    refine (c.reifies.mem_trimmed_entity hs c.trimmed hn).2 ⟨?_, .inl ⟨x, ht, hnx⟩⟩
    rcases hground with hnote | hpred | rfl
    · exact .inl ⟨w, (hmem (hsound.wellFormed.step_mem hw).1).2 (.inl hnote), hwn⟩
    · exact .inl ⟨w, (hmem (hsound.wellFormed.step_mem hw).1).2 (.inr ⟨hpred, x, hw⟩), hwn⟩
    · -- what comes from outside is taken by an action with a note
      obtain ⟨v, hv, hcv⟩ := hs.taken x o hc
      exact .inr ⟨v, c.reifies.step_iff.2 (.inr (.inl ⟨o, _, hn, hcv⟩)), hv⟩
  exact ⟨n, (c.trimmed.step_iff n x).2 ⟨hnx, hspared, ht⟩⟩

/-- Some entity behind an action without a note is left. -/
theorem exists_step_from {x : NodeId} (hx : x ∈ c.collapsed.graph.nodeIds)
    (hplain : Draft.isNotedNode c.collapsed.graph x = false)
    (ht : x ∈ (trim c.reified).nodeIds) : ∃ n, (trim c.reified).Step x n := by
  have hs := c.collapses.shaped
  have hsound := c.collapses.sound
  have hmem := fun {n} => c.reifies.mem_trimmed_action hs c.trimmed (x := n)
  obtain ⟨-, v, hv⟩ := ((hmem hx).1 ht).resolve_left (by simp [hplain])
  obtain ⟨w, hw, hground⟩ := Draft.exists_grounded_behind hsound.wellFormed hsound.acyclic hs
    c.collapses.settled (c.isCollapsible_of_plain hx hplain ht) hv
  obtain ⟨o, hc⟩ := Draft.step_iff_carries.1 hw
  obtain ⟨n, hn, hxn, hnw⟩ := c.reifies.exists_between hc
  have hwt : w ∈ (trim c.reified).nodeIds := (hmem (hsound.wellFormed.step_mem hw).2).2
    (hground.imp_right fun hsucc => ⟨⟨x, hw⟩, hsucc⟩)
  have hspared : n ∈ (trim c.reified).nodeIds :=
    (c.reifies.mem_trimmed_entity hs c.trimmed hn).2 ⟨.inl ⟨x, ht, hxn⟩, .inl ⟨w, hwt, hnw⟩⟩
  exact ⟨n, (c.trimmed.step_iff x n).2 ⟨hxn, ht, hspared⟩⟩

/-! ## The trimmed graph

What is known of the graph with entities, for those nodes that are left. -/

/-- What is left of a node is what it was. -/
theorem node?_reified {n : NodeId} {x : Annotated.Node} (h : (trim c.reified).node? n = some x) :
    c.reified.node? n = some x :=
  ((c.trimmed.node?_iff _ _).1 h).1

/-- What is left of the edges was there. -/
theorem step_reified {u v : NodeId} (h : (trim c.reified).Step u v) : c.reified.Step u v :=
  ((c.trimmed.step_iff _ _).1 h).1

/-- Trimming makes no cycle. -/
theorem acyclic_trim : (trim c.reified).Acyclic := fun u hu =>
  c.reifies.sound.acyclic u (hu.mono fun _ _ => c.step_reified)

/-- What is left of the nodes of the draft are actions, with the notes that they had there. -/
theorem exists_action {n : NodeId} (hn : n ∈ (trim c.reified).nodeIds)
    (hd : n ∈ c.collapsed.graph.nodeIds) : ∃ a, (trim c.reified).node? n = some (.action a) ∧
      Draft.isNotedNode c.collapsed.graph n = a.note.isSome := by
  obtain ⟨x, hx⟩ := exists_node?_of_mem hn
  rcases c.reifies.node_cases c.collapses.shaped (c.node?_reified hx) with
    ⟨-, hdx, a, rfl⟩ | ⟨hno, -⟩
  · exact ⟨a, hx, by rw [Draft.isNotedNode, hdx]; rfl⟩
  · exact absurd hd hno

/-- What is left of the nodes of the ledger are entities. -/
theorem exists_entity {y : Draft.Entry} (hy : y ∈ c.ledger)
    (hm : y.entity ∈ (trim c.reified).nodeIds) :
    ∃ x, (trim c.reified).node? y.entity = some (.entity x) := by
  obtain ⟨x, hx⟩ := exists_node?_of_mem hm
  obtain ⟨e, he, -⟩ := c.reifies.named y hy
  cases he.symm.trans (c.node?_reified hx)
  exact ⟨e, hx⟩

/-- An entity that is left is in the ledger. -/
theorem mem_ledger_of_entity {n : NodeId} {x : Annotated.Entity}
    (hx : (trim c.reified).node? n = some (.entity x)) : ∃ y ∈ c.ledger, y.entity = n := by
  rcases c.reifies.node_cases c.collapses.shaped (c.node?_reified hx) with
    ⟨-, -, a, hno⟩ | ⟨-, -, y, -, hy, rfl, -⟩
  · cases hno
  · exact ⟨y, hy, rfl⟩

/-- An action without a note was one in the draft already. -/
theorem plain_of_action {n : NodeId} {a : Annotated.Action}
    (ha : (trim c.reified).node? n = some (.action a)) (hnote : a.note = none) :
    n ∈ c.collapsed.graph.nodeIds ∧ Draft.isNotedNode c.collapsed.graph n = false ∧
      IsPlainNode (trim c.reified) n := by
  rcases c.reifies.node_cases c.collapses.shaped (c.node?_reified ha) with
    ⟨hd, hda, -⟩ | ⟨-, e, y, hno, -⟩
  · refine ⟨hd, ?_, _, ha, ?_⟩
    · rw [Draft.isNotedNode, hda]
      simp [Node.isNoted, Node.note, hnote]
    · simp [Node.isPlain, Node.isNoted, Node.note, Node.isAction, hnote]
  · cases hno

/-- Actions and entities alternate. -/
theorem alternates {u v : NodeId} (h : (trim c.reified).Step u v) :
    (∃ a x, (trim c.reified).node? u = some (.action a) ∧
      (trim c.reified).node? v = some (.entity x)) ∨
    ∃ x a, (trim c.reified).node? u = some (.entity x) ∧
      (trim c.reified).node? v = some (.action a) := by
  obtain ⟨hst, hu, hv⟩ := (c.trimmed.step_iff _ _).1 h
  rcases c.reifies.step_cases hst with ⟨hd, o, hy⟩ | ⟨hd, y, hy, rfl⟩
  · obtain ⟨a, ha, -⟩ := c.exists_action hu hd
    obtain ⟨x, hx⟩ := c.exists_entity hy hv
    exact .inl ⟨a, x, ha, hx⟩
  · obtain ⟨a, ha, -⟩ := c.exists_action hv hd
    obtain ⟨x, hx⟩ := c.exists_entity hy hu
    exact .inr ⟨x, a, hx, ha⟩

/-- An entity comes from one action at most. -/
theorem eq_of_step_entity {n : NodeId} {x : Annotated.Entity}
    (hx : (trim c.reified).node? n = some (.entity x)) {u u' : NodeId}
    (hu : (trim c.reified).Step u n) (hu' : (trim c.reified).Step u' n) : u = u' := by
  obtain ⟨y, hy, rfl⟩ := c.mem_ledger_of_entity hx
  rw [← (c.reifies.producer hy (c.step_reified hu)).2,
    (c.reifies.producer hy (c.step_reified hu')).2]

/-- An entity lies beside an action with a note, or between two nodes. -/
theorem entity_spared {n : NodeId} {x : Annotated.Entity}
    (hx : (trim c.reified).node? n = some (.entity x)) :
    (∃ m a, ((trim c.reified).Step m n ∨ (trim c.reified).Step n m) ∧
      (trim c.reified).node? m = some (.action a) ∧ a.note.isSome = true) ∨
    (∃ u, (trim c.reified).Step u n) ∧ ∃ v, (trim c.reified).Step n v := by
  obtain ⟨y, hy, rfl⟩ := c.mem_ledger_of_entity hx
  have hm := mem_nodeIds_of_node? hx
  have hstep := c.trimmed.step_iff
  have hnoted : ∀ {n}, n ∈ c.collapsed.graph.nodeIds →
      Draft.isNotedNode c.collapsed.graph n = true → n ∈ (trim c.reified).nodeIds ∧
        ∃ a, (trim c.reified).node? n = some (.action a) ∧ a.note.isSome = true := by
    intro n hd hnote
    have hn := (c.reifies.mem_trimmed_action c.collapses.shaped c.trimmed hd).2 (.inl hnote)
    obtain ⟨a, ha, hna⟩ := c.exists_action hn hd
    exact ⟨hn, a, ha, hna ▸ hnote⟩
  obtain ⟨hback, hahead⟩ := (c.reifies.mem_trimmed_entity c.collapses.shaped c.trimmed hy).1 hm
  rcases hback with ⟨u, hu, hun⟩ | ⟨v, hv, hnote⟩
  · rcases hahead with ⟨v, hv, hnv⟩ | ⟨u', hu', hnote⟩
    · exact .inr ⟨⟨u, (hstep _ _).2 ⟨hun, hu, hm⟩⟩, v, (hstep _ _).2 ⟨hnv, hm, hv⟩⟩
    · obtain ⟨hn, a, ha, hna⟩ := hnoted (c.reifies.step_to_entity hy hu') hnote
      exact .inl ⟨u', a, .inl ((hstep _ _).2 ⟨hu', hn, hm⟩), ha, hna⟩
  · obtain ⟨hn, a, ha, hna⟩ := hnoted (c.reifies.step_from_entity hy hv) hnote
    exact .inl ⟨v, a, .inr ((hstep _ _).2 ⟨hv, hm, hn⟩), ha, hna⟩

/-- One edge at most lies between an action without a note and another node. -/
theorem eq_of_plain {n m : NodeId} (hp : IsPlainNode (trim c.reified) n)
    {e e' : Edge Thread} (he : e ∈ (trim c.reified).edges) (he' : e' ∈ (trim c.reified).edges)
    (h : e.source = n ∧ e.target = m ∨ e.source = m ∧ e.target = n)
    (h' : e'.source = n ∧ e'.target = m ∨ e'.source = m ∧ e'.target = n) : e = e' := by
  -- two edges in opposite directions would be a cycle
  have hcycle : ∀ {u v}, (trim c.reified).Step u v → ¬ (trim c.reified).Step v u :=
    fun h h' => c.acyclic_trim _ (h.reaches.trans h'.reaches)
  rcases h with ⟨rfl, rfl⟩ | ⟨rfl, rfl⟩ <;> rcases h' with ⟨hs', ht'⟩ | ⟨hs', ht'⟩
  · exact c.trimmed.unique e he e' he' hs'.symm ht'.symm (.inl hp)
  · exact absurd ⟨e', he', hs', ht'⟩ (hcycle (.of_mem he))
  · exact absurd ⟨e', he', hs', ht'⟩ (hcycle (.of_mem he))
  · exact c.trimmed.unique e he e' he' hs'.symm ht'.symm (.inr hp)

end Annotated.Course

/--
Actions and entities alternate. An entity has one producer at most, and an action with a note beside
it or neighbours on both sides. An action without a note has neighbours on both sides, with one edge
between it and each of them.
-/
structure AnnotatedGraph.Shaped (g : AnnotatedGraph) : Prop where
  acyclic : g.Acyclic
  bipartite : ∀ e ∈ g.edges,
    (∃ a x, g.node? e.source = some (.action a) ∧ g.node? e.target = some (.entity x)) ∨
      ∃ x a, g.node? e.source = some (.entity x) ∧ g.node? e.target = some (.action a)
  producer : ∀ n x, g.node? n = some (.entity x) → ∀ u u', g.Step u n → g.Step u' n → u = u'
  entity : ∀ n x, g.node? n = some (.entity x) →
    (∃ m a, (g.Step m n ∨ g.Step n m) ∧ g.node? m = some (.action a) ∧ a.note.isSome = true) ∨
      (∃ u, g.Step u n) ∧ ∃ v, g.Step n v
  plain : ∀ n a, g.node? n = some (.action a) → a.note = none →
    (∃ u, g.Step u n) ∧ ∃ v, g.Step n v
  single : ∀ n a, g.node? n = some (.action a) → a.note = none → ∀ m, ∀ e ∈ g.edges,
    ∀ e' ∈ g.edges, (e.source = n ∧ e.target = m ∨ e.source = m ∧ e.target = n) →
      (e'.source = n ∧ e'.target = m ∨ e'.source = m ∧ e'.target = n) → e = e'

theorem Annotated.Course.shaped {f : Flow} {s : Supply} (c : Course f s) :
    AnnotatedGraph.Shaped (shownGraph (trim c.reified)) where
  acyclic u hu := c.acyclic_trim u ((reaches_congr (fun _ _ => step_shownGraph) u u).1 hu)
  bipartite e' he' := by
    obtain ⟨e, he, rfl⟩ := mem_edges_shownGraph.1 he'
    simp only [node?_shownGraph]
    exact c.alternates (Step.of_mem he)
  producer n x hx u u' hu hu' := by
    rw [node?_shownGraph] at hx
    exact c.eq_of_step_entity hx (step_shownGraph.1 hu) (step_shownGraph.1 hu')
  entity n x hx := by
    rw [node?_shownGraph] at hx
    simp only [step_shownGraph, node?_shownGraph]
    exact c.entity_spared hx
  plain n a ha hnote := by
    rw [node?_shownGraph] at ha
    simp only [step_shownGraph]
    obtain ⟨hd, hno, -⟩ := c.plain_of_action ha hnote
    have hm := mem_nodeIds_of_node? ha
    exact ⟨c.exists_step_into hd hno hm, c.exists_step_from hd hno hm⟩
  single n a ha hnote m e he e' he' hj hj' := by
    rw [node?_shownGraph] at ha
    obtain ⟨-, -, hp⟩ := c.plain_of_action ha hnote
    obtain ⟨k, hk, rfl⟩ := mem_edges_shownGraph.1 he
    obtain ⟨k', hk', rfl⟩ := mem_edges_shownGraph.1 he'
    rw [c.eq_of_plain hp hk hk' hj hj']

/--
The annotated graph of a flat flow graph exists and has this shape, and neither of the markers is
left in it.
-/
theorem AnnotatedGraph.ofFlow_shaped {f : Flow} (h : f.Flat) (hin : f.input ∈ f.graph.nodeIds)
    (hout : f.output ∈ f.graph.nodeIds) {s : Supply} (hb : f.graph.Before s) :
    ∃ g s', AnnotatedGraph.ofFlow f s = .ok (g, s') ∧ g.Shaped ∧ g.node? f.input = none ∧
      g.node? f.output = none := by
  obtain ⟨c, hok⟩ := Annotated.exists_course h hin hout hb
  have hgone : ∀ n, n = f.input ∨ n = f.output →
      (Annotated.shownGraph (Annotated.trim c.reified)).node? n = none := by
    intro n hn
    rw [Annotated.node?_shownGraph]
    exact node?_eq_none_iff.2 (c.not_mem_of_marker hn)
  exact ⟨_, c.last, hok, c.shaped, hgone _ (.inl rfl), hgone _ (.inr rfl)⟩

/-- The annotated graph of the three calls has this shape. -/
theorem AnnotatedGraph.ofFlow_relay_shaped :
    ∃ g s', AnnotatedGraph.ofFlow Flow.relay ⟨7⟩ = .ok (g, s') ∧ g.Shaped ∧
      g.node? ⟨0⟩ = none ∧ g.node? ⟨1⟩ = none :=
  AnnotatedGraph.ofFlow_shaped Flow.flat_relay (by decide) (by decide) ⟨by decide, by decide⟩

end ObjectFlow
