import ObjectFlow.Proofs.Annotated.Turns
import ObjectFlow.Proofs.Graph.Closure
import ObjectFlow.Proofs.Graph.Contract

/-!
# Collapsing connects nothing anew

Making two neighbouring actions one keeps the graph acyclic, the closure true, and the paths between
actions with notes as they are (`Collapsing.step`). So does every turn of the loop
(`LoopState.Sound.next`), and collapsing altogether (`collapse_spec`).

## Outline

1. *The closure.* The closure is contracted with the graph. Then a path through the new node may be
   missing in it, as one half was a path to the one action and the other half a path from the other.
   Just these pairs are added by saturating round the new node (`step_contracted_iff_reaches`,
   `closes_contracted`).
2. *One merger.* What the program tests on the closure is what `Mergeable` says of the graph
   (`mergeable_iff`). Where there is no second way from the one action to the other, no path leaves
   the two and comes back (`Mergeable.convex`), so contracting them makes no cycle
   (`Mergeable.contractible`). A path between actions with notes that is new afterwards would lead
   into the child and out of the parent, and for these the condition on notes gives a path from
   before.
3. *The run.* A property of the draft and of the stack is an `Invariant` if passing over an action
   keeps it and a merger does. Any such property holds when the stack is empty
   (`collapse_invariant`). What is kept for all runs, the closure among it, is proved along the way
   and need not be proved again for each property.
-/

namespace ObjectFlow.Annotated.Draft

open ObjectFlow.Graph

/-! ## The closure of a contracted graph

The statements are about any graph and its closure, since nothing depends on what stands at the
nodes. -/

/-- The ways through a node for which there is no edge beside it. -/
def bypassed (c : Graph Unit Unit) (hub : NodeId) : List (NodeId × NodeId) :=
  ((c.predecessors hub).flatMap fun a => (c.successors hub).map fun b => (a, b)).filter fun e =>
    e.1 ≠ e.2 && !c.linked e.1 e.2

/-- A way through the node is listed if there is no edge beside it. -/
theorem mem_bypassed {c : Graph Unit Unit} {hub u v : NodeId} : (u, v) ∈ bypassed c hub ↔
    c.Step u hub ∧ c.Step hub v ∧ u ≠ v ∧ ¬ c.Step u v := by
  have hlinked : ∀ a b, c.linked a b = false ↔ ¬ c.Step a b := fun a b => by
    rw [← Bool.not_eq_true, linked_iff]
  simp only [bypassed, List.mem_filter, List.mem_flatMap, List.mem_map, Prod.mk.injEq,
    mem_predecessors, mem_successors, ne_eq, decide_not, Bool.and_eq_true, Bool.not_eq_true',
    decide_eq_false_iff_not, hlinked]
  constructor
  · rintro ⟨⟨a, ha, b, hb, rfl, rfl⟩, hne, hs⟩
    exact ⟨ha, hb, hne, hs⟩
  · rintro ⟨hu, hv, hne, hs⟩
    exact ⟨⟨u, hu, v, hv, rfl, rfl⟩, hne, hs⟩

/-- Saturating succeeds, and adds an edge for every way through the node. -/
theorem saturate_eq_ok {c : Graph Unit Unit} (h : c.WellFormed) {s : Supply} (hb : c.Before s)
    (hub : NodeId) : ∃ c' s', saturate c s hub = .ok (c', s') ∧ c'.WellFormed ∧ c'.Before s' ∧
      s.next ≤ s'.next ∧ c'.nodeIds = c.nodeIds ∧
      ∀ u v, c'.Step u v ↔ c.Step u v ∨ c.Step u hub ∧ c.Step hub v ∧ u ≠ v := by
  set fresh := freshEdges s (bypassed c hub) with hfresh
  have hends : ∀ e ∈ fresh.1, c.Step e.source hub ∧ c.Step hub e.target := by
    intro e he
    have := mem_bypassed.1 (exists_mem_freshEdges_iff.1 ⟨e, he, rfl, rfl⟩)
    exact ⟨this.1, this.2.1⟩
  have hnew : ∀ e ∈ fresh.1, e.id ∉ c.edges.map Edge.id := by
    intro e he hid
    obtain ⟨e₀, he₀, heq⟩ := List.mem_map.1 hid
    have hlt := hb.edge_lt e₀ he₀
    rw [heq] at hlt
    exact Nat.lt_irrefl _ (Nat.lt_of_lt_of_le hlt (mem_freshEdges he).1)
  have hd := nodup_freshEdges s (bypassed c hub)
  have hs : ∀ e ∈ fresh.1, e.source ∈ c.nodeIds := fun e he => (h.step_mem (hends e he).1).1
  have ht : ∀ e ∈ fresh.1, e.target ∈ c.nodeIds := fun e he => (h.step_mem (hends e he).2).2
  have hnext : s.next ≤ fresh.2.next := by
    rw [hfresh, next_freshEdges]
    exact Nat.le_add_right _ _
  refine ⟨c.withEdges fresh.1, fresh.2, ?_, h.withEdges hd hnew hs ht,
    hb.withEdges hnext fun e he => (mem_freshEdges he).2, hnext, rfl, fun u v => ?_⟩
  · show (do
      let c ← c.addEdges fresh.1
      return (c, fresh.2)) = _
    rw [addEdges_eq_ok hd hnew hs ht]
    rfl
  · rw [step_withEdges, exists_mem_freshEdges_iff, mem_bypassed]
    tauto

/-- What can be contracted in a graph can be contracted in its closure. -/
theorem contractible_of_closes {N E : Type} {g : Graph N E} {c : Graph Unit Unit} (hcl : c.Closes g)
    {members : List NodeId} {s : Supply} (hb : c.Before s) (hc : g.Contractible members s.node.1) :
    c.Contractible members s.node.1 :=
  ⟨hc.nodup, fun m hm => (hcl.nodes_iff m).2 (hc.mem m hm), hb.next_not_mem_nodes⟩

/-- Round the new node the contracted closure has an edge, or a way through that node, just where
the contracted graph has a path. -/
theorem step_contracted_iff_reaches {N E : Type} {g : Graph N E} {c : Graph Unit Unit}
    (h : g.WellFormed) (hcl : c.Closes g) {members : List NodeId} {hub : NodeId}
    (hcc : c.Contractible members hub) (hc : g.Contractible members hub) {x : N}
    (ha : (g.contracted members hub x).Acyclic) {u v : NodeId}
    (hu : u ∈ (g.contracted members hub x).nodeIds)
    (hv : v ∈ (g.contracted members hub x).nodeIds) :
    ((c.contracted members hub ()).Step u v ∨ (c.contracted members hub ()).Step u hub ∧
        (c.contracted members hub ()).Step hub v ∧ u ≠ v) ↔
      (g.contracted members hub x).Reaches u v := by
  have hw := hcl.wellFormed
  have hno := not_step_hub_hub hw hcc ()
  have hne : ∀ {n}, n ∈ g.nodeIds → n ≠ hub := fun hn heq => hc.hub_new (heq ▸ hn)
  rcases (mem_nodeIds_contracted hc x).1 hu with hu | ⟨hug, hum⟩ <;>
    rcases (mem_nodeIds_contracted hc x).1 hv with hv | ⟨hvg, hvm⟩
  · subst hu hv
    have hno' := ha v
    tauto
  · subst hu
    rw [step_hub_contracted hw hcc () hvm (hne hvg), reaches_hub_contracted h hc x hvm (hne hvg)]
    simp only [hcl.step_iff]
    exact or_iff_left fun hx => hno hx.1
  · subst hv
    rw [step_contracted_hub hw hcc () hum (hne hug), reaches_contracted_hub h hc x hum (hne hug)]
    simp only [hcl.step_iff]
    exact or_iff_left fun hx => hno hx.2.1
  · rw [step_contracted_outer hw hcc () hum (hne hug) hvm (hne hvg),
      step_contracted_hub hw hcc () hum (hne hug), step_hub_contracted hw hcc () hvm (hne hvg)]
    simp only [hcl.step_iff]
    have hreach := reaches_contracted h hc x hum (hne hug) hvm (hne hvg)
    constructor
    · rintro (hr | ⟨⟨m, hm, hum⟩, ⟨m', hm', hmv⟩, -⟩)
      · exact hreach.2 (.inl hr)
      · exact hreach.2 (.inr ⟨m, hm, m', hm', hum, hmv⟩)
    · intro hr
      have huv : u ≠ v := by
        rintro rfl
        exact ha u hr
      rcases hreach.1 hr with hr | ⟨m, hm, m', hm', hum, hmv⟩
      · exact .inl hr
      · exact .inr ⟨⟨m, hm, hum⟩, ⟨m', hm', hmv⟩, huv⟩

/-- The closure is contracted along with the graph and then saturated. -/
theorem closes_contracted {N E : Type} {g : Graph N E} {c : Graph Unit Unit} (h : g.WellFormed)
    (hcl : c.Closes g) {members : List NodeId} {s : Supply} (hb : c.Before s)
    (hc : g.Contractible members s.node.1) {x : N}
    (ha : (g.contracted members s.node.1 x).Acyclic) :
    ∃ c₁ c₂ s₂, c.contract members s.node.1 () = .ok c₁ ∧
      saturate c₁ s.node.2 s.node.1 = .ok (c₂, s₂) ∧
      c₂.Closes (g.contracted members s.node.1 x) ∧ c₂.Before s₂ ∧ s.node.2.next ≤ s₂.next := by
  have hcc := contractible_of_closes hcl hb hc
  have hw := hcl.wellFormed
  obtain ⟨c₂, s₂, hok, hw₂, hb₂, hnext, hids, hstep⟩ :=
    saturate_eq_ok (hw.contracted hcc ()) (hb.contracted members ()) s.node.1
  have hnodes : ∀ n, n ∈ c₂.nodeIds ↔ n ∈ (g.contracted members s.node.1 x).nodeIds := by
    intro n
    rw [hids, mem_nodeIds_contracted hcc, mem_nodeIds_contracted hc, hcl.nodes_iff]
  refine ⟨_, c₂, s₂, contract_eq_ok hw hcc (), hok, ⟨hw₂, hnodes, fun u v => ?_⟩, hb₂, hnext⟩
  constructor
  · intro hs
    obtain ⟨hu, hv⟩ := hw₂.step_mem hs
    exact (step_contracted_iff_reaches h hcl hcc hc ha ((hnodes u).1 hu) ((hnodes v).1 hv)).1
      ((hstep u v).1 hs)
  · intro hr
    obtain ⟨hu, hv⟩ := (h.contracted hc x).reaches_mem hr
    exact (hstep u v).2 ((step_contracted_iff_reaches h hcl hcc hc ha hu hv).2 hr)

/-! ## One step

Whether two actions can be made one is decided on the closure. It is stated here in terms of paths
of the graph, and from here on nothing refers to the closure. -/

/-- A graph while its actions are collapsed, with its closure. -/
structure Collapsing (d : Draft) (c : Graph Unit Unit) (s : Supply) : Prop where
  wellFormed : d.graph.WellFormed
  before : d.graph.Before s
  acyclic : d.graph.Acyclic
  closes : c.Closes d.graph
  closure_before : c.Before s

/--
Actions that cannot be collapsed are left alone, and so are the paths between those with notes.
-/
structure Keeps (d d' : Draft) : Prop where
  eq_with : d' = { d with graph := d'.graph }
  node?_eq : ∀ n x, d.graph.node? n = some x → d.isCollapsible n = false →
    d'.graph.node? n = some x
  reaches_iff : ∀ u v, isNotedNode d.graph u = true → isNotedNode d.graph v = true →
    (d'.graph.Reaches u v ↔ d.graph.Reaches u v)

theorem isNotedNode_iff {g : Graph Node Thread} {n : NodeId} :
    isNotedNode g n = true ↔ ∃ x, g.node? n = some x ∧ x.isNoted = true := by
  unfold isNotedNode
  cases g.node? n <;> simp

theorem isCollapsible_iff {d : Draft} {n : NodeId} :
    d.isCollapsible n = true ↔
      n ∉ d.markers ∧ ∃ x, d.graph.node? n = some x ∧ x.isPlain = true := by
  unfold isCollapsible
  cases d.graph.node? n <;> simp

/-- An action with a note cannot be collapsed. -/
theorem isCollapsible_of_isNotedNode {d : Draft} {n : NodeId}
    (h : isNotedNode d.graph n = true) : d.isCollapsible n = false := by
  obtain ⟨x, hx, hnoted⟩ := isNotedNode_iff.1 h
  refine Bool.eq_false_iff.2 fun hcol => ?_
  obtain ⟨-, y, hy, hplain⟩ := isCollapsible_iff.1 hcol
  obtain rfl := Option.some.inj (hx.symm.trans hy)
  simp [Node.isPlain, hnoted] at hplain

/-- A draft keeps itself. -/
theorem Keeps.refl (d : Draft) : d.Keeps d := ⟨rfl, fun _ _ h _ => h, fun _ _ _ _ => Iff.rfl⟩

/-- What is kept twice is kept. -/
theorem Keeps.trans {d d' d'' : Draft} (h : d.Keeps d') (h' : d'.Keeps d'') : d.Keeps d'' := by
  have hnoted : ∀ n, isNotedNode d.graph n = true → isNotedNode d'.graph n = true := by
    intro n hn
    obtain ⟨x, hx, hx'⟩ := isNotedNode_iff.1 hn
    exact isNotedNode_iff.2 ⟨x, h.node?_eq n x hx (isCollapsible_of_isNotedNode hn), hx'⟩
  refine ⟨?_, fun n x hx hcol => ?_, fun u v hu hv => ?_⟩
  · rw [h'.eq_with, h.eq_with]
  · have hx' := h.node?_eq n x hx hcol
    refine h'.node?_eq n x hx' ?_
    have hm : d'.markers = d.markers := by rw [h.eq_with]
    unfold isCollapsible at hcol ⊢
    rwa [hm, hx', ← hx]
  · exact (h'.reaches_iff u v (hnoted u hu) (hnoted v hv)).trans (h.reaches_iff u v hu hv)

/-- What it takes for two actions to become one. -/
structure Mergeable (d : Draft) (parent child : NodeId) : Prop where
  ne : child ≠ parent
  parent_collapsible : d.isCollapsible parent = true
  child_collapsible : d.isCollapsible child = true
  step : d.graph.Step parent child
  no_detour : ∀ n, d.graph.Step parent n → n ≠ child → ¬ d.graph.Reaches n child
  connected : ∀ a b, isNotedNode d.graph a = true → isNotedNode d.graph b = true →
    d.graph.Reaches a child → d.graph.Reaches parent b → d.graph.Reaches a b

/-- Two actions are safe to be made one, in terms of paths. -/
theorem isSafe_iff {g : Graph Node Thread} {c : Graph Unit Unit} (hcl : c.Closes g)
    {parent child : NodeId} : isSafe g c parent child = true ↔
      (∀ n, g.Step parent n → n ≠ child → ¬ g.Reaches n child) ∧
      ∀ a b, isNotedNode g a = true → isNotedNode g b = true → g.Reaches a child →
        g.Reaches parent b → g.Reaches a b := by
  simp only [isSafe, ne_eq, decide_not, Bool.and_eq_true, Bool.not_eq_true', List.any_eq_false,
    List.all_eq_true, List.mem_filter, mem_successors, mem_predecessors, hcl.step_iff,
    hcl.linked_iff, decide_eq_false_iff_not, not_and]
  refine and_congr_right fun _ => ?_
  exact ⟨fun h a b ha hb hac hpb => h a ⟨hac, ha⟩ b ⟨hpb, hb⟩,
    fun h a ha b hb => h a b ha.2 hb.2 ha.1 hb.1⟩

/-- Two actions can become one just if the tests say so. -/
theorem mergeable_iff {d : Draft} {c : Graph Unit Unit} (hcl : c.Closes d.graph)
    {parent child : NodeId} : d.Mergeable parent child ↔ child ≠ parent ∧
      d.isCollapsible parent = true ∧ d.isCollapsible child = true ∧ d.graph.Step parent child ∧
      isSafe d.graph c parent child = true := by
  rw [isSafe_iff hcl]
  exact ⟨fun ⟨hne, hp, hc, hs, hd, hn⟩ => ⟨hne, hp, hc, hs, hd, hn⟩,
    fun ⟨hne, hp, hc, hs, hd, hn⟩ => ⟨hne, hp, hc, hs, hd, hn⟩⟩

/-- A partner is one with which the action can become one. -/
theorem mergeable_of_partner? {d : Draft} {c : Graph Unit Unit} (hcl : c.Closes d.graph)
    {parent child : NodeId} (h : d.partner? c parent = some child) : d.Mergeable parent child := by
  unfold partner? at h
  split at h
  · rename_i hparent
    have hprop := List.find?_some h
    simp only [ne_eq, decide_not, Bool.and_eq_true, Bool.not_eq_true', decide_eq_false_iff_not]
      at hprop
    exact (mergeable_iff hcl).2 ⟨hprop.1.1, hparent, hprop.1.2,
      mem_successors.1 (List.mem_of_find?_eq_some h), hprop.2⟩
  · cases h

/-- An action without a partner cannot become one with any other. -/
theorem not_mergeable_of_partner?_eq_none {d : Draft} {c : Graph Unit Unit}
    (hcl : c.Closes d.graph) {parent : NodeId} (h : d.partner? c parent = none) (child : NodeId) :
    ¬ d.Mergeable parent child := by
  intro hm
  obtain ⟨hne, hp, hc, hs, hsafe⟩ := (mergeable_iff hcl).1 hm
  rw [partner?, if_pos hp, List.find?_eq_none] at h
  exact h child (mem_successors.2 hs) (by simp [hne, hc, hsafe])

/-- No path leaves the two actions and comes back to them. -/
theorem Mergeable.convex {d : Draft} (ha : d.graph.Acyclic) {parent child : NodeId}
    (h : d.Mergeable parent child) : ∀ m ∈ [parent, child], ∀ m' ∈ [parent, child],
      ∀ n ∉ [parent, child], d.graph.Reaches m n → ¬ d.graph.Reaches n m' := by
  have hpc := h.step.reaches
  have hthrough : ∀ n, n ≠ child → d.graph.Reaches parent n → ¬ d.graph.Reaches n child := by
    intro n hn hpn hnc
    obtain ⟨w, hs, hw⟩ := reaches_iff_head.1 hpn
    by_cases hwc : w = child
    · subst hwc
      rcases hw with rfl | hw
      · exact hn rfl
      · exact ha n (hnc.trans hw)
    · rcases hw with rfl | hw
      · exact h.no_detour w hs hwc hnc
      · exact h.no_detour w hs hwc (hw.trans hnc)
  intro m hm m' hm' n hn hmn hnm
  rw [List.mem_cons, List.mem_singleton] at hm hm'
  have hnc : n ≠ child := by
    rintro rfl
    simp at hn
  rcases hm with rfl | rfl <;> rcases hm' with rfl | rfl
  · exact ha n (hnm.trans hmn)
  · exact hthrough n hnc hmn hnm
  · exact ha n ((hnm.trans hpc).trans hmn)
  · exact ha n (hnm.trans hmn)

/-- Two actions that can become one can be contracted. -/
theorem Mergeable.contractible {d : Draft} {s : Supply} (hb : d.graph.Before s)
    {parent child : NodeId} (h : d.Mergeable parent child) :
    d.graph.Contractible [parent, child] s.node.1 := by
  obtain ⟨-, xp, hxp, -⟩ := isCollapsible_iff.1 h.parent_collapsible
  obtain ⟨-, xc, hxc, -⟩ := isCollapsible_iff.1 h.child_collapsible
  refine ⟨by simpa using Ne.symm h.ne, fun m hm => ?_, hb.next_not_mem_nodes⟩
  rw [List.mem_cons, List.mem_singleton] at hm
  rcases hm with rfl | rfl
  · exact mem_nodeIds_of_node? hxp
  · exact mem_nodeIds_of_node? hxc

/-- An action that cannot be collapsed is neither of the two. -/
theorem Mergeable.not_mem {d : Draft} {parent child : NodeId} (h : d.Mergeable parent child)
    {n : NodeId} (hn : d.isCollapsible n = false) : n ∉ [parent, child] := by
  intro hmem
  rw [List.mem_cons, List.mem_singleton] at hmem
  rcases hmem with rfl | rfl
  · rw [h.parent_collapsible] at hn
    cases hn
  · rw [h.child_collapsible] at hn
    cases hn

/-- The draft in which two actions have become one. -/
def merged (d : Draft) (parent child hub : NodeId) : Draft :=
  { d with graph := d.graph.contracted [parent, child] hub (.action { collapsed := true }) }

/-- Two actions become one: both contractions and saturating succeed, the closure is true again, and
what cannot be collapsed is kept. -/
theorem Collapsing.step {d : Draft} {c : Graph Unit Unit} {s : Supply} (h : d.Collapsing c s)
    {parent child : NodeId} (hm : d.Mergeable parent child) :
    ∃ c₁ c₂ s₂,
      d.graph.contract [parent, child] s.node.1 (.action { collapsed := true }) =
        .ok (d.merged parent child s.node.1).graph ∧
      c.contract [parent, child] s.node.1 () = .ok c₁ ∧
      saturate c₁ s.node.2 s.node.1 = .ok (c₂, s₂) ∧
      (d.merged parent child s.node.1).Collapsing c₂ s₂ ∧
      d.Keeps (d.merged parent child s.node.1) := by
  have hcon := hm.contractible h.before
  have hacyclic := h.acyclic.contracted h.wellFormed hcon (hm.convex h.acyclic)
    (.action { collapsed := true })
  obtain ⟨c₁, c₂, s₂, hc₁, hc₂, hcl, hb₂, hnext⟩ :=
    closes_contracted h.wellFormed h.closes h.closure_before hcon hacyclic
  refine ⟨c₁, c₂, s₂, contract_eq_ok h.wellFormed hcon _, hc₁, hc₂,
    ⟨h.wellFormed.contracted hcon _, (h.before.contracted _ _).mono hnext, hacyclic, hcl, hb₂⟩,
    ⟨rfl, fun n x hx hcol => ?_, fun u v hu hv => ?_⟩⟩
  · have hne : n ≠ s.node.1 := fun heq => hcon.hub_new (heq ▸ mem_nodeIds_of_node? hx)
    exact (node?_contracted _ (hm.not_mem hcol) hne).trans hx
  · have hum := hm.not_mem (isCollapsible_of_isNotedNode hu)
    have hvm := hm.not_mem (isCollapsible_of_isNotedNode hv)
    obtain ⟨xu, hxu, -⟩ := isNotedNode_iff.1 hu
    obtain ⟨xv, hxv, -⟩ := isNotedNode_iff.1 hv
    have huh : u ≠ s.node.1 := fun heq => hcon.hub_new (heq ▸ mem_nodeIds_of_node? hxu)
    have hvh : v ≠ s.node.1 := fun heq => hcon.hub_new (heq ▸ mem_nodeIds_of_node? hxv)
    refine (reaches_contracted h.wellFormed hcon _ hum huh hvm hvh).trans ⟨?_, .inl⟩
    rintro (hr | ⟨m, hmem, m', hmem', ham, hmb⟩)
    · exact hr
    · -- whatever leads to one of the two leads to the second, and follows from the first
      refine hm.connected u v hu hv ?_ ?_
      · rw [List.mem_cons, List.mem_singleton] at hmem
        rcases hmem with rfl | rfl
        · exact ham.trans hm.step.reaches
        · exact ham
      · rw [List.mem_cons, List.mem_singleton] at hmem'
        rcases hmem' with rfl | rfl
        · exact hmb
        · exact hm.step.reaches.trans hmb

/-! ## The whole run

The loop ends because every turn takes a node from the graph or from the stack. This is in its
definition; here it is told what the states are like that it visits. -/

/--
What holds of a draft and the actions that are still to be looked at, whether an action is passed
over or made one with another.
-/
structure Invariant (I : Draft → List NodeId → Prop) : Prop where
  pass : ∀ {d c s parent stack}, d.Collapsing c s → d.partner? c parent = none →
    I d (parent :: stack) → I d stack
  merge : ∀ {d c s parent child stack}, d.Collapsing c s → d.Mergeable parent child →
    I d (parent :: stack) → I (d.merged parent child s.node.1) (s.node.1 :: stack)

/-- The closure of the state is true. -/
def LoopState.Sound (t : LoopState) : Prop := t.draft.Collapsing t.closure t.supply

/-- There is a turn unless the stack is empty, and a turn fails in nothing. -/
theorem LoopState.Sound.next {t : LoopState} (h : t.Sound) : t.stack = [] ∧ t.next = .ok none ∨
    ∃ t', t.Turn t' ∧ t'.Sound ∧ t.draft.Keeps t'.draft ∧
      ∀ I, Invariant I → I t.draft t.stack → I t'.draft t'.stack := by
  obtain ⟨d, c, s, stack⟩ := t
  have hd : d.Collapsing c s := h
  cases stack with
  | nil => exact .inl ⟨rfl, rfl⟩
  | cons parent stack =>
    right
    cases hp : d.partner? c parent with
    | none =>
      refine ⟨⟨d, c, s, stack⟩, ?_, h, .refl d, fun I hI => hI.pass hd hp⟩
      simp only [Turn, LoopState.next, hp]
    | some child =>
      have hm := mergeable_of_partner? hd.closes hp
      obtain ⟨c₁, c₂, s₂, hg, hc₁, hc₂, hnext, hkeeps⟩ := hd.step hm
      have hmerge : LoopState.merge ⟨d, c, s, stack⟩ parent child =
          .ok ⟨d.merged parent child s.node.1, c₂, s₂, s.node.1 :: stack⟩ :=
        merge_eq_ok_iff.2 ⟨_, c₁, c₂, s₂, hg, hc₁, hc₂, rfl⟩
      refine ⟨⟨d.merged parent child s.node.1, c₂, s₂, s.node.1 :: stack⟩, ?_, hnext, hkeeps,
        fun I hI => hI.merge hd hm⟩
      simp only [Turn, LoopState.next, hp, hmerge, Outcome.map_ok]

/-- What every turn keeps holds of every state that the loop visits. -/
theorem LoopState.Sound.visits {t t' : LoopState} (h : t.Sound) (hv : t.Visits t') :
    t'.Sound ∧ t.draft.Keeps t'.draft ∧
      ∀ I, Invariant I → I t.draft t.stack → I t'.draft t'.stack := by
  induction hv with
  | refl => exact ⟨h, .refl _, fun _ _ hi => hi⟩
  | tail _ hturn ih =>
    obtain ⟨hsound, hkeeps, hinv⟩ := ih
    rcases hsound.next with ⟨-, hnone⟩ | ⟨t₂, hturn₂, hsound₂, hkeeps₂, hinv₂⟩
    · cases hnone.symm.trans hturn
    · cases hturn₂.symm.trans hturn
      exact ⟨hsound₂, hkeeps.trans hkeeps₂, fun I hI hi => hinv₂ I hI (hinv I hI hi)⟩

/-- The answer is the draft of the last state that the loop visits. -/
theorem LoopState.Sound.ends {t : LoopState} (h : t.Sound) :
    ∃ t', t.Visits t' ∧ t'.stack = [] ∧ t.rest = .ok (t'.draft, t'.supply) := by
  obtain ⟨t', hv, hlast⟩ := t.exists_last
  rcases (h.visits hv).1.next with ⟨hempty, hnone⟩ | ⟨t'', hturn, -⟩
  · refine ⟨t', hv, hempty, ?_⟩
    rw [← hv.rest_eq, LoopState.rest_eq, hnone]
    rfl
  · exact absurd hturn (hlast t'')

/-- The loop starts with a true closure and all actions on the stack. -/
theorem start_spec {d : Draft} {s : Supply} (h : d.graph.WellFormed) (ha : d.graph.Acyclic)
    (hb : d.graph.Before s) : ∃ t, d.start s = .ok t ∧ t.draft = d ∧ t.Sound ∧
      ∀ n ∈ d.graph.nodeIds, n ∈ t.stack := by
  obtain ⟨c, s₁, hc, hcl, hcb, hnext⟩ := closure_spec h ha hb
  obtain ⟨order, horder⟩ := exists_topologicalOrder h ha
  have hmem := (topologicalOrder_spec h horder).1.symm.subset
  refine ⟨⟨d, c, s₁, order.reverse⟩, ?_, rfl, ⟨h, hb.mono hnext, ha, hcl, hcb⟩,
    fun n hn => List.mem_reverse.2 (hmem hn)⟩
  rw [start, hc, Outcome.mapError_ok, Outcome.ok_bind, horder]
  rfl

/-- Collapsing succeeds, and what every step keeps holds when nothing is left to look at. -/
theorem collapse_invariant {I : Draft → List NodeId → Prop} (hI : Invariant I) {d : Draft}
    {s : Supply} (h : d.graph.WellFormed) (ha : d.graph.Acyclic) (hb : d.graph.Before s)
    (hi : ∀ stack, (∀ n ∈ d.graph.nodeIds, n ∈ stack) → I d stack) :
    ∃ d' s', d.collapse s = .ok (d', s') ∧ d'.graph.WellFormed ∧ d'.graph.Acyclic ∧
      d'.graph.Before s' ∧ d.Keeps d' ∧ I d' [] := by
  obtain ⟨t, hstart, rfl, hsound, hall⟩ := start_spec h ha hb
  obtain ⟨t', hv, hempty, hrest⟩ := hsound.ends
  obtain ⟨hsound', hkeeps, hinv⟩ := hsound.visits hv
  refine ⟨t'.draft, t'.supply, ?_, hsound'.wellFormed, hsound'.acyclic, hsound'.before, hkeeps,
    hempty ▸ hinv I hI (hi _ hall)⟩
  rw [collapse_eq, hstart]
  exact hrest

/--
Collapsing succeeds, and it leaves an acyclic graph with the same paths between noted actions.
-/
theorem collapse_spec {d : Draft} {s : Supply} (h : d.graph.WellFormed) (ha : d.graph.Acyclic)
    (hb : d.graph.Before s) : ∃ d' s', d.collapse s = .ok (d', s') ∧ d'.graph.WellFormed ∧
      d'.graph.Acyclic ∧ d'.graph.Before s' ∧ d.Keeps d' := by
  obtain ⟨d', s', hok, hw, ha', hb', hkeeps, -⟩ :=
    collapse_invariant (I := fun _ _ => True) ⟨fun _ _ _ => trivial, fun _ _ _ => trivial⟩ h ha hb
      fun _ _ => trivial
  exact ⟨d', s', hok, hw, ha', hb', hkeeps⟩

end ObjectFlow.Annotated.Draft
