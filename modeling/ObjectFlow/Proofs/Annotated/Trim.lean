import ObjectFlow.Annotated.Build
import ObjectFlow.Proofs.Annotated.Reify
import ObjectFlow.Proofs.Graph.Thin

/-!
# What trimming leaves

Trimming takes away the idle actions, then the entities that are stray without these, and then all
but one of the edges between an action without a note and each of its neighbours (`trim_spec`).

Each of the first two rounds decides for all nodes at once, on the graph as it was before the round.
So what is left is told by a condition on that graph. The last round changes edges only and leaves
all steps.
-/

namespace ObjectFlow.Annotated

open ObjectFlow.Graph

variable {g : Graph Node Thread}

/-! ## Pruning

Nodes are removed with their edges. -/

section Prune

variable {doomed : NodeId → Node → Bool}

/-- A node is left unless it is doomed. -/
theorem node?_prune (h : g.WellFormed) {n : NodeId} {x : Node} :
    (prune g doomed).node? n = some x ↔ g.node? n = some x ∧ doomed n x = false := by
  set ids := (g.nodes.filter fun n => doomed n.1 n.2).map Prod.fst with hids
  have hmem : ∀ n, n ∈ ids ↔ ∃ x, g.node? n = some x ∧ doomed n x = true := by
    intro n
    simp only [hids, List.mem_map, List.mem_filter]
    constructor
    · rintro ⟨⟨n, x⟩, ⟨hx, hd⟩, rfl⟩
      exact ⟨x, h.node?_eq_some_iff.2 hx, hd⟩
    · rintro ⟨x, hx, hd⟩
      exact ⟨(n, x), ⟨h.node?_eq_some_iff.1 hx, hd⟩, rfl⟩
  show (g.removeNodes ids).node? n = some x ↔ _
  constructor
  · intro hx
    have hn : n ∉ ids := (mem_nodeIds_removeNodes.1 (mem_nodeIds_of_node? hx)).2
    rw [node?_removeNodes hn] at hx
    exact ⟨hx, Bool.eq_false_iff.2 fun hd => hn ((hmem n).2 ⟨x, hx, hd⟩)⟩
  · rintro ⟨hx, hd⟩
    rw [node?_removeNodes fun hn => ?_]
    · exact hx
    · obtain ⟨y, hy, hd'⟩ := (hmem n).1 hn
      cases hx.symm.trans hy
      exact Bool.false_ne_true (hd.symm.trans hd')

/-- The edges between nodes that are left are left. -/
theorem mem_edges_prune (h : g.WellFormed) {e : Edge Thread} :
    e ∈ (prune g doomed).edges ↔ e ∈ g.edges ∧ e.source ∈ (prune g doomed).nodeIds ∧
      e.target ∈ (prune g doomed).nodeIds := by
  rw [prune, show List.foldl removeNode g _ = g.removeNodes _ from rfl, mem_edges_removeNodes h,
    mem_nodeIds_removeNodes, mem_nodeIds_removeNodes]
  exact ⟨fun ⟨he, hs, ht⟩ => ⟨he, ⟨h.source_mem e he, hs⟩, ⟨h.target_mem e he, ht⟩⟩,
    fun ⟨he, hs, ht⟩ => ⟨he, hs.2, ht.2⟩⟩

theorem WellFormed.prune (h : g.WellFormed) (doomed : NodeId → Node → Bool) :
    (prune g doomed).WellFormed := h.removeNodes _

/-- Steps between nodes that are left are left. -/
theorem step_prune (h : g.WellFormed) {u v : NodeId} :
    (prune g doomed).Step u v ↔ g.Step u v ∧ u ∈ (prune g doomed).nodeIds ∧
      v ∈ (prune g doomed).nodeIds := by
  constructor
  · rintro ⟨e, he, rfl, rfl⟩
    obtain ⟨he, hs, ht⟩ := (mem_edges_prune h).1 he
    exact ⟨.of_mem he, hs, ht⟩
  · rintro ⟨⟨e, he, rfl, rfl⟩, hs, ht⟩
    exact .of_mem ((mem_edges_prune h).2 ⟨he, hs, ht⟩)

end Prune

/-- A node without edges into it has none in front of it. -/
theorem isEmpty_inEdges_iff {n : NodeId} : (g.inEdges n).isEmpty = true ↔ ∀ u, ¬ g.Step u n := by
  rw [List.isEmpty_iff, List.eq_nil_iff_forall_not_mem]
  simp only [mem_inEdges, not_and]
  exact ⟨fun h u ⟨e, he, _, ht⟩ => h e he ht, fun h e he ht => h e.source ⟨e, he, rfl, ht⟩⟩

theorem isEmpty_outEdges_iff {n : NodeId} :
    (g.outEdges n).isEmpty = true ↔ ∀ v, ¬ g.Step n v := by
  rw [List.isEmpty_iff, List.eq_nil_iff_forall_not_mem]
  simp only [mem_outEdges, not_and]
  exact ⟨fun h v ⟨e, he, hs, _⟩ => h e he hs, fun h e he hs => h e.target ⟨e, he, hs, rfl⟩⟩

/-- An action is idle if it has no note and is a dead end. -/
theorem isIdle_iff {n : NodeId} {x : Node} : isIdle g n x = true ↔
    x.isPlain = true ∧ ((∀ u, ¬ g.Step u n) ∨ ∀ v, ¬ g.Step n v) := by
  rw [isIdle, Bool.and_eq_true, Bool.or_eq_true, isEmpty_inEdges_iff, isEmpty_outEdges_iff]

/-- An entity is stray if it is a dead end and no action with a note is beside it. -/
theorem isStray_iff {n : NodeId} {x : Node} : isStray g n x = true ↔ x.isEntity = true ∧
    ((∀ u, ¬ g.Step u n) ∧ (∀ v, g.Step n v → Draft.isNotedNode g v = false) ∨
      (∀ v, ¬ g.Step n v) ∧ ∀ u, g.Step u n → Draft.isNotedNode g u = false) := by
  rw [isStray, Bool.and_eq_true, Bool.or_eq_true, Bool.and_eq_true, Bool.and_eq_true,
    isEmpty_inEdges_iff, isEmpty_outEdges_iff]
  simp [List.any_eq_false, mem_successors, mem_predecessors]

/-! ## Thinning

Around one node after the other, of several edges between the same two nodes one stays. -/

/-- What thinning around some nodes leaves. -/
structure Thinned (ids : List NodeId) (g g' : Graph Node Thread) : Prop where
  wellFormed : g'.WellFormed
  nodes_eq : g'.nodes = g.nodes
  sub : ∀ e ∈ g'.edges, e ∈ g.edges
  step_iff : ∀ u v, g'.Step u v ↔ g.Step u v
  kept : ∀ e ∈ g.edges, e.source ∉ ids → e.target ∉ ids → e ∈ g'.edges
  unique : ∀ e ∈ g'.edges, ∀ e' ∈ g'.edges, e.source = e'.source → e.target = e'.target →
    e.source ∈ ids ∨ e.target ∈ ids → e = e'

/-- Thinning around some nodes leaves one edge for each step at these, and all others. -/
theorem thinned_foldl (h : g.WellFormed) (ids : List NodeId) :
    Thinned ids g (ids.foldl (fun g id => (g.thin id).2) g) := by
  induction ids generalizing g with
  | nil => exact ⟨h, rfl, fun _ he => he, fun _ _ => Iff.rfl, fun _ he _ _ => he, by simp⟩
  | cons id ids ih =>
    have hthin := thin_eq g id
    have hrest := ih (g := (g.thin id).2) (hthin ▸ h.removeEdges _)
    have hsub : ∀ e ∈ (g.thin id).2.edges, e ∈ g.edges := fun e he =>
      (mem_edges_removeEdges.1 (hthin ▸ he)).1
    refine ⟨hrest.wellFormed, hrest.nodes_eq.trans (by rw [hthin]; rfl),
      fun e he => hsub e (hrest.sub e he), fun u v => (hrest.step_iff u v).trans (step_thin h),
      fun e he hs ht => ?_, fun e he e' he' hs ht hids => ?_⟩
    · rw [List.mem_cons, not_or] at hs ht
      -- only edges at the node itself are superfluous
      exact hrest.kept e ((mem_edges_thin h).2 ⟨he, fun hid => absurd hid ht.1,
        fun hid => absurd hid hs.1⟩) hs.2 ht.2
    · by_cases hrids : e.source ∈ ids ∨ e.target ∈ ids
      · exact hrest.unique e he e' he' hs ht hrids
      · refine eq_of_mem_thin h (hrest.sub e he) (hrest.sub e' he') hs ht ?_
        rw [not_or] at hrids
        exact hids.imp (fun hm => (List.mem_cons.1 hm).resolve_right hrids.1)
          fun hm => (List.mem_cons.1 hm).resolve_right hrids.2

/-! ## Trimming

What is left is told in terms of the graph that was trimmed. -/

/-- The node is an action without a note. -/
def IsPlainNode (g : Graph Node Thread) (n : NodeId) : Prop :=
  ∃ x, g.node? n = some x ∧ x.isPlain = true

/-- What is left when a graph is trimmed. -/
structure Trimmed (g t : Graph Node Thread) : Prop where
  wellFormed : t.WellFormed
  node?_iff : ∀ n x, t.node? n = some x ↔ g.node? n = some x ∧ isIdle g n x = false ∧
    isStray (prune g (isIdle g)) n x = false
  sub : ∀ e ∈ t.edges, e ∈ g.edges
  step_iff : ∀ u v, t.Step u v ↔ g.Step u v ∧ u ∈ t.nodeIds ∧ v ∈ t.nodeIds
  kept : ∀ e ∈ g.edges, e.source ∈ t.nodeIds → e.target ∈ t.nodeIds →
    ¬ IsPlainNode g e.source → ¬ IsPlainNode g e.target → e ∈ t.edges
  unique : ∀ e ∈ t.edges, ∀ e' ∈ t.edges, e.source = e'.source → e.target = e'.target →
    IsPlainNode t e.source ∨ IsPlainNode t e.target → e = e'

/-- A node is left if it is neither idle, nor stray when the idle ones are gone. -/
theorem Trimmed.mem_iff {t : Graph Node Thread} (ht : Trimmed g t) {n : NodeId} {x : Node}
    (hx : g.node? n = some x) :
    n ∈ t.nodeIds ↔ isIdle g n x = false ∧ isStray (prune g (isIdle g)) n x = false := by
  constructor
  · intro hm
    obtain ⟨z, hz⟩ := exists_node?_of_mem hm
    obtain ⟨hz, hleft⟩ := (ht.node?_iff n z).1 hz
    cases hx.symm.trans hz
    exact hleft
  · exact fun hleft => mem_nodeIds_of_node? ((ht.node?_iff n x).2 ⟨hx, hleft⟩)

/-- Trimming leaves what it says. -/
theorem trim_spec (h : g.WellFormed) : Trimmed g (trim g) := by
  set g₁ := prune g (isIdle g) with hg₁
  set g₂ := prune g₁ (isStray g₁) with hg₂
  have h₁ : g₁.WellFormed := WellFormed.prune h _
  have h₂ : g₂.WellFormed := WellFormed.prune h₁ _
  have ht : Thinned (g₂.nodesWhere Node.isPlain) g₂ (trim g) := thinned_foldl h₂ _
  have hnode : ∀ n, (trim g).node? n = g₂.node? n := fun n => congrArg (Table.at? · n) ht.nodes_eq
  have hids : ∀ n, n ∈ (trim g).nodeIds ↔ n ∈ g₂.nodeIds := fun n => by
    rw [show (trim g).nodeIds = g₂.nodeIds from congrArg Table.keys ht.nodes_eq]
  have hsub₁ : ∀ n ∈ g₂.nodeIds, n ∈ g₁.nodeIds := fun n hn =>
    (mem_nodeIds_removeNodes.1 hn).1
  have hplain : ∀ n, n ∈ g₂.nodesWhere Node.isPlain ↔
      ∃ x, g₂.node? n = some x ∧ x.isPlain = true := by
    intro n
    simp only [nodesWhere, List.mem_map, List.mem_filter]
    constructor
    · rintro ⟨⟨n, x⟩, ⟨hx, hp⟩, rfl⟩
      exact ⟨x, h₂.node?_eq_some_iff.2 hx, hp⟩
    · rintro ⟨x, hx, hp⟩
      exact ⟨(n, x), ⟨h₂.node?_eq_some_iff.1 hx, hp⟩, rfl⟩
  -- Thinning takes no nodes, so they are those that both rounds of pruning leave.
  have hleft : ∀ n x, (trim g).node? n = some x ↔ g.node? n = some x ∧ isIdle g n x = false ∧
      isStray g₁ n x = false := by
    intro n x
    rw [hnode, hg₂, node?_prune h₁, hg₁, node?_prune h, and_assoc]
  refine ⟨ht.wellFormed, hleft, fun e he => ?_, fun u v => ?_, fun e he hs ht' hns hnt => ?_,
    fun e he e' he' hs ht' hp => ?_⟩
  · exact ((mem_edges_prune h).1 ((mem_edges_prune h₁).1 (ht.sub e he)).1).1
  · rw [ht.step_iff, step_prune h₁, step_prune h, hids, hids]
    exact ⟨fun ⟨⟨hs, _, _⟩, hu, hv⟩ => ⟨hs, hu, hv⟩,
      fun ⟨hs, hu, hv⟩ => ⟨⟨hs, hsub₁ u hu, hsub₁ v hv⟩, hu, hv⟩⟩
  · have hno : ∀ n, ¬ IsPlainNode g n → n ∉ g₂.nodesWhere Node.isPlain := by
      intro n hn hm
      obtain ⟨x, hx, hp⟩ := (hplain n).1 hm
      exact hn ⟨x, ((hleft n x).1 ((hnode n).trans hx)).1, hp⟩
    rw [hids] at hs ht'
    exact ht.kept e ((mem_edges_prune h₁).2
      ⟨(mem_edges_prune h).2 ⟨he, hsub₁ _ hs, hsub₁ _ ht'⟩, hs, ht'⟩) (hno _ hns) (hno _ hnt)
  · refine ht.unique e he e' he' hs ht' (hp.imp ?_ ?_) <;>
    · rintro ⟨x, hx, hp⟩
      exact (hplain _).2 ⟨x, (hnode _).symm.trans hx, hp⟩

end ObjectFlow.Annotated
