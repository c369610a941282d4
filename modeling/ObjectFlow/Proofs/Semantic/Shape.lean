import ObjectFlow.Proofs.Graph.WellFormed
import ObjectFlow.Proofs.Semantic.Course
import ObjectFlow.Proofs.Table

/-!
# The shape of semantic graphs

In a shaped graph no edge enters an action, an edge that leaves an action has a role and no aspect
that the action does not have, and an edge between entities has an aspect and no role. Mergers keep
the shape and the actions as they are, however far they spread (`merge_shaped`), and so do both
passes that merge entities under actions (`mergeDuplicates_shaped`, `mergeStrangers_shaped`).

The actions are given to `Shaped` from outside, as a map from identities to their data, and stay the
same from the first step to the last. So the shape is an invariant without a before and an after,
and that no action is touched is part of it. What may lie between two nodes depends on them only
through this map (`Lies`), which is why an edge that moves from one entity to another may lie there
too (`lies_moved`, `lies_redirected`).
-/

namespace ObjectFlow.Semantic

open ObjectFlow.Graph

variable {o : Ontology} {depth : Nat} {A : NodeId → Option Node} {g : SemanticGraph} {s : Supply}

/-- The actions of a graph with their data. -/
def actions (g : SemanticGraph) (id : NodeId) : Option Node := (g.node? id).filter Node.isAction

/-- The map has the nodes that are actions. -/
theorem actions_eq_some_iff {id : NodeId} {n : Node} :
    actions g id = some n ↔ g.node? id = some n ∧ n.isAction = true :=
  Option.filter_eq_some_iff

/-- A node is an entity or an action, and not both. -/
theorem isEntity_iff {n : Node} : n.isEntity = true ↔ n.isAction = false := by
  obtain ⟨type, root, id, value, slots⟩ := n
  cases root <;> simp [Node.isEntity, Node.isAction]

/-- The map passes over an entity. -/
theorem filter_isAction_eq_none {n : Node} (h : n.isAction = false) :
    (some n).filter Node.isAction = none := Option.filter_some_neg (by simp [h])

/-- An edge may lie between the nodes, where the actions are given. -/
structure Lies (o : Ontology) (A : NodeId → Option Node) (source target : NodeId) (l : Link) :
    Prop where
  target : A target = none
  action : ∀ n, A source = some n → l.role.isSome = true ∧
    ∀ a, l.aspect = some a → Table.holds (aspectsOf o n.type) a = true
  entity : A source = none → l.aspect.isSome = true ∧ l.role = none

/-- The graph has just the given actions, and all its edges may lie where they do. -/
structure Shaped (o : Ontology) (A : NodeId → Option Node) (g : SemanticGraph) : Prop where
  wellFormed : g.WellFormed
  actions_eq : actions g = A
  lies : ∀ e ∈ g.edges, Lies o A e.source e.target e.data

/-! ## What leaves the actions alone

Mergers take entities out, change their types and put edges between nodes. None of it shows in the
map of actions. -/

/-- An entity that goes is missed by no action. -/
theorem actions_removeNode {id : NodeId} (h : actions g id = none) :
    actions (g.removeNode id) = actions g := by
  funext id'
  by_cases heq : id' = id
  · subst heq
    rw [h, Option.eq_none_iff_forall_ne_some]
    intro n hn
    have hid := mem_nodeIds_of_node? (actions_eq_some_iff.1 hn).1
    rw [nodeIds_removeNode, List.mem_filter] at hid
    exact absurd rfl (of_decide_eq_true hid.2)
  · rw [actions, node?_removeNode_of_ne g heq, actions]

/-- An entity whose type changes stays an entity. -/
theorem actions_adjustNode {id : NodeId} {f : Node → Node} (h : actions g id = none)
    (hf : ∀ n, (f n).root = n.root) : actions (g.adjustNode id f) = actions g := by
  funext id'
  rw [actions, node?_adjustNode]
  split
  · rename_i heq
    subst heq
    rw [h]
    cases hn : g.node? id' with
    | none => rfl
    | some n =>
      have hnot : n.isAction = false := Bool.eq_false_iff.2 fun ha => by
        rw [actions_eq_some_iff.2 ⟨hn, ha⟩] at h
        cases h
      have hroot : (f n).isAction = n.isAction := by rw [Node.isAction, hf, Node.isAction]
      exact filter_isAction_eq_none (hroot.trans hnot)
  · rfl

/-- An entity that comes is no action. -/
theorem actions_attachNode {id : NodeId} {n : Node} (hid : id ∉ g.nodeIds)
    (hn : n.isEntity = true) : actions (g.attachNode id n) = actions g := by
  funext id'
  rw [actions, node?_attachNode]
  by_cases heq : id = id'
  · subst heq
    rw [if_pos rfl, node?_eq_none_iff.2 hid, actions, node?_eq_none_iff.2 hid]
    exact filter_isAction_eq_none (isEntity_iff.1 hn)
  · rw [if_neg heq, Option.or_none]
    rfl

namespace Shaped

variable (h : Shaped o A g)
include h

/-- The edges that are left lie as before. -/
theorem removeEdge (id : EdgeId) : Shaped o A (g.removeEdge id) :=
  ⟨h.wellFormed.removeEdge id, h.actions_eq, fun e he => h.lies e (mem_edges_removeEdge.1 he).1⟩

/-- With an entity its edges go, and the rest lies as before. -/
theorem removeNode {id : NodeId} (hid : A id = none) : Shaped o A (g.removeNode id) :=
  ⟨h.wellFormed.removeNode id,
    (actions_removeNode (h.actions_eq.symm ▸ hid)).trans h.actions_eq,
    fun e he => h.lies e ((mem_edges_removeNode h.wellFormed).1 he).1⟩

/-- The data of an entity do not matter for the edges at it. -/
theorem adjustNode {id : NodeId} {f : Node → Node} (hid : A id = none)
    (hf : ∀ n, (f n).root = n.root) : Shaped o A (g.adjustNode id f) :=
  ⟨h.wellFormed.adjustNode id f,
    (actions_adjustNode (h.actions_eq.symm ▸ hid) hf).trans h.actions_eq, h.lies⟩

/-- An edge may be added where it may lie. -/
theorem addEdge {e : Edge Link} (he : Lies o A e.source e.target e.data) {g' : SemanticGraph}
    (hok : g.addEdge e = .ok g') : Shaped o A g' := by
  have hwf := h.wellFormed.addEdge hok
  obtain ⟨-, -, -, rfl⟩ := addEdge_eq_ok_iff.1 hok
  refine ⟨hwf, h.actions_eq, fun e' he' => ?_⟩
  rcases List.mem_append.1 he' with he' | he'
  · exact h.lies e' he'
  · exact List.mem_singleton.1 he' ▸ he

/-- An edge that leaves an entity may leave any other one, too. -/
theorem lies_moved {e : Edge Link} (he : e ∈ g.edges) {source target : NodeId}
    (hs : A e.source = none) (hs' : A source = none) (ht : A target = none) :
    Lies o A source target e.data :=
  ⟨ht, fun n hn => by simp [hs'] at hn, fun _ => (h.lies e he).entity hs⟩

/-- An edge may end at any entity. -/
theorem lies_redirected {e : Edge Link} (he : e ∈ g.edges) {target : NodeId}
    (ht : A target = none) : Lies o A e.source target e.data :=
  ⟨ht, (h.lies e he).action, (h.lies e he).entity⟩

end Shaped

/-! ## One merger

Both nodes of a merger are entities. What is forwarded must be one as well, since the further
mergers are told nodes that may have gone elsewhere in the meantime. -/

/-- The graph is shaped, and nothing went to an action. -/
structure Merging.Shaped (o : Ontology) (A : NodeId → Option Node) (m : Merging) : Prop where
  graph : Semantic.Shaped o A m.graph
  forwarded : ∀ k id, Table.at? m.forwarded k = some id → A id = none

namespace Merging

variable {m : Merging}

/-- An entity leads to an entity. -/
theorem Shaped.resolve (h : m.Shaped o A) {id : NodeId} (hid : A id = none) :
    (m.resolve id).Ensures fun id' => A id' = none := by
  refine ensures_resolve fun _ id' hid' => ?_
  rcases follow_cases hid' with rfl | ⟨k, hk⟩
  · exact hid
  · exact h.forwarded k id' hk

/-- An edge that may lie there is added, and nothing is forwarded by it. -/
theorem Shaped.addEdge (h : m.Shaped o A) {source target : NodeId} {l : Link}
    (hl : Lies o A source target l) : (m.addEdge source target l).Ensures (Shaped o A) := by
  refine Course.Ensures.bind (Course.ensures_ofExcept fun g hg => h.graph.addEdge hl hg)
    fun g hg => ?_
  exact Course.ensures_pure ⟨hg, h.forwarded⟩

/-- The type of an entity is none of the shape's business. -/
theorem Shaped.joinTypes (h : m.Shaped o A) (src dest : Node) {id : NodeId} (hid : A id = none) :
    (m.joinTypes o src dest id).Shaped o A :=
  ⟨h.graph.adjustNode hid fun _ => rfl, h.forwarded⟩

/-- When its edges have moved, the entity goes and is forwarded to one. -/
theorem Shaped.retire (h : m.Shaped o A) {src dest : NodeId} (hs : A src = none)
    (hd : A dest = none) : (m.retire src dest).Shaped o A := by
  refine ⟨h.graph.removeNode hs, fun k id hk => ?_⟩
  rw [Merging.retire, Table.at?_put] at hk
  split at hk
  · exact Option.some.inj hk ▸ hd
  · exact h.forwarded k id hk

/-- What stands under an aspect of an entity is an entity. -/
theorem Shaped.aspectTarget (h : m.Shaped o A) {id : NodeId} {a : String} {target : NodeId}
    (ha : Table.at? (aspectTargets m.graph id) a = some target) : A target = none := by
  obtain ⟨e, he, heq⟩ := List.mem_filterMap.1 (Table.mem_ofEntries (Table.mem_of_at? ha))
  obtain ⟨a', -, heq⟩ := Option.map_eq_some_iff.1 heq
  obtain ⟨rfl, rfl⟩ := Prod.mk.inj heq
  exact (h.graph.lies e (mem_outEdges.1 he).1).target

/-- A merger of entities, with all that it leads to, keeps the shape. -/
theorem merge_shaped {src dest : NodeId} (hm : m.Shaped o A) (hs : A src = none)
    (hd : A dest = none) : (merge o depth src dest m).Ensures (Shaped o A) := by
  refine merge_ensures (P := fun src dest m => m.Shaped o A ∧ A src = none ∧ A dest = none)
    (Q := fun _ _ _ => Shaped o A) (fun further ih src dest m ⟨hm, hs, hd⟩ => ?_) depth src
    dest m ⟨hm, hs, hd⟩
  refine (hm.resolve hs).bind fun src hs => (hm.resolve hd).bind fun dest hd => ?_
  split
  · exact Course.ensures_pure hm
  split
  · rename_i srcNode destNode hsrc hdest
    have hm := hm.joinTypes srcNode destNode hd
    dsimp only
    -- what led to the merged node leads to the other one
    refine Course.Ensures.bind (Course.Ensures.foldlM (fun m hm' e he => ?_) hm) fun m₁ hm₁ => ?_
    · have he := (mem_inEdges.1 (List.mem_of_mem_filter he)).1
      exact hm'.addEdge (hm.graph.lies_redirected he hd)
    refine Course.Ensures.bind (Course.Ensures.foldlM (fun m hm' e he => ?_) hm₁) fun m₂ hm₂ =>
      Course.ensures_pure (hm₂.retire hs hd)
    obtain ⟨hout, rfl⟩ := mem_outEdges.1 (List.mem_of_mem_filter he)
    refine (hm'.resolve (hm₁.graph.lies e hout).target).bind fun target ht => ?_
    split
    · exact Course.ensures_pure hm'
    split
    · rename_i existing hat
      obtain ⟨a, -, hat⟩ := Option.bind_eq_some_iff.1 hat
      exact ih target existing m ⟨hm', ht, hm₁.aspectTarget hat⟩
    · exact hm'.addEdge (hm₁.graph.lies_moved hout hs hd ht)
  · exact Course.ensures_pure hm

end Merging

/-! ## All mergers

In the first pass both nodes stand under aspects of one action, so they are entities because no edge
enters an action. In the second pass one of the two is found by its object, and for that no action
may carry one. -/

/-- A merger begins with nothing forwarded. -/
theorem mergeInto_shaped (h : Shaped o A g) {src dest : NodeId} (hs : A src = none)
    (hd : A dest = none) : (mergeInto o depth g s src dest).Ensures fun r => Shaped o A r.1 :=
  (Merging.merge_shaped ⟨h, fun _ _ hk => by cases hk⟩ hs hd).bind fun _ hm =>
    Course.ensures_pure hm.graph

/-- What fills an aspect of an action is an entity. -/
theorem filled_target (h : Shaped o A g) {action : NodeId} {side : Side} {i : String × Edge Link}
    (hi : i ∈ filled g action side) : A i.2.target = none := by
  obtain ⟨e, he, heq⟩ := List.mem_filterMap.1 (Table.mem_ofEntries hi)
  split at heq
  · obtain ⟨a, -, rfl⟩ := Option.map_eq_some_iff.1 heq
    exact (h.lies e (mem_outEdges.1 he).1).target
  · cases heq

/-- An input that is merged with an output keeps the shape. -/
theorem mergeFilled_shaped (h : Shaped o A g) {outputs : Table String (Edge Link)}
    (hout : ∀ i ∈ outputs, A i.2.target = none) (aspect : String) {input : Edge Link}
    (hin : A input.target = none) :
    (mergeFilled o depth outputs g s aspect input).Ensures fun r => Shaped o A r.1 := by
  unfold mergeFilled
  split
  · exact Course.ensures_pure h
  split
  · exact Course.ensures_pure h
  · rename_i output hat _
    exact mergeInto_shaped (h.removeEdge _) hin (hout _ (Table.mem_of_at? hat))

/-- All inputs of an action that are merged with its outputs keep the shape. -/
theorem mergeFilledOf_shaped (h : Shaped o A g) (action : NodeId) :
    (mergeFilledOf o depth g s action).Ensures fun r => Shaped o A r.1 :=
  Course.Ensures.foldlM (fun _ hr i hi =>
    mergeFilled_shaped hr (fun _ hi => filled_target h hi) i.1 (filled_target h hi)) h

/-- The first pass keeps the shape. -/
theorem mergeDuplicates_shaped (h : Shaped o A g) :
    (mergeDuplicates o depth g s).Ensures fun r => Shaped o A r.1 :=
  Course.Ensures.foldlM (fun _ hr action _ => mergeFilledOf_shaped hr action) h

/-- A search finds what some node says when it is visited. -/
theorem exists_visit_of_found {N E T : Type} {g : Graph N E} {start : NodeId} {d : Direction}
    {visit : NodeId → Nat → Verdict T} {follow : Edge E → Bool} {r : T}
    (h : (g.search start d visit follow).found = some r) : ∃ n k, visit n k = .stop r := by
  have hfrom : ∀ unseen queue, (g.searchFrom d visit follow unseen queue).found = some r →
      ∃ n k, visit n k = .stop r := by
    intro unseen queue h
    fun_induction searchFrom g d visit follow unseen queue with
    | case1 => cases h
    | case2 unseen id depth queue result hvisit =>
      obtain rfl := Option.some.inj h
      exact ⟨id, depth, hvisit⟩
    | case3 unseen id depth queue hvisit rest ih => exact ih h
    | case4 unseen id depth queue hvisit next reached state rest ih => exact ih h
  unfold search at h
  split at h
  · exact hfrom _ _ h
  · cases h

/-- What is found carries the same object, and no action carries one. -/
theorem sameObject?_entity (h : actions g = A) (hid : ∀ id n, A id = some n → n.id = none)
    {action entity found : NodeId} {side : Side}
    (hf : sameObject? g action entity side = some found) : A found = none := by
  obtain ⟨node, hnode, hf⟩ := Option.bind_eq_some_iff.1 hf
  obtain ⟨oid, hoid, hf⟩ := Option.bind_eq_some_iff.1 hf
  obtain ⟨n, k, hstop⟩ := exists_visit_of_found hf
  split at hstop
  · rename_i hsame
    obtain rfl := Verdict.stop.inj hstop
    obtain ⟨-, hany⟩ := Bool.and_eq_true_iff.1 hsame
    rw [Option.eq_none_iff_forall_ne_some]
    intro m hm
    have hnone := hid _ m hm
    obtain ⟨hm, -⟩ := actions_eq_some_iff.1 (h ▸ hm)
    rw [hm, Option.any_some, hnone] at hany
    cases hany
  · cases hstop

/-- An entity without an aspect that is merged with its like keeps the shape. -/
theorem mergeStranger_shaped (h : Shaped o A g) (hid : ∀ id n, A id = some n → n.id = none)
    (action : NodeId) {e : Edge Link} (he : A e.target = none) :
    (mergeStranger o depth action g s e).Ensures fun r => Shaped o A r.1 := by
  unfold mergeStranger
  split
  · exact Course.ensures_pure h
  split
  · exact Course.ensures_pure h
  split
  · exact Course.ensures_pure h
  · rename_i found hfound
    exact mergeInto_shaped (h.removeEdge _) he (sameObject?_entity h.actions_eq hid hfound)

/-- All entities without an aspect at an action that are merged with their like keep the shape. -/
theorem mergeStrangersOf_shaped (h : Shaped o A g) (hid : ∀ id n, A id = some n → n.id = none)
    (action : NodeId) : (mergeStrangersOf o depth g s action).Ensures fun r => Shaped o A r.1 :=
  Course.Ensures.foldlM (fun _ hr e he => mergeStranger_shaped hr hid action
    (h.lies e (mem_outEdges.1 (List.mem_of_mem_filter he)).1).target) h

/-- The second pass keeps the shape. -/
theorem mergeStrangers_shaped (h : Shaped o A g) (hid : ∀ id n, A id = some n → n.id = none) :
    (mergeStrangers o depth g s).Ensures fun r => Shaped o A r.1 :=
  Course.Ensures.foldlM (fun _ hr action _ => mergeStrangersOf_shaped hr hid action) h

end ObjectFlow.Semantic
