import ObjectFlow.Graph.Rewire
import ObjectFlow.Proofs.Graph.Path
import ObjectFlow.Proofs.Outcome

/-!
# Contraction is a quotient

Contracting distinct nodes of a graph to a new one does not fail (`contract_eq_ok`). The edges that
are left are the images of those with an end outside of the members (`step_contracted`), so that
paths afterwards are paths before, except that one may enter the members in one of them and go on
from another (`reaches_contracted`).

## Outline

1. Removing several nodes is one filter of the nodes and one of the edges (`nodes_removeNodes`,
   `edges_removeNodes`).
2. The edges across the boundary are collected member by member. An edge is listed as often as the
   member at which it crosses (`count_boundary`), so none is listed twice if the members are
   distinct. This is the only place where repeated members matter, and `contract_eq_restore` is
   therefore stated without that condition.
3. `contracted` is the graph that results. Its edges are described twice: as what stayed and what
   was moved (`mem_edges_contracted`), and by the map `image`, which sends every member to the new
   node and leaves all others (`exists_edge_contracted`).
4. Steps of the contracted graph are images of steps, and a path is followed step by step in both
   directions. A path may pass through the new node, and then the edge by which it comes and the one
   by which it goes on may belong to different members; this is the second case in
   `reaches_contracted`.

An acyclic graph stays acyclic if no path leaves the members and comes back (`Acyclic.contracted`):
any cycle would have to lead through the new node.
-/

namespace ObjectFlow.Graph

variable {N E : Type}

/-! ## Removing several nodes

 -/

/-- The graph without some of its nodes and the edges at them. -/
def removeNodes (g : Graph N E) (ids : List NodeId) : Graph N E := ids.foldl removeNode g

@[simp] theorem removeNodes_cons (g : Graph N E) (id : NodeId) (ids : List NodeId) :
    g.removeNodes (id :: ids) = (g.removeNode id).removeNodes ids := rfl

theorem WellFormed.removeNodes {g : Graph N E} (h : g.WellFormed) (ids : List NodeId) :
    (g.removeNodes ids).WellFormed := by
  induction ids generalizing g with
  | nil => exact h
  | cons id ids ih => exact ih (h.removeNode id)

/-- All other nodes stay. -/
theorem mem_nodeIds_removeNodes {g : Graph N E} {ids : List NodeId} {n : NodeId} :
    n ∈ (g.removeNodes ids).nodeIds ↔ n ∈ g.nodeIds ∧ n ∉ ids := by
  induction ids generalizing g with
  | nil => simp [removeNodes]
  | cons id ids ih =>
    rw [removeNodes_cons, ih, nodeIds_removeNode, List.mem_filter, List.mem_cons, not_or, and_assoc]
    simp

theorem nodes_removeNodes (g : Graph N E) (ids : List NodeId) :
    (g.removeNodes ids).nodes = g.nodes.filter fun n => n.1 ∉ ids := by
  induction ids generalizing g with
  | nil => simp [removeNodes]
  | cons id ids ih =>
    rw [removeNodes_cons, ih, nodes_removeNode, List.filter_filter]
    exact List.filter_congr fun n _ => by simp [not_or, Bool.and_comm]

@[simp] theorem metadata_removeNodes (g : Graph N E) (ids : List NodeId) :
    (g.removeNodes ids).metadata = g.metadata := by
  induction ids generalizing g with
  | nil => rfl
  | cons id ids ih => rw [removeNodes_cons, ih, metadata_removeNode]

theorem edges_removeNodes {g : Graph N E} (h : g.WellFormed) (ids : List NodeId) :
    (g.removeNodes ids).edges = g.edges.filter fun e => e.source ∉ ids ∧ e.target ∉ ids := by
  induction ids generalizing g with
  | nil => simp [removeNodes]
  | cons id ids ih =>
    rw [removeNodes_cons, ih (h.removeNode id), edges_removeNode h, List.filter_filter]
    refine List.filter_congr fun e _ => ?_
    simp only [← Bool.decide_and, List.mem_cons, not_or]
    exact decide_eq_decide.2 (by tauto)

theorem mem_edges_removeNodes {g : Graph N E} (h : g.WellFormed) {ids : List NodeId}
    {e : Edge E} :
    e ∈ (g.removeNodes ids).edges ↔ e ∈ g.edges ∧ e.source ∉ ids ∧ e.target ∉ ids := by
  simp [edges_removeNodes h]

theorem node?_removeNodes {g : Graph N E} {ids : List NodeId} {n : NodeId} (h : n ∉ ids) :
    (g.removeNodes ids).node? n = g.node? n := by
  induction ids generalizing g with
  | nil => rfl
  | cons id ids ih =>
    rw [List.mem_cons, not_or] at h
    rw [removeNodes_cons, ih h.2, node?_removeNode_of_ne g h.1]

theorem Before.removeNodes {g : Graph N E} {s : Supply} (h : g.Before s) (ids : List NodeId) :
    (g.removeNodes ids).Before s := by
  induction ids generalizing g with
  | nil => exact h
  | cons id ids ih => exact ih (h.removeNode id)

/-! ## The edges across the boundary

Every member contributes the edges that come to it from outside and those that leave it for outside,
with the new node in its place. An edge with both ends among the members is not listed, and one with
just one end there is listed once for each time that this member is. -/

theorem mem_boundary {g : Graph N E} {members : List NodeId} {hub : NodeId} {e' : Edge E} :
    e' ∈ g.boundary members hub ↔
      (∃ e ∈ g.edges, e.target ∈ members ∧ e.source ∉ members ∧ e' = { e with target := hub }) ∨
      ∃ e ∈ g.edges, e.source ∈ members ∧ e.target ∉ members ∧ e' = { e with source := hub } := by
  simp only [boundary, List.mem_flatMap, List.mem_append, List.mem_map, List.mem_filter,
    mem_inEdges, mem_outEdges, Bool.not_eq_true', List.contains_eq_mem, decide_eq_false_iff_not]
  constructor
  · rintro ⟨m, hm, ⟨e, ⟨⟨he, rfl⟩, hs⟩, rfl⟩ | ⟨e, ⟨⟨he, rfl⟩, ht⟩, rfl⟩⟩
    · exact .inl ⟨e, he, hm, hs, rfl⟩
    · exact .inr ⟨e, he, hm, ht, rfl⟩
  · rintro (⟨e, he, hm, hs, rfl⟩ | ⟨e, he, hm, ht, rfl⟩)
    · exact ⟨e.target, hm, .inl ⟨e, ⟨⟨he, rfl⟩, hs⟩, rfl⟩⟩
    · exact ⟨e.source, hm, .inr ⟨e, ⟨⟨he, rfl⟩, ht⟩, rfl⟩⟩

/-- Just one end of the edge is among the members, namely this one. -/
def CrossesAt (members : List NodeId) (e : Edge E) (m : NodeId) : Prop :=
  m ∈ members ∧ ((e.target = m ∧ e.source ∉ members) ∨ (e.source = m ∧ e.target ∉ members))

theorem exists_crossesAt_of_mem_boundary {g : Graph N E} {members : List NodeId} {hub : NodeId}
    {e' : Edge E} (he' : e' ∈ g.boundary members hub) :
    ∃ e ∈ g.edges, e.id = e'.id ∧ ∃ m, CrossesAt members e m := by
  rcases mem_boundary.1 he' with ⟨e, he, hm, hs, rfl⟩ | ⟨e, he, hm, ht, rfl⟩
  · exact ⟨e, he, rfl, e.target, hm, .inl ⟨rfl, hs⟩⟩
  · exact ⟨e, he, rfl, e.source, hm, .inr ⟨rfl, ht⟩⟩

/-- An edge across the boundary is listed as often as the member at its end. -/
theorem count_boundary {g : Graph N E} (h : g.WellFormed) {members : List NodeId} (hub : NodeId)
    {e : Edge E} (he : e ∈ g.edges) {m : NodeId} (hc : CrossesAt members e m) :
    ((g.boundary members hub).map Edge.id).count e.id = members.count m := by
  have hids : (g.boundary members hub).map Edge.id = members.flatMap fun m =>
      (g.edges.filter fun e => !members.contains e.source && e.target = m).map Edge.id ++
        (g.edges.filter fun e => !members.contains e.target && e.source = m).map Edge.id := by
    simp [boundary, inEdges, outEdges, List.map_flatMap, Function.comp_def, List.filter_filter]
  have hone : ∀ m', (if (!members.contains e.source && decide (e.target = m')) = true then 1 else 0)
      + (if (!members.contains e.target && decide (e.source = m')) = true then 1 else 0) =
      if m' = m then 1 else 0 := by
    intro m'
    obtain ⟨hm, ⟨rfl, hs⟩ | ⟨rfl, ht⟩⟩ := hc
    · simp [hm, hs, eq_comm]
    · simp [hm, ht, eq_comm]
  have hsum : ∀ ms : List NodeId, (ms.map fun m' => if m' = m then 1 else 0).sum = ms.count m := by
    intro ms
    induction ms with
    | nil => rfl
    | cons m' ms ih => simp [List.count_cons, ih, Nat.add_comm]
  rw [hids, List.count_flatMap, ← hsum]
  refine congrArg List.sum (List.map_congr_left fun m' _ => ?_)
  rw [Function.comp_apply, List.count_append, h.count_id_filter he, h.count_id_filter he, hone]

/-- No edge is listed twice just if no member is listed twice that an edge crosses at. -/
theorem nodup_boundary_iff {g : Graph N E} (h : g.WellFormed) {members : List NodeId}
    {hub : NodeId} : ((g.boundary members hub).map Edge.id).Nodup ↔
      ∀ e ∈ g.edges, ∀ m, CrossesAt members e m → members.count m ≤ 1 := by
  rw [List.nodup_iff_count_le_one]
  constructor
  · intro hle e he m hc
    exact count_boundary h hub he hc ▸ hle e.id
  · intro hle i
    by_cases hi : i ∈ (g.boundary members hub).map Edge.id
    · obtain ⟨e', he', rfl⟩ := List.mem_map.1 hi
      obtain ⟨e, he, hid, m, hc⟩ := exists_crossesAt_of_mem_boundary he'
      rw [← hid, count_boundary h hub he hc]
      exact hle e he m hc
    · rw [List.count_eq_zero_of_not_mem hi]
      exact Nat.zero_le 1

/-- Distinct members list no edge twice. -/
theorem nodup_boundary {g : Graph N E} (h : g.WellFormed) {members : List NodeId}
    (hd : members.Nodup) (hub : NodeId) : ((g.boundary members hub).map Edge.id).Nodup :=
  (nodup_boundary_iff h).2 fun _ _ m _ => List.nodup_iff_count_le_one.1 hd m

/-- Edges that can all be added are put back. -/
theorem restore_eq_ok {g g' : Graph N E} {es : List (Edge E)} (h : g.addEdges es = .ok g') :
    g.restore es = .ok g' := by
  induction es generalizing g with
  | nil =>
    cases h
    rfl
  | cons e es ih =>
    rw [addEdges, List.foldlM_cons] at h
    obtain ⟨g₁, h₁, h₂⟩ := Outcome.bind_eq_ok_iff.1 h
    rw [restore, h₁]
    exact ih h₂

/-! ## The contracted graph

What the program returns is computed by adding a node, removing others and putting edges back; here
it is shown to be `contracted`, which is put together by total operations. -/

/-- Some nodes of a graph and a node that is not in it. -/
structure Contractible (g : Graph N E) (members : List NodeId) (hub : NodeId) : Prop where
  nodup : members.Nodup
  mem : ∀ m ∈ members, m ∈ g.nodeIds
  hub_new : hub ∉ g.nodeIds

theorem Contractible.hub_not_mem {g : Graph N E} {members : List NodeId} {hub : NodeId}
    (h : g.Contractible members hub) : hub ∉ members := fun hm => h.hub_new (h.mem hub hm)

/-- The graph with a new node in the place of some nodes. -/
def contracted (g : Graph N E) (members : List NodeId) (hub : NodeId) (x : N) : Graph N E :=
  ((g.attachNode hub x).removeNodes members).withEdges (g.boundary members hub)

variable {g : Graph N E} {members : List NodeId} {hub : NodeId}

/-- Before the edges are put back, the new node is there and the members are gone. -/
theorem mem_nodeIds_vacated (hmem : ∀ m ∈ members, m ∈ g.nodeIds) (hhub : hub ∉ g.nodeIds) (x : N)
    {n : NodeId} : n ∈ ((g.attachNode hub x).removeNodes members).nodeIds ↔
      n = hub ∨ n ∈ g.nodeIds ∧ n ∉ members := by
  rw [mem_nodeIds_removeNodes, nodeIds_attachNode, List.mem_append, List.mem_singleton]
  constructor
  · rintro ⟨hn | rfl, hm⟩
    · exact .inr ⟨hn, hm⟩
    · exact .inl rfl
  · rintro (rfl | ⟨hn, hm⟩)
    · exact ⟨.inr rfl, fun hm => hhub (hmem n hm)⟩
    · exact ⟨.inl hn, hm⟩

theorem mem_nodeIds_contracted (hc : g.Contractible members hub) (x : N) {n : NodeId} :
    n ∈ (g.contracted members hub x).nodeIds ↔ n = hub ∨ n ∈ g.nodeIds ∧ n ∉ members :=
  mem_nodeIds_vacated hc.mem hc.hub_new x

theorem mem_edges_contracted (h : g.WellFormed) (hc : g.Contractible members hub) (x : N)
    {e : Edge E} :
    e ∈ (g.contracted members hub x).edges ↔
      (e ∈ g.edges ∧ e.source ∉ members ∧ e.target ∉ members) ∨ e ∈ g.boundary members hub := by
  rw [contracted, edges_withEdges, List.mem_append,
    mem_edges_removeNodes (h.attachNode x hc.hub_new), edges_attachNode]

theorem node?_contracted (x : N) {n : NodeId} (hn : n ∉ members) (hne : n ≠ hub) :
    (g.contracted members hub x).node? n = g.node? n := by
  rw [contracted, node?_withEdges, node?_removeNodes hn, node?_attachNode, if_neg (Ne.symm hne),
    Option.or_none]

theorem node?_hub_contracted (hc : g.Contractible members hub) (x : N) :
    (g.contracted members hub x).node? hub = some x := by
  rw [contracted, node?_withEdges, node?_removeNodes hc.hub_not_mem, node?_attachNode, if_pos rfl,
    node?_eq_none_iff.2 hc.hub_new]
  rfl

/-- What the edges across the boundary need in order to be added. -/
theorem boundary_fits (h : g.WellFormed) (hmem : ∀ m ∈ members, m ∈ g.nodeIds)
    (hhub : hub ∉ g.nodeIds) (x : N) :
    ∀ e ∈ g.boundary members hub,
      e.id ∉ ((g.attachNode hub x).removeNodes members).edges.map Edge.id ∧
      e.source ∈ ((g.attachNode hub x).removeNodes members).nodeIds ∧
      e.target ∈ ((g.attachNode hub x).removeNodes members).nodeIds := by
  have hw := h.attachNode x hhub
  have hids : ∀ n, n ∈ ((g.attachNode hub x).removeNodes members).nodeIds ↔
      n = hub ∨ n ∈ g.nodeIds ∧ n ∉ members := fun n => mem_nodeIds_vacated hmem hhub x
  have hleft : ∀ e ∈ g.edges, e.id ∈ ((g.attachNode hub x).removeNodes members).edges.map Edge.id →
      e.source ∉ members ∧ e.target ∉ members := fun e he hm =>
    ((mem_edges_removeNodes hw).1 ((h.id_mem_iff
      (fun _ hm => ((mem_edges_removeNodes hw).1 hm).1) he).1 hm)).2
  intro e' he'
  rcases mem_boundary.1 he' with ⟨e, he, ht, hs, rfl⟩ | ⟨e, he, hs, ht, rfl⟩
  · exact ⟨fun hm => (hleft e he hm).2 ht, (hids _).2 (.inr ⟨h.source_mem e he, hs⟩),
      (hids _).2 (.inl rfl)⟩
  · exact ⟨fun hm => (hleft e he hm).1 hs, (hids _).2 (.inl rfl),
      (hids _).2 (.inr ⟨h.target_mem e he, ht⟩)⟩

/-- What is left to do once a contraction is not refused at the start. -/
theorem contract_eq_restore (hmem : ∀ m ∈ members, m ∈ g.nodeIds) (hhub : hub ∉ g.nodeIds)
    (x : N) : g.contract members hub x =
      ((g.attachNode hub x).removeNodes members).restore (g.boundary members hub) := by
  have hfind : (members.find? fun m => !g.hasNode m) = none := by
    refine List.find?_eq_none.2 fun m hm => ?_
    simp [hasNode_iff.2 (hmem m hm)]
  rw [contract, if_neg (by rwa [hasNode_iff]), hfind]
  rfl

/-- A contraction does not fail if no edge is listed twice, whatever the members are. -/
theorem contract_eq_ok_of_nodup (h : g.WellFormed) (hmem : ∀ m ∈ members, m ∈ g.nodeIds)
    (hhub : hub ∉ g.nodeIds) (x : N) (hd : ((g.boundary members hub).map Edge.id).Nodup) :
    g.contract members hub x = .ok (g.contracted members hub x) := by
  have hfits := boundary_fits h hmem hhub x
  rw [contract_eq_restore hmem hhub]
  exact restore_eq_ok (addEdges_eq_ok hd (fun e he => (hfits e he).1)
    (fun e he => (hfits e he).2.1) fun e he => (hfits e he).2.2)

/-- Distinct nodes can be contracted to a new one. -/
theorem contract_eq_ok (h : g.WellFormed) (hc : g.Contractible members hub) (x : N) :
    g.contract members hub x = .ok (g.contracted members hub x) :=
  contract_eq_ok_of_nodup h hc.mem hc.hub_new x (nodup_boundary h hc.nodup hub)

theorem WellFormed.contracted (h : g.WellFormed) (hc : g.Contractible members hub) (x : N) :
    (g.contracted members hub x).WellFormed := by
  have hfits := boundary_fits h hc.mem hc.hub_new x
  exact ((h.attachNode x hc.hub_new).removeNodes members).withEdges
    (nodup_boundary h hc.nodup hub) (fun e he => (hfits e he).1) (fun e he => (hfits e he).2.1)
    fun e he => (hfits e he).2.2

theorem Before.contracted {s : Supply} (hb : g.Before s) (members : List NodeId) (x : N) :
    (g.contracted members s.node.1 x).Before s.node.2 := by
  refine ((hb.attachNode x).removeNodes members).withEdges (Nat.le_refl _) fun e' he' => ?_
  rcases mem_boundary.1 he' with ⟨e, he, -, -, rfl⟩ | ⟨e, he, -, -, rfl⟩
  · exact Nat.lt_succ_of_lt (hb.edge_lt e he)
  · exact Nat.lt_succ_of_lt (hb.edge_lt e he)

/-! ## Paths

A step between nodes that are no members is the same before and afterwards. One to the new node
comes from a step to some member, and one from the new node goes on from some member. -/

/-- The node that stands for a node after a contraction. -/
def image (members : List NodeId) (hub n : NodeId) : NodeId := if n ∈ members then hub else n

theorem image_of_mem {n : NodeId} (h : n ∈ members) : image members hub n = hub := if_pos h

theorem image_of_not_mem {n : NodeId} (h : n ∉ members) : image members hub n = n := if_neg h

/-- Only the members are sent to the new node. -/
theorem Contractible.mem_of_image (hc : g.Contractible members hub) {n : NodeId}
    (heq : image members hub n = hub) (hn : n ∈ g.nodeIds) : n ∈ members := by
  by_contra hm
  rw [image_of_not_mem hm] at heq
  exact hc.hub_new (heq ▸ hn)

theorem eq_of_image {n n' : NodeId} (heq : image members hub n = n') (hne : n' ≠ hub) :
    n ∉ members ∧ n = n' := by
  have hn : n ∉ members := fun hm => hne (heq ▸ image_of_mem hm)
  exact ⟨hn, (image_of_not_mem hn).symm.trans heq⟩

/-- An edge runs between the images of its ends, unless both are members. -/
theorem exists_edge_contracted (h : g.WellFormed) (hc : g.Contractible members hub) (x : N)
    {u' v' : NodeId} {t : E} :
    (∃ e ∈ (g.contracted members hub x).edges, e.source = u' ∧ e.target = v' ∧ e.data = t) ↔
      ∃ e ∈ g.edges, ¬ (e.source ∈ members ∧ e.target ∈ members) ∧
        image members hub e.source = u' ∧ image members hub e.target = v' ∧ e.data = t := by
  constructor
  · rintro ⟨e', he', rfl, rfl, rfl⟩
    rcases (mem_edges_contracted h hc x).1 he' with ⟨he, hs, ht⟩ | he'
    · exact ⟨e', he, fun hm => hs hm.1, image_of_not_mem hs, image_of_not_mem ht, rfl⟩
    · rcases mem_boundary.1 he' with ⟨e, he, ht, hs, rfl⟩ | ⟨e, he, hs, ht, rfl⟩
      · exact ⟨e, he, fun hm => hs hm.1, image_of_not_mem hs, image_of_mem ht, rfl⟩
      · exact ⟨e, he, fun hm => ht hm.2, image_of_mem hs, image_of_not_mem ht, rfl⟩
  · rintro ⟨e, he, hm, rfl, rfl, rfl⟩
    by_cases hs : e.source ∈ members <;> by_cases ht : e.target ∈ members
    · exact absurd ⟨hs, ht⟩ hm
    · rw [image_of_mem hs, image_of_not_mem ht]
      exact ⟨{ e with source := hub }, (mem_edges_contracted h hc x).2
        (.inr (mem_boundary.2 (.inr ⟨e, he, hs, ht, rfl⟩))), rfl, rfl, rfl⟩
    · rw [image_of_not_mem hs, image_of_mem ht]
      exact ⟨{ e with target := hub }, (mem_edges_contracted h hc x).2
        (.inr (mem_boundary.2 (.inl ⟨e, he, ht, hs, rfl⟩))), rfl, rfl, rfl⟩
    · rw [image_of_not_mem hs, image_of_not_mem ht]
      exact ⟨e, (mem_edges_contracted h hc x).2 (.inl ⟨he, hs, ht⟩), rfl, rfl, rfl⟩

/-- Steps are the images of steps that do not stay within the members. -/
theorem step_contracted (h : g.WellFormed) (hc : g.Contractible members hub) (x : N)
    {u' v' : NodeId} :
    (g.contracted members hub x).Step u' v' ↔ ∃ u v, g.Step u v ∧ ¬ (u ∈ members ∧ v ∈ members) ∧
      image members hub u = u' ∧ image members hub v = v' := by
  constructor
  · rintro ⟨e', he', hs, ht⟩
    obtain ⟨e, he, hm, hs, ht, -⟩ :=
      (exists_edge_contracted h hc x (t := e'.data)).1 ⟨e', he', hs, ht, rfl⟩
    exact ⟨_, _, .of_mem he, hm, hs, ht⟩
  · rintro ⟨u, v, ⟨e, he, rfl, rfl⟩, hm, hs, ht⟩
    obtain ⟨e', he', hs, ht, -⟩ := (exists_edge_contracted h hc x).2 ⟨e, he, hm, hs, ht, rfl⟩
    exact ⟨e', he', hs, ht⟩

theorem step_contracted_outer (h : g.WellFormed) (hc : g.Contractible members hub) (x : N)
    {u v : NodeId} (hu : u ∉ members) (huh : u ≠ hub) (hv : v ∉ members) (hvh : v ≠ hub) :
    (g.contracted members hub x).Step u v ↔ g.Step u v := by
  rw [step_contracted h hc]
  constructor
  · rintro ⟨a, b, hab, -, ha, hb⟩
    obtain ⟨-, rfl⟩ := eq_of_image ha huh
    obtain ⟨-, rfl⟩ := eq_of_image hb hvh
    exact hab
  · intro hs
    exact ⟨u, v, hs, fun hm => hu hm.1, image_of_not_mem hu, image_of_not_mem hv⟩

theorem step_contracted_hub (h : g.WellFormed) (hc : g.Contractible members hub) (x : N)
    {u : NodeId} (hu : u ∉ members) (huh : u ≠ hub) :
    (g.contracted members hub x).Step u hub ↔ ∃ m ∈ members, g.Step u m := by
  rw [step_contracted h hc]
  constructor
  · rintro ⟨a, b, hab, -, ha, hb⟩
    obtain ⟨-, rfl⟩ := eq_of_image ha huh
    exact ⟨b, hc.mem_of_image hb (h.step_mem hab).2, hab⟩
  · rintro ⟨m, hm, hs⟩
    exact ⟨u, m, hs, fun hm => hu hm.1, image_of_not_mem hu, image_of_mem hm⟩

theorem step_hub_contracted (h : g.WellFormed) (hc : g.Contractible members hub) (x : N)
    {v : NodeId} (hv : v ∉ members) (hvh : v ≠ hub) :
    (g.contracted members hub x).Step hub v ↔ ∃ m ∈ members, g.Step m v := by
  rw [step_contracted h hc]
  constructor
  · rintro ⟨a, b, hab, -, ha, hb⟩
    obtain ⟨-, rfl⟩ := eq_of_image hb hvh
    exact ⟨a, hc.mem_of_image ha (h.step_mem hab).1, hab⟩
  · rintro ⟨m, hm, hs⟩
    exact ⟨m, v, hs, fun hm => hv hm.2, image_of_mem hm, image_of_not_mem hv⟩

/-- Edges between members are gone, so the new node has no loop. -/
theorem not_step_hub_hub (h : g.WellFormed) (hc : g.Contractible members hub) (x : N) :
    ¬ (g.contracted members hub x).Step hub hub := by
  rw [step_contracted h hc]
  rintro ⟨a, b, hab, hm, ha, hb⟩
  exact hm ⟨hc.mem_of_image ha (h.step_mem hab).1, hc.mem_of_image hb (h.step_mem hab).2⟩

/-- A path ends at the image of its end, unless it stays within the members. -/
theorem Reaches.image_or (h : g.WellFormed) (hc : g.Contractible members hub) (x : N)
    {u v : NodeId} (hr : g.Reaches u v) :
    Relation.ReflTransGen (g.contracted members hub x).Step (image members hub u)
      (image members hub v) := by
  have hstep : ∀ {u v}, g.Step u v → Relation.ReflTransGen (g.contracted members hub x).Step
      (image members hub u) (image members hub v) := by
    intro u v hs
    by_cases hm : u ∈ members ∧ v ∈ members
    · rw [image_of_mem hm.1, image_of_mem hm.2]
    · exact .single ((step_contracted h hc x).2 ⟨u, v, hs, hm, rfl, rfl⟩)
  induction hr with
  | single hs => exact hstep hs
  | tail _ hs ih => exact ih.trans (hstep hs)

/-- A path from outside of the members does not stay within them. -/
theorem Reaches.contracted_of_not_mem (h : g.WellFormed) (hc : g.Contractible members hub) (x : N)
    {u v : NodeId} (hr : g.Reaches u v) (hu : u ∉ members) :
    (g.contracted members hub x).Reaches u (image members hub v) := by
  obtain ⟨w, hs, hw⟩ := reaches_iff_head.1 hr
  have hfirst : (g.contracted members hub x).Step u (image members hub w) :=
    (step_contracted h hc x).2 ⟨u, w, hs, fun hm => hu hm.1, image_of_not_mem hu, rfl⟩
  rcases hw with rfl | hw
  · exact hfirst.reaches
  · exact Relation.TransGen.head' hfirst (hw.image_or h hc x)

theorem Reaches.contracted_of_not_mem_right (h : g.WellFormed) (hc : g.Contractible members hub)
    (x : N) {u v : NodeId} (hr : g.Reaches u v) (hv : v ∉ members) :
    (g.contracted members hub x).Reaches (image members hub u) v := by
  obtain ⟨w, hw, hs⟩ := Relation.TransGen.tail'_iff.1 hr
  have hlast : (g.contracted members hub x).Step (image members hub w) v :=
    (step_contracted h hc x).2 ⟨w, v, hs, fun hm => hv hm.2, rfl, image_of_not_mem hv⟩
  rcases Relation.reflTransGen_iff_eq_or_transGen.1 hw with rfl | hw
  · exact hlast.reaches
  · exact Relation.TransGen.tail' (Reaches.image_or h hc x hw) hlast

/-- What is reached from outside of the members, whose path may lead through them. -/
theorem reaches_of_contracted (h : g.WellFormed) (hc : g.Contractible members hub) (x : N)
    {u z : NodeId} (hu : u ∉ members) (hne : u ≠ hub)
    (hr : (g.contracted members hub x).Reaches u z) :
    (z = hub → ∃ m ∈ members, g.Reaches u m) ∧
      (z ≠ hub → g.Reaches u z ∨ ∃ m ∈ members, ∃ m' ∈ members, g.Reaches u m ∧ g.Reaches m' z) := by
  induction hr with
  | single hs =>
    obtain ⟨a, b, hab, -, ha, hb⟩ := (step_contracted h hc x).1 hs
    obtain ⟨-, rfl⟩ := eq_of_image ha hne
    refine ⟨fun heq => ⟨b, hc.mem_of_image (hb.trans heq) (h.step_mem hab).2, hab.reaches⟩,
      fun hz => ?_⟩
    obtain ⟨-, rfl⟩ := eq_of_image hb hz
    exact .inl hab.reaches
  | @tail y z hy hs ih =>
    obtain ⟨a, b, hab, -, ha, hb⟩ := (step_contracted h hc x).1 hs
    by_cases hyh : y = hub
    · have ham := hc.mem_of_image (ha.trans hyh) (h.step_mem hab).1
      obtain ⟨m, hm, hum⟩ := ih.1 hyh
      refine ⟨fun _ => ⟨m, hm, hum⟩, fun hz => ?_⟩
      obtain ⟨-, rfl⟩ := eq_of_image hb hz
      exact .inr ⟨m, hm, a, ham, hum, hab.reaches⟩
    · obtain ⟨-, rfl⟩ := eq_of_image ha hyh
      refine ⟨fun hz => ?_, fun hz => ?_⟩
      · have hbm := hc.mem_of_image (hb.trans hz) (h.step_mem hab).2
        rcases ih.2 hyh with hr | ⟨m, hm, -, -, hum, -⟩
        · exact ⟨b, hbm, hr.trans hab.reaches⟩
        · exact ⟨m, hm, hum⟩
      · obtain ⟨-, rfl⟩ := eq_of_image hb hz
        rcases ih.2 hyh with hr | ⟨m, hm, m', hm', hum, hr⟩
        · exact .inl (hr.trans hab.reaches)
        · exact .inr ⟨m, hm, m', hm', hum, hr.trans hab.reaches⟩

/-- What is reached from the new node is reached from some member. -/
theorem reaches_of_contracted_hub (h : g.WellFormed) (hc : g.Contractible members hub) (x : N)
    {z : NodeId} (hz : z ≠ hub) (hr : (g.contracted members hub x).Reaches hub z) :
    ∃ m ∈ members, g.Reaches m z := by
  -- the last time that the path is at the new node, it goes on from a member
  have key : ∀ {z}, (g.contracted members hub x).Reaches hub z → z ≠ hub →
      ∃ m ∈ members, g.Reaches m z := by
    intro z hr
    induction hr with
    | single hs =>
      intro hz
      obtain ⟨a, b, hab, -, ha, hb⟩ := (step_contracted h hc x).1 hs
      exact ⟨a, hc.mem_of_image ha (h.step_mem hab).1, (eq_of_image hb hz).2 ▸ hab.reaches⟩
    | @tail y z hy hs ih =>
      intro hz
      obtain ⟨a, b, hab, -, ha, hb⟩ := (step_contracted h hc x).1 hs
      obtain ⟨-, rfl⟩ := eq_of_image hb hz
      by_cases hyh : y = hub
      · exact ⟨a, hc.mem_of_image (ha.trans hyh) (h.step_mem hab).1, hab.reaches⟩
      · obtain ⟨m, hm, hr⟩ := ih hyh
        exact ⟨m, hm, hr.trans ((eq_of_image ha hyh).2 ▸ hab.reaches)⟩
  exact key hr hz

/--
Between nodes outside of the members there is a path afterwards just if there was one before, or
one to some member and one from some member.
-/
theorem reaches_contracted (h : g.WellFormed) (hc : g.Contractible members hub) (x : N)
    {u v : NodeId} (hu : u ∉ members) (huh : u ≠ hub) (hv : v ∉ members) (hvh : v ≠ hub) :
    (g.contracted members hub x).Reaches u v ↔ g.Reaches u v ∨
      ∃ m ∈ members, ∃ m' ∈ members, g.Reaches u m ∧ g.Reaches m' v := by
  refine ⟨fun hr => (reaches_of_contracted h hc x hu huh hr).2 hvh, ?_⟩
  rintro (hr | ⟨m, hm, m', hm', hum, hmv⟩)
  · exact image_of_not_mem hv ▸ hr.contracted_of_not_mem h hc x hu
  · have hin := hum.contracted_of_not_mem h hc x hu
    have hout := hmv.contracted_of_not_mem_right h hc x hv
    rw [image_of_mem hm] at hin
    rw [image_of_mem hm'] at hout
    exact hin.trans hout

/-- The new node is reached from where a member was reached. -/
theorem reaches_contracted_hub (h : g.WellFormed) (hc : g.Contractible members hub) (x : N)
    {u : NodeId} (hu : u ∉ members) (huh : u ≠ hub) :
    (g.contracted members hub x).Reaches u hub ↔ ∃ m ∈ members, g.Reaches u m := by
  refine ⟨fun hr => (reaches_of_contracted h hc x hu huh hr).1 rfl, ?_⟩
  rintro ⟨m, hm, hr⟩
  have hin := hr.contracted_of_not_mem h hc x hu
  rwa [image_of_mem hm] at hin

/-- The new node reaches what a member reached. -/
theorem reaches_hub_contracted (h : g.WellFormed) (hc : g.Contractible members hub) (x : N)
    {v : NodeId} (hv : v ∉ members) (hvh : v ≠ hub) :
    (g.contracted members hub x).Reaches hub v ↔ ∃ m ∈ members, g.Reaches m v := by
  refine ⟨reaches_of_contracted_hub h hc x hvh, ?_⟩
  rintro ⟨m, hm, hr⟩
  have hout := hr.contracted_of_not_mem_right h hc x hv
  rwa [image_of_mem hm] at hout

/-- A graph stays acyclic if no path leaves the members and comes back to them. -/
theorem Acyclic.contracted (ha : g.Acyclic) (h : g.WellFormed) (hc : g.Contractible members hub)
    (hconvex : ∀ m ∈ members, ∀ m' ∈ members, ∀ n ∉ members, g.Reaches m n → ¬ g.Reaches n m')
    (x : N) : (g.contracted members hub x).Acyclic := by
  have hself : ∀ u, u ∉ members → u ≠ hub → ¬ (g.contracted members hub x).Reaches u u := by
    intro u hu huh hr
    rcases (reaches_contracted h hc x hu huh hu huh).1 hr with hr | ⟨m, hm, m', hm', hum, hmu⟩
    · exact ha u hr
    · exact hconvex m' hm' m hm u hu hmu hum
  intro u hr
  by_cases huh : u = hub
  · -- a cycle through the new node leads over some other node
    subst huh
    obtain ⟨w, hs, hw⟩ := reaches_iff_head.1 hr
    have hwh : w ≠ u := by
      rintro rfl
      exact not_step_hub_hub h hc x hs
    have hwr := hw.resolve_left hwh
    have hmem := (h.contracted hc x).reaches_mem hwr
    rcases (mem_nodeIds_contracted hc x).1 hmem.1 with hwu | ⟨-, hwm⟩
    · exact hwh hwu
    · exact hself w hwm hwh (hwr.trans hs.reaches)
  · rcases (mem_nodeIds_contracted hc x).1 ((h.contracted hc x).reaches_mem hr).1 with
      hu | ⟨-, hum⟩
    · exact huh hu
    · exact hself u hum huh hr

end ObjectFlow.Graph
