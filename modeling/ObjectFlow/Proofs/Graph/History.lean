import ObjectFlow.Proofs.Graph.Refine

/-!
# Courses of commands on a stored graph

Whatever is done to it, a stored graph answers as the lists of its nodes and edges do
(`stored_refines`). The only condition is that identities which are made up on the way are new.

## Outline

The two sides are an indexed graph over some library of slots, and a graph of lists. They were
related by `Agrees` for single changes; here this is carried to commands, which are made of several
changes and may be refused on the way.

1. Two changes have the same end if both go through and the results agree, or both are refused for
   one reason and what they leave behind agrees (`SameEnd`). Each command has the same end on both
   sides (`Agrees.apply`). For a contraction, which may stop half way, this includes what it left
   behind.
2. By induction along the course of commands both sides agree at its end (`exists_stored`).
3. What was taken out stays out until some command may add it again (`Lost`). That is shown for the
   lists alone: no command adds anything but what it names (`within_apply`).
-/

namespace ObjectFlow

open ObjectFlow.Graph (Command Answer History)

variable {S : Type → Type → Type} [Slots S] {N E : Type}

namespace Graph

/-- The identities that a command makes up are new to the graph. -/
def Command.Fresh (g : Graph N E) : Command N E → Prop
  | .newNode id _ => id ∉ g.nodeIds
  | .insertBefore _ _ _ link _ => link.1 ∉ g.edges.map Edge.id
  | .insertAfter _ _ _ link _ => link.1 ∉ g.edges.map Edge.id
  | _ => True

/-- The identities under which a command may add nodes. -/
def Command.nodesAdded : Command N E → List NodeId
  | .newNode id _ => [id]
  | .addNode id _ => [id]
  | .contract _ hub _ => [hub]
  | .insertBefore _ hub _ _ _ => [hub]
  | .insertAfter _ hub _ _ _ => [hub]
  | _ => []

/-- The identities under which a command may add edges that were not there. -/
def Command.edgesAdded : Command N E → List EdgeId
  | .addEdge e => [e.id]
  | .insertBefore _ _ _ link _ => [link.1]
  | .insertAfter _ _ _ link _ => [link.1]
  | _ => []

/-- Every command of the course makes up new identities only. -/
def History.Fresh {N E : Type} : History N E → Prop
  | .start => True
  | .next h c => h.Fresh ∧ c.Fresh h.plain
  | .copy h _ _ => h.Fresh

/--
An identity was in the graph until a command took it out, and no later one may put it in again.
-/
inductive History.Lost {κ : Type} (ids : (N E : Type) → Graph N E → List κ)
    (added : (N E : Type) → Command N E → List κ) (id : κ) : {N E : Type} → History N E → Prop where
  | removed {N E : Type} {h : History N E} {c : Command N E} :
    id ∈ ids N E h.plain → id ∉ ids N E (h.next c).plain → Lost ids added id (h.next c)
  | next {N E : Type} {h : History N E} {c : Command N E} :
    Lost ids added id h → id ∉ added N E c → Lost ids added id (h.next c)
  | copy {N E N' E' : Type} {h : History N E} {onNode : NodeId → N → N'} {onEdge : Edge E → E'} :
    Lost ids added id h → Lost ids added id (h.copy onNode onEdge)

/-- The node was removed and no later command may add one under its identity. -/
def History.LostNode (h : History N E) (id : NodeId) : Prop :=
  h.Lost (fun _ _ => nodeIds) (fun _ _ => Command.nodesAdded) id

/-- The edge was removed and no later command may add one under its identity. -/
def History.LostEdge (h : History N E) (id : EdgeId) : Prop :=
  h.Lost (fun _ _ g => g.edges.map Edge.id) (fun _ _ => Command.edgesAdded) id

end Graph

namespace Indexed

/-- Both changes went through or both were refused for one reason, and the graphs agree. -/
inductive SameEnd :
    Except (Stopped S N E) (Indexed S N E) → Except (Interrupted N E) (Graph N E) → Prop where
  | ok {x : Indexed S N E} {g : Graph N E} : x.Agrees g → SameEnd (.ok x) (.ok g)
  | error {cause : GraphError} {x : Indexed S N E} {g : Graph N E} :
    x.Agrees g → SameEnd (.error ⟨cause, x⟩) (.error ⟨cause, g⟩)

/-- A refusal that left the graph as it was. -/
abbrev unchanged (g : Graph N E) (r : Except GraphError (Graph N E)) :
    Except (Interrupted N E) (Graph N E) :=
  r.mapError fun cause => ⟨cause, g⟩

variable [LawfulSlots S] {x : Indexed S N E} {g : Graph N E}

/-- A node is added on both sides, or refused on both. -/
theorem Agrees.addNode (h : x.Agrees g) (id : NodeId) (data : N) :
    SameEnd (x.addNode id data) (unchanged g (g.addNode id data)) := by
  unfold Indexed.addNode Graph.addNode
  rw [h.hasNode]
  split
  · exact .error h
  · rename_i hid
    exact .ok (h.insertNode (fun hm => hid (Graph.hasNode_iff.2 hm)) data)

/-- An edge is added on both sides, or refused on both. -/
theorem Agrees.addEdge (h : x.Agrees g) (e : Edge E) :
    SameEnd (x.addEdge e) (unchanged g (g.addEdge e)) := by
  unfold Indexed.addEdge Graph.addEdge
  rw [h.hasEdge]
  split
  · exact .error h
  · rename_i hid
    have hs := h.hasNode e.source
    have ht := h.hasNode e.target
    rw [Indexed.hasNode, Table.holds] at hs ht
    cases hats : Table.at? x.nodes e.source with
    | none =>
      rw [hats] at hs
      rw [← hs]
      exact .error h
    | some s =>
      rw [hats] at hs
      rw [← hs]
      cases hatt : Table.at? x.nodes e.target with
      | none =>
        rw [hatt] at ht
        rw [← ht]
        exact .error h
      | some t =>
        rw [hatt] at ht
        rw [← ht]
        exact .ok (h.insertEdge (fun hm => hid (Graph.hasEdge_iff.2 hm)) (Table.mem_of_at? hats)
          (Table.mem_of_at? hatt))

omit [LawfulSlots S] in
/-- What goes through on one side goes through on the other. -/
theorem SameEnd.of_ok {r : Except (Stopped S N E) (Indexed S N E)} (h : SameEnd r (.ok g)) :
    ∃ x, r = .ok x ∧ x.Agrees g := by
  cases h with
  | ok h => exact ⟨_, rfl, h⟩

omit [LawfulSlots S] in
/-- A change that is refused is answered with its reason, and the graph stays as it was left. -/
theorem SameEnd.settle {r : Except (Stopped S N E) (Indexed S N E)}
    {r' : Except GraphError (Graph N E)} (h : SameEnd r (unchanged g r')) :
    (settle r).1 = (g.settle r').1 ∧ (settle r).2.Agrees (g.settle r').2 := by
  cases r' with
  | ok g' =>
    obtain ⟨x, rfl, hx⟩ := h.of_ok
    exact ⟨rfl, hx⟩
  | error cause =>
    cases h with
    | error h => exact ⟨rfl, h⟩

/-- An edge that is added to the lists is added to the stored graph. -/
theorem Agrees.addEdge_ok (h : x.Agrees g) {e : Edge E} {g' : Graph N E}
    (he : g.addEdge e = .ok g') : ∃ x', x.addEdge e = .ok x' ∧ x'.Agrees g' := by
  have := h.addEdge e
  rw [he] at this
  exact this.of_ok

/-! ## Contracting

The hub comes first, then the members go, and in the end the edges that crossed the boundary are put
back. Only the last step can stop half way. -/

/-- Several edges are put back one by one, up to the first that is refused. -/
theorem Agrees.addEdges (h : x.Agrees g) (es : List (Edge E)) :
    SameEnd (es.foldlM Indexed.addEdge x) (g.restore es) := by
  induction es generalizing x g with
  | nil => exact .ok h
  | cons e es ih =>
    rw [List.foldlM_cons, Graph.restore]
    have he := h.addEdge e
    cases hg : g.addEdge e with
    | ok g' =>
      rw [hg] at he
      obtain ⟨x', hx, hag⟩ := he.of_ok
      rw [hx]
      exact ih hag
    | error cause =>
      rw [hg] at he
      generalize x.addEdge e = r at he ⊢
      cases he with
      | error h => exact .error h

/-- Several nodes are removed one by one. -/
theorem Agrees.removeNodes (h : x.Agrees g) (ids : List NodeId) :
    (ids.foldl (fun y m => (y.removeNode m).2) x).Agrees (ids.foldl Graph.removeNode g) := by
  induction ids generalizing x g with
  | nil => exact h
  | cons m ids ih => exact ih (h.removeNode m).2

/-- The same edges cross the boundary. -/
theorem Agrees.boundary (h : x.Agrees g) (members : List NodeId) (hub : NodeId) :
    x.boundary members hub = g.boundary members hub := by
  unfold Indexed.boundary Graph.boundary
  simp only [h.inEdges, h.outEdges]

omit [LawfulSlots S] in
/-- A contraction is refused at the start, or its members are in the graph and the hub is not. -/
theorem Agrees.contract_cases (h : x.Agrees g) (members : List NodeId) (hub : NodeId) (data : N) :
    (∃ cause, x.contract members hub data = .error ⟨cause, x⟩ ∧
      g.contract members hub data = .error ⟨cause, g⟩) ∨
      hub ∉ g.nodeIds ∧ ∀ m ∈ members, m ∈ g.nodeIds := by
  unfold Indexed.contract Graph.contract
  rw [h.hasNode]
  split
  · exact .inl ⟨_, rfl, rfl⟩
  · rename_i hhub
    rw [show (fun m => !x.hasNode m) = fun m => !g.hasNode m from funext fun m => by
      rw [h.hasNode]]
    cases hfind : members.find? fun m => !g.hasNode m with
    | some m => exact .inl ⟨_, rfl, rfl⟩
    | none =>
      refine .inr ⟨fun hm => hhub (Graph.hasNode_iff.2 hm), fun m hm => Graph.hasNode_iff.1 ?_⟩
      simpa using List.find?_eq_none.1 hfind m hm

/-- A contraction has the same end on both sides, wherever it stops. -/
theorem Agrees.contract (h : x.Agrees g) (members : List NodeId) (hub : NodeId) (data : N) :
    SameEnd (x.contract members hub data) (g.contract members hub data) := by
  rcases h.contract_cases members hub data with ⟨cause, hx, hg⟩ | ⟨hhub, hmem⟩
  · rw [hx, hg]
    exact .error h
  · have hfind : (members.find? fun m => !x.hasNode m) = none := by
      refine List.find?_eq_none.2 fun m hm => ?_
      simp [h.hasNode, Graph.hasNode_iff.2 (hmem m hm)]
    have hnew : ¬ x.hasNode hub = true := by rwa [h.hasNode, Graph.hasNode_iff]
    rw [Graph.contract_eq_restore hmem hhub, Indexed.contract, if_neg hnew, hfind]
    dsimp only
    rw [Indexed.addNode, if_neg hnew, h.boundary]
    exact ((h.insertNode hhub data).removeNodes members).addEdges _

/-! ## Subdividing

A node is put before or behind another one by moving some of its edges to it and adding a link. Once
the new node is accepted nothing can be refused. -/

/-- Several edges are moved one by one. -/
theorem Agrees.moveEdges (h : x.Agrees g) {moved : List (Edge E)} {g' : Graph N E}
    (hm : g.moveEdges moved = .ok g') : ∃ x', x.moveEdges moved = .ok x' ∧ x'.Agrees g' := by
  induction moved generalizing x g with
  | nil =>
    cases hm
    exact ⟨x, rfl, h⟩
  | cons e moved ih =>
    rw [Graph.moveEdges, List.foldlM_cons] at hm
    obtain ⟨g₁, h₁, h₂⟩ := Outcome.bind_eq_ok_iff.1 hm
    obtain ⟨x₁, hx₁, hag⟩ := (h.removeEdge e.id).2.addEdge_ok h₁
    obtain ⟨x', hx', hag'⟩ := ih hag h₂
    refine ⟨x', ?_, hag'⟩
    rw [Indexed.moveEdges, List.foldlM_cons, hx₁]
    exact hx'

/-- What a new node is put between: edges of the graph, moved to it, and a new one. -/
structure Spliced (g : Graph N E) (hub : NodeId) (moved : List (Edge E)) (link : Edge E) :
    Prop where
  nodup : (moved.map Edge.id).Nodup
  old : ∀ e ∈ moved, e.id ∈ g.edges.map Edge.id
  source : ∀ e ∈ moved, e.source ∈ g.nodeIds ++ [hub]
  target : ∀ e ∈ moved, e.target ∈ g.nodeIds ++ [hub]
  link_new : link.id ∉ g.edges.map Edge.id
  link_source : link.source ∈ g.nodeIds ++ [hub]
  link_target : link.target ∈ g.nodeIds ++ [hub]

/-- Nothing stands in the way of a splice but a node under the identity of the new one. -/
theorem Agrees.splice_ok (h : x.Agrees g) {hub : NodeId} (hhub : hub ∉ g.nodeIds) (data : N)
    {moved : List (Edge E)} {link : Edge E} (hs : Spliced g hub moved link) :
    ∃ x' g',
      (do
        let y ← x.addNode hub data
        let y ← y.moveEdges moved
        y.addEdge link) = .ok x' ∧
      (do
        let g ← g.addNode hub data
        let g ← g.moveEdges moved
        g.addEdge link) = .ok g' ∧ x'.Agrees g' := by
  have hadd := Graph.addNode_eq_ok data hhub
  have hadd' := h.addNode hub data
  rw [hadd] at hadd'
  obtain ⟨x₁, hx₁, h₁⟩ := hadd'.of_ok
  have hids : (g.attachNode hub data).nodeIds = g.nodeIds ++ [hub] := Graph.nodeIds_attachNode ..
  have hmove := Graph.moveEdges_eq_ok (g := g.attachNode hub data) hs.nodup
    (fun e he => hids ▸ hs.source e he) (fun e he => hids ▸ hs.target e he)
  obtain ⟨x₂, hx₂, h₂⟩ := h₁.moveEdges hmove
  have hnew : link.id ∉ (((g.attachNode hub data).removeEdges (moved.map Edge.id)).withEdges
      moved).edges.map Edge.id := by
    rw [Graph.edges_withEdges, List.map_append, List.mem_append]
    rintro (hm | hm)
    · obtain ⟨e, he, hid⟩ := List.mem_map.1 hm
      exact hs.link_new (hid ▸ List.mem_map_of_mem (Graph.mem_edges_removeEdges.1 he).1)
    · obtain ⟨e, he, hid⟩ := List.mem_map.1 hm
      exact hs.link_new (hid ▸ hs.old e he)
  have hlink := Graph.addEdge_eq_ok hnew (hids ▸ hs.link_source) (hids ▸ hs.link_target)
  obtain ⟨x₃, hx₃, h₃⟩ := h₂.addEdge_ok hlink
  refine ⟨x₃, _, ?_, ?_, h₃⟩
  · rw [hx₁, Outcome.ok_bind, hx₂]
    exact hx₃
  · rw [hadd, Outcome.ok_bind, hmove]
    exact hlink

/-- The only refusal is that of the new node, at the start. -/
theorem Agrees.splice (h : x.Agrees g) {hub : NodeId} (data : N) {moved : List (Edge E)}
    {link : Edge E} (hs : Spliced g hub moved link) :
    SameEnd
      (do
        let y ← x.addNode hub data
        let y ← y.moveEdges moved
        y.addEdge link)
      (unchanged g do
        let g ← g.addNode hub data
        let g ← g.moveEdges moved
        g.addEdge link) := by
  by_cases hhub : hub ∈ g.nodeIds
  · rw [Indexed.addNode, h.hasNode, Graph.addNode, if_pos (Graph.hasNode_iff.2 hhub),
      if_pos (Graph.hasNode_iff.2 hhub)]
    exact .error h
  · obtain ⟨x', g', hx, hg, hag⟩ := h.splice_ok hhub data hs
    rw [hx, hg]
    exact .ok hag

omit [LawfulSlots S] in
/-- Edges begin at nodes of the graph. -/
theorem Agrees.source_mem (h : x.Agrees g) {e : Edge E} (he : e ∈ g.edges) :
    e.source ∈ g.nodeIds := by
  rw [← h.nodeIds]
  exact h.coherent.source_mem (h.edges.symm ▸ he)

omit [LawfulSlots S] in
/-- Edges end at nodes of the graph. -/
theorem Agrees.target_mem (h : x.Agrees g) {e : Edge E} (he : e ∈ g.edges) :
    e.target ∈ g.nodeIds := by
  rw [← h.nodeIds]
  exact h.coherent.target_mem (h.edges.symm ▸ he)

omit [LawfulSlots S] in
/-- Nodes have distinct identities. -/
theorem Agrees.nodup_nodeIds (h : x.Agrees g) : g.nodeIds.Nodup := by
  rw [← h.nodeIds]
  exact h.coherent.nodes_nodup

omit [LawfulSlots S] in
/-- Edges have distinct identities. -/
theorem Agrees.nodup_edgeIds (h : x.Agrees g) : (g.edges.map Edge.id).Nodup := by
  rw [← h.keys_edges]
  exact h.coherent.edges_nodup

omit [LawfulSlots S] in
/-- Some edges of the graph are led to a new node, at one of their ends. -/
theorem Agrees.spliced (h : x.Agrees g) {hub id : NodeId} (hid : id ∈ g.nodeIds)
    {es : List (Edge E)} (hes : es.Sublist g.edges) {link : EdgeId × E}
    (hl : link.1 ∉ g.edges.map Edge.id) :
    Spliced g hub (es.map fun e => { e with target := hub }) ⟨link.1, hub, id, link.2⟩ ∧
      Spliced g hub (es.map fun e => { e with source := hub }) ⟨link.1, id, hub, link.2⟩ := by
  have hid' : id ∈ g.nodeIds ++ [hub] := List.mem_append_left _ hid
  have hhub : hub ∈ g.nodeIds ++ [hub] := List.mem_append_right _ List.mem_cons_self
  have hmem : ∀ {f : Edge E → Edge E} {P : Edge E → Prop}, (∀ e ∈ g.edges, P (f e)) →
      ∀ e' ∈ es.map f, P e' := by
    intro f P hP e' he'
    obtain ⟨e, he, rfl⟩ := List.mem_map.1 he'
    exact hP e (hes.subset he)
  have hids : (es.map Edge.id).Nodup := h.nodup_edgeIds.sublist (hes.map _)
  exact ⟨⟨by rw [List.map_map]; exact hids, hmem fun e he => List.mem_map_of_mem (a := e) he,
      hmem fun e he => List.mem_append_left _ (h.source_mem (e := e) he), hmem fun _ _ => hhub, hl,
      hhub, hid'⟩,
    ⟨by rw [List.map_map]; exact hids, hmem fun e he => List.mem_map_of_mem (a := e) he,
      hmem fun _ _ => hhub, hmem fun e he => List.mem_append_left _ (h.target_mem (e := e) he), hl,
      hid', hhub⟩⟩

/-- Putting a node before another one has the same end on both sides. -/
theorem Agrees.insertBefore (h : x.Agrees g) (id hub : NodeId) (data : N) {link : EdgeId × E}
    (hl : link.1 ∉ g.edges.map Edge.id) (select : Edge E → Bool) :
    SameEnd (x.insertBefore id hub data link select)
      (unchanged g (g.insertBefore id hub data link select)) := by
  unfold Indexed.insertBefore Graph.insertBefore
  rw [h.hasNode, h.inEdges]
  by_cases hid : g.hasNode id = true
  · rw [hid]
    exact h.splice data (h.spliced (Graph.hasNode_iff.1 hid)
      (List.filter_sublist.trans List.filter_sublist) hl).1
  · rw [Bool.eq_false_iff.2 hid]
    exact .error h

/-- Putting a node behind another one has the same end on both sides. -/
theorem Agrees.insertAfter (h : x.Agrees g) (id hub : NodeId) (data : N) {link : EdgeId × E}
    (hl : link.1 ∉ g.edges.map Edge.id) (select : Edge E → Bool) :
    SameEnd (x.insertAfter id hub data link select)
      (unchanged g (g.insertAfter id hub data link select)) := by
  unfold Indexed.insertAfter Graph.insertAfter
  rw [h.hasNode, h.outEdges]
  by_cases hid : g.hasNode id = true
  · rw [hid]
    exact h.splice data (h.spliced (Graph.hasNode_iff.1 hid)
      (List.filter_sublist.trans List.filter_sublist) hl).2
  · rw [Bool.eq_false_iff.2 hid]
    exact .error h

/-! ## Thinning and copying

A copy is made by putting all nodes and edges into a new graph. It has the same lists, but not the
same slots. -/

/-- Thinning takes out the same edges and gives the same answer. -/
theorem Agrees.thin (h : x.Agrees g) (id : NodeId) :
    (x.thin id).1 = (g.thin id).1 ∧ (x.thin id).2.Agrees (g.thin id).2 := by
  have hdoomed : x.superfluous id = g.superfluous id := by
    rw [Indexed.superfluous, Graph.superfluous, h.inEdges, h.outEdges]
  have key : ∀ {ids : List EdgeId} {y : Indexed S N E} {g' : Graph N E}, y.Agrees g' →
      (ids.foldl (fun y e => (y.removeEdge e).2) y).Agrees (ids.foldl Graph.removeEdge g') := by
    intro ids
    induction ids with
    | nil => exact fun h => h
    | cons e ids ih => exact fun h => ih (h.removeEdge e).2
  unfold Indexed.thin Graph.thin
  rw [hdoomed]
  exact ⟨rfl, key h⟩

/-- Several nodes are added one by one. -/
theorem Agrees.insertNodes (h : x.Agrees g) {ns : Table NodeId N}
    (hd : (g.nodeIds ++ Table.keys ns).Nodup) :
    (ns.foldl (fun y n => y.insertNode n.1 n.2) x).Agrees
      { g with nodes := g.nodes ++ ns } := by
  induction ns generalizing x g with
  | nil => exact ⟨h.coherent, by rw [List.append_nil]; exact h.nodes, h.edges, h.metadata⟩
  | cons n ns ih =>
    have hnew : n.1 ∉ g.nodeIds := fun hm =>
      List.disjoint_of_nodup_append hd hm List.mem_cons_self
    have hd' : ((g.attachNode n.1 n.2).nodeIds ++ Table.keys ns).Nodup := by
      rw [Graph.nodeIds_attachNode, List.append_assoc]
      exact hd
    have := ih (h.insertNode hnew n.2) hd'
    exact ⟨this.coherent, by rw [List.foldl_cons, this.nodes]; simp [Graph.attachNode],
      this.edges, this.metadata⟩

/-- Several edges are copied one by one. -/
theorem Agrees.copyEdges (h : x.Agrees g) {es : List (Edge E)}
    (hd : (g.edges.map Edge.id ++ es.map Edge.id).Nodup) (hs : ∀ e ∈ es, e.source ∈ g.nodeIds)
    (ht : ∀ e ∈ es, e.target ∈ g.nodeIds) :
    ∃ y, es.foldlM copyEdge x = some y ∧ y.Agrees (g.withEdges es) := by
  induction es generalizing x g with
  | nil => exact ⟨x, rfl, by rw [Graph.withEdges_nil]; exact h⟩
  | cons e es ih =>
    have hnew : e.id ∉ g.edges.map Edge.id := fun hm =>
      List.disjoint_of_nodup_append hd hm List.mem_cons_self
    have hfind : ∀ {n}, n ∈ g.nodeIds → ∃ i, Table.at? x.nodes n = some i := by
      intro n hn
      rw [← h.nodeIds] at hn
      obtain ⟨i, hi⟩ := Table.mem_keys.1 hn
      exact ⟨i, Table.at?_of_mem h.coherent.nodes_nodup hi⟩
    obtain ⟨s, hats⟩ := hfind (hs e List.mem_cons_self)
    obtain ⟨t, hatt⟩ := hfind (ht e List.mem_cons_self)
    have hstep : copyEdge x e = some (x.insertEdge e.id s t e.data) := by
      simp [copyEdge, hats, hatt]
    have hag := h.insertEdge hnew (Table.mem_of_at? hats) (Table.mem_of_at? hatt)
    have hd' : ((g.withEdges [e]).edges.map Edge.id ++ es.map Edge.id).Nodup := by
      rw [Graph.edges_withEdges, List.map_append, List.append_assoc]
      exact hd
    obtain ⟨y, hy, hyag⟩ := ih hag hd' (fun e' he' => hs e' (List.mem_cons_of_mem _ he'))
      (fun e' he' => ht e' (List.mem_cons_of_mem _ he'))
    refine ⟨y, ?_, ?_⟩
    · rw [List.foldlM_cons, hstep]
      exact hy
    · rw [Graph.withEdges_withEdges] at hyag
      exact hyag

/-- A copy can be made, since every edge has its ends. -/
theorem Agrees.mapData {N' E' : Type} (h : x.Agrees g) (onNode : NodeId → N → N')
    (onEdge : Edge E → E') :
    ∃ y, x.mapData onNode onEdge = some y ∧ y.Agrees (g.mapData onNode onEdge) := by
  let ns : Table NodeId N' := x.nodeList.map fun n => (n.1, onNode n.1 n.2)
  let es : List (Edge E') := x.edgeList.map fun e => ⟨e.id, e.source, e.target, onEdge e⟩
  let blank : Indexed S N' E' := Indexed.empty x.metadata
  have hkeys : Table.keys ns = g.nodeIds := by
    rw [Table.keys, List.map_map, h.nodes]
    rfl
  have hnodes : (ns.foldl (fun y n => y.insertNode n.1 n.2) blank).Agrees
      ⟨ns, [], x.metadata, {}⟩ :=
    (Agrees.empty x.metadata).insertNodes (by rw [hkeys]; exact h.nodup_nodeIds)
  have hends : ∀ e ∈ es, e.source ∈ Table.keys ns ∧ e.target ∈ Table.keys ns := by
    intro e' he'
    obtain ⟨e, he, rfl⟩ := List.mem_map.1 he'
    rw [h.edges] at he
    rw [hkeys]
    exact ⟨h.source_mem he, h.target_mem he⟩
  have hids : (es.map Edge.id).Nodup := by
    rw [List.map_map, h.edges]
    exact h.nodup_edgeIds
  obtain ⟨y, hy, hag⟩ := hnodes.copyEdges hids (fun e he => (hends e he).1)
    fun e he => (hends e he).2
  refine ⟨y, ?_, hag.coherent, ?_, ?_, ?_⟩
  · rw [Indexed.mapData, ← hy, List.foldl_map]
  · exact hag.nodes.trans (congrArg (List.map fun n : NodeId × N => (n.1, onNode n.1 n.2)) h.nodes)
  · exact hag.edges.trans (congrArg
      (List.map fun e : Edge E => (⟨e.id, e.source, e.target, onEdge e⟩ : Edge E')) h.edges)
  · exact hag.metadata.trans h.metadata

/-! ## Commands

What is answered to a command on one side is answered on the other. -/

omit [LawfulSlots S] in
/-- A contraction is answered with its end. -/
theorem SameEnd.settle_contract {r : Except (Stopped S N E) (Indexed S N E)} {members : List NodeId}
    {hub : NodeId} {data : N} (h : SameEnd r (g.contract members hub data)) :
    (Indexed.settle r).1 = (g.apply (.contract members hub data)).1 ∧
      (Indexed.settle r).2.Agrees (g.apply (.contract members hub data)).2 := by
  simp only [Graph.apply]
  generalize g.contract members hub data = r' at h ⊢
  cases h with
  | ok h => exact ⟨rfl, h⟩
  | error h => exact ⟨rfl, h⟩

/-- A command has the same answer on both sides and keeps them in agreement. -/
theorem Agrees.apply (h : x.Agrees g) {c : Command N E} (hc : c.Fresh g) :
    (x.apply c).1 = (g.apply c).1 ∧ (x.apply c).2.Agrees (g.apply c).2 := by
  cases c with
  | newNode id data => exact ⟨rfl, h.insertNode hc data⟩
  | addNode id data => exact (h.addNode id data).settle
  | removeNode id => exact ⟨congrArg Answer.node (h.removeNode id).1, (h.removeNode id).2⟩
  | addEdge e => exact (h.addEdge e).settle
  | removeEdge id => exact ⟨congrArg Answer.edge (h.removeEdge id).1, (h.removeEdge id).2⟩
  | adjustNode id f => exact ⟨congrArg Answer.node (h.node? id), h.adjustNode id f⟩
  | adjustEdge id f =>
    exact ⟨congrArg (fun e : Option (Edge E) => Answer.edge (e.map Edge.data)) (h.edge? id),
      h.adjustEdge id f⟩
  | contract members hub data => exact (h.contract members hub data).settle_contract
  | insertBefore id hub data link select =>
    exact (h.insertBefore id hub data hc select).settle
  | insertAfter id hub data link select =>
    exact (h.insertAfter id hub data hc select).settle
  | thin id => exact ⟨congrArg Answer.count (h.thin id).1, (h.thin id).2⟩

/-- After any course of commands there is a stored graph, and it agrees with the lists. -/
theorem exists_stored (S : Type → Type → Type) [Slots S] [LawfulSlots S] {N E : Type}
    {h : History N E} (hf : h.Fresh) : ∃ x : Indexed S N E, h.stored S = some x ∧ x.Agrees h.plain := by
  induction h with
  | start => exact ⟨_, rfl, .empty []⟩
  | next h c ih =>
    obtain ⟨x, hx, hag⟩ := ih hf.1
    exact ⟨_, congrArg (Option.map _) hx, (hag.apply hf.2).2⟩
  | copy h onNode onEdge ih =>
    obtain ⟨x, hx, hag⟩ := ih hf
    obtain ⟨y, hy, hyag⟩ := hag.mapData onNode onEdge
    exact ⟨y, by rw [History.stored, hx]; exact hy, hyag⟩

end Indexed

/-! ## Elements that were removed

Whether something comes back is a question about lists, as both sides agree. -/

namespace Graph

/-- A graph has no elements but those of another one and some that were added. -/
structure Within (g g' : Graph N E) (c : Command N E) : Prop where
  nodes : ∀ id ∈ g'.nodeIds, id ∈ g.nodeIds ∨ id ∈ c.nodesAdded
  edges : ∀ id ∈ g'.edges.map Edge.id, id ∈ g.edges.map Edge.id ∨ id ∈ c.edgesAdded

variable {g g₁ g₂ : Graph N E} {c : Command N E}

/-- A graph is within itself. -/
theorem Within.refl (g : Graph N E) (c : Command N E) : Within g g c :=
  ⟨fun _ h => .inl h, fun _ h => .inl h⟩

/-- A node may come that the command names. -/
theorem Within.attachNode (h : Within g g₁ c) {id : NodeId} (data : N) (hid : id ∈ c.nodesAdded) :
    Within g (g₁.attachNode id data) c := by
  refine ⟨fun n hn => ?_, h.edges⟩
  rw [nodeIds_attachNode, List.mem_append, List.mem_singleton] at hn
  rcases hn with hn | rfl
  · exact h.nodes n hn
  · exact .inr hid

/-- An edge may come that the command names, or one that was there. -/
theorem Within.addEdge (h : Within g g₁ c) {e : Edge E}
    (he : e.id ∈ g.edges.map Edge.id ∨ e.id ∈ c.edgesAdded) (hok : g₁.addEdge e = .ok g₂) :
    Within g g₂ c := by
  obtain ⟨-, -, -, rfl⟩ := addEdge_eq_ok_iff.1 hok
  refine ⟨h.nodes, fun id hid => ?_⟩
  rw [edges_withEdges, List.map_append, List.mem_append] at hid
  rcases hid with hid | hid
  · exact h.edges id hid
  · rw [List.map_singleton, List.mem_singleton] at hid
    exact hid ▸ he

theorem Within.removeEdge (h : Within g g₁ c) (id : EdgeId) : Within g (g₁.removeEdge id) c :=
  ⟨h.nodes, fun i hi => h.edges i ((List.filter_sublist.map _).subset hi)⟩

theorem Within.removeNode (h : Within g g₁ c) (id : NodeId) : Within g (g₁.removeNode id) c := by
  refine ⟨fun n hn => ?_, fun i hi => ?_⟩
  · rw [nodeIds_removeNode] at hn
    exact h.nodes n (List.mem_of_mem_filter hn)
  · unfold Graph.removeNode at hi
    split at hi
    · exact h.edges i ((List.filter_sublist.map _).subset hi)
    · exact h.edges i hi

/-- Edges that were there may be put back, also if this stops on the way. -/
theorem Within.restore (h : Within g g₁ c) {es : List (Edge E)}
    (hes : ∀ e ∈ es, e.id ∈ g.edges.map Edge.id) :
    (∀ g₂, g₁.restore es = .ok g₂ → Within g g₂ c) ∧
      ∀ stopped, g₁.restore es = .error stopped → Within g stopped.graph c := by
  induction es generalizing g₁ with
  | nil =>
    constructor
    · intro g₂ hok
      cases hok
      exact h
    · intro stopped herr
      cases herr
  | cons e es ih =>
    rw [Graph.restore]
    cases he : g₁.addEdge e with
    | error cause =>
      constructor
      · intro g₂ hok
        cases hok
      · intro stopped herr
        cases herr
        exact h
    | ok g₃ =>
      exact ih (h.addEdge (.inl (hes e List.mem_cons_self)) he) fun e' he' =>
        hes e' (List.mem_cons_of_mem _ he')

/-- Edges that were there may be moved. -/
theorem Within.moveEdges (h : Within g g₁ c) {moved : List (Edge E)}
    (hm : ∀ e ∈ moved, e.id ∈ g.edges.map Edge.id) (hok : g₁.moveEdges moved = .ok g₂) :
    Within g g₂ c := by
  induction moved generalizing g₁ with
  | nil =>
    cases hok
    exact h
  | cons e moved ih =>
    rw [Graph.moveEdges, List.foldlM_cons] at hok
    obtain ⟨g₃, h₃, hok⟩ := Outcome.bind_eq_ok_iff.1 hok
    exact ih ((h.removeEdge e.id).addEdge (.inl (hm e List.mem_cons_self)) h₃)
      (fun e' he' => hm e' (List.mem_cons_of_mem _ he')) hok

/-- A new node with edges that are moved to it and a link. -/
theorem Within.splice (h : Within g g₁ c) {hub : NodeId} {data : N} {moved : List (Edge E)}
    {link : Edge E} (hhub : hub ∈ c.nodesAdded) (hm : ∀ e ∈ moved, e.id ∈ g.edges.map Edge.id)
    (hl : link.id ∈ c.edgesAdded)
    (hok : (do
      let g ← g₁.addNode hub data
      let g ← g.moveEdges moved
      g.addEdge link) = .ok g₂) : Within g g₂ c := by
  obtain ⟨g₃, h₃, hrest⟩ := Outcome.bind_eq_ok_iff.1 hok
  obtain ⟨g₄, h₄, hlink⟩ := Outcome.bind_eq_ok_iff.1 hrest
  obtain ⟨-, rfl⟩ := addNode_eq_ok_iff.1 h₃
  exact ((h.attachNode data hhub).moveEdges hm h₄).addEdge (.inr hl) hlink

/-- A refusal adds nothing. -/
theorem Within.settle {r : Except GraphError (Graph N E)}
    (h : ∀ g', r = .ok g' → Within g g' c) : Within g (g.settle r).2 c := by
  cases r with
  | ok g' => exact h g' rfl
  | error cause => exact .refl g c

/-- Edges with other ends keep their identities. -/
theorem id_mem_of_mem_map {es : List (Edge E)} (hes : es ⊆ g.edges) {f : Edge E → Edge E}
    (hf : ∀ e, (f e).id = e.id) : ∀ e ∈ es.map f, e.id ∈ g.edges.map Edge.id := by
  intro e' he'
  obtain ⟨e, he, rfl⟩ := List.mem_map.1 he'
  rw [hf]
  exact List.mem_map_of_mem (hes he)

/-- The edges that cross the boundary are edges of the graph. -/
theorem id_mem_of_mem_boundary {members : List NodeId} {hub : NodeId} :
    ∀ e ∈ g.boundary members hub, e.id ∈ g.edges.map Edge.id := by
  intro e' he'
  rcases mem_boundary.1 he' with ⟨e, he, -, -, rfl⟩ | ⟨e, he, -, -, rfl⟩
  · exact List.mem_map_of_mem (a := e) he
  · exact List.mem_map_of_mem (a := e) he

/-- Removing nodes adds nothing. -/
theorem Within.removeNodes (h : Within g g₁ c) (ms : List NodeId) :
    Within g (ms.foldl Graph.removeNode g₁) c := by
  induction ms generalizing g₁ with
  | nil => exact h
  | cons m ms ih => exact ih (h.removeNode m)

/-- A contraction that stops on the way stays within what it was to add as well. -/
theorem within_contract (g : Graph N E) (members : List NodeId) (hub : NodeId) (data : N) :
    Within g (g.apply (.contract members hub data)).2 (.contract members hub data) := by
  have hstart : Within g (members.foldl Graph.removeNode (g.attachNode hub data))
      (.contract members hub data) :=
    ((Within.refl g _).attachNode data List.mem_cons_self).removeNodes members
  obtain ⟨hok, herr⟩ := hstart.restore id_mem_of_mem_boundary
  simp only [Graph.apply, Graph.contract]
  split
  · rename_i g' hg
    split at hg
    · cases hg
    · split at hg
      · cases hg
      · exact hok g' hg
  · rename_i stopped hg
    split at hg
    · cases hg
      exact .refl g _
    · split at hg
      · cases hg
        exact .refl g _
      · exact herr stopped hg

/-- A command adds nothing but what it names. -/
theorem within_apply (g : Graph N E) (c : Command N E) : Within g (g.apply c).2 c := by
  have hfilter : ∀ {p q : Edge E → Bool}, (g.edges.filter p).filter q ⊆ g.edges :=
    fun {p q} => (List.filter_sublist.trans List.filter_sublist).subset
  cases c with
  | newNode id data => exact (Within.refl g _).attachNode data List.mem_cons_self
  | addNode id data =>
    refine .settle fun g' hok => ?_
    obtain ⟨-, rfl⟩ := addNode_eq_ok_iff.1 hok
    exact (Within.refl g _).attachNode data List.mem_cons_self
  | removeNode id => exact (Within.refl g _).removeNode id
  | addEdge e => exact .settle fun g' hok => (Within.refl g _).addEdge (.inr List.mem_cons_self) hok
  | removeEdge id => exact (Within.refl g _).removeEdge id
  | adjustNode id f =>
    exact ⟨fun n hn => .inl (by rwa [Graph.apply, nodeIds_adjustNode] at hn), fun _ h => .inl h⟩
  | adjustEdge id f =>
    refine ⟨fun _ h => .inl h, fun i hi => .inl ?_⟩
    obtain ⟨e', he', rfl⟩ := List.mem_map.1 hi
    obtain ⟨e, he, rfl⟩ := List.mem_map.1 he'
    refine List.mem_map.2 ⟨e, he, ?_⟩
    split <;> rfl
  | contract members hub data => exact within_contract g members hub data
  | insertBefore id hub data link select =>
    refine .settle fun g' hok => ?_
    unfold Graph.insertBefore at hok
    split at hok
    · cases hok
    · exact (Within.refl g _).splice List.mem_cons_self (id_mem_of_mem_map
        (f := fun e => { e with target := hub }) hfilter fun _ => rfl) List.mem_cons_self hok
  | insertAfter id hub data link select =>
    refine .settle fun g' hok => ?_
    unfold Graph.insertAfter at hok
    split at hok
    · cases hok
    · exact (Within.refl g _).splice List.mem_cons_self (id_mem_of_mem_map
        (f := fun e => { e with source := hub }) hfilter fun _ => rfl) List.mem_cons_self hok
  | thin id =>
    simp only [Graph.apply, thin_eq]
    exact ⟨fun _ h => .inl h, fun i hi => .inl ((List.filter_sublist.map _).subset hi)⟩

/-- What was lost has not come back. -/
theorem History.Lost.not_mem {κ : Type} {ids : (N E : Type) → Graph N E → List κ}
    {added : (N E : Type) → Command N E → List κ} {id : κ}
    (happly : ∀ N E g c, id ∈ ids N E (g.apply c).2 → id ∈ ids N E g ∨ id ∈ added N E c)
    (hcopy : ∀ (N E N' E' : Type) (g : Graph N E) (onNode : NodeId → N → N')
      (onEdge : Edge E → E'), id ∈ ids N' E' (g.mapData onNode onEdge) → id ∈ ids N E g)
    {h : History N E} (hl : h.Lost ids added id) : id ∉ ids N E h.plain := by
  induction hl with
  | removed _ hgone => exact hgone
  | next _ hc ih => exact fun ht => (happly _ _ _ _ ht).elim ih hc
  | copy _ ih => exact fun ht => ih (hcopy _ _ _ _ _ _ _ ht)

/-- A node that was lost is not in the graph. -/
theorem History.LostNode.not_mem {h : History N E} {id : NodeId} (hl : h.LostNode id) :
    id ∉ h.plain.nodeIds :=
  Lost.not_mem (fun _ _ g c ht => (within_apply g c).nodes id ht)
    (fun _ _ _ _ _ _ _ ht => by rwa [nodeIds_mapData] at ht) hl

/-- An edge that was lost is not in the graph. -/
theorem History.LostEdge.not_mem {h : History N E} {id : EdgeId} (hl : h.LostEdge id) :
    id ∉ h.plain.edges.map Edge.id :=
  Lost.not_mem (fun _ _ g c ht => (within_apply g c).edges id ht)
    (fun _ _ _ _ _ _ _ ht => by simpa [mapData, Function.comp_def] using ht) hl

end Graph

/-! ## Refinement

All that can be asked of a graph is collected in one structure. -/

namespace Indexed

/-- A stored graph says what the lists say. -/
structure AnswersAs (x : Indexed S N E) (g : Graph N E) : Prop where
  nodes : x.nodeList = g.nodes
  nodeIds : x.nodeIds = g.nodeIds
  hasNode : ∀ id, x.hasNode id = g.hasNode id
  node? : ∀ id, x.node? id = g.node? id
  nodesWhere : ∀ p, x.nodesWhere p = g.nodesWhere p
  edges : x.edgeList = g.edges
  hasEdge : ∀ id, x.hasEdge id = g.hasEdge id
  edge? : ∀ id, x.edge? id = g.edge? id
  outEdges : ∀ id, x.outEdges id = g.outEdges id
  inEdges : ∀ id, x.inEdges id = g.inEdges id
  between : ∀ source target, x.between source target = g.between source target
  outDegree : ∀ id, x.outDegree id = (g.outEdges id).length
  inDegree : ∀ id, x.inDegree id = (g.inEdges id).length
  successors : ∀ id, x.successors id = g.successors id
  predecessors : ∀ id, x.predecessors id = g.predecessors id

/-- Graphs that agree give the same answers. -/
theorem Agrees.answersAs [LawfulSlots S] {x : Indexed S N E} {g : Graph N E} (h : x.Agrees g) :
    x.AnswersAs g where
  nodes := h.nodes
  nodeIds := h.nodeIds
  hasNode := h.hasNode
  node? := h.node?
  nodesWhere p := by rw [Indexed.nodesWhere, Graph.nodesWhere, h.nodes]
  edges := h.edges
  hasEdge := h.hasEdge
  edge? := h.edge?
  outEdges := h.outEdges
  inEdges := h.inEdges
  between s t := by rw [Indexed.between, Graph.between, h.outEdges]
  outDegree id := congrArg List.length (h.outEdges id)
  inDegree id := congrArg List.length (h.inEdges id)
  successors id := by rw [Indexed.successors, Graph.successors, h.outEdges]
  predecessors id := by rw [Indexed.predecessors, Graph.predecessors, h.inEdges]

/--
After any course of commands a stored graph answers as the lists of its nodes and edges do, which
have distinct identities and no loose ends. The next command has the same answer on both sides, and
an identity that was taken out leads to nothing.
-/
theorem stored_refines (S : Type → Type → Type) [Slots S] [LawfulSlots S] {N E : Type}
    {h : History N E} (hf : h.Fresh) :
    ∃ x : Indexed S N E, h.stored S = some x ∧ x.AnswersAs h.plain ∧
      h.plain.nodeIds.Nodup ∧ (h.plain.edges.map Edge.id).Nodup ∧
      (∀ e ∈ h.plain.edges, e.source ∈ h.plain.nodeIds ∧ e.target ∈ h.plain.nodeIds) ∧
      (∀ c : Command N E, c.Fresh h.plain → (x.apply c).1 = (h.plain.apply c).1) ∧
      (∀ id, h.LostNode id → x.node? id = none ∧ x.inEdges id = [] ∧ x.outEdges id = []) ∧
      ∀ id, h.LostEdge id → x.edge? id = none := by
  obtain ⟨x, hx, hag⟩ := exists_stored S hf
  refine ⟨x, hx, hag.answersAs, hag.nodup_nodeIds, hag.nodup_edgeIds,
    fun e he => ⟨hag.source_mem he, hag.target_mem he⟩, fun c hc => (hag.apply hc).1,
    fun id hl => ?_, fun id hl => ?_⟩
  · have hid := hl.not_mem
    rw [hag.node?, hag.inEdges, hag.outEdges]
    refine ⟨Graph.node?_eq_none_iff.2 hid, ?_, ?_⟩
    · refine List.filter_eq_nil_iff.2 fun e he ht => hid ?_
      exact of_decide_eq_true ht ▸ hag.target_mem he
    · refine List.filter_eq_nil_iff.2 fun e he hs => hid ?_
      exact of_decide_eq_true hs ▸ hag.source_mem he
  · rw [hag.edge?, Graph.edge?, List.find?_eq_none]
    intro e he hid
    exact hl.not_mem (of_decide_eq_true hid ▸ List.mem_map_of_mem he)

end Indexed

/-- A node is removed with the edge at it, and the next node takes its place. -/
def Graph.History.replacing : History Unit Unit :=
  ((((History.start.next (.addNode ⟨1⟩ ())).next (.addNode ⟨2⟩ ())).next
    (.addEdge ⟨⟨3⟩, ⟨1⟩, ⟨2⟩, ()⟩)).next (.removeNode ⟨1⟩)).next (.newNode ⟨4⟩ ())

theorem Indexed.stored_replacing : Graph.History.replacing.Fresh ∧
    ∃ x : Indexed Places Unit Unit, Graph.History.replacing.stored Places = some x ∧
      x.nodes = [(⟨2⟩, 1), (⟨4⟩, 0)] ∧ x.nodeIds = [⟨2⟩, ⟨4⟩] ∧
      x.node? ⟨1⟩ = none ∧ x.edge? ⟨3⟩ = none := by
  have hfresh : Graph.History.replacing.Fresh := by
    refine ⟨⟨⟨⟨⟨trivial, trivial⟩, trivial⟩, trivial⟩, trivial⟩, ?_⟩
    show (⟨4⟩ : NodeId) ∉ _
    decide
  obtain ⟨x, hx, hanswers, -, -, -, -, hnode, hedge⟩ := Indexed.stored_refines Places hfresh
  refine ⟨hfresh, x, hx, ?_, hanswers.nodeIds, (hnode ⟨1⟩ ?_).1, hedge ⟨3⟩ ?_⟩
  · cases hx
    decide
  · exact .next (.removed (by decide) (by decide)) (by decide)
  · exact .next (.removed (by decide) (by decide)) (by decide)

end ObjectFlow
