import ObjectFlow.Proofs.Graph.Reachability

/-!
# What a refused command leaves

A command that is refused leaves the graph as it was, except for a contraction in which a node is
listed twice that has an edge across the boundary: the edge is put back once for each time, and the
second time is refused when the members are gone (`refused_unchanged`).

Most commands check first and then change. For them it is enough to go through their steps and see
that the first is the only one that can be refused (`Whole`). A contraction checks its nodes first,
too, but not the edges it will put back. These are refused just if one of them is there twice
(`nodup_of_restore`, `restore_eq_error`), which comes to the condition on the members
(`nodup_boundary_iff_not_torn`).
-/

namespace ObjectFlow

open ObjectFlow.Graph (Command Answer History)

namespace Graph

variable {N E : Type} {g g' : Graph N E} {members : List NodeId} {hub : NodeId}

/-! ## Edges that are listed twice

Between nodes that are in the graph an edge is refused for its identity only. -/

/-- With both ends in the graph, an edge can only be there already. -/
theorem addEdge_eq_error {e : Edge E} {cause : GraphError} (hs : e.source ∈ g.nodeIds)
    (ht : e.target ∈ g.nodeIds) (h : g.addEdge e = .error cause) : cause = .duplicateEdge e.id := by
  by_cases hid : e.id ∈ g.edges.map Edge.id
  · rw [addEdge, if_pos (hasEdge_iff.2 hid)] at h
    exact (Except.error.inj h).symm
  · rw [addEdge_eq_ok hid hs ht] at h
    cases h

/-- Edges that are all put back have distinct identities. -/
theorem nodup_of_restore {es : List (Edge E)} (h : g.restore es = .ok g') :
    (es.map Edge.id).Nodup ∧ ∀ e ∈ es, e.id ∉ g.edges.map Edge.id := by
  induction es generalizing g with
  | nil => simp
  | cons e es ih =>
    rw [restore] at h
    split at h
    · rename_i g₁ h₁
      obtain ⟨hnew, -, -, rfl⟩ := addEdge_eq_ok_iff.1 h₁
      obtain ⟨hd, hrest⟩ := ih h
      simp only [edges_withEdges, List.map_append, List.mem_append, not_or] at hrest
      refine ⟨List.nodup_cons.2 ⟨fun hm => ?_, hd⟩, List.forall_mem_cons.2
        ⟨hnew, fun e' he' => (hrest e' he').1⟩⟩
      obtain ⟨e', he', hid⟩ := List.mem_map.1 hm
      exact (hrest e' he').2 (by simp [hid])
    · cases h

/-- Between nodes of the graph only an edge that is there already is refused. -/
theorem restore_eq_error {es : List (Edge E)} {stopped : Interrupted N E}
    (hends : ∀ e ∈ es, e.source ∈ g.nodeIds ∧ e.target ∈ g.nodeIds)
    (h : g.restore es = .error stopped) :
    (∃ e ∈ es, stopped.cause = .duplicateEdge e.id) ∧ stopped.graph.nodeIds = g.nodeIds := by
  induction es generalizing g with
  | nil => cases h
  | cons e es ih =>
    obtain ⟨⟨hs, ht⟩, hrest⟩ := List.forall_mem_cons.1 hends
    rw [restore] at h
    split at h
    · rename_i g₁ h₁
      obtain ⟨-, -, -, rfl⟩ := addEdge_eq_ok_iff.1 h₁
      obtain ⟨⟨e', he', hcause⟩, hids⟩ := ih (g := g.withEdges [e]) hrest h
      exact ⟨⟨e', List.mem_cons_of_mem _ he', hcause⟩, hids⟩
    · rename_i cause hcause
      cases h
      exact ⟨⟨e, List.mem_cons_self, addEdge_eq_error hs ht hcause⟩, rfl⟩

/-! ## Contractions that stop half-way

An edge across the boundary has one end among the members, and is put back once for each time that
this end is listed. -/

/-- Some edge crosses the boundary at a member that is listed more than once. -/
def Torn (g : Graph N E) (members : List NodeId) : Prop :=
  ∃ e ∈ g.edges, ∃ m, CrossesAt members e m ∧ 1 < members.count m

/-- An edge is collected twice just if it is at a member that is listed twice. -/
theorem nodup_boundary_iff_not_torn (h : g.WellFormed) (members : List NodeId) (hub : NodeId) :
    ((g.boundary members hub).map Edge.id).Nodup ↔ ¬ g.Torn members := by
  simp [nodup_boundary_iff h, Torn]

/-- The command is a contraction that is not refused at the start, of members that tear an edge. -/
def Command.Tears (g : Graph N E) : Command N E → Prop
  | .contract members hub _ =>
    hub ∉ g.nodeIds ∧ (∀ m ∈ members, m ∈ g.nodeIds) ∧ g.Torn members
  | _ => False

/-- The edge that is put back a second time is refused when the members are gone. -/
theorem contract_eq_error_of_torn (h : g.WellFormed) (hhub : hub ∉ g.nodeIds)
    (hmem : ∀ m ∈ members, m ∈ g.nodeIds) (ht : g.Torn members) (x : N) :
    ∃ e ∈ g.boundary members hub, ∃ left : Graph N E,
      g.contract members hub x = .error ⟨.duplicateEdge e.id, left⟩ ∧ hub ∈ left.nodeIds := by
  have hfits := boundary_fits h hmem hhub x
  rw [contract_eq_restore hmem hhub]
  cases hrest : ((g.attachNode hub x).removeNodes members).restore (g.boundary members hub) with
  | ok g' =>
    have hd := (nodup_of_restore hrest).1
    exact absurd ht ((nodup_boundary_iff_not_torn h members hub).1 hd)
  | error stopped =>
    obtain ⟨⟨e, he, hcause⟩, hids⟩ := restore_eq_error (fun e he => (hfits e he).2) hrest
    refine ⟨e, he, stopped.graph, by rw [← hcause], ?_⟩
    rw [hids]
    exact (mem_nodeIds_vacated hmem hhub x).2 (.inl rfl)

/-- A graph of lists is as it was when a change of it is refused. -/
theorem settle_refused {r : Except GraphError (Graph N E)} {cause : GraphError}
    (h : (g.settle r).1 = .refused cause) : (g.settle r).2 = g := by
  cases r with
  | ok g' => cases h
  | error cause' => rfl

end Graph

namespace Indexed

variable {S : Type → Type → Type} {N E : Type}

/-! ## Changes that happen as a whole or not at all

The stored graph is changed in place, so a refusal on the way would show. -/

/-- Where the change is refused the graph is as it was. -/
def Whole (x : Indexed S N E) (r : Except (Stopped S N E) (Indexed S N E)) : Prop :=
  ∀ stopped, r = .error stopped → stopped.graph = x

/-- What goes through is not refused. -/
theorem Whole.ok (x y : Indexed S N E) : x.Whole (.ok y) := fun _ h => nomatch h

/-- A refusal at the start changes nothing. -/
theorem Whole.error (x : Indexed S N E) (cause : GraphError) : x.Whole (.error ⟨cause, x⟩) := by
  rintro _ ⟨⟩
  rfl

/-- After a whole change that is refused the graph is the one before. -/
theorem Whole.settle {x : Indexed S N E} {r : Except (Stopped S N E) (Indexed S N E)}
    (hr : x.Whole r) {cause : GraphError} (h : (settle r).1 = .refused cause) :
    (Indexed.settle r).2 = x := by
  cases r with
  | ok y => cases h
  | error stopped => exact hr stopped rfl

variable [Slots S]

/-- A node is added or nothing happens. -/
theorem whole_addNode (x : Indexed S N E) (id : NodeId) (data : N) :
    x.Whole (x.addNode id data) := by
  unfold addNode
  split
  · exact .error x _
  · exact .ok x _

/-- An edge is added or nothing happens. -/
theorem whole_addEdge (x : Indexed S N E) (e : Edge E) : x.Whole (x.addEdge e) := by
  unfold addEdge
  split
  · exact .error x _
  · cases Table.at? x.nodes e.source with
    | none => exact .error x _
    | some s =>
      cases Table.at? x.nodes e.target with
      | none => exact .error x _
      | some t => exact .ok x _

variable [LawfulSlots S] {x : Indexed S N E} {g : Graph N E}

/-- After the new node nothing is refused. -/
theorem Agrees.whole_splice (h : x.Agrees g) {hub : NodeId} (data : N) {moved : List (Edge E)}
    {link : Edge E} (hs : Spliced g hub moved link) :
    x.Whole (do
      let y ← x.addNode hub data
      let y ← y.moveEdges moved
      y.addEdge link) := by
  by_cases hhub : hub ∈ g.nodeIds
  · rw [Indexed.addNode, h.hasNode, if_pos (Graph.hasNode_iff.2 hhub)]
    exact .error x _
  · obtain ⟨y, -, hy, -⟩ := h.splice_ok hhub data hs
    rw [hy]
    exact .ok x y

/-- A node is put before another one or nothing happens. -/
theorem Agrees.whole_insertBefore (h : x.Agrees g) (id hub : NodeId) (data : N)
    {link : EdgeId × E} (hl : link.1 ∉ g.edges.map Edge.id) (select : Edge E → Bool) :
    x.Whole (x.insertBefore id hub data link select) := by
  unfold Indexed.insertBefore
  rw [h.hasNode, h.inEdges]
  by_cases hid : g.hasNode id = true
  · rw [hid]
    exact h.whole_splice data (h.spliced (Graph.hasNode_iff.1 hid)
      (List.filter_sublist.trans List.filter_sublist) hl).1
  · rw [Bool.eq_false_iff.2 hid]
    exact .error x _

/-- A node is put behind another one or nothing happens. -/
theorem Agrees.whole_insertAfter (h : x.Agrees g) (id hub : NodeId) (data : N)
    {link : EdgeId × E} (hl : link.1 ∉ g.edges.map Edge.id) (select : Edge E → Bool) :
    x.Whole (x.insertAfter id hub data link select) := by
  unfold Indexed.insertAfter
  rw [h.hasNode, h.outEdges]
  by_cases hid : g.hasNode id = true
  · rw [hid]
    exact h.whole_splice data (h.spliced (Graph.hasNode_iff.1 hid)
      (List.filter_sublist.trans List.filter_sublist) hl).2
  · rw [Bool.eq_false_iff.2 hid]
    exact .error x _

/-- A contraction that tears no edge is refused at the start or not at all. -/
theorem Agrees.refused_contract (h : x.Agrees g) (hw : g.WellFormed) {members : List NodeId}
    {hub : NodeId} {data : N} (ht : ¬ (Command.contract members hub data : Command N E).Tears g)
    {cause : GraphError} (hr : (x.apply (.contract members hub data)).1 = .refused cause) :
    (x.apply (.contract members hub data)).2 = x ∧
      (g.apply (.contract members hub data)).2 = g := by
  rw [Indexed.apply] at hr
  rw [Indexed.apply, Graph.apply]
  rcases h.contract_cases members hub data with ⟨_, hx, hg⟩ | ⟨hhub, hmem⟩
  · rw [hx, hg]
    exact ⟨rfl, rfl⟩
  · have hd := (Graph.nodup_boundary_iff_not_torn hw members hub).2 fun htorn =>
      ht ⟨hhub, hmem, htorn⟩
    have hsame := h.contract members hub data
    rw [Graph.contract_eq_ok_of_nodup hw hmem hhub data hd] at hsame
    obtain ⟨y, hy, -⟩ := hsame.of_ok
    rw [hy] at hr
    cases hr

/-- A refused command leaves the graph as it was, unless it tears an edge. -/
theorem Agrees.refused (h : x.Agrees g) (hw : g.WellFormed) {c : Command N E} (hc : c.Fresh g)
    (ht : ¬ c.Tears g) {cause : GraphError} (hr : (x.apply c).1 = .refused cause) :
    (x.apply c).2 = x ∧ (g.apply c).2 = g := by
  have hr' : (g.apply c).1 = .refused cause := (h.apply hc).1 ▸ hr
  cases c with
  | newNode id data => cases hr
  | addNode id data => exact ⟨(x.whole_addNode id data).settle hr, Graph.settle_refused hr'⟩
  | removeNode id => cases hr
  | addEdge e => exact ⟨(x.whole_addEdge e).settle hr, Graph.settle_refused hr'⟩
  | removeEdge id => cases hr
  | adjustNode id f => cases hr
  | adjustEdge id f => cases hr
  | contract members hub data => exact h.refused_contract hw ht hr
  | insertBefore id hub data link select =>
    exact ⟨(h.whole_insertBefore id hub data hc select).settle hr, Graph.settle_refused hr'⟩
  | insertAfter id hub data link select =>
    exact ⟨(h.whole_insertAfter id hub data hc select).settle hr, Graph.settle_refused hr'⟩
  | thin id => cases hr

/-- A command that tears an edge is refused and leaves other nodes. -/
theorem Agrees.refused_of_tears (h : x.Agrees g) (hw : g.WellFormed) {c : Command N E}
    (hc : c.Fresh g) (ht : c.Tears g) :
    (∃ i, x.hasEdge i = true ∧ (x.apply c).1 = .refused (.duplicateEdge i)) ∧
      (x.apply c).2.nodeIds ≠ x.nodeIds := by
  cases c with
  | contract members hub data =>
    obtain ⟨hhub, hmem, htorn⟩ := ht
    obtain ⟨e, he, left, hleft, hin⟩ := Graph.contract_eq_error_of_torn hw hhub hmem htorn data
    obtain ⟨hanswer, hag⟩ := h.apply hc
    rw [Graph.apply, hleft] at hanswer hag
    refine ⟨⟨e.id, ?_, hanswer⟩, fun hsame => hhub ?_⟩
    · rw [h.hasEdge, Graph.hasEdge_iff]
      exact Graph.id_mem_of_mem_boundary e he
    · rw [← h.nodeIds, ← hsame, hag.nodeIds]
      exact hin
  | _ => exact ht.elim

/--
After any course of commands, a command that is refused leaves the graph as it was, whatever is
given to it. The one exception is a contraction of nodes of the graph to a new one in which a node
is listed twice that has an edge to or from a node outside: it is refused for an edge that is there,
and leaves a graph with other nodes.
-/
theorem refused_unchanged (S : Type → Type → Type) [Slots S] [LawfulSlots S] {N E : Type}
    {h : History N E} (hf : h.Fresh) {c : Command N E} (hc : c.Fresh h.plain) :
    ∃ x : Indexed S N E, h.stored S = some x ∧
      (¬ c.Tears h.plain → ∀ cause, (x.apply c).1 = .refused cause →
        (x.apply c).2 = x ∧ (h.plain.apply c).2 = h.plain) ∧
      (c.Tears h.plain →
        (∃ i, x.hasEdge i = true ∧ (x.apply c).1 = .refused (.duplicateEdge i)) ∧
          (x.apply c).2.nodeIds ≠ x.nodeIds) := by
  have hw := History.wellFormed hf
  obtain ⟨x, hx, hag⟩ := exists_stored S hf
  exact ⟨x, hx, fun ht _ hr => hag.refused hw hc ht hr, hag.refused_of_tears hw hc⟩

end Indexed

/-- One edge between two nodes. -/
def Graph.History.paired : History Unit Unit :=
  ((History.start.next (.addNode ⟨1⟩ ())).next (.addNode ⟨2⟩ ())).next
    (.addEdge ⟨⟨3⟩, ⟨1⟩, ⟨2⟩, ()⟩)

theorem Graph.History.fresh_paired : History.paired.Fresh := by
  simp [History.paired, History.Fresh, Command.Fresh]

/-- A node that is there already is not put behind another one. -/
theorem Indexed.refused_unchanged_paired :
    History.paired.Fresh ∧
    (Command.insertAfter ⟨1⟩ ⟨2⟩ () (⟨4⟩, ()) fun _ => true).Fresh History.paired.plain ∧
    ∃ x : Indexed Places Unit Unit, History.paired.stored Places = some x ∧
      (x.apply (.insertAfter ⟨1⟩ ⟨2⟩ () (⟨4⟩, ()) fun _ => true)).1 =
        .refused (.duplicateNode ⟨2⟩) ∧
      (x.apply (.insertAfter ⟨1⟩ ⟨2⟩ () (⟨4⟩, ()) fun _ => true)).2 = x := by
  have hc : (Command.insertAfter ⟨1⟩ ⟨2⟩ () (⟨4⟩, ()) fun _ => true : Command Unit Unit).Fresh
      History.paired.plain := by
    show (⟨4⟩ : EdgeId) ∉ _
    decide
  obtain ⟨x, hx, hsame, -⟩ := Indexed.refused_unchanged Places History.fresh_paired hc
  have hrefused : (x.apply (.insertAfter ⟨1⟩ ⟨2⟩ () (⟨4⟩, ()) fun _ => true)).1 =
      .refused (.duplicateNode ⟨2⟩) := by
    cases hx
    rfl
  exact ⟨History.fresh_paired, hc, x, hx, hrefused, (hsame (fun ht => ht.elim) _ hrefused).1⟩

/-- A contraction of a node that is listed twice is refused when the node is gone. -/
theorem Indexed.contract_refused_halfway :
    ∃ x : Indexed Places Unit Unit, History.paired.stored Places = some x ∧
      (x.apply (.contract [⟨1⟩, ⟨1⟩] ⟨4⟩ ())).1 = .refused (.duplicateEdge ⟨3⟩) ∧
      x.nodeIds = [⟨1⟩, ⟨2⟩] ∧
      (x.apply (.contract [⟨1⟩, ⟨1⟩] ⟨4⟩ ())).2.nodeIds = [⟨2⟩, ⟨4⟩] := by
  obtain ⟨x, hx, hag⟩ := Indexed.exists_stored Places History.fresh_paired
  obtain ⟨hanswer, hleft⟩ := hag.apply (c := .contract [⟨1⟩, ⟨1⟩] ⟨4⟩ ()) trivial
  exact ⟨x, hx, hanswer, hag.nodeIds, hleft.nodeIds⟩

end ObjectFlow
