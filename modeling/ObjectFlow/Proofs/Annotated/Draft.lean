import ObjectFlow.Proofs.Annotated.Candidates
import ObjectFlow.Proofs.Graph.Path
import ObjectFlow.Proofs.Outcome
import Mathlib.Algebra.Ring.Nat

/-!
# Drafts of flat flow graphs

A flat flow graph can be drafted, every call becomes an action, and the paths between calls stay
(`ofFlow_spec`). What a draft leaves out are edges at the two markers.

## Outline

Drafting goes over the nodes and then over the edges that count, and gives identities to what has
none on the way.

1. *Nodes.* `Drafting ns d s d' s'` says what a draft has when the nodes `ns` have been drafted. It
   is closed under appending lists of nodes (`Drafting.append`), so it is proved for one marker and
   for one call, and the whole list follows (`addNodes_spec`). For calls with notes it also tells
   from which supply their pins got identities.
2. *Edges.* The edges become threads in their order, each with the object of its edge or a new one
   (`threads`). `Drafts` relates an edge and its thread where the new identity does not matter.
3. *The draft.* `DraftOf` is what later stages use. `Issued` keeps which identities were given out,
   for those statements that ask whether two references are of one object.

A path between calls does not meet a marker, as no edge enters the input marker or leaves the output
marker. So all of its edges count, and paths between calls are those of the flow graph
(`DraftOf.reaches_iff`).
-/

namespace ObjectFlow

/--
An acyclic graph of calls without bodies between two markers. No edge enters the input marker or
leaves the output marker.
-/
structure Flow.Flat (f : Flow) : Prop where
  wellFormed : f.graph.WellFormed
  acyclic : f.graph.Acyclic
  markers_ne : f.input ≠ f.output
  call_iff : ∀ n x, f.graph.node? n = some x → (x.call?.isSome ↔ n ≠ f.input ∧ n ≠ f.output)
  body_none : ∀ n c, f.graph.node? n = some (.call c) → c.body = none
  target_ne_input : ∀ e ∈ f.graph.edges, e.target ≠ f.input
  source_ne_output : ∀ e ∈ f.graph.edges, e.source ≠ f.output

namespace Annotated.Draft

/-- The action that a node becomes. -/
def drafted : Flow.Node → Node
  | .input => .action { label := sourceLabel }
  | .output => .action { label := sinkLabel }
  | .call c => .action (.ofNote c.note)

/-- The objects at the pins of calls are not known to come from anywhere yet. -/
def Sourceless (d : Draft) : Prop := ∀ n, ∀ x ∈ d.listed .input n, x.2.sources = []

/-- What a draft says about objects before any edge is looked at. -/
structure Tidy (d : Draft) : Prop where
  tabled : ∀ side n, Tabled (d.listed side n)
  profile_id : ∀ o, (d.profile o).id = some o

theorem Tidy.sourceless {d : Draft} (h : d.Tidy) : d.Sourceless := fun n =>
  (h.tabled .input n).sourceless

/-! ## Calls

A call without a note lists nothing. For one with a note the pins on its input side get their
identities first. -/

/-- The supply from which the pins on a side of a call get their identities. -/
def supplyAt (s : Supply) (c : Flow.Call) : Side → Supply
  | .input => s
  | .output => afterIdentities s ((ports .input c.pins).map (·.2.id))

/-- The supply after a call is drafted. -/
def afterCall (s : Supply) (c : Flow.Call) : Supply :=
  if c.note.isNone then s
  else afterIdentities (supplyAt s c .output) ((ports .output c.pins).map (·.2.id))

/-- The pins of a call stand under their objects on either side. -/
def Lists (d : Draft) (s : Supply) (n : NodeId) (c : Flow.Call) : Prop :=
  ∀ side, Tabled (d.listed side n) ∧ (listing (d.listed side n)).Perm
    ((identities (supplyAt s c side) ((ports side c.pins).map (·.2.id))).zip
      ((ports side c.pins).map shown))

/-- A pin is on one side. -/
theorem length_ports_le (ps : List (String × Flow.Pin)) :
    (ports .input ps).length + (ports .output ps).length ≤ ps.length := by
  induction ps with
  | nil => exact Nat.le_refl _
  | cons p ps ih =>
    simp only [ports, List.filter_cons] at ih ⊢
    cases hside : p.2.side <;> cases p.2.position.isSome <;> simp <;> omega

/-- A call takes one identity for each of its pins at most. -/
theorem next_afterCall_le (s : Supply) (c : Flow.Call) :
    s.next ≤ (afterCall s c).next ∧ (afterCall s c).next ≤ s.next + c.pins.length := by
  rw [afterCall]
  split
  · exact ⟨Nat.le_refl _, Nat.le_add_right _ _⟩
  · have hin := next_afterIdentities_le s ((ports .input c.pins).map (·.2.id))
    have hout := next_afterIdentities_le (supplyAt s c .output)
      ((ports .output c.pins).map (·.2.id))
    have hlen := length_ports_le c.pins
    rw [List.length_map] at hin hout
    simp only [supplyAt] at hout ⊢
    omega

/-- A new action can be added. -/
theorem addAction_eq_ok {d : Draft} {n : NodeId} (hn : n ∉ d.graph.nodeIds) (a : Action) :
    d.addAction n a = .ok { d with graph := d.graph.attachNode n (.action a) } := by
  rw [addAction, Graph.addNode_eq_ok _ hn]
  rfl

/-- What is listed is put in for one node. -/
theorem listed_of_put {d d' : Draft} {n : NodeId} {inputs outputs : Candidates}
    (hin : d'.inputs = Table.put d.inputs n inputs)
    (hout : d'.outputs = Table.put d.outputs n outputs) (side : Side) (m : NodeId) :
    d'.listed side m = if m = n then (match side with | .input => inputs | .output => outputs)
      else d.listed side m := by
  cases side <;> simp only [listed, hin, hout, Table.at?_put] <;> split <;> rfl

/-- A call without a body is drafted, and its pins are listed if it has a note. -/
theorem addCall_spec {d : Draft} {n : NodeId} (hn : n ∉ d.graph.nodeIds) (s : Supply)
    {c : Flow.Call} (hc : c.body = none) : ∃ d', d.addCall s n c = .ok (d', afterCall s c) ∧
      d'.graph = d.graph.attachNode n (.action (.ofNote c.note)) ∧ d'.markers = d.markers ∧
      d'.objects = d.objects ∧
      (∀ side m, m ≠ n ∨ c.note = none → d'.listed side m = d.listed side m) ∧
      (c.note.isSome = true → d'.Lists s n c) := by
  unfold addCall
  rw [hc]
  simp only [Option.isSome_none, Bool.false_eq_true, if_false, addAction_eq_ok hn,
    Outcome.ok_bind, Outcome.pure_eq_ok]
  by_cases hnote : c.note.isNone = true
  · have hno : ¬ c.note.isSome = true := by simpa using hnote
    rw [if_pos hnote, afterCall, if_pos hnote]
    exact ⟨_, rfl, rfl, rfl, rfl, fun _ _ _ => rfl, fun h => absurd h hno⟩
  · obtain ⟨tin, hin, htin, hpin⟩ := candidates_spec (s := s) .nil .input c.pins
    obtain ⟨tout, hout, htout, hpout⟩ :=
      candidates_spec (s := supplyAt s c .output) .nil .output c.pins
    have hcall : afterCall s c = afterIdentities (supplyAt s c .output)
        ((ports .output c.pins).map (·.2.id)) := if_neg hnote
    rw [if_neg hnote, hin, hcall]
    dsimp only
    rw [show afterIdentities s ((ports .input c.pins).map (·.2.id)) = supplyAt s c .output from rfl,
      hout]
    refine ⟨_, rfl, rfl, rfl, rfl, fun side m hm => ?_, fun _ side => ?_⟩
    · have hne : m ≠ n := hm.resolve_right fun h => hnote (by rw [h]; rfl)
      exact (listed_of_put rfl rfl side m).trans (if_neg hne)
    · rw [(listed_of_put rfl rfl side n).trans (if_pos rfl)]
      cases side
      · exact ⟨htin, hpin⟩
      · exact ⟨htout, hpout⟩

/-! ## Actions for nodes

The nodes are drafted in their order. A node that is drafted later lists nothing for an earlier
one. -/

/-- All pins of some nodes. -/
def pinCount (ns : List (NodeId × Flow.Node)) : Nat :=
  (ns.map fun n => (n.2.call?.map fun c => c.pins.length).getD 0).sum

/-- What a draft has when some more nodes are drafted. -/
structure Drafting (ns : List (NodeId × Flow.Node)) (d : Draft) (s : Supply) (d' : Draft)
    (s' : Supply) : Prop where
  nodes_eq : d'.graph.nodes = d.graph.nodes ++ ns.map fun n => (n.1, drafted n.2)
  edges_eq : d'.graph.edges = d.graph.edges
  wellFormed : d.graph.WellFormed → d'.graph.WellFormed
  markers_eq : d'.markers = d.markers
  objects_eq : d'.objects = d.objects
  le_next : s.next ≤ s'.next
  next_le : s'.next ≤ s.next + pinCount ns
  listed_eq : ∀ side m, (∀ c, (m, .call c) ∈ ns → c.note = none) →
    d'.listed side m = d.listed side m
  lists : ∀ n c, (n, .call c) ∈ ns → c.note.isSome = true →
    ∃ s₀, s.next ≤ s₀.next ∧ (afterCall s₀ c).next ≤ s'.next ∧ d'.Lists s₀ n c

/-- No nodes, nothing drafted. -/
theorem Drafting.nil (d : Draft) (s : Supply) : Drafting [] d s d s :=
  ⟨by simp, rfl, id, rfl, rfl, Nat.le_refl _, Nat.le_refl _, fun _ _ _ => rfl, by simp⟩

/-- Nodes are drafted one list after the other. -/
theorem Drafting.append {ns ms : List (NodeId × Flow.Node)} {d d₁ d' : Draft} {s s₁ s' : Supply}
    (h : Drafting ns d s d₁ s₁) (h' : Drafting ms d₁ s₁ d' s')
    (hdisj : ∀ n ∈ Table.keys ns, n ∉ Table.keys ms) : Drafting (ns ++ ms) d s d' s' where
  nodes_eq := by rw [h'.nodes_eq, h.nodes_eq, List.map_append, List.append_assoc]
  edges_eq := h'.edges_eq.trans h.edges_eq
  wellFormed := fun hw => h'.wellFormed (h.wellFormed hw)
  markers_eq := h'.markers_eq.trans h.markers_eq
  objects_eq := h'.objects_eq.trans h.objects_eq
  le_next := Nat.le_trans h.le_next h'.le_next
  next_le := by
    have hadd : pinCount (ns ++ ms) = pinCount ns + pinCount ms := by simp [pinCount]
    have hle := h.next_le
    have hle' := h'.next_le
    omega
  listed_eq := fun side m hm => (h'.listed_eq side m fun c hc =>
    hm c (List.mem_append_right _ hc)).trans (h.listed_eq side m fun c hc =>
      hm c (List.mem_append_left _ hc))
  lists := by
    intro n c hn hc
    rcases List.mem_append.1 hn with hn | hn
    · obtain ⟨s₀, hle, hle', hlists⟩ := h.lists n c hn hc
      refine ⟨s₀, hle, Nat.le_trans hle' h'.le_next, fun side => ?_⟩
      rw [h'.listed_eq side n fun c' hc' =>
        absurd (Table.mem_keys.2 ⟨_, hc'⟩) (hdisj n (Table.mem_keys.2 ⟨_, hn⟩))]
      exact hlists side
    · obtain ⟨s₀, hle, hlists⟩ := h'.lists n c hn hc
      exact ⟨s₀, Nat.le_trans h.le_next hle, hlists⟩

/-- A marker is drafted as an action without a note. -/
theorem drafting_marker {d : Draft} {n : NodeId} (hn : n ∉ d.graph.nodeIds) (s : Supply)
    {x : Flow.Node} (hx : x.call? = none) :
    Drafting [(n, x)] d s { d with graph := d.graph.attachNode n (drafted x) } s where
  nodes_eq := rfl
  edges_eq := rfl
  wellFormed := fun hw => hw.attachNode _ hn
  markers_eq := rfl
  objects_eq := rfl
  le_next := Nat.le_refl _
  next_le := Nat.le_add_right _ _
  listed_eq := fun _ _ _ => rfl
  lists := by
    intro m c hm
    cases List.mem_singleton.1 hm
    cases hx

/-- A call is drafted as an action with its note. -/
theorem drafting_call {d : Draft} {n : NodeId} (hn : n ∉ d.graph.nodeIds) (s : Supply)
    {c : Flow.Call} (hc : c.body = none) : ∃ d', d.addCall s n c = .ok (d', afterCall s c) ∧
      Drafting [(n, .call c)] d s d' (afterCall s c) := by
  obtain ⟨d', hok, hg, hm, ho, hother, hlists⟩ := addCall_spec hn s hc
  have hnext := next_afterCall_le s c
  refine ⟨d', hok, ?_⟩
  exact
    { nodes_eq := by rw [hg]; rfl
      edges_eq := by rw [hg]; rfl
      wellFormed := fun hw => hg ▸ hw.attachNode _ hn
      markers_eq := hm
      objects_eq := ho
      le_next := hnext.1
      next_le := hnext.2
      listed_eq := fun side m hm => hother side m (by
        by_cases hmn : m = n
        · subst hmn
          exact .inr (hm c (List.mem_singleton_self _))
        · exact .inl hmn)
      lists := by
        intro m c' hmem hc'
        cases List.mem_singleton.1 hmem
        exact ⟨s, Nat.le_refl _, Nat.le_refl _, hlists hc'⟩ }

/-- All nodes of a flat graph can be drafted. -/
theorem addNodes_spec (ns : List (NodeId × Flow.Node)) {d : Draft}
    (hd : (Table.keys ns).Nodup) (hnew : ∀ n ∈ Table.keys ns, n ∉ d.graph.nodeIds)
    (hbody : ∀ n c, (n, .call c) ∈ ns → c.body = none) (s : Supply) :
    ∃ d' s', addNodes d s ns = .ok (d', s') ∧ Drafting ns d s d' s' := by
  induction ns generalizing d s with
  | nil => exact ⟨d, s, rfl, .nil d s⟩
  | cons n ns ih =>
    obtain ⟨n, x⟩ := n
    have hn : n ∉ d.graph.nodeIds := hnew n List.mem_cons_self
    rw [Table.keys_cons, List.nodup_cons] at hd
    -- every kind of node is drafted as an action, and the rest follows in the same way
    have hrest : ∀ (d₁ : Draft) (s₁ : Supply), Drafting [(n, x)] d s d₁ s₁ →
        ∃ d' s', addNodes d₁ s₁ ns = .ok (d', s') ∧ Drafting ((n, x) :: ns) d s d' s' := by
      intro d₁ s₁ h₁
      have hnew₁ : ∀ m ∈ Table.keys ns, m ∉ d₁.graph.nodeIds := by
        intro m hm
        rw [Graph.nodeIds, h₁.nodes_eq]
        simp only [List.map_append, List.mem_append, not_or]
        refine ⟨hnew m (List.mem_cons_of_mem _ hm), fun hm' => hd.1 ?_⟩
        have heq : m = n := by simpa using hm'
        exact heq ▸ hm
      obtain ⟨d', s', hok, h'⟩ := ih hd.2 hnew₁
        (fun m c hm => hbody m c (List.mem_cons_of_mem _ hm)) s₁
      refine ⟨d', s', hok, h₁.append h' fun m hm => ?_⟩
      rw [List.mem_singleton.1 hm]
      exact hd.1
    cases x with
    | input =>
      rw [addNodes, addAction_eq_ok hn, Outcome.ok_bind]
      exact hrest _ s (drafting_marker hn s rfl)
    | output =>
      rw [addNodes, addAction_eq_ok hn, Outcome.ok_bind]
      exact hrest _ s (drafting_marker hn s rfl)
    | call c =>
      obtain ⟨d₁, hok, h₁⟩ := drafting_call hn s (hbody n c List.mem_cons_self)
      rw [addNodes, hok, Outcome.ok_bind]
      exact hrest d₁ _ h₁

/-! ## Threads for edges

An object gets a profile with the first of its edges. -/

/-- A thread runs where an edge runs, with its object. -/
structure Drafts (e : Edge Flow.Link) (t : Edge Thread) : Prop where
  id_eq : t.id = e.id
  source_eq : t.source = e.source
  target_eq : t.target = e.target
  object_eq : ∀ o, e.data.object.id = some o → t.data = ⟨o, none⟩
  pin_eq : t.data.pin = none

/-- The threads of edges, of which those without an object get one each. -/
def threads (s : Supply) (es : List (Edge Flow.Link)) : List (Edge Thread) :=
  es.zipWith (fun e o => ⟨e.id, e.source, e.target, ⟨o, none⟩⟩)
    (identities s (es.map fun e => e.data.object.id))

/-- Every edge has its thread. -/
theorem drafts_threads (s : Supply) (es : List (Edge Flow.Link)) :
    List.Forall₂ Drafts es (threads s es) := by
  induction es generalizing s with
  | nil => exact .nil
  | cons e es ih =>
    refine .cons ⟨rfl, rfl, rfl, fun o ho => ?_, rfl⟩ (ih _)
    show (⟨(ask s e.data.object.id).1, none⟩ : Thread) = ⟨o, none⟩
    rw [ho]
    rfl

theorem profile_of_objects {d d' : Draft} (h : d.objects = d'.objects) (o : ObjectId) :
    d.profile o = d'.profile o := by
  rw [profile, profile, h]

/-- A draft with one edge more, whose object gets a profile unless it was met before. -/
def threaded (d : Draft) (o : ObjectId) (e : Edge Flow.Link) : Draft :=
  { d with
    graph := d.graph.withEdges [⟨e.id, e.source, e.target, ⟨o, none⟩⟩]
    objects := if Table.holds d.objects o then d.objects
      else Table.put d.objects o
        { id := some o, note := e.data.object.note, value := e.data.object.value } }

/-- Profiles bear the identities of their objects. -/
theorem profile_threaded {d : Draft} (hp : ∀ o, (d.profile o).id = some o) (o : ObjectId)
    (e : Edge Flow.Link) (o' : ObjectId) : ((d.threaded o e).profile o').id = some o' := by
  rw [profile, threaded]
  dsimp only
  split
  · exact hp o'
  · rw [Table.at?_put]
    split
    · rename_i heq
      exact congrArg some heq.symm
    · exact hp o'

/-- The first edge is drafted, and then the others. -/
theorem addEdges_cons {d : Draft} {e : Edge Flow.Link} (hnew : e.id ∉ d.graph.edges.map Edge.id)
    (hs : e.source ∈ d.graph.nodeIds) (ht : e.target ∈ d.graph.nodeIds) (s : Supply)
    (es : List (Edge Flow.Link)) : d.addEdges s (e :: es) =
      (d.threaded (ask s e.data.object.id).1 e).addEdges (ask s e.data.object.id).2 es := by
  have hadd : ∀ o, d.graph.addEdge ⟨e.id, e.source, e.target, ⟨o, none⟩⟩ =
      .ok (d.graph.withEdges [⟨e.id, e.source, e.target, ⟨o, none⟩⟩]) := fun o =>
    Graph.addEdge_eq_ok hnew hs ht
  rw [addEdges]
  cases e.data.object.id <;>
  · dsimp only
    rw [hadd, Outcome.mapError_ok, Outcome.ok_bind]
    rfl

/-- All edges between nodes of the draft can be drafted. -/
theorem addEdges_spec (es : List (Edge Flow.Link)) {d : Draft} (hd : (es.map Edge.id).Nodup)
    (hnew : ∀ e ∈ es, e.id ∉ d.graph.edges.map Edge.id)
    (hs : ∀ e ∈ es, e.source ∈ d.graph.nodeIds) (ht : ∀ e ∈ es, e.target ∈ d.graph.nodeIds)
    (hp : ∀ o, (d.profile o).id = some o) (s : Supply) :
    ∃ d', d.addEdges s es = .ok (d', afterIdentities s (es.map fun e => e.data.object.id)) ∧
      d'.graph = d.graph.withEdges (threads s es) ∧ d'.markers = d.markers ∧
      (∀ side n, d'.listed side n = d.listed side n) ∧ ∀ o, (d'.profile o).id = some o := by
  induction es generalizing d s with
  | nil => exact ⟨d, rfl, (Graph.withEdges_nil _).symm, rfl, fun _ _ => rfl, hp⟩
  | cons e es ih =>
    rw [List.map_cons, List.nodup_cons] at hd
    rw [List.forall_mem_cons] at hnew hs ht
    have hnew' : ∀ e' ∈ es,
        e'.id ∉ (d.threaded (ask s e.data.object.id).1 e).graph.edges.map Edge.id := by
      intro e' he' hmem
      rw [threaded, Graph.edges_withEdges, List.map_append, List.mem_append] at hmem
      rcases hmem with hmem | hmem
      · exact hnew.2 e' he' hmem
      · have heq : e'.id = e.id := by simpa using hmem
        exact hd.1 (heq ▸ List.mem_map_of_mem he')
    obtain ⟨d', hok, hg, hm, hl, hp'⟩ :=
      ih hd.2 hnew' hs.2 ht.2 (profile_threaded hp _ e) (ask s e.data.object.id).2
    refine ⟨d', (addEdges_cons hnew.1 hs.1 ht.1 s es).trans hok, ?_, hm, hl, hp'⟩
    rw [hg, threaded, Graph.withEdges_withEdges]
    rfl

/-- Threads run where edges run. -/
theorem step_of_forall₂ {es : List (Edge Flow.Link)} {ts : List (Edge Thread)}
    (h : List.Forall₂ Drafts es ts) (u v : NodeId) :
    (∃ t ∈ ts, t.source = u ∧ t.target = v) ↔ ∃ e ∈ es, e.source = u ∧ e.target = v := by
  induction h with
  | nil => simp
  | @cons e t es ts het _ ih => simp [ih, het.source_eq, het.target_eq]

theorem ids_of_forall₂ {es : List (Edge Flow.Link)} {ts : List (Edge Thread)}
    (h : List.Forall₂ Drafts es ts) : ts.map Edge.id = es.map Edge.id := by
  induction h with
  | nil => rfl
  | cons het _ ih => rw [List.map_cons, List.map_cons, ih, het.id_eq]

section Threads

variable {f : Flow} {g : Graph Node Thread} (hids : g.nodeIds = f.graph.nodeIds)
  (hnone : g.edges = [])
include hids hnone

/-- Threads for some edges of a graph fit on its nodes. -/
theorem wellFormed_withThreads (hf : f.graph.WellFormed) (hg : g.WellFormed) (s : Supply)
    (p : Edge Flow.Link → Bool) :
    (g.withEdges (threads s (f.graph.edges.filter p))).WellFormed := by
  have hthreads := drafts_threads s (f.graph.edges.filter p)
  refine hg.withEdges ?_ (by simp [hnone]) (fun t ht => ?_) fun t ht => ?_
  · rw [ids_of_forall₂ hthreads]
    exact hf.edges_nodup.sublist (List.filter_sublist.map _)
  · obtain ⟨e, he, het⟩ := Outcome.exists_left_of_forall₂ hthreads ht
    rw [hids, het.source_eq]
    exact hf.source_mem e (List.mem_of_mem_filter he)
  · obtain ⟨e, he, het⟩ := Outcome.exists_left_of_forall₂ hthreads ht
    rw [hids, het.target_eq]
    exact hf.target_mem e (List.mem_of_mem_filter he)

theorem before_withThreads {s s' : Supply} (hb : f.graph.Before s) (hle : s.next ≤ s'.next)
    (s₁ : Supply) (p : Edge Flow.Link → Bool) :
    (g.withEdges (threads s₁ (f.graph.edges.filter p))).Before s' := by
  refine ⟨fun n hn => ?_, fun t ht => ?_⟩
  · rw [Graph.nodeIds_withEdges, hids] at hn
    exact Nat.lt_of_lt_of_le (hb.node_lt n hn) hle
  · rw [Graph.edges_withEdges, hnone, List.nil_append] at ht
    obtain ⟨e, he, het⟩ :=
      Outcome.exists_left_of_forall₂ (drafts_threads s₁ (f.graph.edges.filter p)) ht
    rw [het.id_eq]
    exact Nat.lt_of_lt_of_le (hb.edge_lt e (List.mem_of_mem_filter he)) hle

end Threads

/-! ## The draft of a flat graph

The parts are put together, and the identities in the graph are bounded by the supply. -/

/-- Edges between calls count. -/
theorem counts_of_ne {f : Flow} {e : Edge Flow.Link} (hs : e.source ≠ f.input)
    (ht : e.target ≠ f.output) : counts f e = true := by
  rw [counts, if_neg hs, if_neg ht]

/-- The draft has the nodes of the flow graph, and the edges that count. -/
structure DraftOf (d : Draft) (f : Flow) : Prop where
  wellFormed : d.graph.WellFormed
  nodes_eq : d.graph.nodes = f.graph.nodes.map fun n => (n.1, drafted n.2)
  drafts : List.Forall₂ Drafts (f.graph.edges.filter (counts f)) d.graph.edges
  markers_eq : d.markers = [f.input, f.output]
  tabled : ∀ side n, Tabled (d.listed side n)
  listed_eq : ∀ side n, isNoted f n = false → d.listed side n = []
  profile_id : ∀ o, (d.profile o).id = some o

/-- Which identities the references without one have got. -/
structure Issued (d : Draft) (f : Flow) (s s₁ : Supply) : Prop where
  le_next : s.next ≤ s₁.next
  next_le : s₁.next ≤ s.next + pinCount f.graph.nodes
  edges_eq : d.graph.edges = threads s₁ (f.graph.edges.filter (counts f))
  lists : ∀ n c, f.graph.node? n = some (.call c) → c.note.isSome = true →
    ∃ s₀, s.next ≤ s₀.next ∧ (afterCall s₀ c).next ≤ s₁.next ∧ d.Lists s₀ n c

/-- The steps of the draft are the edges that count. -/
theorem DraftOf.step_iff {d : Draft} {f : Flow} (h : d.DraftOf f) (u v : NodeId) :
    d.graph.Step u v ↔ ∃ e ∈ f.graph.edges, counts f e = true ∧ e.source = u ∧ e.target = v := by
  rw [Graph.Step, step_of_forall₂ h.drafts]
  simp only [List.mem_filter, and_assoc]

theorem DraftOf.sourceless {d : Draft} {f : Flow} (h : d.DraftOf f) : d.Sourceless := fun n =>
  (h.tabled .input n).sourceless

/-- A draft says of objects only what pins and edges say. -/
theorem DraftOf.tidy {d : Draft} {f : Flow} (h : d.DraftOf f) : d.Tidy := ⟨h.tabled, h.profile_id⟩

section

variable {f : Flow} {d d' : Draft} {s s' : Supply} (hf : f.graph.WellFormed)
  (h : Drafting f.graph.nodes d s d' s')
include hf h

/-- Nothing is listed for a node without a note. -/
theorem Drafting.listed_of_isNoted {n : NodeId} (hn : isNoted f n = false) (side : Side) :
    d'.listed side n = d.listed side n := by
  refine h.listed_eq side n fun c hc => ?_
  rw [isNoted, hf.node?_eq_some_iff.2 hc] at hn
  simpa using hn

theorem Drafting.tabled (hd : ∀ side n, Tabled (d.listed side n)) (side : Side) (n : NodeId) :
    Tabled (d'.listed side n) := by
  cases hn : isNoted f n with
  | false =>
    rw [h.listed_of_isNoted hf hn side]
    exact hd side n
  | true =>
    rw [isNoted] at hn
    split at hn
    · rename_i c hc
      obtain ⟨_, -, -, hl⟩ := h.lists n c (hf.node?_eq_some_iff.1 hc) hn
      exact (hl side).1
    · cases hn

end

/-- A flat graph is drafted, with the identities that were issued. -/
theorem ofFlow_issued {f : Flow} (h : f.Flat) {s : Supply} (hb : f.graph.Before s) :
    ∃ d s' s₁, ofFlow f s = .ok (d, s') ∧ d.DraftOf f ∧ d.graph.Before s' ∧ d.Issued f s s₁ := by
  have hw := h.wellFormed
  set es := f.graph.edges.filter (counts f)
  have hsub : ∀ e ∈ es, e ∈ f.graph.edges := fun e => List.mem_of_mem_filter
  -- the nodes
  obtain ⟨d₁, s₁, hok₁, hd₁⟩ := addNodes_spec f.graph.nodes
    (d := { markers := [f.input, f.output] }) hw.nodes_nodup (fun n _ hn => by cases hn)
    (fun n c hn => h.body_none n c (hw.node?_eq_some_iff.2 hn)) s
  have hids : d₁.graph.nodeIds = f.graph.nodeIds := by
    rw [Graph.nodeIds, hd₁.nodes_eq, List.nil_append, List.map_map]
    rfl
  have hnone : d₁.graph.edges = [] := hd₁.edges_eq
  -- the edges that count
  obtain ⟨d₂, hok₂, hg, hm₂, hl₂, hp₂⟩ := addEdges_spec es (d := d₁)
    (hw.edges_nodup.sublist (List.filter_sublist.map _)) (by simp [hnone])
    (fun e he => hids ▸ hw.source_mem e (hsub e he))
    (fun e he => hids ▸ hw.target_mem e (hsub e he))
    (fun o => by rw [profile_of_objects hd₁.objects_eq]; rfl) s₁
  have hedges : d₂.graph.edges = threads s₁ es := by
    rw [hg, Graph.edges_withEdges, hnone, List.nil_append]
  have hle := (next_afterIdentities_le s₁ (es.map fun e => e.data.object.id)).1
  have hnil : ∀ side n, Tabled (listed { markers := [f.input, f.output] } side n) := by
    rintro (_ | _) n <;> exact .nil
  have hlisted : ∀ side n, isNoted f n = false → d₂.listed side n = [] := by
    intro side n hn
    rw [hl₂, hd₁.listed_of_isNoted hw hn]
    cases side <;> rfl
  refine ⟨d₂, afterIdentities s₁ (es.map fun e => e.data.object.id), s₁, ?_,
    { wellFormed := hg ▸ wellFormed_withThreads hids hnone hw
        (hd₁.wellFormed Graph.WellFormed.empty) s₁ _
      nodes_eq := hg ▸ hd₁.nodes_eq
      drafts := hedges ▸ drafts_threads s₁ es
      markers_eq := hm₂.trans hd₁.markers_eq
      tabled := fun side n => hl₂ side n ▸ hd₁.tabled hw hnil side n
      listed_eq := hlisted
      profile_id := hp₂ },
    hg ▸ before_withThreads hids hnone hb (Nat.le_trans hd₁.le_next hle) s₁ _,
    ⟨hd₁.le_next, hd₁.next_le, hedges, fun n c hn hc => ?_⟩⟩
  · rw [ofFlow, hok₁]
    exact hok₂
  · obtain ⟨s₀, hle, hle', hl⟩ := hd₁.lists n c (hw.node?_eq_some_iff.1 hn) hc
    exact ⟨s₀, hle, hle', fun side => hl₂ side n ▸ hl side⟩

/-- A flat graph is drafted. -/
theorem ofFlow_spec {f : Flow} (h : f.Flat) {s : Supply} (hb : f.graph.Before s) :
    ∃ d s', ofFlow f s = .ok (d, s') ∧ d.DraftOf f ∧ d.graph.Before s' := by
  obtain ⟨d, s', -, hok, hd, hb', -⟩ := ofFlow_issued h hb
  exact ⟨d, s', hok, hd, hb'⟩

theorem exists_call_of_isNoted {f : Flow} {n : NodeId} (hn : isNoted f n = true) :
    ∃ c, f.graph.node? n = some (.call c) ∧ c.note.isSome = true := by
  rw [isNoted] at hn
  split at hn
  · rename_i c hc
    exact ⟨c, hc, hn⟩
  · cases hn

/-- The nodes are drafted each by itself. -/
theorem DraftOf.node?_eq {d : Draft} {f : Flow} (h : d.DraftOf f) (n : NodeId) :
    d.graph.node? n = (f.graph.node? n).map drafted := by
  rw [Graph.node?, h.nodes_eq]
  exact Table.at?_map (fun _ => drafted) f.graph.nodes n

theorem DraftOf.node?_of_call {d : Draft} {f : Flow} (h : d.DraftOf f) {n : NodeId}
    {c : Flow.Call} (hn : f.graph.node? n = some (.call c)) :
    d.graph.node? n = some (.action (.ofNote c.note)) := by
  rw [h.node?_eq, hn]
  rfl

/-- The draft has no cycle where the flow graph has none. -/
theorem DraftOf.acyclic {d : Draft} {f : Flow} (h : d.DraftOf f) (hf : f.graph.Acyclic) :
    d.graph.Acyclic := by
  refine fun u hr => hf u (hr.mono fun a b hs => ?_)
  obtain ⟨e, he, -, rfl, rfl⟩ := (h.step_iff a b).1 hs
  exact .of_mem he

/-- A path between calls touches no marker, so that all its edges count. -/
theorem DraftOf.reaches_iff {d : Draft} {f : Flow} (h : d.DraftOf f) (hf : f.Flat) {u v : NodeId}
    (hu : u ≠ f.input) (hv : v ≠ f.output) : d.graph.Reaches u v ↔ f.graph.Reaches u v := by
  constructor
  · refine Graph.Reaches.mono fun a b hs => ?_
    obtain ⟨e, he, -, rfl, rfl⟩ := (h.step_iff a b).1 hs
    exact .of_mem he
  · intro hr
    have hstep : ∀ {a b}, f.graph.Step a b → a ≠ f.input → b ≠ f.output → d.graph.Step a b := by
      rintro a b ⟨e, he, rfl, rfl⟩ ha hb
      exact (h.step_iff _ _).2 ⟨e, he, counts_of_ne ha hb, rfl, rfl⟩
    induction hr with
    | single hs => exact (hstep hs hu hv).reaches
    | @tail y z hy hs ih =>
      have hyo : y ≠ f.output := by
        obtain ⟨e, he, rfl, rfl⟩ := hs
        exact hf.source_ne_output e he
      have hyi : y ≠ f.input := by
        obtain ⟨w, -, e, he, rfl, rfl⟩ := Relation.TransGen.tail'_iff.1 hy
        exact hf.target_ne_input e he
      exact (ih hyo).trans (hstep hs hyi hv).reaches

end Annotated.Draft

end ObjectFlow
