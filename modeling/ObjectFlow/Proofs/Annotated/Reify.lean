import ObjectFlow.Annotated.Reify
import ObjectFlow.Proofs.Annotated.Draft
import ObjectFlow.Proofs.Graph.Order
import ObjectFlow.Proofs.Graph.Rewire

/-!
# Entities between actions

Turning objects into entities does not fail and refines the graph: actions stay as they are, and so
do the paths between them (`reify_spec`). Entities are put in front of actions, where nothing leads
to them, or behind, where they take over some of the edges.

Each change has an equation and a relation. The equation gives the graph that results, in terms of
the operations on graphs (`heralded`, `followed`), so that nothing that is proved later on has to
look into the program again. The relation is in terms of what edges carry from where to where
(`Carries`), which is the level at which the rest is told. Paths are then a consequence: an entity
in front of an action is on no path from an old node, and one behind an action only lengthens those
that used the edges it took over (`Refines`).
-/

namespace ObjectFlow.Annotated.Draft

open ObjectFlow.Graph

/-- A graph in which actions and entities can be rearranged. -/
structure Sound (g : Graph Node Thread) (s : Supply) : Prop where
  wellFormed : g.WellFormed
  before : g.Before s
  acyclic : g.Acyclic

/-- The old nodes are still there, with the same paths between them, and actions are unchanged. -/
structure Refines (g g' : Graph Node Thread) : Prop where
  mem : ∀ n ∈ g.nodeIds, n ∈ g'.nodeIds
  action : ∀ n a, g.node? n = some (.action a) → g'.node? n = some (.action a)
  reaches_iff : ∀ u ∈ g.nodeIds, ∀ v ∈ g.nodeIds, (g'.Reaches u v ↔ g.Reaches u v)

/-- A graph refines itself. -/
theorem Refines.refl (g : Graph Node Thread) : Refines g g :=
  ⟨fun _ h => h, fun _ _ h => h, fun _ _ _ _ => Iff.rfl⟩

/-- What refines a graph that refines refines. -/
theorem Refines.trans {g g' g'' : Graph Node Thread} (h : Refines g g') (h' : Refines g' g'') :
    Refines g g'' :=
  ⟨fun n hn => h'.mem n (h.mem n hn), fun n a ha => h'.action n a (h.action n a ha),
    fun u hu v hv => (h'.reaches_iff u (h.mem u hu) v (h.mem v hv)).trans (h.reaches_iff u hu v hv)⟩

/-- With the same steps there are the same paths. -/
theorem refines_of_step {g g' : Graph Node Thread} (hids : g'.nodeIds = g.nodeIds)
    (ha : ∀ n a, g.node? n = some (.action a) → g'.node? n = some (.action a))
    (hstep : ∀ u v, g'.Step u v ↔ g.Step u v) : Refines g g' :=
  ⟨fun _ hn => hids ▸ hn, ha, fun u _ v _ => reaches_congr hstep u v⟩

variable {g : Graph Node Thread} {s : Supply}

/-! ## Objects along edges

Several edges may carry one object between the same nodes. What is carried does not tell them
apart. -/

/-- Some edge carries the object from the one node to the other. -/
def Carries (g : Graph Node Thread) (u v : NodeId) (id : ObjectId) : Prop :=
  ∃ e ∈ g.edges, e.source = u ∧ e.target = v ∧ e.data.id = id

theorem Carries.of_mem {e : Edge Thread} (h : e ∈ g.edges) :
    Carries g e.source e.target e.data.id := ⟨e, h, rfl, rfl, rfl⟩

theorem Carries.step {u v : NodeId} {id : ObjectId} (h : Carries g u v id) : g.Step u v := by
  obtain ⟨e, he, hs, ht, -⟩ := h
  exact ⟨e, he, hs, ht⟩

/-- A step carries something. -/
theorem step_iff_carries {u v : NodeId} : g.Step u v ↔ ∃ id, Carries g u v id := by
  constructor
  · rintro ⟨e, he, rfl, rfl⟩
    exact ⟨e.data.id, .of_mem he⟩
  · rintro ⟨id, h⟩
    exact h.step

theorem step_congr {g' : Graph Node Thread}
    (h : ∀ u v id, Carries g' u v id ↔ Carries g u v id) (u v : NodeId) :
    g'.Step u v ↔ g.Step u v := by
  rw [step_iff_carries, step_iff_carries]
  exact exists_congr (h u v)

/-- New edges carry what they have. -/
theorem carries_withEdges {es : List (Edge Thread)} {u v : NodeId} {id : ObjectId} :
    Carries (g.withEdges es) u v id ↔
      Carries g u v id ∨ ∃ e ∈ es, e.source = u ∧ e.target = v ∧ e.data.id = id := by
  simp only [Carries, edges_withEdges, List.mem_append, or_and_right, exists_or]

/-- The edges that carry an object from one node to another. -/
def carriers (g : Graph Node Thread) (source target : NodeId) (id : ObjectId) :
    List (Edge Thread) :=
  (g.between source target).filter fun e => e.data.id = id

/-- An edge is a carrier by its ends and its object. -/
theorem mem_carriers {source target : NodeId} {id : ObjectId} {e : Edge Thread} :
    e ∈ carriers g source target id ↔
      e ∈ g.edges ∧ e.source = source ∧ e.target = target ∧ e.data.id = id := by
  simp only [carriers, between, List.mem_filter, mem_outEdges, decide_eq_true_eq]
  tauto

/-! ## Pins

The former carriers go, and there is one new edge for each pin. If there are no pins nothing
changes. -/

/-- One edge for every pin. -/
theorem addPins_spec (h : Sound g s) {source target : NodeId} (hs : source ∈ g.nodeIds)
    (ht : target ∈ g.nodeIds) (id : ObjectId) (pins : List String) :
    ∃ es s', pins.foldlM (fun (g, s) pin => do
        let (edge, s) := s.edge
        let g ← g.addEdge ⟨edge, source, target, ⟨id, some pin⟩⟩
        return (g, s)) (g, s) = .ok (g.withEdges es, s') ∧
      es.map (fun e => (e.source, e.target, e.data)) =
        pins.map (fun pin => (source, target, ⟨id, some pin⟩)) ∧
      (g.withEdges es).WellFormed ∧ (g.withEdges es).Before s' := by
  have key : ∀ (g : Graph Node Thread) (s : Supply), g.WellFormed → g.Before s →
      source ∈ g.nodeIds → target ∈ g.nodeIds →
      ∃ es s', pins.foldlM (fun (g, s) pin => do
        let (edge, s) := s.edge
        let g ← g.addEdge ⟨edge, source, target, ⟨id, some pin⟩⟩
        return (g, s)) (g, s) = (.ok (g.withEdges es, s') : Except GraphError _) ∧
      es.map (fun e => (e.source, e.target, e.data)) =
        pins.map (fun pin => (source, target, ⟨id, some pin⟩)) ∧
      (g.withEdges es).WellFormed ∧ (g.withEdges es).Before s' := by
    induction pins with
    | nil =>
      intro g s hw hb _ _
      exact ⟨[], s, by rw [withEdges_nil]; rfl, rfl, by rwa [withEdges_nil],
        by rwa [withEdges_nil]⟩
    | cons pin pins ih =>
      intro g s hw hb hs ht
      set e : Edge Thread := ⟨s.edge.1, source, target, ⟨id, some pin⟩⟩ with he
      have hnew : e.id ∉ g.edges.map Edge.id := hb.next_not_mem_edges
      obtain ⟨es, s', hok, hmap, hw', hb'⟩ :=
        ih (g.withEdges [e]) s.edge.2 (hw.withEdge hnew hs ht) (hb.withEdge rfl) hs ht
      rw [withEdges_withEdges] at hok hw' hb'
      refine ⟨e :: es, s', ?_, ?_, hw', hb'⟩
      · rw [List.foldlM_cons]
        have hadd : g.addEdge e = .ok (g.withEdges [e]) := addEdge_eq_ok hnew hs ht
        refine (congrArg (· >>= _) (congrArg (· >>= _) hadd)).trans ?_
        exact hok
      · rw [List.map_cons, List.map_cons, hmap]
  exact key g s h.wellFormed h.before hs ht

/-- Pins take the place of the edges that carry the object. -/
theorem attachPins_eq_ok (h : Sound g s) {source target : NodeId} (hs : source ∈ g.nodeIds)
    (ht : target ∈ g.nodeIds) (id : ObjectId) {pins : List String} (hp : pins ≠ []) :
    ∃ es s', attachPins g s source target id pins =
        .ok ((g.removeEdges ((carriers g source target id).map Edge.id)).withEdges es, s') ∧
      es.map (fun e => (e.source, e.target, e.data)) =
        pins.map (fun pin => (source, target, ⟨id, some pin⟩)) ∧
      ((g.removeEdges ((carriers g source target id).map Edge.id)).withEdges es).WellFormed ∧
      ((g.removeEdges ((carriers g source target id).map Edge.id)).withEdges es).Before s' := by
  have hrem : Sound (g.removeEdges ((carriers g source target id).map Edge.id)) s := by
    refine ⟨h.wellFormed.removeEdges _, h.before.removeEdges _, fun u hr => h.acyclic u ?_⟩
    refine hr.mono fun a b hs => ?_
    obtain ⟨e, he, hab⟩ := hs
    exact ⟨e, (mem_edges_removeEdges.1 he).1, hab⟩
  obtain ⟨es, s', hok, hmap, hw, hb⟩ := addPins_spec hrem hs ht id pins
  refine ⟨es, s', ?_, hmap, hw, hb⟩
  rw [attachPins, if_neg (by simpa using hp)]
  dsimp only
  rw [foldl_removeEdge]
  exact hok

/-- What an edge for a pin is like. -/
theorem ends_of_pins {es : List (Edge Thread)} {source target : NodeId} {id : ObjectId}
    {pins : List String} (h : es.map (fun e => (e.source, e.target, e.data)) =
      pins.map fun pin => (source, target, ⟨id, some pin⟩)) {e : Edge Thread} (he : e ∈ es) :
    ∃ pin ∈ pins, e.source = source ∧ e.target = target ∧ e.data = ⟨id, some pin⟩ := by
  have hm : (e.source, e.target, e.data) ∈ es.map fun e => (e.source, e.target, e.data) :=
    List.mem_map_of_mem he
  rw [h] at hm
  obtain ⟨pin, hpin, heq⟩ := List.mem_map.1 hm
  simp only [Prod.mk.injEq] at heq
  exact ⟨pin, hpin, heq.1.symm, heq.2.1.symm, heq.2.2.symm⟩

/-- The edges for the pins run where an edge ran already, with the same object. -/
theorem attachPins_spec (h : Sound g s) {source target : NodeId} {id : ObjectId}
    (hc : Carries g source target id) (pins : List String) :
    ∃ g' s', attachPins g s source target id pins = .ok (g', s') ∧ Sound g' s' ∧
      g'.nodes = g.nodes ∧ ∀ u v id', Carries g' u v id' ↔ Carries g u v id' := by
  have hmem := h.wellFormed.step_mem hc.step
  by_cases hpins : pins = []
  · subst hpins
    exact ⟨g, s, rfl, h, rfl, fun _ _ _ => Iff.rfl⟩
  · obtain ⟨es, s', hok, hmap, hw, hb⟩ := attachPins_eq_ok h hmem.1 hmem.2 id hpins
    have hsome : ∃ e, e ∈ es := by
      refine List.exists_mem_of_ne_nil es fun hnil => hpins ?_
      rwa [hnil, List.map_nil, eq_comm, List.map_eq_nil_iff] at hmap
    have hcarries : ∀ u v id', Carries
        ((g.removeEdges ((carriers g source target id).map Edge.id)).withEdges es) u v id' ↔
          Carries g u v id' := by
      intro u v id'
      rw [carries_withEdges]
      constructor
      · rintro (⟨e, he, rfl, rfl, rfl⟩ | ⟨e, he, rfl, rfl, rfl⟩)
        · exact .of_mem (mem_edges_removeEdges.1 he).1
        · obtain ⟨pin, -, rfl, rfl, hdata⟩ := ends_of_pins hmap he
          rw [hdata]
          exact hc
      · rintro ⟨e, he, rfl, rfl, rfl⟩
        by_cases hid : e.id ∈ (carriers g source target id).map Edge.id
        · -- an edge that was taken away runs where the new ones run
          obtain ⟨e', he', heq⟩ := List.mem_map.1 hid
          obtain ⟨he'', hs, ht, hd⟩ := mem_carriers.1 he'
          obtain rfl := h.wellFormed.edge_ext he'' he heq
          obtain ⟨e₁, he₁⟩ := hsome
          obtain ⟨pin, -, hs₁, ht₁, hdata⟩ := ends_of_pins hmap he₁
          refine .inr ⟨e₁, he₁, hs₁.trans hs.symm, ht₁.trans ht.symm, ?_⟩
          rw [hdata]
          exact hd.symm
        · exact .inl (.of_mem (mem_edges_removeEdges.2 ⟨he, hid⟩))
    refine ⟨_, s', hok, ⟨hw, hb, fun u hr => h.acyclic u ?_⟩, rfl, hcarries⟩
    exact (reaches_congr (step_congr hcarries) u u).1 hr

/-! ## Inputs

Putting an object into an action leaves all steps that are there. -/

/-- An entity takes in what is known of the object, and nothing else is carried than before. -/
theorem takeFrom_spec (h : Sound g s) {action entity : NodeId} {id : ObjectId}
    (hc : Carries g entity action id) (p : Candidate) :
    ∃ g' s', takeFrom g s action id p entity = .ok (g', s') ∧ Sound g' s' ∧
      g'.nodeIds = g.nodeIds ∧
      (∀ n, g'.node? n =
        if n = entity then (g.node? n).map (absorb p.profile) else g.node? n) ∧
      ∀ u v id', Carries g' u v id' ↔ Carries g u v id' := by
  obtain ⟨g', s', hok, hg', hnodes, hcarries⟩ := attachPins_spec h hc p.pins
  have hcarries' : ∀ u v id', Carries (g'.adjustNode entity (absorb p.profile)) u v id' ↔
      Carries g u v id' := hcarries
  refine ⟨g'.adjustNode entity (absorb p.profile), s', ?_,
    ⟨hg'.wellFormed.adjustNode _ _, hg'.before.adjustNode _ _,
      fun u hr => h.acyclic u ((reaches_congr (step_congr hcarries') u u).1 hr)⟩,
    (nodeIds_adjustNode g' _ _).trans (congrArg Table.keys hnodes), fun n => ?_, hcarries'⟩
  · rw [takeFrom, hok]
    rfl
  · rw [node?_adjustNode, show g'.node? n = g.node? n from congrArg (Table.at? · n) hnodes]

/-- Putting pins on an edge refines the graph. -/
theorem refines_of_takeFrom {g' : Graph Node Thread} {entity : NodeId} {p : Candidate}
    (hids : g'.nodeIds = g.nodeIds) (hnode : ∀ n, g'.node? n =
      if n = entity then (g.node? n).map (absorb p.profile) else g.node? n)
    (hc : ∀ u v id, Carries g' u v id ↔ Carries g u v id) : Refines g g' := by
  refine refines_of_step hids (fun n a ha => ?_) (step_congr hc)
  rw [hnode, ha]
  split <;> rfl

/-- The next node is new. -/
theorem Sound.node_new (h : Sound g s) : s.node.1 ∉ g.nodeIds := h.before.next_not_mem_nodes

/-- The next edge is new. -/
theorem Sound.link_new (h : Sound g s) : s.node.2.edge.1 ∉ g.edges.map Edge.id := by
  have hb₁ : (g.attachNode s.node.1 (.entity {})).Before s.node.2 := h.before.attachNode _
  exact hb₁.next_not_mem_edges

/-- The graph with a new entity in front of an action. -/
def heralded (g : Graph Node Thread) (s : Supply) (action : NodeId) (id : ObjectId) :
    Graph Node Thread :=
  g.fedBy s.node.1 (.entity {}) (s.node.2.edge.1, ⟨id, none⟩) action

/-- A new entity in front of an action hands it the object. -/
theorem carries_heralded {action : NodeId} {id : ObjectId} {u v : NodeId} {id' : ObjectId} :
    Carries (heralded g s action id) u v id' ↔
      Carries g u v id' ∨ u = s.node.1 ∧ v = action ∧ id' = id := by
  refine carries_withEdges.trans (or_congr Iff.rfl ?_)
  simp only [List.mem_singleton, exists_eq_left, eq_comm]

/-- An entity may be put in front of an action. -/
theorem Sound.heralded (h : Sound g s) {action : NodeId} (ha : action ∈ g.nodeIds)
    (id : ObjectId) : Sound (heralded g s action id) s.node.2.edge.2 := by
  have hb₁ : (g.attachNode s.node.1 (.entity {})).Before s.node.2 := h.before.attachNode _
  refine ⟨h.wellFormed.fedBy ha h.node_new h.link_new,
    hb₁.withEdges (Nat.le_succ _) fun e he => ?_, h.acyclic.fedBy h.wellFormed ha h.node_new⟩
  rw [List.mem_singleton.1 he]
  exact Nat.lt_succ_self _

/-- What comes from nowhere gets an entity in front of the action and is taken from there. -/
theorem reifyInput_of_nil (h : Sound g s) {action : NodeId} (ha : action ∈ g.nodeIds)
    (id : ObjectId) {p : Candidate} (hp : p.sources = []) :
    reifyInput g s action id p =
      takeFrom (heralded g s action id) s.node.2.edge.2 action id p s.node.1 := by
  have hadd : (g.attachNode s.node.1 (.entity {})).addEdge
      ⟨s.node.2.edge.1, s.node.1, action, ⟨id, none⟩⟩ = .ok (heralded g s action id) :=
    addEdge_eq_ok h.link_new (by simp) (by simp [ha])
  rw [reifyInput, hp]
  dsimp only
  rw [addNode_eq_ok _ h.node_new, Outcome.ok_bind]
  exact congrArg (· >>= _) hadd

/-- An object that becomes an input keeps all edges where they are. -/
theorem reifyInput_spec (h : Sound g s) {action : NodeId} (ha : action ∈ g.nodeIds)
    {id : ObjectId} {p : Candidate} (hp : ∀ n, p.sources = [n] → Carries g n action id) :
    ∃ g' s', reifyInput g s action id p = .ok (g', s') ∧ Sound g' s' ∧ Refines g g' ∧
      ∀ u v id', Carries g u v id' → Carries g' u v id' := by
  rcases hsources : p.sources with _ | ⟨n, _ | ⟨n', rest⟩⟩
  · -- a new entity, to which nothing leads
    have hrefines : Refines g (heralded g s action id) := by
      refine ⟨fun n hn => ?_, fun n a hn => ?_,
        fun u hu v _ => reaches_fedBy h.wellFormed h.node_new hu⟩
      · exact Graph.nodeIds_attachNode g _ _ ▸ List.mem_append_left _ hn
      · show (g.attachNode s.node.1 (.entity {})).node? n = _
        rw [node?_attachNode, hn]
        rfl
    obtain ⟨g', s', hok, hg', hids, hnode, hcarries⟩ :=
      takeFrom_spec (h.heralded ha id) (carries_heralded.2 (.inr ⟨rfl, rfl, rfl⟩)) p
    exact ⟨g', s', (reifyInput_of_nil h ha id hsources).trans hok, hg',
      hrefines.trans (refines_of_takeFrom hids hnode hcarries),
      fun u v id' hc => (hcarries u v id').2 (carries_heralded.2 (.inl hc))⟩
  · obtain ⟨g', s', hok, hg', hids, hnode, hcarries⟩ := takeFrom_spec h (hp n hsources) p
    refine ⟨g', s', ?_, hg', refines_of_takeFrom hids hnode hcarries,
      fun u v id' hc => (hcarries u v id').2 hc⟩
    rw [reifyInput, hsources]
    exact hok
  · refine ⟨g, s, ?_, h, .refl g, fun _ _ _ hc => hc⟩
    rw [reifyInput, hsources]

/-- Any number of objects become inputs. -/
theorem reifyInputs_spec (h : Sound g s) {action : NodeId} (ha : action ∈ g.nodeIds)
    {t : Candidates} (ht : ∀ x ∈ t, ∀ n, x.2.sources = [n] → Carries g n action x.1) :
    ∃ g' s', reifyAll (fun g s => reifyInput g s action) g s t = .ok (g', s') ∧ Sound g' s' ∧
      Refines g g' := by
  induction t generalizing g s with
  | nil => exact ⟨g, s, rfl, h, .refl g⟩
  | cons x t ih =>
    obtain ⟨g₁, s₁, hok, hg₁, href, hcarries⟩ :=
      reifyInput_spec h ha (ht x List.mem_cons_self)
    obtain ⟨g', s', hok', hg', href'⟩ := ih hg₁ (href.mem action ha)
      fun y hy n hn => hcarries n action y.1 (ht y (List.mem_cons_of_mem _ hy) n hn)
    refine ⟨g', s', ?_, hg', href.trans href'⟩
    rw [reifyAll, List.foldlM_cons]
    exact (congrArg (· >>= _) hok).trans hok'

/-! ## Outputs

The edges that carry the object out of the action go on from the new entity. -/

/-- The graph with a new entity behind an action, from which the edges go on that carry it. -/
def followed (g : Graph Node Thread) (s : Supply) (action : NodeId) (id : ObjectId)
    (p : Profile) : Graph Node Thread :=
  g.insertedAfter action s.node.1 (.entity (.ofProfile p)) (s.node.2.edge.1, ⟨id, none⟩)
    fun e => e.data.id = id

/-- An entity may be put behind an action. -/
theorem Sound.followed (h : Sound g s) {action : NodeId} (ha : action ∈ g.nodeIds)
    (id : ObjectId) (p : Profile) : Sound (followed g s action id p) s.node.2.edge.2 :=
  ⟨h.wellFormed.insertedAfter ha h.node_new h.link_new, h.before.insertedAfter action _ _ _,
    h.acyclic.insertedAfter h.wellFormed ha h.node_new h.link_new⟩

/-- A new entity behind an action takes the object from it and hands it on to wherever it went. -/
theorem carries_followed (h : Sound g s) {action : NodeId} {id : ObjectId} {p : Profile}
    {u v : NodeId} {id' : ObjectId} : Carries (followed g s action id p) u v id' ↔
      Carries g u v id' ∧ ¬ (u = action ∧ id' = id) ∨
        u = s.node.1 ∧ Carries g action v id ∧ id' = id ∨
        u = action ∧ v = s.node.1 ∧ id' = id := by
  constructor
  · rintro ⟨e', he', rfl, rfl, rfl⟩
    rcases (mem_edges_insertedAfter h.wellFormed).1 he' with ⟨he, hne⟩ | ⟨e, he, hs, ho, rfl⟩ | rfl
    · exact .inl ⟨.of_mem he, fun hx => hne ⟨hx.1, decide_eq_true hx.2⟩⟩
    · have ho : e.data.id = id := of_decide_eq_true ho
      exact .inr (.inl ⟨rfl, ⟨e, he, hs, rfl, ho⟩, ho⟩)
    · exact .inr (.inr ⟨rfl, rfl, rfl⟩)
  · rintro (⟨⟨e, he, rfl, rfl, rfl⟩, hne⟩ | ⟨rfl, ⟨e, he, hs, rfl, ho⟩, rfl⟩ | ⟨rfl, rfl, rfl⟩)
    · exact .of_mem ((mem_edges_insertedAfter h.wellFormed).2
        (.inl ⟨he, fun hx => hne ⟨hx.1, of_decide_eq_true hx.2⟩⟩))
    · exact ⟨_, (mem_edges_insertedAfter h.wellFormed).2
        (.inr (.inl ⟨e, he, hs, decide_eq_true ho, rfl⟩)), rfl, rfl, ho⟩
    · exact ⟨_, (mem_edges_insertedAfter h.wellFormed).2 (.inr (.inr rfl)), rfl, rfl, rfl⟩

/-- An output is a new entity behind the action, with the pins on the edge between them. -/
theorem reifyOutput_eq (h : Sound g s) {action : NodeId} (ha : action ∈ g.nodeIds)
    (id : ObjectId) (p : Candidate) :
    reifyOutput g s action id p =
      attachPins (followed g s action id p.profile) s.node.2.edge.2 action s.node.1 id p.pins := by
  rw [reifyOutput]
  dsimp only
  rw [insertAfter_eq_ok h.wellFormed ha h.node_new h.link_new]
  rfl

/-- An object that becomes an output lengthens the paths that its edges are part of. -/
theorem reifyOutput_spec (h : Sound g s) {action : NodeId} (ha : action ∈ g.nodeIds)
    (id : ObjectId) (p : Candidate) :
    ∃ g' s', reifyOutput g s action id p = .ok (g', s') ∧ Sound g' s' ∧ Refines g g' := by
  have hnode : s.node.1 ∉ g.nodeIds := h.before.next_not_mem_nodes
  have hrefines : Refines g (followed g s action id p.profile) := by
    refine ⟨fun n hn => ?_, fun n a hn => ?_,
      fun u hu v hv => reaches_insertedAfter h.wellFormed hnode hu hv⟩
    · rw [followed, nodeIds_insertedAfter]
      exact List.mem_append_left _ hn
    · have hne : n ≠ s.node.1 := fun heq => hnode (heq ▸ mem_nodeIds_of_node? hn)
      exact (node?_insertedAfter hne).trans hn
  obtain ⟨g', s', hok, hg', hnodes, hcarries⟩ := attachPins_spec (h.followed ha id p.profile)
    ((carries_followed h).2 (.inr (.inr ⟨rfl, rfl, rfl⟩))) p.pins
  refine ⟨g', s', (reifyOutput_eq h ha id p).trans hok, hg', hrefines.trans ?_⟩
  exact refines_of_step (congrArg Table.keys hnodes)
    (fun n a hn => (congrArg (Table.at? · n) hnodes).trans hn) (step_congr hcarries)

/-- Any number of objects become outputs. -/
theorem reifyOutputs_spec (h : Sound g s) {action : NodeId} (ha : action ∈ g.nodeIds)
    (t : Candidates) :
    ∃ g' s', reifyAll (fun g s => reifyOutput g s action) g s t = .ok (g', s') ∧ Sound g' s' ∧
      Refines g g' := by
  induction t generalizing g s with
  | nil => exact ⟨g, s, rfl, h, .refl g⟩
  | cons x t ih =>
    obtain ⟨g₁, s₁, hok, hg₁, href⟩ := reifyOutput_spec h ha x.1 x.2
    obtain ⟨g', s', hok', hg', href'⟩ := ih hg₁ (href.mem action ha)
    refine ⟨g', s', ?_, hg', href.trans href'⟩
    rw [reifyAll, List.foldlM_cons]
    exact (congrArg (· >>= _) hok).trans hok'

/-! ## All actions

The inputs of an action are put in before its outputs are looked for. -/

/-- The inputs of an action. -/
def inputsOf (d : Draft) (g : Graph Node Thread) (action : NodeId) : Candidates :=
  d.gather (fun p e => p.addSource e.source) (d.listed .input action) (g.inEdges action)

/-- The outputs of an action. -/
def outputsOf (d : Draft) (g : Graph Node Thread) (action : NodeId) : Candidates :=
  d.gather (fun p _ => p) (d.listed .output action) (g.outEdges action)

/-- The inputs of an action, and then its outputs in the graph that has come of it. -/
theorem reifyAction_eq (d : Draft) (g : Graph Node Thread) (s : Supply) (action : NodeId) :
    d.reifyAction g s action = (do
      let (g, s) ← reifyAll (fun g s => reifyInput g s action) g s (d.inputsOf g action)
      reifyAll (fun g s => reifyOutput g s action) g s (d.outputsOf g action)) := rfl

/-- An input that comes from just one node is handed on by it. -/
theorem Sourceless.carries_inputsOf {d : Draft} (hd : d.Sourceless) {g : Graph Node Thread}
    {action : NodeId} : ∀ x ∈ d.inputsOf g action, ∀ n, x.2.sources = [n] →
      Carries g n action x.1 := by
  intro x hx n hn
  obtain ⟨e, he, rfl, hid⟩ := handed_of_sources d (hd action) x hx n
    (hn ▸ List.mem_singleton_self n)
  obtain ⟨he, ht⟩ := mem_inEdges.1 he
  exact ⟨e, he, rfl, ht, hid⟩

/-- What an action takes in and gives out becomes entities. -/
theorem reifyAction_spec {d : Draft} (hd : d.Sourceless) (h : Sound g s) {action : NodeId}
    (ha : action ∈ g.nodeIds) :
    ∃ g' s', d.reifyAction g s action = .ok (g', s') ∧ Sound g' s' ∧ Refines g g' := by
  obtain ⟨g₁, s₁, hok₁, hg₁, href₁⟩ := reifyInputs_spec h ha hd.carries_inputsOf
  obtain ⟨g', s', hok', hg', href'⟩ :=
    reifyOutputs_spec hg₁ (href₁.mem action ha) (d.outputsOf g₁ action)
  refine ⟨g', s', ?_, hg', href₁.trans href'⟩
  rw [reifyAction_eq, hok₁]
  exact hok'

/-- Reifying succeeds, and it keeps the actions and the paths between them. -/
theorem reify_spec {d : Draft} (hd : d.Sourceless) (h : Sound d.graph s) :
    ∃ g s', d.reify s = .ok (g, s') ∧ Sound g s' ∧ Refines d.graph g := by
  obtain ⟨order, horder⟩ := exists_topologicalOrder h.wellFormed h.acyclic
  have hmem := (topologicalOrder_spec h.wellFormed horder).1.subset
  have key : ∀ (ids : List NodeId) (g : Graph Node Thread) (s : Supply), Sound g s →
      (∀ n ∈ ids, n ∈ g.nodeIds) →
      ∃ g' s', ids.foldlM (fun (g, s) action => d.reifyAction g s action) (g, s) =
        .ok (g', s') ∧ Sound g' s' ∧ Refines g g' := by
    intro ids
    induction ids with
    | nil => exact fun g s hg _ => ⟨g, s, rfl, hg, .refl g⟩
    | cons n ids ih =>
      intro g s hg hids
      obtain ⟨g₁, s₁, hok₁, hg₁, href₁⟩ := reifyAction_spec hd hg (hids n List.mem_cons_self)
      obtain ⟨g', s', hok', hg', href'⟩ := ih g₁ s₁ hg₁ fun m hm =>
        href₁.mem m (hids m (List.mem_cons_of_mem _ hm))
      refine ⟨g', s', ?_, hg', href₁.trans href'⟩
      rw [List.foldlM_cons]
      exact (congrArg (· >>= _) hok₁).trans hok'
  obtain ⟨g, s', hok, hg, href⟩ := key order d.graph s h fun n hn => hmem hn
  refine ⟨g, s', ?_, hg, href⟩
  rw [reify, horder, Outcome.mapError_ok, Outcome.ok_bind, hok]
  rfl

end ObjectFlow.Annotated.Draft
