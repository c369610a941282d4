import ObjectFlow.Proofs.Graph.Rewire
import ObjectFlow.Proofs.Ontology.Climb
import ObjectFlow.Proofs.Semantic.Shape

/-!
# Semantic graphs that are built

Directing the edges of a graph between actions and entities gives it its shape (`orient_shaped`),
and the entities that slots become keep it (`addChildren_shaped`). So whatever is built is shaped,
and its actions are those of the annotated graph (`ofAnnotated_shape`).

## Outline

A graph goes through five stages before it is done: nodes are typed, edges directed, aspects
checked, slots turned into entities, and entities merged. The shape holds from the third stage on.
The two loops before it work action by action, and for each of them an invariant says what is true
at the actions that were looked at and what is still open at those to come:

1. `Directed A rest g` for the directions. Every edge joins an action and an entity, and those at
   actions outside of `rest` lead away from them, with a role.
2. `Validated o A rest g` for the aspects. All edges lead away from actions, and at actions outside
   of `rest` none has an aspect that is not declared.

With nothing left in `rest` the second one is the shape (`validate_shaped`). Then
`addChildren_shaped` and the lemmas on mergers keep it to the end.

The statement about aspects is made in terms of the types that the ontology declares
(`Ontology.Declares`), and not of the table in which they are looked up. That the two agree is shown
first, along the walk through the supertypes (`inherited_declared`).
-/

namespace ObjectFlow

namespace Inherited

variable {o : Ontology}

/-- Every aspect is declared by one of the supertypes. -/
def Declared (o : Ontology) (i : Inherited) : Prop :=
  ∀ a ∈ Table.keys i.aspects,
    ∃ t ∈ i.supertypes, ∃ T, o.type? t = some T ∧ ∃ x ∈ T.aspects, x.name = a

/-- An aspect is in the table if it was there or is new. -/
theorem mem_keys_declare {aspects : Table String Aspect} {new : List Aspect} {a : String}
    (h : a ∈ Table.keys (declare aspects new)) :
    a ∈ Table.keys aspects ∨ ∃ x ∈ new, x.name = a := by
  unfold declare at h
  induction new generalizing aspects with
  | nil => exact .inl h
  | cons x new ih =>
    rcases ih h with h | ⟨y, hy, rfl⟩
    · dsimp only at h
      split at h
      · exact .inl h
      · obtain ⟨v, hv⟩ := Table.mem_keys.1 h
        rcases Table.mem_put hv with hv | heq
        · exact .inl (Table.mem_keys.2 ⟨v, hv⟩)
        · exact .inr ⟨x, List.mem_cons_self, (congrArg Prod.fst heq).symm⟩
    · exact .inr ⟨y, List.mem_cons_of_mem _ hy, rfl⟩

/-- A type brings the aspects that it declares. -/
theorem Declared.declare {i : Inherited} (h : i.Declared o) {t : OntologyType}
    (ht : o.type? t.name = some t) {i' : Inherited} (hs : i'.supertypes = i.supertypes ++ [t.name])
    (ha : i'.aspects = Inherited.declare i.aspects t.aspects) : i'.Declared o := by
  intro a hmem
  rw [ha] at hmem
  rw [hs]
  rcases mem_keys_declare hmem with hmem | hx
  · obtain ⟨t', ht', hT⟩ := h a hmem
    exact ⟨t', List.mem_append_left _ ht', hT⟩
  · exact ⟨t.name, List.mem_append_right _ (List.mem_singleton_self _), t, ht, hx⟩

end Inherited

namespace Ontology

variable {o : Ontology}

/-- A type is found by its own name. -/
theorem type?_name {name : String} {t : OntologyType} (h : o.type? name = some t) :
    o.type? t.name = some t := by
  have hp := List.find?_some (p := fun t : OntologyType => decide (t.name = name)) h
  have hname : t.name = name := of_decide_eq_true hp
  rwa [hname]

/-- On the way up every type that is met brings the aspects that it declares. -/
theorem climb_declared {fresh queue : List String} {found i : Inherited} (hf : found.Declared o)
    (h : o.climb fresh found queue = .ok i) : i.Declared o := by
  fun_induction climb o fresh found queue with
  | case1 fresh found =>
    obtain rfl := Except.ok.inj h
    exact hf
  | case2 => cases h
  | case3 => cases h
  | case4 fresh found name queue hfresh t ht hnone ih =>
    exact ih (hf.declare (type?_name ht) rfl rfl) h
  | case5 fresh found name queue hfresh ih => exact ih hf h

/-- A root at the end brings the aspects that it declares. -/
theorem addRoots_declared {i : Inherited} (h : i.Declared o) : (o.addRoots i).Declared o := by
  unfold addRoots
  generalize i.roots = roots
  induction roots generalizing i with
  | nil => exact h
  | cons kind roots ih =>
    refine ih ?_
    dsimp only
    split
    · exact h
    · rename_i t ht
      split
      · exact h
      · exact h.declare (type?_name ht) rfl rfl

/-- What a type inherits is declared by one of its supertypes, among which it counts itself. -/
theorem inherited_declared {name : String} {i : Inherited} (h : o.inherited name = .ok i) :
    i.Declared o := by
  unfold inherited at h
  split at h
  · cases h
  · obtain ⟨i', hi', heq⟩ := Outcome.bind_eq_ok_iff.1 h
    obtain rfl := Except.ok.inj heq
    exact addRoots_declared (climb_declared (by simp [Inherited.Declared]) hi')

/-- The type or one of its supertypes declares the aspect. -/
def Declares (o : Ontology) (type aspect : String) : Prop :=
  ∃ i, o.inherited type = .ok i ∧
    ∃ t ∈ i.supertypes, ∃ T, o.type? t = some T ∧ ∃ x ∈ T.aspects, x.name = aspect

end Ontology

namespace Semantic

open ObjectFlow.Graph

variable {o : Ontology} {A : NodeId → Option Node} {g g' : SemanticGraph} {s : Supply}

/-- An aspect that is looked up in the table is declared by a supertype. -/
theorem declares_of_holds {type a : String} (h : Table.holds (aspectsOf o type) a = true) :
    o.Declares type a := by
  unfold aspectsOf at h
  split at h
  · rename_i i hi
    exact ⟨i, hi, Ontology.inherited_declared hi a (Table.holds_iff.1 h)⟩
  · cases h

/-! ## Directions

Every edge joins an action and an entity. So an edge at one action is not touched when another
action's edges are directed, and the loop goes from action to action. -/

/-- Every edge joins an action and an entity, and those at actions that are not left to be directed
lead away from them. -/
structure Directed (A : NodeId → Option Node) (rest : List NodeId) (g : SemanticGraph) : Prop where
  wellFormed : g.WellFormed
  actions_eq : actions g = A
  joins : ∀ e ∈ g.edges, A e.source = none ↔ A e.target ≠ none
  leads : ∀ e ∈ g.edges, ∀ a, A a ≠ none → a ∉ rest →
    e.target ≠ a ∧ (e.source = a → e.data.role.isSome = true)

/-- An edge turned round. -/
def turned (e : Edge Link) : Edge Link :=
  ⟨e.id, e.target, e.source, { e.data with role := some .input }⟩

/--
The edges that leave an action keep their direction, and those that enter it are turned round.
-/
theorem directAction_spec (h : g.WellFormed) {action : NodeId} (hid : action ∈ g.nodeIds)
    (hloop : ∀ e ∈ g.edges, ¬ (e.source = action ∧ e.target = action))
    (hok : directAction g action = .ok g') : g'.WellFormed ∧ g'.nodes = g.nodes ∧
      ∀ e' ∈ g'.edges, (e' ∈ g.edges ∧ e'.source ≠ action ∧ e'.target ≠ action) ∨
        (∃ e ∈ g.edges, e.source = action ∧ e.target ≠ action ∧
          e' = { e with data := { e.data with role := some .output } }) ∨
        ∃ e ∈ g.edges, e.target = action ∧ e.source ≠ action ∧ e' = turned e := by
  set g₁ := g.adjustOut action fun l => { l with role := some .output } with hg₁
  have hwf₁ : g₁.WellFormed := h.adjustOut _ _
  have hids : ((g₁.inEdges action).map turned).map Edge.id = (g₁.inEdges action).map Edge.id := by
    simp [turned, Function.comp_def]
  -- Turning edges one by one is moving them, once those that leave have their role.
  have hmove : directAction g action = g₁.moveEdges ((g₁.inEdges action).map turned) := by
    rw [directAction, moveEdges, List.foldlM_map, foldl_adjustEdge_outEdges h]
    rfl
  have hmoved : ∀ e ∈ (g₁.inEdges action).map turned,
      e.source = action ∧ e.target ∈ g₁.nodeIds := by
    intro e he
    obtain ⟨e₁, he₁, rfl⟩ := List.mem_map.1 he
    obtain ⟨he₁, ht⟩ := mem_inEdges.1 he₁
    exact ⟨ht, hwf₁.source_mem e₁ he₁⟩
  have hnodup : (((g₁.inEdges action).map turned).map Edge.id).Nodup := by
    rw [hids]
    exact hwf₁.edges_nodup.sublist (List.filter_sublist.map _)
  have hresult := moveEdges_eq_ok hnodup (fun e he => (hmoved e he).1 ▸ hid)
    fun e he => (hmoved e he).2
  rw [hmove, hresult] at hok
  obtain rfl := Except.ok.inj hok
  refine ⟨(hwf₁.removeEdges _).withEdges hnodup (fun e he hm => ?_)
    (fun e he => (hmoved e he).1 ▸ hid) fun e he => (hmoved e he).2, rfl, fun e' he' => ?_⟩
  · obtain ⟨e₁, he₁, hid'⟩ := List.mem_map.1 hm
    exact (mem_edges_removeEdges.1 he₁).2 (hid' ▸ List.mem_map_of_mem he)
  · rcases List.mem_append.1 he' with he' | he'
    · obtain ⟨he', hnot⟩ := mem_edges_removeEdges.1 he'
      have ht : e'.target ≠ action := fun ht => hnot (by
        rw [hids]
        exact List.mem_map_of_mem (mem_inEdges.2 ⟨he', ht⟩))
      rcases mem_edges_adjustOut.1 he' with ⟨he', hs⟩ | ⟨e, he, hs, rfl⟩
      · exact .inl ⟨he', hs, ht⟩
      · exact .inr (.inl ⟨e, he, hs, ht, rfl⟩)
    · obtain ⟨e₁, he₁, rfl⟩ := List.mem_map.1 he'
      obtain ⟨he₁, ht⟩ := mem_inEdges.1 he₁
      rcases mem_edges_adjustOut.1 he₁ with ⟨he₁, hs⟩ | ⟨e, he, hs, rfl⟩
      · exact .inr (.inr ⟨e₁, he₁, ht, hs, rfl⟩)
      · exact absurd ⟨hs, ht⟩ (hloop e he)

/-- The actions depend on the nodes only. -/
theorem actions_congr (h : g'.nodes = g.nodes) : actions g' = actions g := by
  funext id
  rw [actions, node?, h, actions, node?]

/-- When the edges at an action are directed, one action less is left. -/
theorem Directed.step {action : NodeId} {rest : List NodeId} (h : Directed A (action :: rest) g)
    (ha : A action ≠ none) (hok : directAction g action = .ok g') : Directed A rest g' := by
  have hid : action ∈ g.nodeIds := by
    obtain ⟨n, hn⟩ := Option.ne_none_iff_exists'.1 ha
    exact mem_nodeIds_of_node? (actions_eq_some_iff.1 (h.actions_eq ▸ hn)).1
  have hsource : ∀ e ∈ g.edges, e.target = action → A e.source = none :=
    fun e he ht => (h.joins e he).2 (ht ▸ ha)
  obtain ⟨hwf, hnodes, hedges⟩ := directAction_spec h.wellFormed hid
    (fun e he hloop => ha (hloop.1 ▸ hsource e he hloop.2)) hok
  refine ⟨hwf, (actions_congr hnodes).trans h.actions_eq, fun e' he' => ?_,
    fun e' he' a hact hrest => ?_⟩
  · rcases hedges e' he' with ⟨he, -⟩ | ⟨e, he, -, -, rfl⟩ | ⟨e, he, ht, -, rfl⟩
    · exact h.joins e' he
    · exact h.joins e he
    · show A e.target = none ↔ A e.source ≠ none
      rw [ht, hsource e he ht]
      simp [ha]
  · by_cases heq : a = action
    · subst heq
      rcases hedges e' he' with ⟨-, hs, ht⟩ | ⟨e, -, -, ht, rfl⟩ | ⟨e, -, -, hs, rfl⟩
      · exact ⟨ht, fun h => absurd h hs⟩
      · exact ⟨ht, fun _ => rfl⟩
      · exact ⟨hs, fun _ => rfl⟩
    · have hnot : a ∉ action :: rest := List.not_mem_cons_of_ne_of_not_mem heq hrest
      rcases hedges e' he' with ⟨he, -⟩ | ⟨e, he, hs, -, rfl⟩ | ⟨e, he, ht, -, rfl⟩
      · exact h.leads e' he a hact hnot
      · exact ⟨(h.leads e he a hact hnot).1, fun hsa => absurd (hsa.symm.trans hs) heq⟩
      · refine ⟨fun hsa => hact (hsa ▸ hsource e he ht), fun hta => absurd (hta.symm.trans ht) heq⟩

/-- The loop goes through the actions of the map. -/
theorem mem_nodesWhere_isAction {id : NodeId} (h : g.WellFormed) :
    id ∈ g.nodesWhere Node.isAction ↔ actions g id ≠ none := by
  rw [Option.ne_none_iff_exists', nodesWhere, List.mem_map]
  constructor
  · rintro ⟨n, hn, rfl⟩
    obtain ⟨hn, ha⟩ := List.mem_filter.1 hn
    exact ⟨n.2, actions_eq_some_iff.2 ⟨h.node?_eq_some_iff.2 hn, ha⟩⟩
  · rintro ⟨n, hn⟩
    obtain ⟨hn, ha⟩ := actions_eq_some_iff.1 hn
    exact ⟨(id, n), List.mem_filter.2 ⟨h.node?_eq_some_iff.1 hn, ha⟩, rfl⟩

/-- In the end no action is left. -/
theorem direct_spec (h : g.WellFormed)
    (hjoins : ∀ e ∈ g.edges, actions g e.source = none ↔ actions g e.target ≠ none)
    (hok : direct g = .ok g') : Directed (actions g) [] g' := by
  have hstart : Directed (actions g) (g.nodesWhere Node.isAction) g :=
    ⟨h, rfl, hjoins, fun e _ a ha hrest => absurd ((mem_nodesWhere_isAction h).2 ha) hrest⟩
  have hall : ∀ a ∈ g.nodesWhere Node.isAction, actions g a ≠ none := fun a ha =>
    (mem_nodesWhere_isAction h).1 ha
  exact (Outcome.foldlM_rest (I := fun rest g' => (∀ a ∈ rest, actions g a ≠ none) ∧
      Directed (actions g) rest g') (fun a as b b' hI hstep =>
      ⟨fun a' ha' => hI.1 a' (List.mem_cons_of_mem _ ha'),
        hI.2.step (hI.1 a List.mem_cons_self) hstep⟩)
    ⟨hall, hstart⟩ hok).2

/-! ## Aspects

An aspect that is not declared is dropped, while the edge stays. Directions and roles are as
before. -/

/-- All edges that leave the action change alike. -/
theorem dropUndeclared_eq (h : g.WellFormed) (o : Ontology) (action : NodeId) :
    dropUndeclared o g action = match g.node? action with
      | none => g
      | some n => g.adjustOut action fun l =>
          { l with aspect := l.aspect.filter fun a => Table.holds (aspectsOf o n.type) a } := by
  cases hn : g.node? action with
  | none => simp only [dropUndeclared, hn]
  | some n =>
    simp only [dropUndeclared, hn]
    exact foldl_adjustEdge_outEdges h _ _

/-- All edges lead from actions to entities with a role, and those at the actions that are not left
have no aspect that is not declared. -/
structure Validated (o : Ontology) (A : NodeId → Option Node) (rest : List NodeId)
    (g : SemanticGraph) : Prop where
  wellFormed : g.WellFormed
  actions_eq : actions g = A
  leads : ∀ e ∈ g.edges, A e.source ≠ none ∧ A e.target = none ∧ e.data.role.isSome = true
  declared : ∀ e ∈ g.edges, e.source ∉ rest → ∀ n, A e.source = some n →
    ∀ a, e.data.aspect = some a → Table.holds (aspectsOf o n.type) a = true

/-- When the aspects at an action are checked, one action less is left. -/
theorem Validated.step {action : NodeId} {rest : List NodeId}
    (h : Validated o A (action :: rest) g) :
    Validated o A rest (dropUndeclared o g action) := by
  rw [dropUndeclared_eq h.wellFormed]
  split
  · rename_i hnone
    refine ⟨h.wellFormed, h.actions_eq, h.leads, fun e he hs n hn => ?_⟩
    refine h.declared e he (fun hm => ?_) n hn
    rcases List.mem_cons.1 hm with heq | hm
    · rw [← h.actions_eq, actions, heq, hnone] at hn
      cases hn
    · exact hs hm
  · rename_i n hn
    refine ⟨h.wellFormed.adjustOut _ _, h.actions_eq, fun e' he' => ?_,
      fun e' he' hs m hm a ha => ?_⟩
    · rcases mem_edges_adjustOut.1 he' with ⟨he, -⟩ | ⟨e, he, -, rfl⟩
      · exact h.leads e' he
      · exact h.leads e he
    · rcases mem_edges_adjustOut.1 he' with ⟨he, hne⟩ | ⟨e, he, hs', rfl⟩
      · exact h.declared e' he (List.not_mem_cons_of_ne_of_not_mem hne hs) m hm a ha
      · obtain ⟨hm, -⟩ := actions_eq_some_iff.1 (h.actions_eq ▸ hm)
        have hm : g.node? e.source = some m := hm
        rw [hs', hn] at hm
        obtain rfl := Option.some.inj hm
        exact (Option.filter_eq_some_iff.1 ha).2

/-- A directed graph is shaped when all aspects are checked. -/
theorem validate_shaped (h : Directed A [] g) : Shaped o A (validate o g) := by
  have hleads : ∀ e ∈ g.edges, A e.source ≠ none ∧ A e.target = none ∧
      e.data.role.isSome = true := by
    intro e he
    have ht : A e.target = none := not_not.1 fun ht =>
      (h.leads e he e.target ht List.not_mem_nil).1 rfl
    have hs : A e.source ≠ none := fun hs => (h.joins e he).1 hs ht
    exact ⟨hs, ht, (h.leads e he e.source hs List.not_mem_nil).2 rfl⟩
  have hstart : Validated o A (g.nodesWhere Node.isAction) g :=
    ⟨h.wellFormed, h.actions_eq, hleads, fun e he hs n hn => absurd
      ((mem_nodesWhere_isAction h.wellFormed).2 (h.actions_eq ▸ hn ▸ Option.some_ne_none n)) hs⟩
  have hend : ∀ (rest : List NodeId) (g : SemanticGraph), Validated o A rest g →
      Validated o A [] (rest.foldl (dropUndeclared o) g) := by
    intro rest
    induction rest with
    | nil => exact fun g hg => hg
    | cons action rest ih => exact fun g hg => ih _ hg.step
  have hv := hend _ _ hstart
  refine ⟨hv.wellFormed, hv.actions_eq, fun e he => ⟨(hv.leads e he).2.1, fun n hn =>
    ⟨(hv.leads e he).2.2, hv.declared e he List.not_mem_nil n hn⟩, fun hnone =>
      absurd hnone (hv.leads e he).1⟩⟩

/-- A graph whose edges join actions and entities is shaped when it is directed and checked. -/
theorem orient_shaped (h : g.WellFormed)
    (hjoins : ∀ e ∈ g.edges, actions g e.source = none ↔ actions g e.target ≠ none)
    (hok : orient o g = .ok g') : Shaped o (actions g) g' := by
  rw [orient, Outcome.mapError_eq_ok_iff] at hok
  cases hd : direct g with
  | error e =>
    rw [hd] at hok
    cases hok
  | ok g₁ =>
    rw [hd] at hok
    obtain rfl := Except.ok.inj hok
    exact validate_shaped (direct_spec h hjoins hd)

/-! ## Slots

A slot becomes an entity that is joined to the entity it was a slot of, under its name as an
aspect. -/

/-- Slots do not matter for the shape. -/
theorem clearSlots_shaped (h : Shaped o A g) : Shaped o A (clearSlots g) := by
  have hids : (clearSlots g).nodeIds = g.nodeIds := by
    simp [clearSlots, nodeIds, Function.comp_def]
  have hactions : actions (clearSlots g) = actions g := by
    funext id
    rw [actions, actions, node?, clearSlots, Table.at?_map (fun _ (n : Node) =>
      if n.isEntity then { n with slots := none } else n) g.nodes id]
    show ((g.node? id).map _).filter _ = _
    cases hn : g.node? id with
    | none => rfl
    | some n =>
      rw [Option.map_some]
      split
      · rename_i he
        have hnot : n.isAction = false := isEntity_iff.1 he
        have hnot' : ({ n with slots := none } : Node).isAction = false := hnot
        rw [filter_isAction_eq_none hnot, filter_isAction_eq_none hnot']
      · rfl
  exact ⟨⟨hids ▸ h.wellFormed.nodes_nodup, h.wellFormed.edges_nodup,
    fun e he => hids ▸ h.wellFormed.source_mem e he,
    fun e he => hids ▸ h.wellFormed.target_mem e he,
    hids ▸ h.wellFormed.seating_fits⟩, hactions.trans h.actions_eq, h.lies⟩

/-- One new entity under another one keeps the shape. -/
theorem addChild_shaped (h : Shaped o A g) {c : Child} (hp : A c.parent = none)
    (hc : c.node.isEntity = true) {s' : Supply} (hok : addChild g s c = .ok (g', s')) :
    Shaped o A g' := by
  obtain ⟨g₁, hg₁, hok⟩ := Outcome.bind_eq_ok_iff.1 hok
  obtain ⟨g₂, hg₂, heq⟩ := Outcome.bind_eq_ok_iff.1 hok
  obtain ⟨rfl, rfl⟩ := Prod.mk.inj (Except.ok.inj heq)
  obtain ⟨hid, rfl⟩ := addNode_eq_ok_iff.1 hg₁
  have hnone : A ⟨s.next⟩ = none := by
    rw [← h.actions_eq, actions, node?_eq_none_iff.2 hid]
    rfl
  have hshaped : Shaped o A (g.attachNode ⟨s.next⟩ c.node) :=
    ⟨h.wellFormed.attachNode _ hid, (actions_attachNode hid hc).trans h.actions_eq, h.lies⟩
  exact hshaped.addEdge ⟨hnone, fun n hn => by simp [hp] at hn, fun _ => ⟨rfl, rfl⟩⟩ hg₂

/-- New entities under others keep the shape. -/
theorem addChildren_shaped (h : Shaped o A g) {cs : List Child}
    (hcs : ∀ c ∈ cs, A c.parent = none ∧ c.node.isEntity = true) {s' : Supply}
    (hok : addChildren g s cs = .ok (g', s')) : Shaped o A g' := by
  refine (Outcome.foldlM_rest (I := fun cs (r : SemanticGraph × Supply) =>
    (∀ c ∈ cs, A c.parent = none ∧ c.node.isEntity = true) ∧ Shaped o A r.1)
    (fun c cs r r' hI hstep => ?_) ⟨hcs, clearSlots_shaped h⟩ hok).2
  obtain ⟨hp, hc⟩ := hI.1 c List.mem_cons_self
  exact ⟨fun c' hc' => hI.1 c' (List.mem_cons_of_mem _ hc'), addChild_shaped hI.2 hp hc hstep⟩

/-! ## What is asked of a source

Types are asked for node by node, and the answers matter here only in so far as they do not change
what is an action. An answer that fails ends the build, so nothing is to be shown of it. -/

/-- Answers stand in the order of the questions. -/
theorem forall₂_forEach {α β : Type} {f : α → TypeSource → Except StorageError β × TypeSource}
    {R : α → β → Prop} (hf : ∀ a t b t', f a t = (.ok b, t') → R a b) {as : List α}
    {t t' : TypeSource} {bs : List β} (h : TypeSource.forEach f as t = (.ok bs, t')) :
    List.Forall₂ R as bs := by
  fun_induction TypeSource.forEach f as t generalizing bs with
  | case1 =>
    cases h
    exact .nil
  | case2 => cases h
  | case3 => cases h
  | case4 a rest t b t₁ hb bs' t₂ hrest ih =>
    cases h
    exact .cons (hf a t b t₁ hb) (ih hrest)

/-- A node has its identity and its kind, and an action is no object. -/
theorem typed_spec {n : NodeId × Annotated.Node} {t t' : TypeSource} {p : NodeId × Node}
    (h : typed o n t = (.ok p, t')) :
    p.1 = n.1 ∧ p.2.isAction = n.2.isAction ∧ (p.2.isAction = true → p.2.id = none) := by
  obtain ⟨id, a | e⟩ := n
  · have h : (typedAction a t).1.map (fun node => (id, node)) = .ok p := congrArg Prod.fst h
    obtain ⟨node, hnode, rfl⟩ := Outcome.map_eq_ok_iff.1 h
    obtain ⟨type, -, rfl⟩ := Outcome.map_eq_ok_iff.1 hnode
    exact ⟨rfl, rfl, fun _ => rfl⟩
  · have h : (typedEntity o e t).1.map (fun node => (id, node)) = .ok p := congrArg Prod.fst h
    obtain ⟨node, hnode, rfl⟩ := Outcome.map_eq_ok_iff.1 h
    obtain ⟨type, -, rfl⟩ := Outcome.map_eq_ok_iff.1 hnode
    exact ⟨rfl, rfl, nofun⟩

/-- A slot stays with its entity and becomes one. -/
theorem child_spec {x : NodeId × String × Profile × Aspect} {t t' : TypeSource} {c : Child}
    (h : child o x t = (.ok c, t')) : c.parent = x.1 ∧ c.node.isEntity = true := by
  have h : (slotNode o x.2.2.1 x.2.2.2 t).1.map (fun node => ⟨x.1, x.2.1, node⟩) = .ok c :=
    congrArg Prod.fst h
  obtain ⟨node, hnode, rfl⟩ := Outcome.map_eq_ok_iff.1 h
  obtain ⟨type, -, rfl⟩ := Outcome.map_eq_ok_iff.1 hnode
  exact ⟨rfl, rfl⟩

/-- A typed node is of the kind that it was. -/
theorem node?_withTypes {g : AnnotatedGraph} (hg : g.WellFormed) {t t' : TypeSource}
    {types : Table NodeId Node} (h : TypeSource.forEach (typed o) g.nodes t = (.ok types, t'))
    {id : NodeId} {x : Annotated.Node} (hx : g.node? id = some x) :
    ∃ n, (withTypes g types).node? id = some n ∧ n.isAction = x.isAction ∧
      (n.isAction = true → n.id = none) := by
  have hall : List.Forall₂ (fun n p => p.1 = n.1 ∧ p.2.isAction = n.2.isAction ∧
      (p.2.isAction = true → p.2.id = none)) g.nodes types :=
    forall₂_forEach (f := typed o) (fun _ _ _ _ h => typed_spec h) h
  have hkeys : Table.keys types = g.nodeIds := by
    rw [Table.keys, nodeIds]
    generalize g.nodes = ns at hall
    clear h
    induction hall with
    | nil => rfl
    | cons hab _ ih => rw [List.map_cons, List.map_cons, hab.1, ih]
  obtain ⟨p, hp, rfl, hkind⟩ := Outcome.exists_right_of_forall₂ hall (hg.node?_eq_some_iff.1 hx)
  have hat : Table.at? types p.1 = some p.2 := Table.at?_of_mem (hkeys ▸ hg.nodes_nodup) hp
  refine ⟨p.2, ?_, hkind⟩
  show Table.at? (withTypes g types).nodes p.1 = _
  rw [withTypes, mapData, Table.at?_map (fun id _ => (Table.at? types id).getD _) g.nodes p.1]
  show (g.node? p.1).map _ = _
  rw [hx, Option.map_some, hat]
  rfl

/-- The actions of the typed graph are those that there were. -/
theorem actions_withTypes_ne_none_iff {g : AnnotatedGraph} (hg : g.WellFormed) {t t' : TypeSource}
    {types : Table NodeId Node} (h : TypeSource.forEach (typed o) g.nodes t = (.ok types, t'))
    (id : NodeId) : actions (withTypes g types) id ≠ none ↔ ∃ a, g.node? id = some (.action a) := by
  cases hx : g.node? id with
  | none =>
    have hnone : (withTypes g types).node? id = none := by
      rw [node?_eq_none_iff, withTypes, nodeIds_mapData]
      exact node?_eq_none_iff.1 hx
    simp [actions, hnone]
  | some x =>
    obtain ⟨n, hn, hkind, -⟩ := node?_withTypes hg h hx
    rw [actions, hn]
    cases x with
    | action a => simp [Option.filter_some_pos (show n.isAction = true from hkind)]
    | entity e => simp [filter_isAction_eq_none (show n.isAction = false from hkind)]

/-- Only entities have slots that become entities. -/
theorem childSlots_parent {g : SemanticGraph} (hg : g.WellFormed)
    {x : NodeId × String × Profile × Aspect} (hx : x ∈ childSlots o g) :
    actions g x.1 = none := by
  obtain ⟨n, hn, hx⟩ := List.mem_flatMap.1 hx
  split at hx
  · rename_i he
    obtain ⟨y, -, rfl⟩ := List.mem_map.1 hx
    rw [actions, hg.node?_eq_some_iff.2 hn]
    exact filter_isAction_eq_none (isEntity_iff.1 he)
  · cases hx

/-- An action is no object. -/
theorem id_eq_none_of_actions_withTypes {g : AnnotatedGraph} (hg : g.WellFormed)
    {t t' : TypeSource} {types : Table NodeId Node}
    (h : TypeSource.forEach (typed o) g.nodes t = (.ok types, t')) {id : NodeId} {n : Node}
    (hn : actions (withTypes g types) id = some n) : n.id = none := by
  obtain ⟨a, ha⟩ :=
    (actions_withTypes_ne_none_iff hg h id).1 (Option.ne_none_iff_exists'.2 ⟨n, hn⟩)
  obtain ⟨m, hm, -, hnone⟩ := node?_withTypes hg h ha
  obtain ⟨hn, hact⟩ := actions_eq_some_iff.1 hn
  obtain rfl := Option.some.inj (hn.symm.trans hm)
  exact hnone hact

/-! ## The whole graph

The stages are put together, and what the shape says of edges is said once more of the nodes at
their ends. -/

/-- A typed graph whose edges join actions and entities has its shape as soon as it is directed. -/
theorem orient_withTypes_shaped {g : AnnotatedGraph} (hg : g.WellFormed)
    (hjoins : ∀ e ∈ g.edges, ∃ a x,
      g.node? e.source = some (.action a) ∧ g.node? e.target = some (.entity x) ∨
        g.node? e.source = some (.entity x) ∧ g.node? e.target = some (.action a))
    {t t' : TypeSource} {types : Table NodeId Node}
    (htypes : TypeSource.forEach (typed o) g.nodes t = (.ok types, t'))
    (horient : orient o (withTypes g types) = .ok g') :
    Shaped o (actions (withTypes g types)) g' := by
  have hkind := actions_withTypes_ne_none_iff hg htypes
  have hentity : ∀ {id x}, g.node? id = some (.entity x) →
      actions (withTypes g types) id = none := fun {id x} hx =>
    not_not.1 fun hne => by
      obtain ⟨a, ha⟩ := (hkind id).1 hne
      cases ha.symm.trans hx
  refine orient_shaped (hg.mapData _ _) (fun e he => ?_) horient
  obtain ⟨e₀, he₀, rfl⟩ := List.mem_map.1 he
  obtain ⟨a, x, ⟨hs, ht⟩ | ⟨hs, ht⟩⟩ := hjoins e₀ he₀
  · exact iff_of_false ((hkind _).2 ⟨a, hs⟩) (not_not.2 (hentity ht))
  · exact iff_of_true (hentity hs) ((hkind _).2 ⟨a, ht⟩)

/-- The slots that become entities are those of entities. -/
theorem Shaped.children (h : Shaped o A g) {t t' : TypeSource} {cs : List Child}
    (hcs : TypeSource.forEach (child o) (childSlots o g) t = (.ok cs, t')) :
    ∀ c ∈ cs, A c.parent = none ∧ c.node.isEntity = true := by
  intro c hc
  obtain ⟨x, hx, hparent, hnode⟩ := Outcome.exists_left_of_forall₂
    (forall₂_forEach (f := child o) (fun _ _ _ _ h => child_spec h) hcs) hc
  exact ⟨hparent ▸ h.actions_eq ▸ childSlots_parent h.wellFormed hx, hnode⟩

/-- The entities of slots, and both passes of mergers, keep the shape. -/
theorem unite_shaped (h : Shaped o A g) (hid : ∀ id n, A id = some n → n.id = none)
    {cs : List Child} (hcs : ∀ c ∈ cs, A c.parent = none ∧ c.node.isEntity = true) {s' : Supply}
    (hok : unite o g s cs = .ok (g', s')) : Shaped o A g' := by
  obtain ⟨⟨g₁, s₁⟩, h₁, hok⟩ := Outcome.bind_eq_ok_iff.1 hok
  obtain ⟨⟨g₂, s₂⟩, h₂, h₃⟩ := Outcome.bind_eq_ok_iff.1 hok
  have hshaped₁ := addChildren_shaped h hcs (Outcome.mapError_eq_ok_iff.1 h₁)
  have hshaped₂ := mergeDuplicates_shaped hshaped₁ _ (Course.outcome_eq_ok_iff.1 h₂)
  exact mergeStrangers_shaped hshaped₂ hid _ (Course.outcome_eq_ok_iff.1 h₃)

/-- The map has the actions of the shaped graph. -/
theorem Shaped.action_iff (h : Shaped o A g) {id : NodeId} {n : Node} :
    A id = some n ↔ g.node? id = some n ∧ n.isAction = true :=
  h.actions_eq ▸ actions_eq_some_iff

/-- A node that the map lacks is an entity. -/
theorem Shaped.exists_entity (h : Shaped o A g) {id : NodeId} (hid : id ∈ g.nodeIds)
    (hnone : A id = none) : ∃ n, g.node? id = some n ∧ n.isEntity = true := by
  obtain ⟨n, hn⟩ := Option.ne_none_iff_exists'.1 (mt node?_eq_none_iff.1 (not_not.2 hid))
  refine ⟨n, hn, isEntity_iff.2 (Bool.eq_false_iff.2 fun ha => ?_)⟩
  cases hnone.symm.trans (h.action_iff.2 ⟨hn, ha⟩)

/-- Where an edge may lie, said of the nodes at its ends. -/
theorem Shaped.edge (h : Shaped o A g) {e : Edge Link} (he : e ∈ g.edges) :
    ∃ n m, g.node? e.source = some n ∧ g.node? e.target = some m ∧ m.isEntity = true ∧
      (n.isAction = true ∧ e.data.role.isSome = true ∧
          (∀ a, e.data.aspect = some a → o.Declares n.type a) ∨
        n.isEntity = true ∧ e.data.aspect.isSome = true ∧ e.data.role = none) := by
  have hlies := h.lies e he
  obtain ⟨m, hm, hme⟩ := h.exists_entity (h.wellFormed.target_mem e he) hlies.target
  cases hs : A e.source with
  | none =>
    obtain ⟨n, hn, hne⟩ := h.exists_entity (h.wellFormed.source_mem e he) hs
    exact ⟨n, m, hn, hm, hme, .inr ⟨hne, hlies.entity hs⟩⟩
  | some n =>
    obtain ⟨hn, hact⟩ := h.action_iff.1 hs
    obtain ⟨hrole, hdecl⟩ := hlies.action n hs
    exact ⟨n, m, hn, hm, hme, .inl ⟨hact, hrole, fun a ha => declares_of_holds (hdecl a ha)⟩⟩

/--
Whatever is built of a graph in which every edge joins an action and an entity has the same actions.
No edge enters an action, one that leaves an action goes to an entity with a role and no aspect but
what the type of the action or one of its supertypes declares, and one that leaves an entity goes to
an entity with an aspect and no role.
-/
theorem ofAnnotated_shape {o : Ontology} {g : AnnotatedGraph} {t t' : TypeSource} {s s' : Supply}
    {g' : SemanticGraph} (hg : g.WellFormed)
    (hjoins : ∀ e ∈ g.edges, ∃ a x,
      g.node? e.source = some (.action a) ∧ g.node? e.target = some (.entity x) ∨
        g.node? e.source = some (.entity x) ∧ g.node? e.target = some (.action a))
    (hok : SemanticGraph.ofAnnotated o g t s = (.ok (g', s'), t')) :
    (∀ id, (∃ n, g'.node? id = some n ∧ n.isAction = true) ↔
      ∃ a, g.node? id = some (.action a)) ∧
    ∀ e ∈ g'.edges, ∃ n m, g'.node? e.source = some n ∧ g'.node? e.target = some m ∧
      m.isEntity = true ∧
        (n.isAction = true ∧ e.data.role.isSome = true ∧
            (∀ a, e.data.aspect = some a → o.Declares n.type a) ∨
          n.isEntity = true ∧ e.data.aspect.isSome = true ∧ e.data.role = none) := by
  rcases htypes : TypeSource.forEach (typed o) g.nodes t with ⟨e | types, t₁⟩
  · simp only [SemanticGraph.ofAnnotated, htypes] at hok
    cases hok
  rcases horient : orient o (withTypes g types) with e | g₁
  · simp only [SemanticGraph.ofAnnotated, htypes, horient] at hok
    cases hok
  rcases hcs : TypeSource.forEach (child o) (childSlots o g₁) t₁ with ⟨e | cs, t₂⟩
  · simp only [SemanticGraph.ofAnnotated, htypes, horient, hcs] at hok
    cases hok
  simp only [SemanticGraph.ofAnnotated, htypes, horient, hcs] at hok
  have horiented := orient_withTypes_shaped hg hjoins htypes horient
  have hshaped := unite_shaped horiented (fun _ _ => id_eq_none_of_actions_withTypes hg htypes)
    (horiented.children hcs) (Prod.mk.inj hok).1
  refine ⟨fun id => ?_, fun e he => hshaped.edge he⟩
  rw [← actions_withTypes_ne_none_iff hg htypes id, Option.ne_none_iff_exists']
  exact exists_congr fun n => hshaped.action_iff.symm

/-- An action that changes an object: one under the same aspect goes in and comes out. -/
def changing : AnnotatedGraph :=
  { nodes := [(⟨0⟩, .entity {}), (⟨1⟩, .action {}), (⟨2⟩, .entity {})]
    edges := [⟨⟨3⟩, ⟨0⟩, ⟨1⟩, ⟨none, some "x"⟩⟩, ⟨⟨4⟩, ⟨1⟩, ⟨2⟩, ⟨none, some "x"⟩⟩]
    seating := .inOrder [⟨0⟩, ⟨1⟩, ⟨2⟩] }

/-- The roots, where actions have an aspect. -/
def aspected : Ontology :=
  ⟨[Ontology.rootType .entity, ⟨"action", .action, [], [⟨"x", "entity"⟩]⟩], []⟩

/-- The types of its nodes, which nothing is noted of. -/
def rootTyped : Table NodeId Node :=
  [(⟨0⟩, ⟨"entity", .entity, none, none, none⟩), (⟨1⟩, ⟨"action", .action, none, none, none⟩),
    (⟨2⟩, ⟨"entity", .entity, none, none, none⟩)]

/-- The typed graph with both edges leading away from the action. -/
def directed : SemanticGraph :=
  { withTypes changing rootTyped with
    edges := [⟨⟨4⟩, ⟨1⟩, ⟨2⟩, ⟨some "x", some .output⟩⟩, ⟨⟨3⟩, ⟨1⟩, ⟨0⟩, ⟨some "x", some .input⟩⟩] }

/-- The type of the action has one aspect. -/
theorem aspectsOf_aspected : aspectsOf aspected "action" = [("x", ⟨"x", "entity"⟩)] := by
  have h := Ontology.inherited_of_climb (o := aspected) (s := "action") rfl <|
    (Ontology.climb_visit rfl rfl rfl).trans Ontology.climb_nil
  rw [aspectsOf, h]
  rfl

/-- The aspect of both edges is one of the action's. -/
theorem validate_directed : validate aspected directed = directed := by
  show dropUndeclared aspected directed ⟨1⟩ = directed
  rw [dropUndeclared, show directed.node? ⟨1⟩ = some ⟨"action", .action, none, none, none⟩ from rfl]
  dsimp only
  rw [aspectsOf_aspected]
  rfl

/-- The two entities are merged, and the aspect of the action stays. -/
theorem ofAnnotated_shape_changing :
    ∃ g' s' t', SemanticGraph.ofAnnotated aspected changing { database := {} } ⟨5⟩ =
        (.ok (g', s'), t') ∧ (∃ n, g'.node? ⟨1⟩ = some n ∧ n.isAction = true) ∧
      (g'.edges.map fun e => (e.source, e.target, e.data)) =
        [(⟨1⟩, ⟨2⟩, ⟨some "x", some .output⟩)] ∧
      ∃ n, g'.node? ⟨1⟩ = some n ∧ aspected.Declares n.type "x" := by
  have hedges : (SemanticGraph.ofAnnotated aspected changing { database := {} } ⟨5⟩).1.toOption.map
      (fun r => r.1.edges.map fun e => (e.source, e.target, e.data)) =
        some [(⟨1⟩, ⟨2⟩, ⟨some "x", some .output⟩)] := by
    have htypes : TypeSource.forEach (typed aspected) changing.nodes { database := {} } =
        (.ok rootTyped, { database := {} }) := rfl
    have horient : orient aspected (withTypes changing rootTyped) = .ok directed := by
      rw [orient, show direct (withTypes changing rootTyped) = .ok directed from rfl]
      exact congrArg Except.ok validate_directed
    have hslots : TypeSource.forEach (child aspected) (childSlots aspected directed)
        { database := {} } = (.ok [], { database := {} }) := rfl
    simp only [SemanticGraph.ofAnnotated, htypes, horient, hslots]
    decide +kernel
  rcases hres : SemanticGraph.ofAnnotated aspected changing { database := {} } ⟨5⟩ with
    ⟨e | ⟨g', s'⟩, t'⟩
  · rw [hres] at hedges
    cases hedges
  rw [hres] at hedges
  have hedges := Option.some.inj hedges
  have hwf : changing.WellFormed :=
    ⟨by decide, by decide, by decide, by decide, Seating.fits_inOrder _⟩
  obtain ⟨hactions, hall⟩ := ofAnnotated_shape hwf (by
    simp only [changing, List.forall_mem_cons, List.not_mem_nil, false_imp_iff, implies_true,
      and_true]
    exact ⟨⟨_, _, .inr ⟨rfl, rfl⟩⟩, ⟨_, _, .inl ⟨rfl, rfl⟩⟩⟩) hres
  obtain ⟨n, hn, hact⟩ := (hactions ⟨1⟩).2 ⟨_, rfl⟩
  refine ⟨g', s', t', rfl, ⟨n, hn, hact⟩, hedges, n, hn, ?_⟩
  obtain ⟨e, rest, hes, heq, -⟩ := List.map_eq_cons_iff.1 hedges
  obtain ⟨hs, heq⟩ := Prod.mk.inj heq
  obtain ⟨-, hdata⟩ := Prod.mk.inj heq
  obtain ⟨n', m, hn', -, -, ⟨-, -, hdecl⟩ | ⟨hent, -⟩⟩ := hall e (hes ▸ List.mem_cons_self)
  · obtain rfl := Option.some.inj (hn.symm.trans (hs ▸ hn'))
    exact hdecl "x" (congrArg Link.aspect hdata)
  · obtain rfl := Option.some.inj (hn.symm.trans (hs ▸ hn'))
    cases hact.symm.trans (isEntity_iff.1 hent)

end Semantic

end ObjectFlow
