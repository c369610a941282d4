import ObjectFlow.Proofs.Annotated.Ledger

/-!
# Edges with pins

When an object becomes an input or an output of an action, one edge for each of its pins joins its
entity and the action (`edges_attachPins`), and edges with pins elsewhere stay as they are.

Turning objects into entities was described by what edges carry, where an edge with a pin and one
without are alike. Here the two are told apart. The edges with pins are given as a list, in their
order (`labels`), since there may be several between the same two nodes, and those without are given
by what they carry (`Bare`). For each of the changes a graph goes through, it is said what becomes
of both.
-/

namespace ObjectFlow.Annotated.Draft

open ObjectFlow.Graph

/-! ## Edges with and without pins

Labels are appended when edges are, and stay where only other edges go. -/

/-- An edge with a pin. -/
structure Label where
  source : NodeId
  target : NodeId
  object : ObjectId
  pin : String

/-- What an edge with a pin is as a label. -/
def label? (e : Edge Thread) : Option Label :=
  e.data.pin.map fun pin => ⟨e.source, e.target, e.data.id, pin⟩

/-- The edges with pins, in their order. -/
def labels (g : Graph Node Thread) : List Label := g.edges.filterMap label?

/-- An edge without a pin carries an object from one node to another. -/
def Bare (g : Graph Node Thread) (x y : NodeId) (o : ObjectId) : Prop :=
  ∃ e ∈ g.edges, e.source = x ∧ e.target = y ∧ e.data = ⟨o, none⟩

variable {g : Graph Node Thread} {s : Supply}

/-- A label is listed if an edge has it. -/
theorem mem_labels {l : Label} : l ∈ labels g ↔ ∃ e ∈ g.edges, e.source = l.source ∧
    e.target = l.target ∧ e.data = ⟨l.object, some l.pin⟩ := by
  obtain ⟨source, target, object, pin⟩ := l
  simp only [labels, label?, List.mem_filterMap, Option.map_eq_some_iff, Label.mk.injEq]
  constructor
  · rintro ⟨e, he, p, hp, rfl, rfl, rfl, rfl⟩
    exact ⟨e, he, rfl, rfl, by rw [← hp]⟩
  · rintro ⟨e, he, rfl, rfl, hdata⟩
    exact ⟨e, he, pin, by rw [hdata], rfl, rfl, by rw [hdata], rfl⟩

theorem Bare.carries {x y : NodeId} {o : ObjectId} (h : Bare g x y o) : Carries g x y o := by
  obtain ⟨e, he, hs, ht, hd⟩ := h
  exact ⟨e, he, hs, ht, congrArg Thread.id hd⟩

theorem labels_withEdges (es : List (Edge Thread)) :
    labels (g.withEdges es) = labels g ++ es.filterMap label? := List.filterMap_append

/-- A new edge is bare if it has no pin. -/
theorem bare_withEdges {es : List (Edge Thread)} {x y : NodeId} {o : ObjectId} :
    Bare (g.withEdges es) x y o ↔
      Bare g x y o ∨ ∃ e ∈ es, e.source = x ∧ e.target = y ∧ e.data = ⟨o, none⟩ := by
  simp only [Bare, edges_withEdges, List.mem_append, or_and_right, exists_or]

/-- The labels stay where only edges without pins are taken away. -/
theorem labels_removeEdges {ids : List EdgeId}
    (h : ∀ e ∈ g.edges, e.id ∈ ids → e.data.pin = none) :
    labels (g.removeEdges ids) = labels g := by
  have key : ∀ es : List (Edge Thread), (∀ e ∈ es, e.id ∈ ids → e.data.pin = none) →
      (es.filter fun e => e.id ∉ ids).filterMap label? = es.filterMap label? := by
    intro es hes
    induction es with
    | nil => rfl
    | cons e es ih =>
      have ih := ih fun e' he' => hes e' (List.mem_cons_of_mem _ he')
      by_cases hid : e.id ∈ ids
      · have hnone : label? e = none := by rw [label?, hes e List.mem_cons_self hid]; rfl
        rw [List.filter_cons_of_neg (by simpa using hid), ih, List.filterMap_cons, hnone]
      · rw [List.filter_cons_of_pos (by simpa using hid), List.filterMap_cons, List.filterMap_cons,
          ih]
  exact key g.edges h

/-! ## Edges after one change

That the edges at an action have no pins before its objects are attached is an assumption here. It
holds because every action is looked at once. -/

/-- An edge that has no label has no pin. -/
theorem pin_eq_none_of_not_mem_labels {e : Edge Thread} (he : e ∈ g.edges)
    (hno : ∀ pin, ⟨e.source, e.target, e.data.id, pin⟩ ∉ labels g) : e.data.pin = none := by
  cases hpin : e.data.pin with
  | none => rfl
  | some pin => exact absurd (mem_labels.2 ⟨e, he, rfl, rfl, by rw [← hpin]⟩) (hno pin)

/-- An edge with the identity of a carrier is one. -/
theorem carried_of_id_mem_carriers (h : g.WellFormed) {source target : NodeId} {id : ObjectId}
    {e : Edge Thread} (he : e ∈ g.edges)
    (hid : e.id ∈ (carriers g source target id).map Edge.id) :
    e.source = source ∧ e.target = target ∧ e.data.id = id := by
  obtain ⟨e', he', heq⟩ := List.mem_map.1 hid
  obtain ⟨hmem, hc⟩ := mem_carriers.1 he'
  obtain rfl := h.edge_ext hmem he heq
  exact hc

/-- Pins take the place of the bare edges that carry the object. -/
theorem edges_attachPins (h : Sound g s) {source target : NodeId} (hs : source ∈ g.nodeIds)
    (ht : target ∈ g.nodeIds) {id : ObjectId}
    (hno : ∀ l ∈ labels g, ¬ (l.source = source ∧ l.target = target ∧ l.object = id))
    {pins : List String} {g' : Graph Node Thread} {s' : Supply}
    (hok : attachPins g s source target id pins = .ok (g', s')) :
    labels g' = labels g ++ pins.map (fun pin => ⟨source, target, id, pin⟩) ∧
      ∀ x y o, Bare g' x y o ↔
        Bare g x y o ∧ (pins = [] ∨ ¬ (x = source ∧ y = target ∧ o = id)) := by
  by_cases hpins : pins = []
  · subst hpins
    cases hok
    simp
  · obtain ⟨es, s₁, hok₁, hmap, -⟩ := attachPins_eq_ok h hs ht id hpins
    cases hok.symm.trans hok₁
    constructor
    · have hlabels : es.filterMap label? = pins.map fun pin => ⟨source, target, id, pin⟩ := by
        have hfun : label? = (fun x : NodeId × NodeId × Thread =>
            x.2.2.pin.map fun pin => (⟨x.1, x.2.1, x.2.2.id, pin⟩ : Label)) ∘
              fun e => (e.source, e.target, e.data) := rfl
        rw [hfun, ← List.filterMap_map, hmap, List.filterMap_map]
        simp
      rw [labels_withEdges, hlabels, labels_removeEdges fun e he hid => ?_]
      have hcarried := carried_of_id_mem_carriers h.wellFormed he hid
      exact pin_eq_none_of_not_mem_labels he fun pin hl => hno _ hl hcarried
    · intro x y o
      rw [bare_withEdges]
      constructor
      · rintro (⟨e, he, rfl, rfl, hdata⟩ | ⟨e, he, -, -, hdata⟩)
        · obtain ⟨hmem, hid⟩ := mem_edges_removeEdges.1 he
          refine ⟨⟨e, hmem, rfl, rfl, hdata⟩, .inr ?_⟩
          rintro ⟨hs', ht', rfl⟩
          refine hid (List.mem_map_of_mem (mem_carriers.2 ⟨hmem, hs', ht', ?_⟩))
          rw [hdata]
        · obtain ⟨pin, -, -, -, hdata'⟩ := ends_of_pins hmap he
          rw [hdata] at hdata'
          cases hdata'
      · rintro ⟨⟨e, he, rfl, rfl, hdata⟩, hne⟩
        refine .inl ⟨e, mem_edges_removeEdges.2 ⟨he, fun hid => ?_⟩, rfl, rfl, hdata⟩
        obtain ⟨hs', ht', ho⟩ := carried_of_id_mem_carriers h.wellFormed he hid
        rw [hdata] at ho
        exact (hne.resolve_left hpins) ⟨hs', ht', ho⟩

/-- A new entity in front of an action has a bare edge to it. -/
theorem edges_heralded (action : NodeId) (id : ObjectId) :
    labels (heralded g s action id) = labels g ∧ ∀ x y o, Bare (heralded g s action id) x y o ↔
      Bare g x y o ∨ x = s.node.1 ∧ y = action ∧ o = id := by
  constructor
  · show labels ((g.attachNode _ _).withEdges _) = _
    rw [labels_withEdges]
    simp [labels, label?]
  · intro x y o
    show Bare ((g.attachNode _ _).withEdges _) x y o ↔ _
    rw [bare_withEdges]
    simp only [List.mem_singleton, exists_eq_left, Thread.mk.injEq, and_true, eq_comm]
    rfl

/-- The edges that carry an object out of an action, which have no pins, lose none when they
move. -/
theorem labels_followed (h : Sound g s) {action : NodeId} {id : ObjectId}
    (hno : ∀ l ∈ labels g, ¬ (l.source = action ∧ l.object = id)) (p : Profile) :
    labels (followed g s action id p) = labels g := by
  have hpin : ∀ e ∈ g.edges, e.source = action → e.data.id = id → e.data.pin = none :=
    fun e he hs ho => pin_eq_none_of_not_mem_labels he fun pin hl => hno _ hl ⟨hs, ho⟩
  show labels ((((g.attachNode _ _).removeEdges _).withEdges _).withEdges _) = _
  rw [labels_withEdges, labels_withEdges, labels_removeEdges fun e he hid => ?_]
  · have hmoved : ∀ e ∈ ((g.outEdges action).filter fun e => e.data.id = id).map
        (fun e => { e with source := s.node.1 }), label? e = none := by
      intro e' he'
      obtain ⟨e, he, hs, ho, rfl⟩ := mem_moved.1 he'
      rw [label?, hpin e he hs (of_decide_eq_true ho)]
      rfl
    rw [List.filterMap_eq_nil_iff.2 hmoved]
    simp [labels, label?]
  · rw [ids_moved] at hid
    obtain ⟨e', he', heq⟩ := List.mem_map.1 hid
    obtain ⟨hmem, ho⟩ := List.mem_filter.1 he'
    obtain ⟨hmem, hs⟩ := mem_outEdges.1 hmem
    obtain rfl := h.wellFormed.edge_ext hmem he heq
    exact hpin e' hmem hs (of_decide_eq_true ho)

/-- The edges that carry an object out of an action go on from the entity behind it. -/
theorem bare_followed (h : Sound g s) (action : NodeId) (id : ObjectId) (p : Profile)
    (x y : NodeId) (o : ObjectId) : Bare (followed g s action id p) x y o ↔
      Bare g x y o ∧ ¬ (x = action ∧ o = id) ∨ x = s.node.1 ∧ Bare g action y o ∧ o = id ∨
        x = action ∧ y = s.node.1 ∧ o = id := by
  constructor
  · rintro ⟨e', he', rfl, rfl, hdata⟩
    rcases (mem_edges_insertedAfter h.wellFormed).1 he' with
      ⟨he, hne⟩ | ⟨e, he, hs, ho, rfl⟩ | rfl
    · refine .inl ⟨⟨e', he, rfl, rfl, hdata⟩, fun hx => hne ⟨hx.1, decide_eq_true ?_⟩⟩
      rw [hdata]
      exact hx.2
    · refine .inr (.inl ⟨rfl, ⟨e, he, hs, rfl, hdata⟩, ?_⟩)
      have ho := of_decide_eq_true ho
      rw [show e.data = ⟨o, none⟩ from hdata] at ho
      exact ho
    · cases hdata
      exact .inr (.inr ⟨rfl, rfl, rfl⟩)
  · rintro (⟨⟨e, he, rfl, rfl, hdata⟩, hne⟩ | ⟨rfl, ⟨e, he, hs, rfl, hdata⟩, rfl⟩ |
      ⟨rfl, rfl, rfl⟩)
    · refine ⟨e, (mem_edges_insertedAfter h.wellFormed).2 (.inl ⟨he, fun hx => hne ⟨hx.1, ?_⟩⟩),
        rfl, rfl, hdata⟩
      have ho := of_decide_eq_true hx.2
      rw [hdata] at ho
      exact ho
    · refine ⟨{ e with source := s.node.1 },
        (mem_edges_insertedAfter h.wellFormed).2 (.inr (.inl ⟨e, he, hs, ?_, rfl⟩)), rfl, rfl,
        hdata⟩
      exact decide_eq_true (by rw [hdata])
    · exact ⟨_, (mem_edges_insertedAfter h.wellFormed).2 (.inr (.inr rfl)), rfl, rfl, rfl⟩

end ObjectFlow.Annotated.Draft
