import ObjectFlow.Proofs.Annotated.Fresh
import ObjectFlow.Proofs.Annotated.Links
import ObjectFlow.Proofs.Annotated.Pinned
import Mathlib.Data.List.Perm.Basic

/-!
# Pins become edges

In the annotated graph the edges with pins at a call with a note are those of the pins that have a
place in its note, and two of these share an entity just when they have the same object
(`AnnotatedGraph.ofFlow_ports`).

## Outline

The two halves of the statement come from different stages.

1. *Which pins.* In the draft the pins with a place are listed with their objects (`Lists`). When
   objects are entities, the labels at the action are this listing (`spelled`), and at an action
   with a note trimming takes no edge away (`mem_edges_trim`). So up to order the edges that are
   shown are the listing (`perm_edgesAt`). They are arranged in the order of the pins, one edge for
   each (`exists_edges`), and the comparison goes on pin by pin.
2. *Which entities.* Labels of one object have one entity, and different objects have different
   ones, since an entity has one entry in the ledger. So two pins share an entity just when they got
   the same object when they were drafted. That this is so only if they refer to the same one is
   where fresh identities are needed (`pairwise_ports`).
-/

namespace ObjectFlow

open ObjectFlow.Graph ObjectFlow.Annotated

/-! ## Edges at one side of an action

For an input the action is at the target of an edge, and for an output at the source. `Spells` says
what is claimed of the edges on one side of an action, given its ports. -/

/-- The end of an edge at the node whose input or output it is. -/
def Edge.near {E : Type} (e : Edge E) : Side → NodeId
  | .input => e.target
  | .output => e.source

/-- The other end. -/
def Edge.far {E : Type} (e : Edge E) : Side → NodeId
  | .input => e.source
  | .output => e.target

/-- The edges into a node, or out of it. -/
def AnnotatedGraph.edgesAt (g : AnnotatedGraph) (n : NodeId) (side : Side) : List (Edge Link) :=
  g.edges.filter fun e => e.near side = n

/--
The edges with pins on one side of a node are those of some pins, each with an entity of the object
of its pin at the other end. Only pins with one object share an entity, and no edge without a pin
carries the object of one.
-/
structure AnnotatedGraph.Spells (g : AnnotatedGraph) (n : NodeId) (side : Side)
    (ps : List (String × Flow.Pin)) (es : List (Edge Link)) : Prop where
  perm : es.Perm ((g.edgesAt n side).filter fun e => e.data.pin.isSome)
  shown : List.Forall₂ (fun p e => e.data.pin = some (Draft.shown p) ∧ ∃ o,
    e.data.id = some o ∧ g.Shows (e.far side) o ∧ (p.2.id = none ∨ p.2.id = some o)) ps es
  shared : (ps.zip es).Pairwise fun x y =>
    (x.2.far side = y.2.far side ↔ x.1.2.id.isSome ∧ x.1.2.id = y.1.2.id)
  bare : ∀ e ∈ g.edgesAt n side, e.data.pin = none → ∀ e' ∈ es, e.data.id ≠ e'.data.id

namespace Annotated

/-- A list that is known up to its order after a map is known up to its order. -/
theorem exists_perm_of_map {α β : Type} {f : α → β} {l : List α} {l' : List β}
    (h : l'.Perm (l.map f)) : ∃ l₀ : List α, l₀.Perm l ∧ l₀.map f = l' := by
  have hmap : List.Forall₂ (fun b a => b = f a) (l.map f) l := by
    rw [List.forall₂_map_left_iff]
    exact List.forall₂_same.2 fun _ _ => rfl
  obtain ⟨l₀, hl₀, hperm⟩ := List.perm_comp_forall₂ h hmap
  refine ⟨l₀, hperm, ?_⟩
  rw [← List.forall₂_eq_eq_eq, List.forall₂_map_left_iff]
  exact hl₀.flip.imp fun _ _ h => h.symm

namespace Draft

/-- What the pins of actions take in comes from one place. -/
theorem Sole.definite {d : Draft} {input output : NodeId} (h : d.Sole)
    (hs : d.Shaped input output) : d.Definite := by
  intro v o ho u u' hc hc'
  refine h v ?_ u u' o hc hc'
  by_contra hv
  rw [hs.listed_eq .input v (Bool.eq_false_iff.2 hv)] at ho
  cases ho

/-- The edges with pins at a node. -/
theorem map_labels (g : Graph Node Thread) (n : NodeId) (side : Side) :
    (((labels g).filter fun l => l.near side = n).map fun l => (l.object, l.pin)).map
      (fun x => (some x.1, some x.2)) =
    (g.edges.filter fun e => e.near side = n && e.data.pin.isSome).map
      fun e => (some e.data.id, e.data.pin) := by
  rw [labels]
  induction g.edges with
  | nil => rfl
  | cons e es ih =>
    cases hpin : e.data.pin with
    | none =>
      have hnone : label? e = none := by rw [label?, hpin]; rfl
      rw [List.filterMap_cons, hnone, List.filter_cons_of_neg (by simp [hpin])]
      exact ih
    | some pin =>
      have hsome : label? e = some ⟨e.source, e.target, e.data.id, pin⟩ := by
        rw [label?, hpin]
        rfl
      have hnear : Label.near ⟨e.source, e.target, e.data.id, pin⟩ side = e.near side := by
        cases side <;> rfl
      rw [List.filterMap_cons, hsome]
      by_cases h : e.near side = n
      · rw [List.filter_cons_of_pos (by simpa [hnear] using h),
          List.filter_cons_of_pos (by simpa [hpin] using h), List.map_cons, List.map_cons,
          List.map_cons, ih, hpin]
      · rw [List.filter_cons_of_neg (by simpa [hnear] using h),
          List.filter_cons_of_neg (by simp [h])]
        exact ih

/-- Edges with the objects and the labels of pins, one for each, go along with the pins. -/
theorem aligned_of_map {ps : List (String × Flow.Pin)} {os : List ObjectId} {es : List (Edge Link)}
    (hlen : os.length = ps.length) (h : es.map (fun e => (e.data.id, e.data.pin)) =
      (os.zip (ps.map shown)).map fun x => (some x.1, some x.2)) :
    List.Forall₂ (fun p e => e.data.pin = some (shown p)) ps es ∧
      (ps.zip es).map (fun x => (x.1.2.id, x.2.data.id)) =
        ((ps.map fun p => p.2.id).zip os).map fun x => (x.1, some x.2) := by
  induction ps generalizing os es with
  | nil =>
    rw [List.length_nil, List.length_eq_zero_iff] at hlen
    subst hlen
    rw [List.zip_nil_left, List.map_nil, List.map_eq_nil_iff] at h
    subst h
    exact ⟨.nil, rfl⟩
  | cons p ps ih =>
    cases os with
    | nil => cases hlen
    | cons o os =>
      cases es with
      | nil => cases h
      | cons e es =>
        simp only [List.map_cons, List.zip_cons_cons, List.cons.injEq, Prod.mk.injEq] at h
        obtain ⟨⟨hid, hpin⟩, hrest⟩ := h
        obtain ⟨hshown, hids⟩ := ih (Nat.succ.inj hlen) hrest
        refine ⟨.cons hpin hshown, ?_⟩
        simp only [List.map_cons, List.zip_cons_cons, hids, hid]

end Draft

namespace Course

variable {f : Flow} {s : Supply} (c : Course f s)

/-! ## Which pins

At an action with a note, the labels that were put at it are followed through trimming to the graph
that is shown, where they are the edges with pins. -/

/-- What goes on beside an action with a note is the entity of the object, which is left. -/
theorem exists_entry {n : NodeId} (hn : Draft.isNotedNode c.collapsed.graph n = true) {side : Side}
    {e : Edge Thread} (he : e ∈ c.reified.edges) (hnear : e.near side = n) :
    ∃ y ∈ c.ledger, y.entity = e.far side ∧ y.object = e.data.id ∧
      y.entity ∈ (trim c.reified).nodeIds := by
  have hr := c.reifies
  have hmem : n ∈ c.collapsed.graph.nodeIds := Draft.mem_of_isNotedNode hn
  have hstays : n ∈ (trim c.reified).nodeIds :=
    (hr.mem_trimmed_action c.collapses.shaped c.trimmed hmem).2 (.inl hn)
  have hentry : ∃ y ∈ c.ledger, y.entity = e.far side ∧ y.object = e.data.id := by
    have hc : Draft.Carries c.reified e.source e.target e.data.id := ⟨e, he, rfl, rfl, rfl⟩
    cases side with
    | input =>
      obtain rfl : e.target = n := hnear
      rcases hr.carries_iff.1 hc with hm | ⟨w, hm, -⟩ | hm
      · exact absurd hmem (hr.entity_new _ hm)
      · exact ⟨_, hm, rfl, rfl⟩
      · exact ⟨_, hm, rfl, rfl⟩
    | output =>
      obtain rfl : e.source = n := hnear
      rcases hr.carries_iff.1 hc with hm | ⟨w, hm, -⟩ | hm
      · exact ⟨_, hm, rfl, rfl⟩
      · exact absurd hmem (hr.entity_new _ hm)
      · exact absurd hmem (hr.entity_new _ hm)
  obtain ⟨y, hy, hfar, ho⟩ := hentry
  refine ⟨y, hy, hfar, ho, (hr.mem_trimmed_entity c.collapses.shaped c.trimmed hy).2 ?_⟩
  have hstep : c.reified.Step e.source e.target := .of_mem he
  cases side with
  | input =>
    obtain rfl : e.target = n := hnear
    rw [show e.source = y.entity from hfar.symm] at hstep
    exact ⟨.inr ⟨_, hstep, hn⟩, .inl ⟨_, hstays, hstep⟩⟩
  | output =>
    obtain rfl : e.source = n := hnear
    rw [show e.target = y.entity from hfar.symm] at hstep
    exact ⟨.inl ⟨_, hstays, hstep⟩, .inr ⟨_, hstep, hn⟩⟩

/-- All edges at an action with a note are left. -/
theorem mem_edges_trim {n : NodeId} (hn : Draft.isNotedNode c.collapsed.graph n = true)
    (side : Side) {e : Edge Thread} (hnear : e.near side = n) :
    e ∈ (trim c.reified).edges ↔ e ∈ c.reified.edges := by
  refine ⟨c.trimmed.sub e, fun he => ?_⟩
  have hstays : n ∈ (trim c.reified).nodeIds := (c.reifies.mem_trimmed_action c.collapses.shaped
    c.trimmed (Draft.mem_of_isNotedNode hn)).2 (.inl hn)
  have hplain := c.not_isPlainNode_of_noted hn
  obtain ⟨y, hy, hfar, -, hmem⟩ := c.exists_entry hn he hnear
  have hentity := c.not_isPlainNode_of_entity hy
  rw [hfar] at hmem hentity
  subst hnear
  cases side with
  | input => exact c.trimmed.kept e he hmem hstays hentity hplain
  | output => exact c.trimmed.kept e he hstays hmem hplain hentity

/-- The edges with pins at an action with a note, as they are shown. -/
theorem perm_edgesAt {n : NodeId} (hn : Draft.isNotedNode c.collapsed.graph n = true)
    (side : Side) : ((AnnotatedGraph.edgesAt (shownGraph (trim c.reified)) n side).filter
      fun e => e.data.pin.isSome).Perm
    ((c.reified.edges.filter fun e => e.near side = n && e.data.pin.isSome).map
      fun e => ⟨e.id, e.source, e.target, e.data.link⟩) := by
  have hshown : (AnnotatedGraph.edgesAt (shownGraph (trim c.reified)) n side).filter
      (fun e => e.data.pin.isSome) =
      ((trim c.reified).edges.filter fun e => e.near side = n && e.data.pin.isSome).map
        fun e => ⟨e.id, e.source, e.target, e.data.link⟩ := by
    rw [AnnotatedGraph.edgesAt, List.filter_filter, shownGraph, mapData, List.filter_map]
    congr 1
    refine List.filter_congr fun e _ => ?_
    cases side <;> exact Bool.and_comm _ _
  rw [hshown]
  have hnodup : ∀ {g : Graph Node Thread}, g.WellFormed → g.edges.Nodup := fun hg =>
    List.Nodup.of_map _ hg.edges_nodup
  refine List.Perm.map _ ((List.perm_ext_iff_of_nodup ((hnodup c.trimmed.wellFormed).filter _)
    ((hnodup c.reifies.sound.wellFormed).filter _)).2 fun e => ?_)
  rw [List.mem_filter, List.mem_filter]
  refine and_congr_left fun h => c.mem_edges_trim hn side ?_
  exact of_decide_eq_true (Bool.and_eq_true_iff.1 h).1

/-- An edge with a pin is one of those at the action, and its entity stands for its object. -/
theorem exists_label {n : NodeId} (hn : Draft.isNotedNode c.collapsed.graph n = true) {side : Side}
    {e' : Edge Link} (he' : e' ∈ (AnnotatedGraph.edgesAt (shownGraph (trim c.reified)) n side).filter
      fun e => e.data.pin.isSome) :
    ∃ l ∈ Draft.labels c.reified, l.near side = n ∧ l.far side = e'.far side ∧
      e'.data.id = some l.object ∧ ∃ y ∈ c.ledger, y.entity = e'.far side ∧
        y.object = l.object ∧ y.entity ∈ (trim c.reified).nodeIds := by
  obtain ⟨e, he, rfl⟩ := List.mem_map.1 ((c.perm_edgesAt hn side).subset he')
  obtain ⟨he, hp⟩ := List.mem_filter.1 he
  obtain ⟨hnear, hpin⟩ := Bool.and_eq_true_iff.1 hp
  have hnear : e.near side = n := of_decide_eq_true hnear
  obtain ⟨pin, hpin⟩ := Option.isSome_iff_exists.1 hpin
  obtain ⟨y, hy, hfar, ho, hmem⟩ := c.exists_entry hn he hnear
  refine ⟨⟨e.source, e.target, e.data.id, pin⟩,
    Draft.mem_labels.2 ⟨e, he, rfl, rfl, by rw [← hpin]⟩, ?_⟩
  cases side with
  | input => exact ⟨hnear, rfl, rfl, y, hy, hfar, ho, hmem⟩
  | output => exact ⟨hnear, rfl, rfl, y, hy, hfar, ho, hmem⟩

/-- An edge without a pin was one before. -/
theorem exists_bareAt {n : NodeId} {side : Side} {e' : Edge Link}
    (he' : e' ∈ AnnotatedGraph.edgesAt (shownGraph (trim c.reified)) n side)
    (hpin : e'.data.pin = none) :
    ∃ o, e'.data.id = some o ∧ Draft.BareAt c.reified side n o := by
  obtain ⟨he', hnear⟩ := List.mem_filter.1 he'
  obtain ⟨e, he, rfl⟩ := mem_edges_shownGraph.1 he'
  have hdata : e.data = ⟨e.data.id, none⟩ := congrArg (Thread.mk e.data.id) hpin
  have hmem := c.trimmed.sub e he
  refine ⟨e.data.id, rfl, ?_⟩
  cases side with
  | input => exact ⟨e.source, e, hmem, rfl, of_decide_eq_true hnear, hdata⟩
  | output => exact ⟨e.target, e, hmem, of_decide_eq_true hnear, rfl, hdata⟩

/-- The edges with pins at an action spell its table in the end. -/
theorem spelled (hf : f.Flat) (hone : f.SingleSource)
    (hspares : s.Spares (Draft.afterDraft f s) f.references) {n : NodeId}
    (hn : Draft.isNotedNode c.collapsed.graph n = true) (side : Side) :
    Draft.Spelled c.collapsed c.reified side n := by
  have hs := c.collapses.shaped
  have hdefinite := (c.collapses.sole (c.issued.sole c.draftOf hf hone hspares)).definite hs
  exact Draft.reify_pinned hs.tidy hdefinite c.collapses.sound hs.pin_eq c.reify_eq n
    (Draft.mem_of_isNotedNode hn) side

/-- There is one edge for each pin of a call with a note. -/
theorem exists_edges {n : NodeId} (hn : Draft.isNotedNode c.collapsed.graph n = true) {side : Side}
    (hspelled : Draft.Spelled c.collapsed c.reified side n) {s₀ : Supply} {x : Flow.Call}
    (hlists : c.drafted.Lists s₀ n x) :
    ∃ es, es.Perm ((AnnotatedGraph.edgesAt (shownGraph (trim c.reified)) n side).filter
        fun e => e.data.pin.isSome) ∧
      List.Forall₂ (fun p e => e.data.pin = some (Draft.shown p)) (Draft.ports side x.pins) es ∧
      ((Draft.ports side x.pins).zip es).map (fun x => (x.1.2.id, x.2.data.id)) =
        (((Draft.ports side x.pins).map fun p => p.2.id).zip
          (Draft.identities (Draft.supplyAt s₀ x side)
            ((Draft.ports side x.pins).map fun p => p.2.id))).map fun x => (x.1, some x.2) := by
  have hsame : c.collapsed.listed side n = c.drafted.listed side n := by
    rw [c.collapses.passes.keeps.eq_with]
    cases side <;> rfl
  have hlabels := Draft.map_labels c.reified n side
  rw [hspelled.labels_eq, hsame] at hlabels
  have hkeys := ((hlists side).2.symm.map fun x => (some x.1, some x.2)).trans
    (.of_eq hlabels)
  have hshown := ((c.perm_edgesAt hn side).symm.map fun e => (e.data.id, e.data.pin))
  rw [List.map_map] at hshown
  obtain ⟨es, hperm, hmap⟩ := exists_perm_of_map (hkeys.trans hshown)
  refine ⟨es, hperm, Draft.aligned_of_map ?_ hmap⟩
  rw [Draft.length_identities, List.length_map]

/-! ## Which entities

Whether two pins have one entity is told by their labels, and whether their labels have one object
by the draft. -/

/-- Two pins of a call get the same object just if they refer to the same one. -/
theorem pairwise_ports (hf : f.Flat)
    (hspares : s.Spares (Draft.afterDraft f s) f.references) {n : NodeId} {x : Flow.Call}
    (hx : f.graph.node? n = some (.call x)) (hnote : x.note.isSome = true) (side : Side)
    {s₀ : Supply} (hle : s.next ≤ s₀.next)
    (hle' : (Draft.afterCall s₀ x).next ≤ c.issuedAt.next) {es : List (Edge Link)}
    (hids : ((Draft.ports side x.pins).zip es).map (fun x => (x.1.2.id, x.2.data.id)) =
      (((Draft.ports side x.pins).map fun p => p.2.id).zip
        (Draft.identities (Draft.supplyAt s₀ x side)
          ((Draft.ports side x.pins).map fun p => p.2.id))).map fun x => (x.1, some x.2)) :
    ((Draft.ports side x.pins).zip es).Pairwise fun x y =>
      (x.2.data.id = y.2.data.id ↔ x.1.2.id.isSome ∧ x.1.2.id = y.1.2.id) := by
  obtain ⟨hfrom, hto⟩ := Draft.next_supplyAt s₀ hnote side
  have hnext := c.issued.next_le
  have hall := Draft.identities_pairwise (hspares.mono (Nat.le_trans hle hfrom)
    (Nat.le_trans hto (by simp only [Draft.afterDraft]; omega))) fun o ho => by
      obtain ⟨p, hp, heq⟩ := List.mem_map.1 ho
      exact Draft.mem_references_of_port (hf.wellFormed.node?_eq_some_iff.1 hx) hp heq
  have hmapped : (((Draft.ports side x.pins).zip es).map
      fun x => (x.1.2.id, x.2.data.id)).Pairwise
        fun a b => (a.2 = b.2 ↔ a.1.isSome ∧ a.1 = b.1) := by
    rw [hids, List.pairwise_map]
    exact hall.imp fun h => by simpa using h
  exact List.pairwise_map.1 hmapped

/-- The pins of a call with a note become edges. -/
theorem exists_spells (hf : f.Flat) (hone : f.SingleSource)
    (hspares : s.Spares (Draft.afterDraft f s) f.references) {n : NodeId} {x : Flow.Call}
    (hx : f.graph.node? n = some (.call x)) (hnote : x.note.isSome = true) (side : Side) :
    ∃ es, AnnotatedGraph.Spells (shownGraph (trim c.reified)) n side (Draft.ports side x.pins)
      es := by
  have hn : Draft.isNotedNode c.collapsed.graph n = true :=
    c.isNotedNode_collapsed (by rw [Draft.isNoted, hx]; exact hnote)
  obtain ⟨s₀, hle, hle', hlists⟩ := c.issued.lists n x hx hnote
  have hspelled := c.spelled hf hone hspares hn side
  obtain ⟨es, hperm, hpins, hids⟩ := c.exists_edges hn hspelled hlists
  have hlabel := fun e (he : e ∈ es) => c.exists_label hn (hperm.subset he)
  have hpairs := c.pairwise_ports hf hspares hx hnote side hle hle' hids
  refine ⟨es, hperm, List.forall₂_iff_zip.2 ⟨hpins.length_eq, fun {p e} hpe => ?_⟩,
    hpairs.imp_of_mem fun {a b} ha hb hab => Iff.trans ?_ hab, fun e he hnone e' he' heq => ?_⟩
  · obtain ⟨l, hl, -, -, ho, y, hy, hfar, hobject, hmem⟩ := hlabel e (List.of_mem_zip hpe).2
    refine ⟨List.forall₂_zip hpins hpe, l.object, ho, ?_, ?_⟩
    · rw [← hfar, ← hobject]
      exact c.shows_of_mem hy hmem
    · have hm := List.mem_map_of_mem (f := fun x => (x.1.2.id, x.2.data.id)) hpe
      rw [hids] at hm
      obtain ⟨⟨o?, o⟩, hm, heq⟩ := List.mem_map.1 hm
      obtain ⟨rfl, hsome⟩ := Prod.mk.inj heq
      rw [← ho, ← hsome]
      exact (Draft.mem_zip_identities hm).symm.imp_left And.left
  · -- the entity tells the object, and the object the entity
    obtain ⟨l, hl, hnear, hlfar, ho, y, hy, hfar, hobject, -⟩ := hlabel _ (List.of_mem_zip ha).2
    obtain ⟨l', hl', hnear', hlfar', ho', y', hy', hfar', hobject', -⟩ :=
      hlabel _ (List.of_mem_zip hb).2
    constructor
    · intro heq
      obtain rfl := c.reifies.eq_of_entity hy hy' (hfar.trans (heq.trans hfar'.symm))
      rw [ho, ho', ← hobject, ← hobject']
    · intro heq
      rw [← hlfar, ← hlfar']
      refine hspelled.far_eq l hl l' hl' hnear hnear' (Option.some.inj ?_)
      rw [← ho, ← ho', heq]
  · obtain ⟨o, ho, hbare⟩ := c.exists_bareAt he hnone
    obtain ⟨l, hl, hnear, -, ho', -⟩ := hlabel e' he'
    obtain rfl : l.object = o := Option.some.inj (by rw [← ho', ← heq, ho])
    refine hspelled.not_bare l.object ?_ hbare
    refine (c.collapses.shaped.tidy.tabled side n).mem_keys_iff.2 ⟨l.pin, ?_⟩
    rw [← hspelled.labels_eq]
    exact List.mem_map_of_mem (List.mem_filter.2 ⟨hl, decide_eq_true hnear⟩)

end Course

end Annotated

/-- Where all edges with one object into one call come from one source, the pins with a place in the
note of a call are its edges with labels in the annotated graph. -/
theorem AnnotatedGraph.ofFlow_ports {f : Flow} (h : f.Flat) (hin : f.input ∈ f.graph.nodeIds)
    (hout : f.output ∈ f.graph.nodeIds) (hone : f.SingleSource) {s : Supply}
    (hb : f.graph.Before s) (hs : s.Spares (Draft.afterDraft f s) f.references) :
    ∃ g s', AnnotatedGraph.ofFlow f s = .ok (g, s') ∧
      ∀ n c, f.graph.node? n = some (.call c) → c.note.isSome = true → ∀ side,
        ∃ es, g.Spells n side (Draft.ports side c.pins) es := by
  obtain ⟨c, hok⟩ := exists_course h hin hout hb
  exact ⟨_, c.last, hok, fun n x hx hnote side => c.exists_spells h hone hs hx hnote side⟩

/-- The second call takes in what the first one hands over and an object without an identity. -/
theorem AnnotatedGraph.ofFlow_twoCalls_ports :
    ∃ g s', AnnotatedGraph.ofFlow Flow.twoCalls ⟨7⟩ = .ok (g, s') ∧ ∃ es, g.Spells ⟨3⟩ .input
      [("u", { side := .input, position := some 1, id := some ⟨"b"⟩ }),
        ("v", { side := .input, position := some 2 })] es := by
  have hone : Flow.twoCalls.SingleSource := by
    unfold Flow.SingleSource
    decide
  have hspares : Supply.Spares ⟨7⟩ (Draft.afterDraft Flow.twoCalls ⟨7⟩)
      Flow.twoCalls.references := by
    refine ⟨by decide, ?_⟩
    have hunused : ∀ i, i < 15 → 7 ≤ i →
        (Supply.object ⟨i⟩).1 ∉ Flow.twoCalls.references := by decide +kernel
    exact fun i hi hi' => hunused i hi' hi
  obtain ⟨g, s', hok, hports⟩ := AnnotatedGraph.ofFlow_ports Flow.flat_twoCalls (by decide)
    (by decide) hone (s := ⟨7⟩) ⟨by decide, by decide⟩ hspares
  exact ⟨g, s', hok, hports ⟨3⟩ _ rfl rfl .input⟩

end ObjectFlow
