import ObjectFlow.Proofs.Annotated.Collapsed
import ObjectFlow.Proofs.Annotated.Ledger
import ObjectFlow.Proofs.Annotated.Trim

/-!
# Neighbours of actions and entities

Trimming looks for dead ends only once. That it leaves none rests on the collapse: an action without
a note always has a neighbour that trimming spares (`exists_grounded_before`,
`exists_grounded_behind`). Which actions and entities are left can be told from the collapsed draft
(`Reified.mem_trimmed_action`, `Reified.mem_trimmed_entity`).

When an idle action goes, the entities beside it may become dead ends, and when these go the next
action may, and so on. But two neighbouring actions without a note, of which the one has nothing in
front of it, are safe to be made one: nothing leads to the pair but through the second. In a draft
where no two can become one there is no such pair, so what the first round takes away has no
consequences beyond the entities of the second.
-/

namespace ObjectFlow

open ObjectFlow.Graph

namespace Annotated.Draft

/-! ## Neighbours in a collapsed draft

A neighbour is grounded if it has a note, or has a neighbour itself on its other side. Of the
neighbours of one action the last in the order, or the first, is taken, so that there is no second
way to it. -/

section Grounded

variable {d : Draft} {input output : NodeId} {x : NodeId}

/-- An action without a note between others is none of the markers. -/
theorem Shaped.isCollapsible (hs : d.Shaped input output) (hx : x ∈ d.graph.nodeIds)
    (hplain : isNotedNode d.graph x = false) (hi : x ≠ input) (ho : x ≠ output) :
    d.isCollapsible x = true := by
  obtain ⟨y, hn⟩ := exists_node?_of_mem hx
  obtain ⟨a, rfl⟩ := hs.action x y hn
  refine isCollapsible_iff.2 ⟨by simp [hs.markers_eq, hi, ho], _, hn, ?_⟩
  rw [isNotedNode, hn] at hplain
  simp only [Node.isPlain, hplain]
  rfl

/--
Of the actions in front of one without a note, one has a note, is not the first on its way, or is
the marker for what comes from outside: if none were, they would have become one with it.
-/
theorem exists_grounded_before (hw : d.graph.WellFormed) (ha : d.graph.Acyclic)
    (hs : d.Shaped input output) (hset : ∀ y x, ¬ d.Mergeable y x)
    (hx : d.isCollapsible x = true) {u : NodeId} (hu : d.graph.Step u x) :
    ∃ w, d.graph.Step w x ∧
      (isNotedNode d.graph w = true ∨ (∃ z, d.graph.Step z w) ∨ w = input) := by
  by_contra hno
  push Not at hno
  have hlast : ∀ {z}, d.graph.Reaches z x → d.graph.Step z x := by
    intro z hr
    obtain ⟨y, hzy, hyx⟩ := Relation.TransGen.tail'_iff.1 hr
    rcases Relation.reflTransGen_iff_eq_or_transGen.1 hzy with rfl | hzy
    · exact hyx
    · obtain ⟨w, -, hwy⟩ := Relation.TransGen.tail'_iff.1 hzy
      exact absurd hwy ((hno y hyx).2.1 w)
  obtain ⟨hplain, hnone, hin⟩ := hno u hu
  have hout : u ≠ output := by
    obtain ⟨o, hc⟩ := step_iff_carries.1 hu
    exact hs.source_ne u x o hc
  have hcol := hs.isCollapsible (hw.step_mem hu).1 (by simpa using hplain) hin hout
  refine hset u x ⟨?_, hcol, hx, hu, fun n hun hne hr => ?_, fun a b hna _ hax _ => ?_⟩
  · rintro rfl
    exact ha _ hu.reaches
  · exact (hno n (hlast hr)).2.1 u hun
  · exact absurd hna (by simpa using (hno a (hlast hax)).1)

/--
Of the actions behind one without a note, one has a note or is not the last on its way.
-/
theorem exists_grounded_behind (hw : d.graph.WellFormed) (ha : d.graph.Acyclic)
    (hs : d.Shaped input output) (hset : ∀ y x, ¬ d.Mergeable y x)
    (hx : d.isCollapsible x = true) {v : NodeId} (hv : d.graph.Step x v) :
    ∃ w, d.graph.Step x w ∧ (isNotedNode d.graph w = true ∨ ∃ z, d.graph.Step w z) := by
  by_contra hno
  push Not at hno
  have hfirst : ∀ {z}, d.graph.Reaches x z → d.graph.Step x z := by
    intro z hr
    obtain ⟨y, hxy, rfl | hyz⟩ := reaches_iff_head.1 hr
    · exact hxy
    · obtain ⟨w, hyw, -⟩ := reaches_iff_head.1 hyz
      exact absurd hyw ((hno y hxy).2 w)
  obtain ⟨o, hc⟩ := step_iff_carries.1 hv
  obtain ⟨hplain, hnone⟩ := hno v hv
  obtain ⟨hmark, z, hz, hxplain⟩ := isCollapsible_iff.1 hx
  rw [hs.markers_eq, List.mem_cons, List.mem_singleton, not_or] at hmark
  have hout : v ≠ output := by
    rintro rfl
    rcases hs.left x o hc with rfl | hnote
    · exact hmark.1 rfl
    · rw [isCollapsible_of_isNotedNode hnote] at hx
      cases hx
  have hcol := hs.isCollapsible (hw.step_mem hv).2 (by simpa using hplain)
    (hs.target_ne x v o hc) hout
  refine hset x v ⟨?_, hx, hcol, hv, fun n hxn hne hr => ?_, fun a b _ hnb _ hxb => ?_⟩
  · rintro rfl
    exact ha _ hv.reaches
  · obtain ⟨w, hnw, -⟩ := reaches_iff_head.1 hr
    exact (hno n hxn).2 w hnw
  · exact absurd hnb (by simpa using (hno b (hfirst hxb)).1)

end Grounded

/-! ## Actions and entities

The graph with entities is known by the ledger. An entity has one action in front of it or none, and
is followed by actions that take its object. -/

section Reified

variable {d : Draft} {L : Ledger} {r : Graph Node Thread} {s : Supply} {input output : NodeId}

/-- An edge leads from an action to its entity, from there to where the draft has the object go, or
from an entity to the action it was put in front of. -/
theorem Reified.step_iff (hr : Reified d L r s) {u v : NodeId} : r.Step u v ↔
    (∃ o, ⟨u, .output, o, v⟩ ∈ L) ∨ (∃ o w, ⟨w, .output, o, u⟩ ∈ L ∧ Carries d.graph w v o) ∨
      ∃ o, ⟨v, .input, o, u⟩ ∈ L := by
  rw [step_iff_carries]
  simp only [hr.carries_iff, exists_or]

/-- A node is an action of the draft or an entity of the ledger. -/
theorem Reified.node_cases (hr : Reified d L r s) (hs : d.Shaped input output) {n : NodeId}
    {x : Node} (hx : r.node? n = some x) :
    (n ∈ d.graph.nodeIds ∧ d.graph.node? n = some x ∧ ∃ a, x = .action a) ∨
      n ∉ d.graph.nodeIds ∧ ∃ e y, x = .entity e ∧ y ∈ L ∧ y.entity = n ∧
        e.profile.id = some y.object := by
  by_cases hn : n ∈ d.graph.nodeIds
  · obtain ⟨z, hd⟩ := exists_node?_of_mem hn
    obtain ⟨a, rfl⟩ := hs.action n z hd
    cases hx.symm.trans (hr.action n a hd)
    exact .inl ⟨hn, hd, a, rfl⟩
  · obtain ⟨y, hy, rfl⟩ := ((hr.mem_iff n).1 (mem_nodeIds_of_node? hx)).resolve_left hn
    obtain ⟨e, he, hid⟩ := hr.named y hy
    cases hx.symm.trans he
    exact .inr ⟨hn, e, y, rfl, hy, rfl, hid⟩

/-- Actions have their notes as in the draft. -/
theorem Reified.isNotedNode_eq (hr : Reified d L r s) (hs : d.Shaped input output) {n : NodeId}
    (hn : n ∈ d.graph.nodeIds) : isNotedNode r n = isNotedNode d.graph n := by
  obtain ⟨z, hd⟩ := exists_node?_of_mem hn
  obtain ⟨a, rfl⟩ := hs.action n z hd
  rw [isNotedNode, isNotedNode, hd, hr.action n a hd]

/-- Every edge joins an action and an entity. -/
theorem Reified.step_cases (hr : Reified d L r s) {u v : NodeId} (h : r.Step u v) :
    (u ∈ d.graph.nodeIds ∧ ∃ o, ⟨u, .output, o, v⟩ ∈ L) ∨
      v ∈ d.graph.nodeIds ∧ ∃ y ∈ L, y.entity = u := by
  rcases hr.step_iff.1 h with ⟨o, hm⟩ | ⟨o, w, hm, hc⟩ | ⟨o, hm⟩
  · exact .inl ⟨hr.action_mem _ hm, o, hm⟩
  · exact .inr ⟨(hr.mem_of_carries hc).2, _, hm, rfl⟩
  · exact .inr ⟨hr.action_mem _ hm, _, hm, rfl⟩

/-- Only an action gives out an entity. -/
theorem Reified.producer (hr : Reified d L r s) {y : Entry} (hy : y ∈ L) {u : NodeId}
    (h : r.Step u y.entity) : y.side = .output ∧ y.action = u := by
  rcases hr.step_cases h with ⟨-, o, hm⟩ | ⟨hm, -⟩
  · rw [← hr.eq_of_entity hm hy rfl]
    exact ⟨rfl, rfl⟩
  · exact absurd hm (hr.entity_new y hy)

/-- The neighbours of an entity are actions. -/
theorem Reified.step_to_entity (hr : Reified d L r s) {y : Entry} (hy : y ∈ L) {u : NodeId}
    (h : r.Step u y.entity) : u ∈ d.graph.nodeIds := (hr.producer hy h).2 ▸ hr.action_mem y hy

/-- What an entity leads to is an action. -/
theorem Reified.step_from_entity (hr : Reified d L r s) {y : Entry} (hy : y ∈ L) {v : NodeId}
    (h : r.Step y.entity v) : v ∈ d.graph.nodeIds := by
  rcases hr.step_cases h with ⟨hm, -⟩ | ⟨hm, -⟩
  · exact absurd hm (hr.entity_new y hy)
  · exact hm

/-- What goes into an action without a note comes through an entity behind another one. -/
theorem Reified.step_into_plain (hr : Reified d L r s) (hs : d.Shaped input output) {x n : NodeId}
    (hx : x ∈ d.graph.nodeIds) (hplain : isNotedNode d.graph x = false) (h : r.Step n x) :
    ∃ w, d.graph.Step w x ∧ r.Step w n := by
  rcases hr.step_iff.1 h with ⟨o, hm⟩ | ⟨o, w, hm, hc⟩ | ⟨o, hm⟩
  · exact absurd hx (hr.entity_new _ hm)
  · exact ⟨w, hc.step, hr.step_iff.2 (.inl ⟨o, hm⟩)⟩
  · rcases hr.cause _ hm with hk | ⟨hside, -⟩
    · rw [show d.listed .input x = [] from hs.listed_eq .input x hplain] at hk
      cases hk
    · cases hside

/-- What comes out of an action without a note goes on to another one. -/
theorem Reified.step_from_plain (hr : Reified d L r s) (hs : d.Shaped input output) {x n : NodeId}
    (hx : x ∈ d.graph.nodeIds) (hplain : isNotedNode d.graph x = false) (h : r.Step x n) :
    ∃ v, d.graph.Step x v ∧ r.Step n v := by
  rcases hr.step_cases h with ⟨-, o, hm⟩ | ⟨-, y, hy, rfl⟩
  · rcases hr.cause _ hm with hk | ⟨-, v, hc⟩
    · rw [show d.listed .output x = [] from hs.listed_eq .output x hplain] at hk
      cases hk
    · exact ⟨v, hc.step, hr.step_iff.2 (.inr (.inl ⟨o, x, hm, hc⟩))⟩
  · exact absurd hx (hr.entity_new y hy)

/-- Between two neighbours lies the entity of what the one hands to the other. -/
theorem Reified.exists_between (hr : Reified d L r s) {u v : NodeId} {o : ObjectId}
    (hc : Carries d.graph u v o) :
    ∃ n, ⟨u, .output, o, n⟩ ∈ L ∧ r.Step u n ∧ r.Step n v := by
  obtain ⟨n, hn⟩ := hr.complete u v o hc
  exact ⟨n, hn, hr.step_iff.2 (.inl ⟨o, hn⟩), hr.step_iff.2 (.inr (.inl ⟨o, u, hn, hc⟩))⟩

/-! ## What trimming spares

Each of the two rounds asks of a node whether it has neighbours, so the answers are given in terms
of steps. -/

variable {t : Graph Node Thread}

/-- Trimming spares an action with a note, and any other that has neighbours on both sides. -/
theorem Reified.mem_trimmed_action (hr : Reified d L r s) (hs : d.Shaped input output)
    (ht : Trimmed r t) {x : NodeId} (hx : x ∈ d.graph.nodeIds) : x ∈ t.nodeIds ↔
      isNotedNode d.graph x = true ∨ (∃ u, d.graph.Step u x) ∧ ∃ v, d.graph.Step x v := by
  obtain ⟨z, hn⟩ := exists_node?_of_mem hx
  obtain ⟨a, rfl⟩ := hs.action x z hn
  have hstray : isStray (prune r (isIdle r)) x (.action a) = false := rfl
  have hplain : (Node.action a).isPlain = !isNotedNode d.graph x := by
    rw [isNotedNode, hn]
    rfl
  rw [ht.mem_iff (hr.action x a hn), and_iff_left hstray, ← Bool.not_eq_true, isIdle_iff, hplain]
  cases hnoted : isNotedNode d.graph x with
  | true => simp
  | false =>
    have hin : (∃ u, r.Step u x) ↔ ∃ u, d.graph.Step u x := by
      constructor
      · rintro ⟨n, h⟩
        obtain ⟨w, hw, -⟩ := hr.step_into_plain hs hx hnoted h
        exact ⟨w, hw⟩
      · rintro ⟨u, h⟩
        obtain ⟨o, hc⟩ := step_iff_carries.1 h
        obtain ⟨n, -, -, hn⟩ := hr.exists_between hc
        exact ⟨n, hn⟩
    have hout : (∃ v, r.Step x v) ↔ ∃ v, d.graph.Step x v := by
      constructor
      · rintro ⟨n, h⟩
        obtain ⟨w, hw, -⟩ := hr.step_from_plain hs hx hnoted h
        exact ⟨w, hw⟩
      · rintro ⟨v, h⟩
        obtain ⟨o, hc⟩ := step_iff_carries.1 h
        obtain ⟨n, -, hn, -⟩ := hr.exists_between hc
        exact ⟨n, hn⟩
    rw [← hin, ← hout]
    simp

/-- When the idle actions are gone, the other actions are as they will be. -/
theorem Reified.mem_unidle (hr : Reified d L r s) (hs : d.Shaped input output) (ht : Trimmed r t)
    {n : NodeId} (hn : n ∈ d.graph.nodeIds) :
    n ∈ (prune r (isIdle r)).nodeIds ↔ n ∈ t.nodeIds := by
  obtain ⟨z, hd⟩ := exists_node?_of_mem hn
  obtain ⟨a, rfl⟩ := hs.action n z hd
  have hx := hr.action n a hd
  rw [ht.mem_iff hx, and_iff_left (show isStray _ n (.action a) = false from rfl)]
  constructor
  · intro hm
    obtain ⟨y, hy⟩ := exists_node?_of_mem hm
    obtain ⟨hy, hidle⟩ := (node?_prune hr.sound.wellFormed).1 hy
    cases hx.symm.trans hy
    exact hidle
  · exact fun hidle => mem_nodeIds_of_node? ((node?_prune hr.sound.wellFormed).2 ⟨hx, hidle⟩)

/-- Actions have their notes when the idle ones are gone. -/
theorem Reified.isNotedNode_unidle (hr : Reified d L r s) (hs : d.Shaped input output) {n : NodeId}
    (hn : n ∈ d.graph.nodeIds) (hm : n ∈ (prune r (isIdle r)).nodeIds) :
    isNotedNode (prune r (isIdle r)) n = isNotedNode d.graph n := by
  obtain ⟨x, hx⟩ := exists_node?_of_mem hm
  rw [← hr.isNotedNode_eq hs hn, isNotedNode, isNotedNode, hx,
    ((node?_prune hr.sound.wellFormed).1 hx).1]

/--
Trimming spares an entity that a spared action gives out or one with a note takes in, if a spared
action takes it in or one with a note gives it out.
-/
theorem Reified.mem_trimmed_entity (hr : Reified d L r s) (hs : d.Shaped input output)
    (ht : Trimmed r t) {y : Entry} (hy : y ∈ L) : y.entity ∈ t.nodeIds ↔
      ((∃ u ∈ t.nodeIds, r.Step u y.entity) ∨
        ∃ v, r.Step y.entity v ∧ isNotedNode d.graph v = true) ∧
      ((∃ v ∈ t.nodeIds, r.Step y.entity v) ∨
        ∃ u, r.Step u y.entity ∧ isNotedNode d.graph u = true) := by
  obtain ⟨e, he, -⟩ := hr.named y hy
  have hw := hr.sound.wellFormed
  have hmem : y.entity ∈ (prune r (isIdle r)).nodeIds :=
    mem_nodeIds_of_node? ((node?_prune hw).2 ⟨he, rfl⟩)
  have hstays : ∀ {n}, n ∈ d.graph.nodeIds → isNotedNode d.graph n = true →
      n ∈ (prune r (isIdle r)).nodeIds := fun hn h =>
    (hr.mem_unidle hs ht hn).2 ((hr.mem_trimmed_action hs ht hn).2 (.inl h))
  -- The neighbours of an entity are actions, of which the first round leaves just those left.
  have hin : ∀ u, (prune r (isIdle r)).Step u y.entity ↔ u ∈ t.nodeIds ∧ r.Step u y.entity := by
    intro u
    rw [step_prune hw, and_iff_left hmem, and_comm]
    exact and_congr_left fun h => hr.mem_unidle hs ht (hr.step_to_entity hy h)
  have hout : ∀ v, (prune r (isIdle r)).Step y.entity v ↔ v ∈ t.nodeIds ∧ r.Step y.entity v := by
    intro v
    rw [step_prune hw, and_iff_right hmem, and_comm]
    exact and_congr_left fun h => hr.mem_unidle hs ht (hr.step_from_entity hy h)
  have hnin : (∃ u, (prune r (isIdle r)).Step u y.entity ∧
      isNotedNode (prune r (isIdle r)) u = true) ↔
      ∃ u, r.Step u y.entity ∧ isNotedNode d.graph u = true := by
    refine exists_congr fun u => ⟨fun ⟨h, hn⟩ => ?_, fun ⟨h, hn⟩ => ?_⟩
    · obtain ⟨h, hu, -⟩ := (step_prune hw).1 h
      exact ⟨h, (hr.isNotedNode_unidle hs (hr.step_to_entity hy h) hu) ▸ hn⟩
    · have hu := hstays (hr.step_to_entity hy h) hn
      exact ⟨(step_prune hw).2 ⟨h, hu, hmem⟩,
        (hr.isNotedNode_unidle hs (hr.step_to_entity hy h) hu).trans hn⟩
  have hnout : (∃ v, (prune r (isIdle r)).Step y.entity v ∧
      isNotedNode (prune r (isIdle r)) v = true) ↔
      ∃ v, r.Step y.entity v ∧ isNotedNode d.graph v = true := by
    refine exists_congr fun v => ⟨fun ⟨h, hn⟩ => ?_, fun ⟨h, hn⟩ => ?_⟩
    · obtain ⟨h, -, hv⟩ := (step_prune hw).1 h
      exact ⟨h, (hr.isNotedNode_unidle hs (hr.step_from_entity hy h) hv) ▸ hn⟩
    · have hv := hstays (hr.step_from_entity hy h) hn
      exact ⟨(step_prune hw).2 ⟨h, hmem, hv⟩,
        (hr.isNotedNode_unidle hs (hr.step_from_entity hy h) hv).trans hn⟩
  rw [ht.mem_iff he, and_iff_right (show isIdle r y.entity (.entity e) = false from rfl),
    ← Bool.not_eq_true, isStray_iff, ← hnin, ← hnout]
  simp only [hin, hout, Node.isEntity, Node.isAction, Bool.not_false, true_and, not_or,
    not_and_or, not_forall, not_not, Bool.not_eq_false, exists_prop]

end Reified

end Annotated.Draft

end ObjectFlow
