import ObjectFlow.Proofs.Annotated.Exhaustive
import ObjectFlow.Proofs.Annotated.Reify

/-!
# The shape of collapsed drafts

What a draft has between its two markers it still has when its actions are collapsed
(`collapse_shaped`): what comes from outside is taken by some action with a note, what is left was
given out by one, and edges between actions that cannot be collapsed are still there.

Each of these is an invariant of the loop: one merger keeps it (`Shaped.merged`, `Sole.merged`,
`Passes.merged`), for which it is enough to know what edges carry after a contraction
(`carries_merged`), and that markers and actions with notes are neither of the two actions
(`Mergeable.spared`). At the start they hold of the draft of a flat graph (`DraftOf.shaped`). That
what comes from outside is taken by an action with a note is there because edges at the markers are
only drafted where they count.
-/

namespace ObjectFlow

/-- A marker has no note. -/
theorem Flow.Flat.ne_of_isNoted {f : Flow} (h : f.Flat) {n : NodeId}
    (hn : Annotated.Draft.isNoted f n = true) : n ≠ f.input ∧ n ≠ f.output := by
  obtain ⟨c, hc, -⟩ := Annotated.Draft.exists_call_of_isNoted hn
  exact (h.call_iff n _ hc).1 rfl

namespace Annotated.Draft

open ObjectFlow.Graph

/-- A draft between a marker for what comes from outside and one for what is left. -/
structure Shaped (d : Draft) (input output : NodeId) : Prop where
  markers_eq : d.markers = [input, output]
  marker_mem : ∀ n ∈ d.markers, n ∈ d.graph.nodeIds
  marker_plain : ∀ n ∈ d.markers, isNotedNode d.graph n = false
  action : ∀ n x, d.graph.node? n = some x → ∃ a, x = .action a
  pin_eq : ∀ e ∈ d.graph.edges, e.data.pin = none
  target_ne : ∀ u v o, Carries d.graph u v o → v ≠ input
  source_ne : ∀ u v o, Carries d.graph u v o → u ≠ output
  taken : ∀ v o, Carries d.graph input v o →
    ∃ w, isNotedNode d.graph w = true ∧ Carries d.graph input w o
  left : ∀ u o, Carries d.graph u output o → u = input ∨ isNotedNode d.graph u = true
  listed_eq : ∀ side n, isNotedNode d.graph n = false → d.listed side n = []
  tidy : d.Tidy

/-- An action with a note gets every object from one place. -/
def Sole (d : Draft) : Prop :=
  ∀ v, isNotedNode d.graph v = true → ∀ u u' o, Carries d.graph u v o → Carries d.graph u' v o →
    u = u'

/-- A marker cannot be collapsed. -/
theorem isCollapsible_of_mem_markers {d : Draft} {n : NodeId} (h : n ∈ d.markers) :
    d.isCollapsible n = false := by
  simp [isCollapsible, h]

section Merged

variable {d : Draft} {c : Graph Unit Unit} {s : Supply} {parent child : NodeId}

/-- An edge of the merged graph carries what an edge between the images of its ends carried. -/
theorem carries_merged (h : d.graph.WellFormed) {hub : NodeId}
    (hc : d.graph.Contractible [parent, child] hub) {u' v' : NodeId} {o : ObjectId} :
    Carries (d.merged parent child hub).graph u' v' o ↔ ∃ u v, Carries d.graph u v o ∧
      ¬ (u ∈ [parent, child] ∧ v ∈ [parent, child]) ∧ image [parent, child] hub u = u' ∧
      image [parent, child] hub v = v' := by
  constructor
  · rintro ⟨e', he', hs, ht, ho⟩
    obtain ⟨e, he, hm, hs, ht, hd⟩ :=
      (exists_edge_contracted h hc _ (t := e'.data)).1 ⟨e', he', hs, ht, rfl⟩
    exact ⟨_, _, ⟨e, he, rfl, rfl, by rw [hd, ho]⟩, hm, hs, ht⟩
  · rintro ⟨u, v, ⟨e, he, rfl, rfl, rfl⟩, hm, hs, ht⟩
    obtain ⟨e', he', hs, ht, hd⟩ := (exists_edge_contracted h hc (.action { collapsed := true })).2
      ⟨e, he, hm, hs, ht, rfl⟩
    exact ⟨e', he', hs, ht, by rw [hd]⟩

/-- An action that is not collapsed is none of the three that a merger is about. -/
theorem Mergeable.spared (hm : d.Mergeable parent child) (hb : d.graph.Before s) {n : NodeId}
    (hn : d.isCollapsible n = false) (hmem : n ∈ d.graph.nodeIds) :
    n ∉ [parent, child] ∧ n ≠ s.node.1 :=
  ⟨hm.not_mem hn, fun heq => (hm.contractible hb).hub_new (heq ▸ hmem)⟩

/-- An action with a note is a node. -/
theorem mem_of_isNotedNode {g : Graph Node Thread} {n : NodeId} (h : isNotedNode g n = true) :
    n ∈ g.nodeIds := by
  obtain ⟨x, hx, -⟩ := isNotedNode_iff.1 h
  exact mem_nodeIds_of_node? hx

/-- A node is the new action or was there. -/
theorem node?_merged (hb : d.graph.Before s) (hm : d.Mergeable parent child) {n : NodeId}
    {x : Node} (hx : (d.merged parent child s.node.1).graph.node? n = some x) :
    n = s.node.1 ∧ x = .action { collapsed := true } ∨ d.graph.node? n = some x := by
  have hcon := hm.contractible hb
  by_cases hn : n = s.node.1
  · subst hn
    have hhub := node?_hub_contracted hcon (.action { collapsed := true })
    exact .inl ⟨rfl, Option.some.inj (hx.symm.trans hhub)⟩
  · have hout := ((mem_nodeIds_contracted hcon _).1 (mem_nodeIds_of_node? hx)).resolve_left hn
    exact .inr ((node?_contracted _ hout.2 hn).symm.trans hx)

/-- A merger leaves which actions have notes. -/
theorem isNotedNode_merged (hb : d.graph.Before s) (hm : d.Mergeable parent child) (n : NodeId) :
    isNotedNode (d.merged parent child s.node.1).graph n = isNotedNode d.graph n := by
  refine Bool.eq_iff_iff.2 ⟨fun h => ?_, fun h => ?_⟩
  · obtain ⟨x, hx, hnoted⟩ := isNotedNode_iff.1 h
    rcases node?_merged hb hm hx with ⟨-, rfl⟩ | hx
    · cases hnoted
    · exact isNotedNode_iff.2 ⟨x, hx, hnoted⟩
  · obtain ⟨hout, hne⟩ := hm.spared hb (isCollapsible_of_isNotedNode h) (mem_of_isNotedNode h)
    obtain ⟨x, hx, hnoted⟩ := isNotedNode_iff.1 h
    exact isNotedNode_iff.2 ⟨x, (node?_contracted _ hout hne).trans hx, hnoted⟩

/-- A merger keeps the shape. -/
theorem Shaped.merged {input output : NodeId} (hs : d.Shaped input output)
    (h : d.Collapsing c s) (hm : d.Mergeable parent child) :
    (d.merged parent child s.node.1).Shaped input output := by
  have hcon := hm.contractible h.before
  -- No marker is merged, so what is at one after the merger was there before.
  have hspared : ∀ n ∈ d.markers, n ∉ [parent, child] ∧ n ≠ s.node.1 := fun n hn =>
    hm.spared h.before (isCollapsible_of_mem_markers hn) (hs.marker_mem n hn)
  have hin := hspared input (by simp [hs.markers_eq])
  have hout := hspared output (by simp [hs.markers_eq])
  have hnoted := isNotedNode_merged h.before hm
  have hcarries : ∀ {u v o}, Carries (d.merged parent child s.node.1).graph u v o ↔ _ :=
    fun {_ _ _} => carries_merged h.wellFormed hcon
  refine
    { markers_eq := hs.markers_eq
      marker_mem := fun n hn => ?_
      marker_plain := fun n hn => (hnoted n).trans (hs.marker_plain n hn)
      action := fun n x hx => ?_
      pin_eq := fun e' he' => ?_
      target_ne := ?_
      source_ne := ?_
      taken := ?_
      left := ?_
      listed_eq := fun side n hn => hs.listed_eq side n ((hnoted n).symm.trans hn)
      tidy := ⟨hs.tidy.tabled, hs.tidy.profile_id⟩ }
  · exact (mem_nodeIds_contracted hcon _).2 (.inr ⟨hs.marker_mem n hn, (hspared n hn).1⟩)
  · rcases node?_merged h.before hm hx with ⟨-, rfl⟩ | hx
    · exact ⟨_, rfl⟩
    · exact hs.action n x hx
  · obtain ⟨e, he, -, -, -, hd⟩ := (exists_edge_contracted h.wellFormed hcon _).1
      ⟨e', he', rfl, rfl, rfl⟩
    rw [← hd]
    exact hs.pin_eq e he
  · rintro u' v' o hc rfl
    obtain ⟨u, v, hc, -, -, hv⟩ := hcarries.1 hc
    exact hs.target_ne u v o hc (eq_of_image hv hin.2).2
  · rintro u' v' o hc rfl
    obtain ⟨u, v, hc, -, hu, -⟩ := hcarries.1 hc
    exact hs.source_ne u v o hc (eq_of_image hu hout.2).2
  · intro v' o hc'
    obtain ⟨u, v, hc, -, hu, -⟩ := hcarries.1 hc'
    obtain ⟨-, rfl⟩ := eq_of_image hu hin.2
    obtain ⟨w, hw, hcw⟩ := hs.taken v o hc
    have hwout := hm.spared h.before (isCollapsible_of_isNotedNode hw) (mem_of_isNotedNode hw)
    exact ⟨w, (hnoted w).trans hw, hcarries.2 ⟨u, w, hcw, fun hmem => hin.1 hmem.1, hu,
      image_of_not_mem hwout.1⟩⟩
  · intro u' o hc'
    obtain ⟨u, v, hc, -, hu, hv⟩ := hcarries.1 hc'
    obtain ⟨-, rfl⟩ := eq_of_image hv hout.2
    rcases hs.left u o hc with rfl | hnote
    · exact .inl ((image_of_not_mem hin.1).symm.trans hu).symm
    · have huout := hm.spared h.before (isCollapsible_of_isNotedNode hnote)
        (mem_of_isNotedNode hnote)
      rw [image_of_not_mem huout.1] at hu
      exact .inr ((hnoted u').trans (hu ▸ hnote))

/-- A merger keeps what comes from one place. -/
theorem Sole.merged (hs : d.Sole) (h : d.Collapsing c s) (hm : d.Mergeable parent child) :
    (d.merged parent child s.node.1).Sole := by
  have hcon := hm.contractible h.before
  intro v' hv' u₁' u₂' o hc₁' hc₂'
  rw [isNotedNode_merged h.before hm] at hv'
  have hvout := hm.spared h.before (isCollapsible_of_isNotedNode hv') (mem_of_isNotedNode hv')
  obtain ⟨u₁, v₁, hc₁, -, hu₁, hv₁⟩ := (carries_merged h.wellFormed hcon).1 hc₁'
  obtain ⟨u₂, v₂, hc₂, -, hu₂, hv₂⟩ := (carries_merged h.wellFormed hcon).1 hc₂'
  obtain ⟨-, rfl⟩ := eq_of_image hv₁ hvout.2
  obtain ⟨-, rfl⟩ := eq_of_image hv₂ hvout.2
  rw [← hu₁, ← hu₂, hs _ hv' u₁ u₂ o hc₁ hc₂]

end Merged

/-! ## All mergers

What holds after one merger holds after any number of them. -/

/-- What one action that cannot be collapsed hands to another stays an edge between the two. -/
structure Passes (d d' : Draft) : Prop where
  keeps : d.Keeps d'
  carries : ∀ u v o, d.isCollapsible u = false → d.isCollapsible v = false →
    Carries d.graph u v o → Carries d'.graph u v o

theorem Passes.refl (d : Draft) : d.Passes d := ⟨.refl d, fun _ _ _ _ _ h => h⟩

/-- An action that cannot be collapsed still cannot be. -/
theorem Keeps.isCollapsible {d d' : Draft} (h : d.Keeps d') {n : NodeId}
    (hn : d.isCollapsible n = false) (hmem : n ∈ d.graph.nodeIds) :
    d'.isCollapsible n = false ∧ n ∈ d'.graph.nodeIds := by
  obtain ⟨x, hx⟩ := exists_node?_of_mem hmem
  have hx' := h.node?_eq n x hx hn
  have hm : d'.markers = d.markers := by rw [h.eq_with]
  refine ⟨?_, mem_nodeIds_of_node? hx'⟩
  unfold Draft.isCollapsible at hn ⊢
  rwa [hm, hx', ← hx]

/-- A merger passes on what is handed between actions that cannot be collapsed. -/
theorem Passes.merged {d₀ d : Draft} {c : Graph Unit Unit} {s : Supply} {parent child : NodeId}
    (hp : d₀.Passes d) (hw : d₀.graph.WellFormed) (h : d.Collapsing c s)
    (hm : d.Mergeable parent child) : d₀.Passes (d.merged parent child s.node.1) := by
  have hcon := hm.contractible h.before
  obtain ⟨-, -, -, -, -, -, -, hkeeps⟩ := h.step hm
  refine ⟨hp.keeps.trans hkeeps, fun u v o hu hv hc => ?_⟩
  have hmem := hw.step_mem hc.step
  obtain ⟨hu', hum⟩ := hp.keeps.isCollapsible hu hmem.1
  obtain ⟨hv', hvm⟩ := hp.keeps.isCollapsible hv hmem.2
  have huout := hm.spared h.before hu' hum
  exact (carries_merged h.wellFormed hcon).2 ⟨u, v, hp.carries u v o hu hv hc,
    fun hx => huout.1 hx.1, image_of_not_mem huout.1,
    image_of_not_mem (hm.spared h.before hv' hvm).1⟩

/-- Collapsing leaves a draft of the same shape in which no two neighbours can be made one. -/
structure Collapsed (d d' : Draft) (s : Supply) (input output : NodeId) : Prop where
  sound : Sound d'.graph s
  shaped : d'.Shaped input output
  passes : d.Passes d'
  sole : d.Sole → d'.Sole
  settled : ∀ y x, ¬ d'.Mergeable y x

/-- Collapsing keeps the shape, and leaves no neighbours that can be made one. -/
theorem collapse_shaped {d : Draft} {s : Supply} (h : Sound d.graph s) {input output : NodeId}
    (hs : d.Shaped input output) :
    ∃ d' s', d.collapse s = .ok (d', s') ∧ d.Collapsed d' s' input output := by
  obtain ⟨d', s', hok, hw, ha, hb, -, hset, hs', hp, hsole⟩ :=
    collapse_invariant (I := fun d' stack => Settled d' stack ∧ d'.Shaped input output ∧
      d.Passes d' ∧ (d.Sole → d'.Sole))
    { pass := fun hcol hnone hi => ⟨settled_invariant.pass hcol hnone hi.1, hi.2⟩
      merge := fun hcol hm hi => ⟨settled_invariant.merge hcol hm hi.1, hi.2.1.merged hcol hm,
        hi.2.2.1.merged h.wellFormed hcol hm, fun hx => (hi.2.2.2 hx).merged hcol hm⟩ }
    h.wellFormed h.acyclic h.before fun _ hall => ⟨settled_start hall, hs, .refl d, id⟩
  exact ⟨d', s', hok, ⟨hw, hb, ha⟩, hs', hp, hsole, fun y => hset y (by simp)⟩

/-! ## Drafts of flat flow graphs

The draft has an edge for each edge that counts: those between calls, those from outside with an
object that some call with a note takes from there, and those to the end from calls with notes. -/

section Drafts

variable {d : Draft} {f : Flow}

/-- An action has a note just if its call has. -/
theorem DraftOf.isNotedNode_eq (h : d.DraftOf f) (n : NodeId) :
    isNotedNode d.graph n = isNoted f n := by
  rw [isNotedNode, isNoted, h.node?_eq]
  cases hx : f.graph.node? n with
  | none => rfl
  | some x =>
    cases x with
    | call c => rfl
    | input => rfl
    | output => rfl

/-- An edge that counts carries its object. -/
theorem DraftOf.carries_of_mem (h : d.DraftOf f) {e : Edge Flow.Link} (he : e ∈ f.graph.edges)
    (hc : counts f e = true) {o : ObjectId} (ho : e.data.object.id = some o) :
    Carries d.graph e.source e.target o := by
  obtain ⟨t, ht, het⟩ := Outcome.exists_right_of_forall₂ h.drafts (List.mem_filter.2 ⟨he, hc⟩)
  exact ⟨t, ht, het.source_eq, het.target_eq, congrArg Thread.id (het.object_eq o ho)⟩

/-- What is carried is carried by an edge that counts. -/
theorem DraftOf.exists_of_carries (h : d.DraftOf f) {u v : NodeId} {o : ObjectId}
    (hc : Carries d.graph u v o) : ∃ e ∈ f.graph.edges, counts f e = true ∧ e.source = u ∧
      e.target = v ∧ ∀ o', e.data.object.id = some o' → o' = o := by
  obtain ⟨t, ht, rfl, rfl, rfl⟩ := hc
  obtain ⟨e, he, het⟩ := Outcome.exists_left_of_forall₂ h.drafts ht
  obtain ⟨he, hcounts⟩ := List.mem_filter.1 he
  exact ⟨e, he, hcounts, het.source_eq.symm, het.target_eq.symm, fun o' ho' =>
    (congrArg Thread.id (het.object_eq o' ho')).symm⟩

/-- An edge from outside counts if some call with a note takes the object from outside. -/
theorem counts_input {e : Edge Flow.Link} (hs : e.source = f.input) {o : ObjectId}
    (ho : e.data.object.id = some o) : counts f e = true ↔
      ∃ e' ∈ f.graph.edges, e'.source = f.input ∧ isNoted f e'.target = true ∧
        e'.data.object.id = some o := by
  rw [counts, if_pos hs, ho]
  simp only [wanted, List.contains_eq_mem, decide_eq_true_eq, List.mem_filterMap, List.mem_filter,
    Graph.mem_outEdges]
  constructor
  · rintro ⟨e', ⟨⟨he', hs'⟩, hn⟩, ho'⟩
    exact ⟨e', he', hs', hn, ho'⟩
  · rintro ⟨e', he', hs', hn, ho'⟩
    exact ⟨e', ⟨⟨he', hs'⟩, hn⟩, ho'⟩

/-- The draft of a flat graph has its markers, and what is said of them. -/
theorem DraftOf.shaped (h : d.DraftOf f) (hf : f.Flat) (hin : f.input ∈ f.graph.nodeIds)
    (hout : f.output ∈ f.graph.nodeIds) : d.Shaped f.input f.output := by
  have hids : d.graph.nodeIds = f.graph.nodeIds := by
    rw [Graph.nodeIds, h.nodes_eq, List.map_map]
    rfl
  have hmarker : ∀ n, n = f.input ∨ n = f.output → isNoted f n = false := fun n hn =>
    Bool.eq_false_iff.2 fun hnoted =>
      hn.elim (hf.ne_of_isNoted hnoted).1 (hf.ne_of_isNoted hnoted).2
  refine
    { markers_eq := h.markers_eq
      marker_mem := fun n hn => ?_
      marker_plain := fun n hn => ?_
      action := fun n x hx => ?_
      pin_eq := fun t ht => ?_
      target_ne := fun u v o hc => ?_
      source_ne := fun u v o hc => ?_
      taken := fun v o hc => ?_
      left := fun u o hc => ?_
      listed_eq := fun side n hn => h.listed_eq side n ((h.isNotedNode_eq n).symm.trans hn)
      tidy := h.tidy }
  · rw [h.markers_eq, List.mem_cons, List.mem_singleton] at hn
    rw [hids]
    rcases hn with rfl | rfl
    · exact hin
    · exact hout
  · rw [h.markers_eq, List.mem_cons, List.mem_singleton] at hn
    exact (h.isNotedNode_eq n).trans (hmarker n hn)
  · rw [h.node?_eq, Option.map_eq_some_iff] at hx
    obtain ⟨y, -, rfl⟩ := hx
    cases y <;> exact ⟨_, rfl⟩
  · obtain ⟨e, -, het⟩ := Outcome.exists_left_of_forall₂ h.drafts ht
    exact het.pin_eq
  · obtain ⟨e, he, -, -, rfl, -⟩ := h.exists_of_carries hc
    exact hf.target_ne_input e he
  · obtain ⟨e, he, -, rfl, -⟩ := h.exists_of_carries hc
    exact hf.source_ne_output e he
  · -- what comes from outside counts because of an action with a note that takes it
    obtain ⟨e, he, hcounts, hs, rfl, ho⟩ := h.exists_of_carries hc
    cases hid : e.data.object.id with
    | none =>
      rw [counts, if_pos hs, hid] at hcounts
      exact ⟨e.target, (h.isNotedNode_eq _).trans hcounts, hc⟩
    | some o' =>
      obtain rfl := ho o' hid
      obtain ⟨e', he', hs', hn, ho'⟩ := (counts_input hs hid).1 hcounts
      refine ⟨e'.target, (h.isNotedNode_eq _).trans hn, hs' ▸ h.carries_of_mem he' ?_ ho'⟩
      exact (counts_input hs' ho').2 ⟨e', he', hs', hn, ho'⟩
  · obtain ⟨e, he, hcounts, rfl, ht, -⟩ := h.exists_of_carries hc
    by_cases hs : e.source = f.input
    · exact .inl hs
    · rw [counts, if_neg hs, if_pos ht] at hcounts
      exact .inr ((h.isNotedNode_eq _).trans hcounts)

end Drafts

end Annotated.Draft

end ObjectFlow
