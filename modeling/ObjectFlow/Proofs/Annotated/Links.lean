import ObjectFlow.Proofs.Annotated.Course

/-!
# Objects between actions with notes

What one call with a note hands to another, gets from outside or leaves at the end goes over an
entity of its own in the annotated graph (`AnnotatedGraph.ofFlow_links`), whatever other actions are
around.

An edge between such calls is followed along the course. It counts, so it is drafted. No end of it
can be collapsed, so it is still there in the collapsed draft (`carries_collapsed`). In the end it
goes over an entity, which the ledger has (`exists_shown`). Trimming spares the entity because an
action with a note is beside it, and both edges because neither of their ends is an action without a
note (`hands_of_carries`).
-/

namespace ObjectFlow

open ObjectFlow.Graph ObjectFlow.Annotated

/-- Some edge leads from the one node to the other with the object. -/
def AnnotatedGraph.Hands (g : AnnotatedGraph) (u v : NodeId) (o : ObjectId) : Prop :=
  ∃ e ∈ g.edges, e.source = u ∧ e.target = v ∧ e.data.id = some o

/-- The node is the entity of an object. -/
def AnnotatedGraph.Shows (g : AnnotatedGraph) (n : NodeId) (o : ObjectId) : Prop :=
  ∃ x, g.node? n = some (.entity x) ∧ x.profile.id = some o

namespace Annotated

namespace Draft

/-- An action with a note is one after collapsing. -/
theorem Keeps.isNotedNode {d d' : Draft} (h : d.Keeps d') {n : NodeId}
    (hn : isNotedNode d.graph n = true) : isNotedNode d'.graph n = true := by
  obtain ⟨x, hx, hx'⟩ := isNotedNode_iff.1 hn
  exact isNotedNode_iff.2 ⟨x, h.node?_eq n x hx (isCollapsible_of_isNotedNode hn), hx'⟩

end Draft

namespace Course

variable {f : Flow} {s : Supply} (c : Course f s)

/-- A call with a note is an action with a note to the end. -/
theorem isNotedNode_collapsed {n : NodeId} (hn : Draft.isNoted f n = true) :
    Draft.isNotedNode c.collapsed.graph n = true :=
  c.collapses.passes.keeps.isNotedNode ((c.draftOf.isNotedNode_eq n).trans hn)

/-- An action with a note is not one without. -/
theorem not_isPlainNode_of_noted {n : NodeId}
    (hn : Draft.isNotedNode c.collapsed.graph n = true) : ¬ IsPlainNode c.reified n := by
  rintro ⟨x, hx, hp⟩
  rw [← c.reifies.isNotedNode_eq c.collapses.shaped (Draft.mem_of_isNotedNode hn),
    Draft.isNotedNode, hx] at hn
  simp only [Node.isPlain, hn] at hp
  simp at hp

/-- An entity is no action. -/
theorem not_isPlainNode_of_entity {y : Draft.Entry} (hy : y ∈ c.ledger) :
    ¬ IsPlainNode c.reified y.entity := by
  rintro ⟨x, hx, hp⟩
  obtain ⟨e, he, -⟩ := c.reifies.named y hy
  cases he.symm.trans hx
  cases hp

/-- An entity that is left is shown. -/
theorem shows_of_mem {y : Draft.Entry} (hy : y ∈ c.ledger)
    (ht : y.entity ∈ (trim c.reified).nodeIds) :
    AnnotatedGraph.Shows (shownGraph (trim c.reified)) y.entity y.object := by
  obtain ⟨x, hx⟩ := exists_node?_of_mem ht
  obtain ⟨e, he, hid⟩ := c.reifies.named y hy
  cases he.symm.trans ((c.trimmed.node?_iff _ x).1 hx).1
  exact ⟨e, (node?_shownGraph _ _).trans hx, hid⟩

/-- Edges at neither end of which there is an action without a note are left. -/
theorem hands_of_carries {u v : NodeId} {o : ObjectId} (h : Draft.Carries c.reified u v o)
    (hu : u ∈ (trim c.reified).nodeIds) (hv : v ∈ (trim c.reified).nodeIds)
    (hpu : ¬ IsPlainNode c.reified u) (hpv : ¬ IsPlainNode c.reified v) :
    AnnotatedGraph.Hands (shownGraph (trim c.reified)) u v o := by
  obtain ⟨e, he, rfl, rfl, rfl⟩ := h
  exact ⟨_, mem_edges_shownGraph.2 ⟨e, c.trimmed.kept e he hu hv hpu hpv, rfl⟩, rfl, rfl, rfl⟩

/-- What is handed over at an action with a note is shown as an entity beside it. -/
theorem exists_shown {u v : NodeId} {o : ObjectId} (h : Draft.Carries c.collapsed.graph u v o)
    (hnote : Draft.isNotedNode c.collapsed.graph u = true ∨
      Draft.isNotedNode c.collapsed.graph v = true) :
    ∃ n, AnnotatedGraph.Shows (shownGraph (trim c.reified)) n o ∧
      (Draft.isNotedNode c.collapsed.graph u = true →
        AnnotatedGraph.Hands (shownGraph (trim c.reified)) u n o) ∧
      (Draft.isNotedNode c.collapsed.graph v = true →
        AnnotatedGraph.Hands (shownGraph (trim c.reified)) n v o) := by
  have hs := c.collapses.shaped
  have hr := c.reifies
  have hstays : ∀ {w}, Draft.isNotedNode c.collapsed.graph w = true →
      w ∈ (trim c.reified).nodeIds := fun hw =>
    (hr.mem_trimmed_action hs c.trimmed (Draft.mem_of_isNotedNode hw)).2 (.inl hw)
  obtain ⟨n, hn, hun, hnv⟩ := hr.exists_between h
  have hspared : n ∈ (trim c.reified).nodeIds := by
    refine (hr.mem_trimmed_entity hs c.trimmed hn).2 ?_
    rcases hnote with hu | hv
    · exact ⟨.inl ⟨u, hstays hu, hun⟩, .inr ⟨u, hun, hu⟩⟩
    · exact ⟨.inr ⟨v, hnv, hv⟩, .inl ⟨v, hstays hv, hnv⟩⟩
  have hplain := c.not_isPlainNode_of_entity hn
  exact ⟨n, c.shows_of_mem hn hspared,
    fun hu => c.hands_of_carries (hr.carries_iff.2 (.inl hn)) (hstays hu) hspared
      (c.not_isPlainNode_of_noted hu) hplain,
    fun hv => c.hands_of_carries (hr.carries_iff.2 (.inr (.inl ⟨u, hn, h⟩))) hspared (hstays hv)
      hplain (c.not_isPlainNode_of_noted hv)⟩

/-- An edge that counts, between calls with notes and markers, is there after collapsing. -/
theorem carries_collapsed {e : Edge Flow.Link} (he : e ∈ f.graph.edges)
    (hc : Draft.counts f e = true) {o : ObjectId} (ho : e.data.object.id = some o)
    (hs : Draft.isNoted f e.source = true ∨ e.source = f.input)
    (ht : Draft.isNoted f e.target = true ∨ e.target = f.output) :
    Draft.Carries c.collapsed.graph e.source e.target o := by
  have hkept : ∀ n, Draft.isNoted f n = true ∨ n ∈ c.drafted.markers →
      c.drafted.isCollapsible n = false := fun n hn =>
    hn.elim (fun hn => Draft.isCollapsible_of_isNotedNode ((c.draftOf.isNotedNode_eq n).trans hn))
      Draft.isCollapsible_of_mem_markers
  refine c.collapses.passes.carries _ _ o (hkept _ ?_) (hkept _ ?_)
    (c.draftOf.carries_of_mem he hc ho)
  · exact hs.imp_right fun h => by simp [c.draftOf.markers_eq, h]
  · exact ht.imp_right fun h => by simp [c.draftOf.markers_eq, h]

end Course

end Annotated

/--
The annotated graph of a flat flow graph exists, and an object that goes from one call with a note
to another, into one from outside or from one to the end goes over an entity of the object.
-/
theorem AnnotatedGraph.ofFlow_links {f : Flow} (h : f.Flat) (hin : f.input ∈ f.graph.nodeIds)
    (hout : f.output ∈ f.graph.nodeIds) {s : Supply} (hb : f.graph.Before s) :
    ∃ g s', AnnotatedGraph.ofFlow f s = .ok (g, s') ∧
      ∀ e ∈ f.graph.edges, ∀ o, e.data.object.id = some o →
        (Draft.isNoted f e.source = true → Draft.isNoted f e.target = true →
          ∃ n, g.Shows n o ∧ g.Hands e.source n o ∧ g.Hands n e.target o) ∧
        (e.source = f.input → Draft.isNoted f e.target = true →
          ∃ n, g.Shows n o ∧ g.Hands n e.target o) ∧
        (Draft.isNoted f e.source = true → e.target = f.output →
          ∃ n, g.Shows n o ∧ g.Hands e.source n o) := by
  obtain ⟨c, hok⟩ := exists_course h hin hout hb
  refine ⟨_, c.last, hok, fun e he o ho => ⟨fun hs ht => ?_, fun hs ht => ?_, fun hs ht => ?_⟩⟩
  · have hcounts := Draft.counts_of_ne (h.ne_of_isNoted hs).1 (h.ne_of_isNoted ht).2
    obtain ⟨n, hn, hun, hnv⟩ := c.exists_shown
      (c.carries_collapsed he hcounts ho (.inl hs) (.inl ht)) (.inl (c.isNotedNode_collapsed hs))
    exact ⟨n, hn, hun (c.isNotedNode_collapsed hs), hnv (c.isNotedNode_collapsed ht)⟩
  · have hcounts := (Draft.counts_input hs ho).2 ⟨e, he, hs, ht, ho⟩
    obtain ⟨n, hn, -, hnv⟩ := c.exists_shown
      (c.carries_collapsed he hcounts ho (.inr hs) (.inl ht)) (.inr (c.isNotedNode_collapsed ht))
    exact ⟨n, hn, hnv (c.isNotedNode_collapsed ht)⟩
  · have hcounts : Draft.counts f e = true := by
      rw [Draft.counts, if_neg (h.ne_of_isNoted hs).1, if_pos ht]
      exact hs
    obtain ⟨n, hn, hun, -⟩ := c.exists_shown
      (c.carries_collapsed he hcounts ho (.inl hs) (.inr ht)) (.inl (c.isNotedNode_collapsed hs))
    exact ⟨n, hn, hun (c.isNotedNode_collapsed hs)⟩

/--
A call with a note takes an object from outside and hands another one to a second call with a note,
which leaves a third.
-/
def Flow.twoCalls : Flow :=
  let key : NoteKey := ⟨"", "", ""⟩
  let pin (side : Side) (i : Nat) (id : Option ObjectId) : Flow.Pin :=
    { side, position := some i, id }
  let call (pins : List (String × Flow.Pin)) : Flow.Node := .call ⟨"", "", pins, none, key, none⟩
  let link (o : ObjectId) : Flow.Link := { object := { id := some o } }
  let g : Graph Flow.Node Flow.Link := {}
  let g := (g.attachNode ⟨0⟩ .input).attachNode ⟨1⟩ .output
  let g := g.attachNode ⟨2⟩ (call [("x", pin .input 1 (some ⟨"a"⟩)), ("y", pin .output 1 (some ⟨"b"⟩))])
  let g := g.attachNode ⟨3⟩ (call [("u", pin .input 1 (some ⟨"b"⟩)), ("v", pin .input 2 none),
    ("w", pin .output 1 (some ⟨"c"⟩))])
  ⟨g.withEdges [⟨⟨4⟩, ⟨0⟩, ⟨2⟩, link ⟨"a"⟩⟩, ⟨⟨5⟩, ⟨2⟩, ⟨3⟩, link ⟨"b"⟩⟩,
    ⟨⟨6⟩, ⟨3⟩, ⟨1⟩, link ⟨"c"⟩⟩], ⟨0⟩, ⟨1⟩⟩

/-- The two calls are a flat graph. -/
theorem Flow.flat_twoCalls : Flow.twoCalls.Flat where
  wellFormed := by
    refine (((((WellFormed.empty.attachNode _ ?_).attachNode _ ?_).attachNode _ ?_).attachNode _
      ?_).withEdges ?_ ?_ ?_ ?_)
    all_goals decide
  acyclic := by
    refine acyclic_of_rank (fun n => if n = ⟨1⟩ then 4 else n.value) ?_
    decide
  markers_ne := by decide
  call_iff := by
    intro n x hx
    have hnodes : ∀ p ∈ Flow.twoCalls.graph.nodes,
        (p.2.call?.isSome ↔ p.1 ≠ Flow.twoCalls.input ∧ p.1 ≠ Flow.twoCalls.output) := by decide
    exact hnodes _ (Table.mem_of_at? hx)
  body_none := by
    intro n c hc
    have hnodes : ∀ p ∈ Flow.twoCalls.graph.nodes,
        p.2.call?.bind Flow.Call.body = none := by decide
    exact hnodes _ (Table.mem_of_at? hc)
  target_ne_input := by decide
  source_ne_output := by decide

/-- The three objects go over entities. -/
theorem AnnotatedGraph.ofFlow_twoCalls :
    ∃ g s', AnnotatedGraph.ofFlow Flow.twoCalls ⟨7⟩ = .ok (g, s') ∧
      (∃ n, g.Shows n ⟨"a"⟩ ∧ g.Hands n ⟨2⟩ ⟨"a"⟩) ∧
      (∃ n, g.Shows n ⟨"b"⟩ ∧ g.Hands ⟨2⟩ n ⟨"b"⟩ ∧ g.Hands n ⟨3⟩ ⟨"b"⟩) ∧
      ∃ n, g.Shows n ⟨"c"⟩ ∧ g.Hands ⟨3⟩ n ⟨"c"⟩ := by
  obtain ⟨g, s', hok, hlinks⟩ := AnnotatedGraph.ofFlow_links Flow.flat_twoCalls (by decide)
    (by decide) (s := ⟨7⟩) ⟨by decide, by decide⟩
  have hmem : ∀ e ∈ [(⟨⟨4⟩, ⟨0⟩, ⟨2⟩, { object := { id := some ⟨"a"⟩ } }⟩ : Edge Flow.Link),
      ⟨⟨5⟩, ⟨2⟩, ⟨3⟩, { object := { id := some ⟨"b"⟩ } }⟩,
      ⟨⟨6⟩, ⟨3⟩, ⟨1⟩, { object := { id := some ⟨"c"⟩ } }⟩], e ∈ Flow.twoCalls.graph.edges :=
    fun _ he => he
  refine ⟨g, s', hok, ?_, ?_, ?_⟩
  · exact (hlinks _ (hmem _ (.head _)) ⟨"a"⟩ rfl).2.1 rfl rfl
  · exact (hlinks _ (hmem _ (.tail _ (.head _))) ⟨"b"⟩ rfl).1 rfl rfl
  · exact (hlinks _ (hmem _ (.tail _ (.tail _ (.head _)))) ⟨"c"⟩ rfl).2.2 rfl rfl

end ObjectFlow
