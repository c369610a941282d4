import ObjectFlow.Proofs.Flow.Framed
import ObjectFlow.Proofs.Flow.Insert

/-!
# A body in the place of a call

Which objects are carried where once a body stands in the place of a call can be told from what the
graph and the body carried before (`Inserted.replaced`).

An edge is regarded here only by its ends, its object and the pin that it enters (`Carries`). In
these terms there are four kinds of edges afterwards: those of the graph and those inside of the
body are kept, what the body took from outside now comes from the node that fed the call (`feeder`),
and what the body left goes wherever the call sent it. Of all of these, those that touch the call
itself are gone.
-/

namespace ObjectFlow.Flow

/-! ## Between the markers of a framed graph

For framed graphs one condition on each end is enough, as no edge enters the input marker or leaves
the output marker. -/

/-- An edge lies between the markers if it neither comes from outside nor is left at the end. -/
theorem mem_innerEdges {f : Flow} (h : f.Framed) {e : Edge Link} :
    e ∈ f.innerEdges ↔ e ∈ f.graph.edges ∧ e.source ≠ f.input ∧ e.target ≠ f.output := by
  rw [innerEdges, List.mem_filter]
  refine and_congr_right fun he => ?_
  simp [isMarker, h.target_ne_input e he, h.source_ne_output e he]

/-- All nodes but the markers are calls. -/
theorem Framed.inner_eq {f : Flow} (h : f.Framed) :
    f.inner = (f.calls.map fun c => (c.1, .call c.2), f.innerEdges) := by
  refine Prod.ext ?_ rfl
  have hkept : ∀ c ∈ f.calls, f.isMarker c.1 = false := by
    intro c hc
    have hk : c.1 ∈ Table.keys f.calls := Table.mem_keys.2 ⟨c.2, hc⟩
    simp only [isMarker, Bool.or_eq_false_iff, decide_eq_false_iff_not]
    exact ⟨fun heq => h.input_not_mem (heq ▸ hk), fun heq => h.output_not_mem (heq ▸ hk)⟩
  show f.graph.nodes.filter (fun n => !f.isMarker n.1) = _
  rw [h.nodes_eq, frame, List.filter_cons_of_neg (by simp [isMarker]),
    List.filter_cons_of_neg (by simp [isMarker]), List.filter_eq_self]
  intro n hn
  obtain ⟨c, hc, rfl⟩ := List.mem_map.1 hn
  simp [hkept c hc]

/-- A framed graph can be put in the place of a node. -/
theorem Framed.fenced {f : Flow} (h : f.Framed) : f.Fenced :=
  ⟨h.wellFormed, h.input_mem, h.output_mem, h.target_ne_input, h.not_across,
    fun e he hs => absurd hs (h.source_ne_output e he)⟩

/-! ## What is carried

The pin at the source of an edge is not looked at by flattening, and is left out. -/

/-- An edge carries the object from the one node into a pin of the other. -/
def Carries (f : Flow) (y n : NodeId) (o : ObjectId) (pin : Option String) : Prop :=
  ∃ e ∈ f.graph.edges, e.source = y ∧ e.target = n ∧ e.data.object.id = some o ∧
    e.data.targetPin = pin

instance (f : Flow) (y n : NodeId) (o : ObjectId) (pin : Option String) :
    Decidable (f.Carries y n o pin) :=
  inferInstanceAs (Decidable (∃ e ∈ f.graph.edges, e.source = y ∧ e.target = n ∧
    e.data.object.id = some o ∧ e.data.targetPin = pin))

/-- What is carried leads between nodes of the graph. -/
theorem Carries.mem {f : Flow} (h : f.Framed) {y n : NodeId} {o : ObjectId} {pin : Option String}
    (hc : f.Carries y n o pin) : y ∈ f.graph.nodeIds ∧ n ∈ f.graph.nodeIds := by
  obtain ⟨e, he, rfl, rfl, -⟩ := hc
  exact ⟨h.wellFormed.source_mem e he, h.wellFormed.target_mem e he⟩

/-! ## What goes in and what comes out

For an object that enters the body the first edge to the call that carries it is taken. If there is
none, the object is taken from the input marker of the graph. -/

/-- The node from which a call takes an object; what nothing carries there comes from outside. -/
def feeder (f : Flow) (node : NodeId) (o : ObjectId) : NodeId :=
  match (f.graph.inEdges node).find? fun e => e.data.carries (some o) with
  | some e => e.source
  | none => f.input

/-- An object is carried to the call by its feeder, or by nothing, and then comes from outside. -/
theorem feeder_cases (f : Flow) (node : NodeId) (o : ObjectId) :
    (∃ pin, f.Carries (f.feeder node o) node o pin) ∨
      f.feeder node o = f.input ∧ ∀ y pin, ¬ f.Carries y node o pin := by
  unfold feeder
  split
  · rename_i e he
    have hc := List.find?_some he
    obtain ⟨he, ht⟩ := Graph.mem_inEdges.1 (List.mem_of_find?_eq_some he)
    exact .inl ⟨e.data.targetPin, e, he, rfl, ht, carries_some_iff.1 hc, rfl⟩
  · rename_i hnone
    refine .inr ⟨rfl, ?_⟩
    rintro y pin ⟨e, he, -, ht, ho, -⟩
    exact List.find?_eq_none.1 hnone e (Graph.mem_inEdges.2 ⟨he, ht⟩) (carries_some_iff.2 ho)

/-- An object that the body takes from outside is taken from where the call takes it. -/
theorem carries_inward {f body : Flow} {node y n : NodeId} {o : ObjectId} {pin : Option String} :
    (∃ l ∈ f.inward node body, l.1 = y ∧ l.2.1 = n ∧ l.2.2.object.id = some o ∧
      l.2.2.targetPin = pin) ↔ y = f.feeder node o ∧ body.Carries body.input n o pin := by
  constructor
  · rintro ⟨l, hl, rfl, rfl, ho, hp⟩
    obtain ⟨e, he, hl⟩ := List.mem_map.1 hl
    obtain ⟨he, hs⟩ := Graph.mem_outEdges.1 he
    unfold feeder
    split at hl
    · rename_i outer hfind
      subst hl
      have ho : e.data.object.id = some o := ho
      rw [ho] at hfind
      rw [hfind]
      exact ⟨rfl, e, he, hs, rfl, ho, hp⟩
    · rename_i hfind
      subst hl
      have ho : e.data.object.id = some o := ho
      rw [ho] at hfind
      rw [hfind]
      exact ⟨rfl, e, he, hs, rfl, ho, hp⟩
  · rintro ⟨rfl, e, he, hs, rfl, ho, rfl⟩
    refine ⟨_, List.mem_map.2 ⟨e, Graph.mem_outEdges.2 ⟨he, hs⟩, rfl⟩, ?_⟩
    unfold feeder
    rw [ho]
    cases (f.graph.inEdges node).find? fun e => e.data.carries (some o) <;>
      exact ⟨rfl, rfl, ho, rfl⟩

/-- An object that the body leaves goes wherever the call sends it. -/
theorem carries_outward {f body : Flow} {node y n : NodeId} {o : ObjectId} {pin : Option String} :
    (∃ l ∈ f.outward node body, l.1 = y ∧ l.2.1 = n ∧ l.2.2.object.id = some o ∧
      l.2.2.targetPin = pin) ↔
      (∃ p, body.Carries y body.output o p) ∧ f.Carries node n o pin := by
  constructor
  · rintro ⟨l, hl, rfl, rfl, ho, hp⟩
    obtain ⟨e, he, hl⟩ := List.mem_flatMap.1 hl
    obtain ⟨outer, houter, rfl⟩ := List.mem_map.1 hl
    obtain ⟨he, ht⟩ := Graph.mem_inEdges.1 he
    obtain ⟨houter, hc⟩ := List.mem_filter.1 houter
    obtain ⟨houter, hs⟩ := Graph.mem_outEdges.1 houter
    have ho : e.data.object.id = some o := ho
    rw [ho] at hc
    exact ⟨⟨_, e, he, rfl, ht, ho, rfl⟩, outer, houter, hs, rfl, carries_some_iff.1 hc, hp⟩
  · rintro ⟨⟨_, e, he, rfl, ht, ho, -⟩, outer, houter, hs, rfl, hc, rfl⟩
    refine ⟨_, List.mem_flatMap.2 ⟨e, Graph.mem_inEdges.2 ⟨he, ht⟩, List.mem_map.2 ⟨outer,
      List.mem_filter.2 ⟨Graph.mem_outEdges.2 ⟨houter, hs⟩, ?_⟩, rfl⟩⟩, rfl, rfl, ho, rfl⟩
    rw [ho]
    exact carries_some_iff.2 hc

/-! ## Inlining

The edges of `Inserted` are translated into what they carry. -/

/-- What becomes of a graph in which a body takes the place of a call. -/
structure Replaced (f body : Flow) (node : NodeId) (f' : Flow) : Prop where
  framed : f'.Framed
  input_eq : f'.input = f.input
  output_eq : f'.output = f.output
  calls_eq : f'.calls = Table.without (f.calls ++ body.calls) node
  carries_iff : ∀ y n o pin, f'.Carries y n o pin ↔
    (f.Carries y n o pin ∨ body.Carries y n o pin ∧ y ≠ body.input ∧ n ≠ body.output ∨
      y = f.feeder node o ∧ body.Carries body.input n o pin ∨
      (∃ p, body.Carries y body.output o p) ∧ f.Carries node n o pin) ∧ y ≠ node ∧ n ≠ node

/-- New edges are known by what they join and what they carry. -/
theorem Inserted.carries_iff {f body : Flow} {node : NodeId} {s : Supply} {f' : Flow} {s' : Supply}
    (h : f.Inserted body node s f' s') (hb : body.Framed) {y n : NodeId} {o : ObjectId}
    {pin : Option String} : f'.Carries y n o pin ↔
      (f.Carries y n o pin ∨ body.Carries y n o pin ∧ y ≠ body.input ∧ n ≠ body.output ∨
        y = f.feeder node o ∧ body.Carries body.input n o pin ∨
        (∃ p, body.Carries y body.output o p) ∧ f.Carries node n o pin) ∧ y ≠ node ∧ n ≠ node := by
  obtain ⟨es, hmap, -, hedges⟩ := h.exists_links
  -- The new edges are the ways in and the ways out of the body.
  have hlinks : (∃ e ∈ es, e.source = y ∧ e.target = n ∧ e.data.object.id = some o ∧
      e.data.targetPin = pin) ↔ y = f.feeder node o ∧ body.Carries body.input n o pin ∨
        (∃ p, body.Carries y body.output o p) ∧ f.Carries node n o pin := by
    rw [← carries_inward, ← carries_outward]
    constructor
    · rintro ⟨e, he, hx⟩
      have hl := List.mem_map_of_mem (f := fun e : Edge Link => (e.source, e.target, e.data)) he
      rw [hmap, List.mem_append] at hl
      exact hl.imp (fun hl => ⟨_, hl, hx⟩) fun hl => ⟨_, hl, hx⟩
    · intro hl
      obtain ⟨l, hl, hx⟩ : ∃ l ∈ f.inward node body ++ f.outward node body, l.1 = y ∧ l.2.1 = n ∧
          l.2.2.object.id = some o ∧ l.2.2.targetPin = pin :=
        hl.elim (fun ⟨l, hl, hx⟩ => ⟨l, List.mem_append_left _ hl, hx⟩)
          fun ⟨l, hl, hx⟩ => ⟨l, List.mem_append_right _ hl, hx⟩
      rw [← hmap] at hl
      obtain ⟨e, he, rfl⟩ := List.mem_map.1 hl
      exact ⟨e, he, hx⟩
  constructor
  · rintro ⟨e, he, rfl, rfl, hx⟩
    rw [hedges, List.mem_filter, List.mem_append, List.mem_append, mem_innerEdges hb,
      decide_eq_true_eq] at he
    obtain ⟨(he | ⟨he, hs, ht⟩) | he, hne⟩ := he
    · exact ⟨.inl ⟨e, he, rfl, rfl, hx⟩, hne⟩
    · exact ⟨.inr (.inl ⟨⟨e, he, rfl, rfl, hx⟩, hs, ht⟩), hne⟩
    · exact ⟨.inr (.inr (hlinks.1 ⟨e, he, rfl, rfl, hx⟩)), hne⟩
  · rintro ⟨hc, hne⟩
    obtain ⟨e, he, rfl, rfl, hx⟩ : ∃ e ∈ f.graph.edges ++ body.innerEdges ++ es, e.source = y ∧
        e.target = n ∧ e.data.object.id = some o ∧ e.data.targetPin = pin := by
      simp only [List.mem_append, mem_innerEdges hb]
      rcases hc with ⟨e, he, hx⟩ | ⟨⟨e, he, rfl, rfl, hx⟩, hs, ht⟩ | hc
      · exact ⟨e, .inl (.inl he), hx⟩
      · exact ⟨e, .inl (.inr ⟨he, hs, ht⟩), rfl, rfl, hx⟩
      · obtain ⟨e, he, hx⟩ := hlinks.2 hc
        exact ⟨e, .inr he, hx⟩
    exact ⟨e, hedges ▸ List.mem_filter.2 ⟨he, decide_eq_true hne⟩, rfl, rfl, hx⟩

/-- A body in the place of a call of a framed graph leaves a framed graph. -/
theorem Inserted.replaced {f body : Flow} {node : NodeId} {s : Supply} {f' : Flow} {s' : Supply}
    (h : f.Inserted body node s f' s') (hf : f.Framed) (hg : body.Framed) (hap : f.Apart body)
    (hn : node ∈ Table.keys f.calls) : f.Replaced body node f' := by
  have hi : node ≠ f.input := fun heq => hf.input_not_mem (heq ▸ hn)
  have ho : node ≠ f.output := fun heq => hf.output_not_mem (heq ▸ hn)
  have hnodes : f'.graph.nodes =
      frame f'.input f'.output (Table.without (f.calls ++ body.calls) node) := by
    have hinner : body.innerNodes = body.calls.map fun c => (c.1, .call c.2) :=
      congrArg Prod.fst hg.inner_eq
    rw [h.nodes_eq, hf.nodes_eq, hinner, h.input_eq, h.output_eq]
    simp [Table.without, frame, hi.symm, ho.symm, List.filter_map, Function.comp_def]
  have hcalls := calls_eq hnodes
  have hfenced := h.fenced hf.fenced hg.fenced hap hi ho
  exact ⟨⟨h.wellFormed, hcalls ▸ hnodes, hfenced.target_ne_input, fun e he hs =>
      hf.input_ne_output (h.input_eq ▸ h.output_eq ▸ (hfenced.source_output e he hs).symm),
      hfenced.not_across⟩,
    h.input_eq, h.output_eq, hcalls, fun y n o pin => h.carries_iff hg⟩

end ObjectFlow.Flow
