import ObjectFlow.Proofs.Flow.Recorder

/-!
# Ties

A tie is an edge without its identity. The identities of edges do not matter for what is recorded:
where an object comes from and what an event does to a page can be said in terms of the calls and
the ties alone (`Page.Sound.origin_eq`, `Page.Sound.ties_enter`, `Page.Sound.ties_produce`).

The table of producers refers to edges by identity, to find the one that is taken away when the
object comes out again. On a sound page it can be replaced by a lookup in the graph
(`Page.Sound.producer_eq`): the producer of an object is the source of the one tie that brings the
object to the output marker (`Flow.maker?`). With it the edges of a page are a list of ties to which
every event appends, and from which it removes those that bring a certain object to the end.
-/

namespace ObjectFlow

namespace Flow

/-- An edge without its identity. -/
structure Tie where
  source : NodeId
  target : NodeId
  data : Link

/-- What an edge is as a tie. -/
def tieOf (e : Edge Link) : Tie := ⟨e.source, e.target, e.data⟩

/-- The edges of a graph as ties, in their order. -/
def ties (f : Flow) : List Tie := f.graph.edges.map tieOf

/-- The tie leads an object to a node. -/
def Tie.Brings (t : Tie) (n : NodeId) (o : ObjectId) : Prop :=
  t.target = n ∧ t.data.object.id = some o

instance (t : Tie) (n : NodeId) (o : ObjectId) : Decidable (t.Brings n o) :=
  inferInstanceAs (Decidable (_ ∧ _))

/-- The call and pin that an object left last. -/
def maker? (f : Flow) (o : ObjectId) : Option (NodeId × Option String) :=
  (Table.at? f.outputs o).map fun e => (e.source, e.data.sourcePin)

/-- The node and pin that an arriving object comes from; a newborn receiver comes from nowhere. -/
def origin? (f : Flow) (c : Invocation) (a : Arrival) : Option (NodeId × Option String) :=
  match f.maker? a.object with
  | some m => some m
  | none => if Tape.isNewborn c a.argument then none else some (f.input, none)

/-- The tie by which an object arrives at a node. -/
def arrival? (f : Flow) (c : Invocation) (node : NodeId) (a : Arrival) : Option Tie :=
  (f.origin? c a).map fun m => ⟨m.1, node, ⟨a.reference, m.2, some a.argument⟩⟩

variable {f : Flow}

theorem mem_ties {t : Tie} : t ∈ f.ties ↔ ∃ e ∈ f.graph.edges, tieOf e = t := List.mem_map

/-- Changing a call leaves the ties. -/
@[simp] theorem ties_adjustCall (id : NodeId) (g : Call → Call) :
    (f.adjustCall id g).ties = f.ties := rfl

theorem ties_withEdges (es : List (Edge Link)) :
    ({ f with graph := f.graph.withEdges es } : Flow).ties = f.ties ++ es.map tieOf :=
  List.map_append

/-- Removing edges by what they are as ties removes the ties. -/
theorem ties_filterEdges (p : Tie → Bool) {q : Edge Link → Bool}
    (h : ∀ e ∈ f.graph.edges, q e = p (tieOf e)) :
    (f.graph.edges.filter q).map tieOf = f.ties.filter p := by
  rw [ties, List.filter_map]
  exact congrArg _ (List.filter_congr h)

theorem ties_removeNode {id : NodeId} (h : id ∈ f.graph.nodeIds) :
    ({ f with graph := f.graph.removeNode id } : Flow).ties =
      f.ties.filter fun t => t.source ≠ id ∧ t.target ≠ id := by
  unfold Graph.removeNode
  rw [if_pos (Graph.hasNode_iff.2 h)]
  exact ties_filterEdges _ fun e _ => rfl

/-- A tie comes from outside or from a call. -/
theorem Framed.tie_source_cases (h : f.Framed) {t : Tie} (ht : t ∈ f.ties) :
    t.source = f.input ∨ t.source ∈ Table.keys f.calls := by
  obtain ⟨e, he, rfl⟩ := mem_ties.1 ht
  exact h.source_cases he

/-- A tie is left at the end or leads to a call. -/
theorem Framed.tie_target_cases (h : f.Framed) {t : Tie} (ht : t ∈ f.ties) :
    t.target = f.output ∨ t.target ∈ Table.keys f.calls := by
  obtain ⟨e, he, rfl⟩ := mem_ties.1 ht
  exact h.target_cases he

/-! ## What is left at the end

A table of edges by objects keeps the last one for each. Where there is one for each object, nothing
is lost. -/

/-- Where each object is left once, the outputs are the edges to the output marker by their
objects. -/
theorem at?_outputs_iff
    (hlast : ∀ e ∈ f.graph.edges, ∀ e' ∈ f.graph.edges, ∀ o, e.target = f.output →
      e'.target = f.output → e.data.object.id = some o → e'.data.object.id = some o → e = e')
    {o : ObjectId} {e : Edge Link} :
    Table.at? f.outputs o = some e ↔
      e ∈ f.graph.edges ∧ e.target = f.output ∧ e.data.object.id = some o := by
  have hmem : ∀ o e, (o, e) ∈ ((f.graph.inEdges f.output).filterMap fun e =>
      e.data.object.id.map fun o => (o, e)) ↔
        e ∈ f.graph.edges ∧ e.target = f.output ∧ e.data.object.id = some o := by
    intro o e
    simp only [List.mem_filterMap, Graph.mem_inEdges, Option.map_eq_some_iff, Prod.mk.injEq]
    constructor
    · rintro ⟨e', ⟨he, ht⟩, o', ho, rfl, rfl⟩
      exact ⟨he, ht, ho⟩
    · rintro ⟨he, ht, ho⟩
      exact ⟨e, ⟨he, ht⟩, o, ho, rfl, rfl⟩
  rw [outputs, Table.at?_ofEntries_iff, hmem]
  intro o e e' he he'
  rw [hmem] at he he'
  exact hlast e he.1 e' he'.1 o he.2.1 he'.2.1 he.2.2 he'.2.2

theorem Recorded.at?_outputs_iff (h : f.Recorded) {o : ObjectId} {e : Edge Link} :
    Table.at? f.outputs o = some e ↔
      e ∈ f.graph.edges ∧ e.target = f.output ∧ e.data.object.id = some o :=
  Flow.at?_outputs_iff fun e he e' he' _ ht ht' ho ho' =>
    h.last e he e' he' ht ht' (ho.trans ho'.symm)

/-- The maker of an object is where the tie that leaves it comes from. -/
theorem Recorded.maker?_eq_some_iff (h : f.Recorded) {o : ObjectId} {n : NodeId}
    {pin : Option String} : f.maker? o = some (n, pin) ↔
      ∃ t ∈ f.ties, t.Brings f.output o ∧ t.source = n ∧ t.data.sourcePin = pin := by
  rw [maker?, Option.map_eq_some_iff]
  constructor
  · rintro ⟨e, he, heq⟩
    cases heq
    obtain ⟨hm, ht, ho⟩ := h.at?_outputs_iff.1 he
    exact ⟨tieOf e, mem_ties.2 ⟨e, hm, rfl⟩, ⟨ht, ho⟩, rfl, rfl⟩
  · rintro ⟨t, ht, ⟨hout, ho⟩, rfl, rfl⟩
    obtain ⟨e, he, rfl⟩ := mem_ties.1 ht
    exact ⟨e, h.at?_outputs_iff.2 ⟨he, hout, ho⟩, rfl⟩

/-- An object has no maker if no tie leaves it. -/
theorem Recorded.maker?_eq_none_iff (h : f.Recorded) {o : ObjectId} :
    f.maker? o = none ↔ ∀ t ∈ f.ties, ¬ t.Brings f.output o := by
  constructor
  · rintro hnone t ht hb
    have := h.maker?_eq_some_iff.2 ⟨t, ht, hb, rfl, rfl⟩
    rw [hnone] at this
    cases this
  · intro hall
    cases hm : f.maker? o with
    | none => rfl
    | some m =>
      obtain ⟨t, ht, hb, -⟩ := h.maker?_eq_some_iff.1 hm
      exact absurd hb (hall t ht)

/-- What left an object last is a call. -/
theorem Recorded.maker_call (h : f.Recorded) {o : ObjectId} {m : NodeId × Option String}
    (hm : f.maker? o = some m) : m.1 ∈ Table.keys f.calls := by
  obtain ⟨t, ht, hb, hs, -⟩ := h.maker?_eq_some_iff.1 hm
  obtain ⟨e, he, rfl⟩ := mem_ties.1 ht
  rcases h.source_cases he with hin | hc
  · exact absurd ⟨hin, hb.1⟩ (h.not_across e he)
  · exact hs ▸ hc

end Flow

namespace Page

open ObjectFlow.Flow

/-- The page knows just where the objects left at the end come from. -/
theorem Sound.producer_eq {p : Page} (h : p.Sound) (o : ObjectId) :
    (Table.at? p.producers o).map (fun q => (q.node, some q.pin)) = p.flow.maker? o := by
  cases hq : Table.at? p.producers o with
  | none =>
    refine (h.recorded.maker?_eq_none_iff.2 fun t ht hb => ?_).symm
    obtain ⟨e, he, rfl⟩ := mem_ties.1 ht
    obtain ⟨pin, hp⟩ := h.recorded.pinned e he hb.1
    have := (h.producers_iff o ⟨e.source, pin, e.id⟩).2 ⟨e, he, rfl, rfl, hb.1, hb.2, hp⟩
    rw [hq] at this
    cases this
  | some q =>
    obtain ⟨e, he, -, hs, ht, ho, hp⟩ := (h.producers_iff o q).1 hq
    exact (h.recorded.maker?_eq_some_iff.2
      ⟨tieOf e, mem_ties.2 ⟨e, he, rfl⟩, ⟨ht, ho⟩, hs, hp⟩).symm

/-- Where an arriving object comes from is told by the ties. -/
theorem Sound.origin_eq {p : Page} (h : p.Sound) (c : Invocation) (a : Arrival) :
    p.origin? c a = p.flow.origin? c a := by
  unfold Page.origin? Flow.origin?
  rw [← h.producer_eq a.object]
  cases Table.at? p.producers a.object <;> rfl

/-- The edges by which objects arrive are told by the ties. -/
theorem Sound.map_arrivalEdges {p : Page} (h : p.Sound) (c : Invocation) (node : NodeId)
    (s : Supply) (as : List Arrival) :
    (p.arrivalEdges c node s as).1.map tieOf = as.filterMap (p.flow.arrival? c node) := by
  induction as generalizing s with
  | nil => rfl
  | cons a as ih =>
    rw [List.filterMap_cons, arrival?, ← h.origin_eq]
    simp only [arrivalEdges]
    cases p.origin? c a with
    | none => exact ih s
    | some m => exact congrArg (_ :: ·) (ih _)

/-- A call that begins adds the ties by which objects arrive. -/
theorem Sound.ties_enter {p : Page} (h : p.Sound) (c : Invocation) (e : Entrance)
    (body : Option Handle) (s : Supply) :
    (p.enter c e body s).1.flow.ties =
      p.flow.ties ++ e.arrivals.filterMap (p.flow.arrival? c s.node.1) := by
  rw [← h.map_arrivalEdges c s.node.1 s.node.2 e.arrivals]
  exact ties_withEdges (f := { p.flow with graph := p.flow.graph.attachNode _ _ }) _

/-- An object is no longer left by the call that made it before. -/
theorem Sound.ties_released {p : Page} (h : p.Sound) (o : ObjectId) :
    ({ p.flow with graph := p.released o } : Flow).ties =
      p.flow.ties.filter fun t => ¬ t.Brings p.flow.output o := by
  have hedges : (p.released o).edges =
      p.flow.graph.edges.filter fun e => ¬ (tieOf e).Brings p.flow.output o := by
    have hmem := fun e => h.mem_released_iff (o := o) (e := e)
    unfold released at hmem ⊢
    split
    · rename_i q hq
      rw [hq] at hmem
      refine List.filter_congr fun e he => decide_eq_decide.2 ?_
      have := hmem e
      rw [Graph.mem_edges_removeEdge, and_congr_right_iff] at this
      exact this he
    · rename_i hq
      rw [hq] at hmem
      exact (List.filter_eq_self.2 fun e he => decide_eq_true ((hmem e).1 he).2).symm
  show (p.released o).edges.map tieOf = _
  rw [hedges]
  exact ties_filterEdges _ fun e _ => rfl

/-- An object that comes out is left by its call, and no more by the one that made it before. -/
theorem Sound.ties_produce {p : Page} (h : p.Sound) (n : NodeId) (edge : EdgeId)
    (q : Production) :
    (p.produce n edge q).flow.ties =
      (p.flow.ties.filter fun t => ¬ t.Brings p.flow.output q.object) ++
        [⟨n, p.flow.output, ⟨q.reference, some q.pin, none⟩⟩] := by
  rw [← h.ties_released q.object]
  exact ties_withEdges (f := { p.flow with graph := p.released q.object }) _

end Page

end ObjectFlow
