import Mathlib.Logic.Relation
import ObjectFlow.Proofs.Graph.WellFormed

/-!
# Paths

One node reaches another along a path of at least one edge. Only which nodes are joined by an edge
matters for this, not how many edges join them or what these carry (`reaches_congr`).

`Step` is the relation between the ends of an edge and `Reaches` its transitive closure, so that the
lemmas on paths are those of `Relation.TransGen`. That a node does not reach itself in general is
why a graph without cycles can be defined by `Reaches` alone. The questions that the program asks
(`linked`, `successors`, `predecessors`) are each brought to `Step` once.
-/

namespace ObjectFlow.Graph

variable {N E N' E' : Type}

/-- An edge runs from the one node to the other. -/
def Step (g : Graph N E) (u v : NodeId) : Prop := ∃ e ∈ g.edges, e.source = u ∧ e.target = v

/-- A path of at least one edge leads from the one node to the other. -/
def Reaches (g : Graph N E) : NodeId → NodeId → Prop := Relation.TransGen g.Step

/-- No node reaches itself. -/
def Acyclic (g : Graph N E) : Prop := ∀ u, ¬ g.Reaches u u

theorem Step.of_mem {g : Graph N E} {e : Edge E} (h : e ∈ g.edges) : g.Step e.source e.target :=
  ⟨e, h, rfl, rfl⟩

theorem Step.reaches {g : Graph N E} {u v : NodeId} (h : g.Step u v) : g.Reaches u v :=
  Relation.TransGen.single h

theorem Reaches.trans {g : Graph N E} {u v w : NodeId} (h : g.Reaches u v) (h' : g.Reaches v w) :
    g.Reaches u w := Relation.TransGen.trans h h'

theorem WellFormed.step_mem {g : Graph N E} (h : g.WellFormed) {u v : NodeId} (hs : g.Step u v) :
    u ∈ g.nodeIds ∧ v ∈ g.nodeIds := by
  obtain ⟨e, he, rfl, rfl⟩ := hs
  exact ⟨h.source_mem e he, h.target_mem e he⟩

theorem WellFormed.reaches_mem {g : Graph N E} (h : g.WellFormed) {u v : NodeId}
    (hr : g.Reaches u v) : u ∈ g.nodeIds ∧ v ∈ g.nodeIds := by
  induction hr with
  | single hs => exact h.step_mem hs
  | tail _ hs ih => exact ⟨ih.1, (h.step_mem hs).2⟩

/-- The first edge of a path, and what is left of it. -/
theorem reaches_iff_head {g : Graph N E} {u w : NodeId} :
    g.Reaches u w ↔ ∃ v, g.Step u v ∧ (v = w ∨ g.Reaches v w) := by
  rw [Reaches, Relation.TransGen.head'_iff]
  refine exists_congr fun v => and_congr_right fun _ => ?_
  rw [Relation.reflTransGen_iff_eq_or_transGen, eq_comm]

/-- Which nodes reach which others is told by the steps alone, also between graphs of different
data. -/
theorem reaches_congr {g : Graph N E} {g' : Graph N' E'} (h : ∀ u v, g.Step u v ↔ g'.Step u v)
    (u v : NodeId) : g.Reaches u v ↔ g'.Reaches u v :=
  ⟨fun hr => hr.lift id fun a b => (h a b).1, fun hr => hr.lift id fun a b => (h a b).2⟩

/-- More steps lead at least as far. -/
theorem Reaches.mono {g : Graph N E} {g' : Graph N' E'} (h : ∀ u v, g.Step u v → g'.Step u v)
    {u v : NodeId} (hr : g.Reaches u v) : g'.Reaches u v :=
  hr.lift id h

/-- A graph whose edges all lead to a higher rank has no cycle. -/
theorem acyclic_of_rank {g : Graph N E} (rank : NodeId → Nat)
    (h : ∀ e ∈ g.edges, rank e.source < rank e.target) : g.Acyclic := by
  have key : ∀ u v, g.Reaches u v → rank u < rank v := by
    intro u v hr
    induction hr with
    | single hs =>
      obtain ⟨e, he, rfl, rfl⟩ := hs
      exact h e he
    | tail _ hs ih =>
      obtain ⟨e, he, rfl, rfl⟩ := hs
      exact Nat.lt_trans ih (h e he)
  exact fun u hr => Nat.lt_irrefl _ (key u u hr)

/-- Two nodes are linked just if an edge runs from the one to the other. -/
theorem linked_iff {g : Graph N E} {u v : NodeId} : g.linked u v = true ↔ g.Step u v := by
  simp only [linked, between, outEdges, Bool.not_eq_true', List.isEmpty_eq_false_iff_exists_mem,
    List.mem_filter, decide_eq_true_eq, and_assoc, Step]

theorem mem_successors {g : Graph N E} {u v : NodeId} : v ∈ g.successors u ↔ g.Step u v := by
  simp [successors, outEdges, Step, and_assoc]

theorem mem_predecessors {g : Graph N E} {u v : NodeId} : u ∈ g.predecessors v ↔ g.Step u v := by
  simp [predecessors, inEdges, Step, and_assoc, and_comm]

theorem step_withEdges {g : Graph N E} {es : List (Edge E)} {u v : NodeId} :
    (g.withEdges es).Step u v ↔ g.Step u v ∨ ∃ e ∈ es, e.source = u ∧ e.target = v := by
  simp [Step, or_and_right, exists_or]

@[simp] theorem step_attachNode {g : Graph N E} {id : NodeId} {x : N} {u v : NodeId} :
    (g.attachNode id x).Step u v ↔ g.Step u v := Iff.rfl

theorem step_mapData {g : Graph N E} {onNode : NodeId → N → N'} {onEdge : Edge E → E'}
    {u v : NodeId} : (g.mapData onNode onEdge).Step u v ↔ g.Step u v := by
  simp [Step, mapData]

end ObjectFlow.Graph
