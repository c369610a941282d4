import ObjectFlow.Proofs.Annotated.Document
import ObjectFlow.Proofs.Flow.Captured
import ObjectFlow.Proofs.Semantic.Document

/-!
# Interchange of graphs

Flow graphs, recordings, annotated and semantic graphs come back from their documents as they went
in, as long as no captured value is null, and a recorder captures none (`interchanges`). What a
document does not tell is only which places the nodes had; they are seated in their order.

A document here is the value of type `Json` that a graph is written to and read from. The text of
such a value is another stage, which is outside the statement: the printer and the reader of
`Json.Printer` and `Json.Reader`, with the digits that a float is printed by and the depth to which
a reader follows brackets, do not occur in it.

## Outline

`Interchanged` holds what is proved of each of the four types, with the type's own notions as
parameters: that numbers have the widths of their types and that identities and names are distinct
(`Typed`), which payloads are captured, and what a value is with its nodes seated in order. Both of
its parts are assembled from the lemmas on readers and writers of the parts of a graph. Beside it
stands which documents are read at all, for a graph with nodes and edges of any kind, for a flow
graph and for a recording. That a recorder captures no null is an invariant of its runs
(`Recorder.null_not_mem_payloads_absorb`).
-/

namespace ObjectFlow

open Document

/--
What went into a document comes back, up to the places of nodes, unless a null was captured; and
what was read from any document comes back from its own one as it is.
-/
structure Interchanged {α : Type} (write : α → Json) (read : Json → Except DecodeError α)
    (Typed : α → Prop) (payloads : α → List Json) (reseated : α → α) : Prop where
  read_write : ∀ a, Typed a → .null ∉ payloads a → read (write a) = .ok (reseated a)
  read_write_read : ∀ j a, read j = .ok a → read (write a) = .ok a

/-- Flow graphs are interchanged. -/
theorem Flow.interchanged : Interchanged toJson ofJson Typed payloads reseated :=
  ⟨fun _ h hn => ofJson_toJson h hn, fun _ _ h => readsBack.read_write_read h⟩

/-- Recordings are interchanged. -/
theorem Recording.interchanged : Interchanged toJson ofJson Typed payloads reseated :=
  ⟨fun _ h hn => ofJson_toJson h hn, fun _ _ h => readsBack.read_write_read h⟩

/-- Annotated graphs are interchanged. -/
theorem AnnotatedGraph.interchanged : Interchanged toJson ofJson Typed payloads Graph.reseated :=
  ⟨fun _ h hn => ofJson_toJson h hn, fun _ _ h =>
    (Graph.readsBack Annotated.Node.readsBack Annotated.Link.readsBack).read_write_read h⟩

/-- Semantic graphs are interchanged. -/
theorem SemanticGraph.interchanged : Interchanged toJson ofJson Typed payloads Graph.reseated :=
  ⟨fun _ h hn => ofJson_toJson h hn, fun _ _ h =>
    (Graph.readsBack Semantic.Node.readsBack Semantic.Link.readsBack).read_write_read h⟩

/--
All graphs come back from their documents. A document of a graph is read just if its parts are, the
identities of nodes and of edges are distinct and the ends of all edges are declared, and what is
read then are these parts; a flow graph and a recording are read just if their members are. And
whatever events a recorder meets, it captures no null.
-/
theorem interchanges :
    Interchanged Flow.toJson Flow.ofJson Flow.Typed Flow.payloads Flow.reseated ∧
    Interchanged Recording.toJson Recording.ofJson Recording.Typed Recording.payloads
      Recording.reseated ∧
    Interchanged AnnotatedGraph.toJson AnnotatedGraph.ofJson AnnotatedGraph.Typed
      AnnotatedGraph.payloads Graph.reseated ∧
    Interchanged SemanticGraph.toJson SemanticGraph.ofJson SemanticGraph.Typed
      SemanticGraph.payloads Graph.reseated ∧
    (∀ (N E : Type) (node : Json → Except DecodeError N) (edge : Json → Except DecodeError E)
      (j : Json) (g : Graph N E), Graph.ofJson node edge j = .ok g ↔
        ∃ fs, record ["metadata", "nodes", "edges"] j = .ok fs ∧
          defaulted fs "metadata" [] (table anything) = .ok g.metadata ∧
          required fs "nodes" (list (Graph.nodeOfJson node)) = .ok g.nodes ∧
          required fs "edges" (list (Graph.edgeOfJson edge)) = .ok g.edges ∧
          (g.nodes.map Prod.fst).Nodup ∧ (g.edges.map Edge.id).Nodup ∧
          (∀ e ∈ g.edges, e.source ∈ g.nodes.map Prod.fst ∧ e.target ∈ g.nodes.map Prod.fst) ∧
          g.seating = .inOrder g.nodeIds) ∧
    (∀ (j : Json) (f : Flow), Flow.ofJson j = .ok f ↔
      ∃ fs, record ["graph", "input", "output"] j = .ok fs ∧
        required fs "graph" (Graph.ofJson Flow.Node.ofJson Flow.Link.ofJson) = .ok f.graph ∧
        required fs "input" nodeId = .ok f.input ∧ required fs "output" nodeId = .ok f.output) ∧
    (∀ (j : Json) (r : Recording), Recording.ofJson j = .ok r ↔
      ∃ fs, record ["graphs", "root"] j = .ok fs ∧
        required fs "graphs" (list Flow.ofJson) = .ok r.graphs ∧
        required fs "root" handle = .ok r.root) ∧
    (∀ (σ : Type) (a : Annotator σ) (state : σ) (settings : Settings) (s : Supply)
      (events : List Event),
      .null ∉ ((Recorder.start a state settings s).absorb events).tape.recording.payloads) := by
  refine ⟨Flow.interchanged, Recording.interchanged, AnnotatedGraph.interchanged,
    SemanticGraph.interchanged, fun N E node edge j g => ?_, fun j f => Flow.ofJson_eq_ok_iff,
    fun j r => Recording.ofJson_eq_ok_iff, fun σ => Recorder.null_not_mem_payloads_absorb⟩
  rw [Graph.ofJson_eq_ok_iff]
  constructor
  · rintro ⟨fs, hfs, hmetadata, hnodes, hedges, hd, hseating⟩
    exact ⟨fs, hfs, hmetadata, hnodes, hedges, hd.nodes_nodup, hd.edges_nodup, hd.ends_mem,
      hseating⟩
  · rintro ⟨fs, hfs, hmetadata, hnodes, hedges, hn, he, hends, hseating⟩
    exact ⟨fs, hfs, hmetadata, hnodes, hedges, ⟨hn, he, hends⟩, hseating⟩

/-- A slot of which the object has a slot itself, where a null stands within a value. -/
def nestedSlots : Table String Profile :=
  [("part", { type := some "thing", slots := [("sizes", { value := some (.arr [.null]) })] })]

theorem typed_nestedSlots : ExactTable Profile.Typed nestedSlots := by
  have hsizes : Profile.Typed { value := some (.arr [.null]) } :=
    .intro _ _ _ _ _ (by rintro _ ⟨⟩; rfl) List.nodup_nil nofun
  exact ⟨List.nodup_singleton _, List.forall_mem_singleton.2
    (.intro _ _ _ _ _ nofun (List.nodup_singleton _) (List.forall_mem_singleton.2 hsizes))⟩

/-- A scope with one call, to which an object with slots comes from outside. -/
def nestedFlow : Flow where
  graph := {
    nodes := [(⟨0⟩, .input), (⟨1⟩, .output),
      (⟨2⟩, .call ⟨"m", "f", [("x", { side := .input, position := some 1, slots := nestedSlots })],
        none, none, some ⟨1⟩⟩)]
    edges := [⟨⟨3⟩, ⟨0⟩, ⟨2⟩, { targetPin := some "x" }⟩]
    metadata := [("source", .null)]
    seating := .inOrder [⟨0⟩, ⟨1⟩, ⟨2⟩] }
  input := ⟨0⟩
  output := ⟨1⟩

theorem typed_nestedFlow : nestedFlow.Typed := by
  have hpin : Flow.Pin.Typed { side := .input, position := some 1, slots := nestedSlots } :=
    ⟨by rintro _ ⟨⟩; decide, .intro _ _ _ _ _ nofun typed_nestedSlots.keys_nodup
      typed_nestedSlots.exact⟩
  have hcall : Flow.Call.Typed
      ⟨"m", "f", [("x", { side := .input, position := some 1, slots := nestedSlots })], none, none,
        some ⟨1⟩⟩ :=
    ⟨⟨List.nodup_singleton _, List.forall_mem_singleton.2 hpin⟩, by rintro _ ⟨⟩; decide⟩
  refine ⟨⟨⟨List.nodup_singleton _, List.forall_mem_singleton.2 rfl⟩, ?_, ?_,
    ⟨by decide, by decide, by decide⟩⟩, by decide, by decide⟩
  · exact List.forall_mem_cons.2 ⟨⟨by decide, trivial⟩, List.forall_mem_cons.2
      ⟨⟨by decide, trivial⟩, List.forall_mem_singleton.2 ⟨by decide, hcall⟩⟩⟩
  · exact List.forall_mem_singleton.2 ⟨⟨by decide, by decide, by decide⟩, nofun⟩

/-- An entity with slots. -/
def nestedEntity : AnnotatedGraph where
  nodes := [(⟨0⟩, .entity { profile := { slots := nestedSlots }, label := "e" })]
  seating := .inOrder [⟨0⟩]

/-- A node whose slots have not become entities. -/
def nestedNode : SemanticGraph where
  nodes := [(⟨0⟩, { type := "thing", root := .entity, slots := some nestedSlots })]
  seating := .inOrder [⟨0⟩]

/-- The assumptions hold of graphs with slots within slots. -/
theorem interchanges_nested :
    Flow.ofJson nestedFlow.toJson = .ok nestedFlow ∧
    Recording.ofJson (Recording.toJson ⟨[nestedFlow], ⟨0⟩⟩) = .ok ⟨[nestedFlow], ⟨0⟩⟩ ∧
    AnnotatedGraph.ofJson (AnnotatedGraph.toJson nestedEntity) = .ok nestedEntity ∧
    SemanticGraph.ofJson (SemanticGraph.toJson nestedNode) = .ok nestedNode := by
  obtain ⟨hflow, hrecording, hannotated, hsemantic, -⟩ := interchanges
  have hnull : ∀ {js : List Json}, js = [.arr [.null]] → .null ∉ js := by
    rintro _ rfl
    simp
  have hslots : Profile.Typed { slots := nestedSlots } :=
    .intro _ _ _ _ _ nofun typed_nestedSlots.keys_nodup typed_nestedSlots.exact
  refine ⟨hflow.read_write _ typed_nestedFlow (hnull rfl),
    hrecording.read_write _ ⟨List.forall_mem_singleton.2 typed_nestedFlow, by decide⟩ (hnull rfl),
    hannotated.read_write _ ⟨exactTable_nil, ?_, nofun, ⟨by decide, by decide, nofun⟩⟩ (hnull rfl),
    hsemantic.read_write _ ⟨exactTable_nil, ?_, nofun, ⟨by decide, by decide, nofun⟩⟩ (hnull rfl)⟩
  · exact List.forall_mem_singleton.2 ⟨by decide, hslots⟩
  · exact List.forall_mem_singleton.2 ⟨by decide, nofun, by rintro _ ⟨⟩; exact typed_nestedSlots⟩

end ObjectFlow
