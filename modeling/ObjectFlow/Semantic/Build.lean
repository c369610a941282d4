import ObjectFlow.Semantic.Merge

/-!
# Semantic graphs of annotated graphs

The nodes are typed, the edges at actions directed and their aspects checked; then slots become
entities, and entities that are the same object under an action are merged.
-/

namespace ObjectFlow

inductive SemanticError where
  | storage (cause : StorageError)
  | graph (cause : GraphError)
  | endless

def SemanticError.message : SemanticError → String
  | .storage cause => "annotation lookup failed: " ++ cause.message
  | .graph cause => cause.message
  | .endless => "endless merge of entities"

namespace Semantic

/-- What mergers come to, if they do not go too deep. -/
def Course.outcome {α : Type} (c : Course α) : Except SemanticError α :=
  match c.run with
  | some (.ok a) => .ok a
  | some (.error cause) => .error (.graph cause)
  | none => .error .endless

/-- The directions and aspects of a typed graph, which need no more notes. -/
def orient (o : Ontology) (g : SemanticGraph) : Except SemanticError SemanticGraph :=
  ((direct g).map (validate o)).mapError .graph

/-- The mergers in a graph whose slots have become entities. -/
def unite (o : Ontology) (g : SemanticGraph) (s : Supply) (cs : List Child) :
    Except SemanticError (SemanticGraph × Supply) := do
  let (g, s) ← (addChildren g s cs).mapError .graph
  let (g, s) ← (mergeDuplicates o deepest g s).outcome
  (mergeStrangers o deepest g s).outcome

end Semantic

/--
The semantic graph of an annotated graph. What was loaded and looked up stays so after a failure.
-/
def SemanticGraph.ofAnnotated (o : Ontology) (g : AnnotatedGraph) (t : TypeSource) (s : Supply) :
    Except SemanticError (SemanticGraph × Supply) × TypeSource :=
  match TypeSource.forEach (Semantic.typed o) g.nodes t with
  | (.error e, t) => (.error (.storage e), t)
  | (.ok types, t) =>
    match Semantic.orient o (Semantic.withTypes g types) with
    | .error e => (.error e, t)
    | .ok g =>
      match TypeSource.forEach (Semantic.child o) (Semantic.childSlots o g) t with
      | (.error e, t) => (.error (.storage e), t)
      | (.ok cs, t) => (Semantic.unite o g s cs, t)

end ObjectFlow
