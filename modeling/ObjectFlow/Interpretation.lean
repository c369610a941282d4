import ObjectFlow.Annotated.Build
import ObjectFlow.Flow.Flatten
import ObjectFlow.Semantic.Build

/-!
# From recordings to semantic graphs

A recording is flattened, then annotated, then typed by an ontology. The first step that fails
decides.
-/

namespace ObjectFlow

inductive InterpretError where
  | flow (cause : FlowError)
  | annotate (cause : AnnotateError)
  | semantic (cause : SemanticError)

def InterpretError.message : InterpretError → String
  | .flow cause => cause.message
  | .annotate cause => cause.message
  | .semantic cause => cause.message

/-- The graphs on the way from a recording to its semantic graph. -/
structure Interpretation where
  flow : Flow
  annotated : AnnotatedGraph
  semantic : SemanticGraph

namespace Recording

/-- The flat flow graph of a recording and its annotated graph. -/
def annotate (r : Recording) (s : Supply) :
    Except InterpretError (Flow × AnnotatedGraph × Supply) := do
  let (flow, s) ← (r.flatten s).mapError .flow
  let (annotated, s) ← (AnnotatedGraph.ofFlow flow s).mapError .annotate
  return (flow, annotated, s)

/-- All three graphs. What was loaded and looked up stays so after a failure. -/
def interpret (o : Ontology) (r : Recording) (t : TypeSource) (s : Supply) :
    Except InterpretError (Interpretation × Supply) × TypeSource :=
  match r.annotate s with
  | .error e => (.error e, t)
  | .ok (flow, annotated, s) =>
    let (r, t) := SemanticGraph.ofAnnotated o annotated t s
    ((r.mapError .semantic).map fun g => (⟨flow, annotated, g.1⟩, g.2), t)

end Recording

end ObjectFlow
