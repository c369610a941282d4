import ObjectFlow.Flow.Tape

/-!
# Recording events

A recorder asks its annotator about an event and then puts the answers on its tape. An event that is
refused leaves the tape as it was, except that a return takes the innermost call off the stack in
any case.
-/

namespace ObjectFlow

structure Recorder (σ : Type) where
  annotator : Annotator σ
  /-- The state of the annotator. -/
  state : σ
  settings : Settings := {}
  tape : Tape

namespace Recorder

variable {σ : Type}

/-- A recorder that has recorded nothing yet. -/
def start (annotator : Annotator σ) (state : σ) (settings : Settings) (s : Supply) : Recorder σ :=
  ⟨annotator, state, settings, .empty s⟩

def depth (r : Recorder σ) : Nat := r.tape.stack.length

/-- Forgets what was recorded. The annotator keeps its state. -/
def reset (r : Recorder σ) : Recorder σ := { r with tape := .empty r.tape.supply }

/-- What became of the tape; after a failure it is as it was. -/
def settle (r : Recorder σ) : Except FlowError Tape → Except FlowError Unit × Recorder σ
  | .ok t => (.ok (), { r with tape := t })
  | .error e => (.error e, r)

def begin (r : Recorder σ) (c : Invocation) : Except FlowError Unit × Recorder σ :=
  let (e, state) := Flow.entrance r.annotator r.settings c r.state
  { r with state := state }.settle (r.tape.enter c e)

/-- Getting a method is not recorded: the method has a call of its own. -/
def isMethodLookup (e : Completion) : Bool := Flow.getters.contains e.call.name && e.value.isMethod

/-- The attribute that a getter is asked for, its second argument. -/
def attribute? (e : Completion) : Option String := do
  if !Flow.getters.contains e.call.name then none
  let (_, value) ← e.call.arguments[1]?
  match value with
  | .str name => some name
  | _ => none

/-- Records the end of the call at a node. -/
def finish (r : Recorder σ) (node : NodeId) (e : Completion) : Except FlowError Unit × Recorder σ :=
  if isMethodLookup e then r.settle (r.tape.drop node)
  else
    let named := match attribute? e with
      | some name => r.tape.adjustCall node fun c => { c with slot := some name }
      | none => .ok r.tape
    match named with
    | .error cause => (.error cause, r)
    | .ok tape =>
      let (d, state) := Flow.departure r.annotator r.settings e r.state
      { r with state := state, tape := tape }.settle (tape.leave node d)

/-- Records one event. -/
def push (r : Recorder σ) : Event → Except FlowError Unit × Recorder σ
  | .call c => r.begin c
  | .ret e =>
    match r.tape.pop e with
    | (.error cause, tape) => (.error cause, { r with tape := tape })
    | (.ok node, tape) => { r with tape := tape }.finish node e

/-- Records events up to the first that is refused. -/
def extend (r : Recorder σ) : List Event → Except FlowError Unit × Recorder σ
  | [] => (.ok (), r)
  | e :: rest =>
    match r.push e with
    | (.ok (), r) => extend r rest
    | (.error cause, r) => (.error cause, r)

/-- Records events and passes over those that are refused. -/
def absorb (r : Recorder σ) (events : List Event) : Recorder σ :=
  events.foldl (fun r e => (r.push e).2) r

end Recorder

end ObjectFlow
