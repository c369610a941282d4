import ObjectFlow.Json.Printer
import ObjectFlow.Trace.Document

/-!
# Events

The tracer reports every call when it begins and, with the same record and the value returned, when
it ends.
-/

namespace ObjectFlow

open Document

structure Invocation where
  function : Callee
  /-- Whether the body of the call is not traced. -/
  atomic : Bool
  /-- The arguments in the order of the parameters. -/
  arguments : Table String Snapshot

structure Completion where
  call : Invocation
  value : Snapshot

inductive Event where
  | call (c : Invocation)
  | ret (r : Completion)

inductive EventError where
  | unrecognized (kind : String)
  | malformed

def EventError.message : EventError → String
  | .unrecognized kind => "unrecognized trace event kind: '" ++ kind ++ "'"
  | .malformed => "malformed trace event"

namespace Invocation

def fullName (c : Invocation) : String := c.function.fullName

def name (c : Invocation) : String := c.function.name

def argumentName? (c : Invocation) (i : Nat) : Option String := c.arguments[i]?.map Prod.fst

/-- The name of the argument, or of the part of the result, that a slot stands for. -/
def slotName? (c : Invocation) : Slot → Option String
  | .index i => c.argumentName? i
  | .path name => some name

def names : List String := ["function", "atomic", "arguments"]

def ofFields (origin : Origin) (fs : Fields) : Except DecodeError Invocation := do
  let function ← required fs "function" Callee.ofJson
  let atomic ← defaulted fs "atomic" true flag
  let arguments ← defaulted fs "arguments" [] (table (Snapshot.ofJson origin))
  return ⟨function, atomic, arguments⟩

def ofJson (j : Json) : Except DecodeError Invocation := do
  let fs ← record names j
  ofFields .document fs

def fields (c : Invocation) : List (String × Json) :=
  [("function", c.function.toJson), ("atomic", .bool c.atomic),
    ("arguments", writeTable Snapshot.toJson c.arguments)]

end Invocation

namespace Completion

/-- The members of an event, which is set aside until its kind is known. -/
def ofFields (fs : Fields) : Except DecodeError Completion := do
  let call ← Invocation.ofFields .aside fs
  let value ← defaulted fs "return_value" .none (Snapshot.ofJson .aside)
  return ⟨call, value⟩

end Completion

namespace Event

def function : Event → Invocation
  | .call c => c
  | .ret r => r.call

def toJson : Event → Json
  | .call c => .obj (("event", .str "call") :: c.fields)
  | .ret r =>
    .obj (("event", .str "return") :: r.call.fields ++ [("return_value", r.value.toJson)])

/-- Reads an event of a known kind. -/
def ofJson (j : Json) : Except EventError Event := do
  let read : Except DecodeError Event ← match j.member? "event" with
    | some (.str "call") => .ok do
      let fs ← record Invocation.names j
      let c ← Invocation.ofFields .aside fs
      return .call c
    | some (.str "return") => .ok do
      let fs ← record (Invocation.names ++ ["return_value"]) j
      let r ← Completion.ofFields fs
      return .ret r
    | some (.str kind) => .error (.unrecognized kind)
    | some other => .error (.unrecognized other.compact)
    | none => .error (.unrecognized "")
  read.mapError fun _ => .malformed

end Event

end ObjectFlow
