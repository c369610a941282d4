import ObjectFlow.Flow.Node
import ObjectFlow.Store.Annotator
import ObjectFlow.Trace.Event
import ObjectFlow.Trace.Payload
import ObjectFlow.Trace.Slot

/-!
# What goes into a call and what comes out

An event is first put into the terms of a flow graph, which takes all the questions that an
annotator is asked; only then is anything recorded.
-/

namespace ObjectFlow

/-- What is recorded beside the calls. -/
structure Settings where
  /-- Whether the slots of an object are captured when it is produced. -/
  storeSlots : Bool := true
  /-- Whether an object inside a container argument goes into the call. -/
  trackHidden : Bool := true

namespace Flow

variable {σ : Type}

/-- The pin of an undivided result. -/
def resultPin : String := "__return__"

/-- The pin of one member of a tuple that is returned. -/
def memberPin (i : Nat) : String := resultPin ++ "." ++ toString i

/-- The pin at which a changed argument comes back. -/
def changedPin (argument : String) : String := argument ++ "!"

def mutators : List String := ["__init__", "__setattr__", "__setitem__"]

def getters : List String := ["__getattr__", "__getattribute__"]

/-- Whether a call leaves an argument as it is. -/
def isPure (c : Invocation) (note : Option Note) (argument : String) : Bool :=
  if argument = "self" && mutators.contains c.name then false
  else
    match note with
    | none => true
    | some n => !n.codomain.any fun s => c.slotName? s == some argument

/-- The place, counted from one, of every name in a domain or codomain; of several the last. -/
def positions (c : Invocation) (slots : List Slot) : Table String Nat :=
  Table.ofEntries (slots.zipIdx.filterMap fun s =>
    (c.slotName? s.1).map fun name => (name, s.2 + 1))

/-- The argument, result, or slot of one of them that a dotted name stands for. -/
def exchanged? (r : Completion) (name : String) : Option Snapshot :=
  let (head, rest) := Text.cut '.' name
  let base := if head = resultPin then some r.value else Table.at? r.call.arguments head
  match rest with
  | none => base
  | some path => base.bind fun v => v.slot? (.path path)

/-- The note on the type of an object; no other value has one. -/
def noteOn (a : Annotator σ) (v : Snapshot) : StateM σ (Option NoteKey) :=
  match v.object? with
  | some o => do
    let note ← a.object o.type
    return note.map Note.key
  | none => return none

def pinFor (a : Annotator σ) (side : Side) (argument : String) (position : Option Nat)
    (value : Option Snapshot) : StateM σ Pin :=
  match value with
  | some v => do
    let note ← noteOn a v
    return ⟨side, some argument, position, note, v.objectId?, v.captured?, []⟩
  | none => return ⟨side, some argument, position, none, none, none, []⟩

def referenceTo (a : Annotator σ) (o : TrackedObject) : StateM σ Reference := do
  let note ← noteOn a o.value
  return ⟨some o.id, none, o.value.foreignType?, note⟩

/-- An object that goes into a call as an argument or inside of one. -/
structure Arrival where
  argument : String
  object : ObjectId
  reference : Reference

/-- A call as it begins. -/
structure Entrance where
  note : Option NoteKey
  pins : Table String Pin
  arrivals : List Arrival

/-- The objects that go in, by the arguments. -/
def arriving (settings : Settings) (c : Invocation) : List (String × TrackedObject) :=
  c.arguments.flatMap fun e =>
    (e.2.object?.toList ++ if settings.trackHidden then e.2.heldObjects else []).map fun o =>
      (e.1, o)

def entrance (a : Annotator σ) (settings : Settings) (c : Invocation) : StateM σ Entrance := do
  let note ← a.function c.function
  let domain := positions c ((note.map Note.domain).getD [])
  let pins ← c.arguments.mapM fun e => do
    let pin ← pinFor a .input e.1 (Table.at? domain e.1) (some e.2)
    return (e.1, pin)
  let arrivals ← (arriving settings c).mapM fun e => do
    let reference ← referenceTo a e.2
    return (⟨e.1, e.2.id, reference⟩ : Arrival)
  return ⟨note.map Note.key, pins, arrivals⟩

/-- An object that comes out of a call, with its slots where these are captured. -/
structure Production where
  pin : String
  object : ObjectId
  reference : Reference
  slots : Option (Table String Profile)

/-- A call as it ends. -/
structure Departure where
  pins : List (String × Pin)
  productions : List Production

/-- What comes out, by name, with the names of the pins. -/
def outputNames (r : Completion) (note : Option Note) : List (String × String) :=
  let results := match r.value with
    | .tuple items => (List.range items.length).map fun i => (memberPin i, memberPin i)
    | .none => []
    | _ => [(resultPin, resultPin)]
  let changed := (r.call.arguments.map Prod.fst).filter fun name => !isPure r.call note name
  results ++ changed.map fun name => (name, changedPin name)

/-- The objects that a call returns, alone or as members of a tuple, and those that it changes. -/
def produced (r : Completion) (note : Option Note) : List (String × TrackedObject) :=
  let results := match r.value with
    | .tuple items => items.zipIdx.filterMap fun v => v.1.object?.map fun o => (memberPin v.2, o)
    | v => v.object?.toList.map fun o => (resultPin, o)
  let changed := r.call.arguments.filter fun e => !isPure r.call note e.1
  results ++ changed.filterMap fun e => e.2.object?.map fun o => (changedPin e.1, o)

/-- The slots that the note on an object's type names, as far as the object has them. -/
def slotsOf (a : Annotator σ) (o : TrackedObject) : StateM σ (Option (Table String Profile)) := do
  let note ← a.object o.type
  match note with
  | none => return none
  | some n =>
    if n.slots.isEmpty then return none
    let found := n.slots.filterMap fun s => (o.slot? s.2).map fun v => (s.1, v)
    let slots ← found.mapM fun s => do
      let key ← noteOn a s.2
      return (s.1, ({ id := s.2.objectId?, note := key, value := s.2.captured? } : Profile))
    return some slots

def departure (a : Annotator σ) (settings : Settings) (r : Completion) : StateM σ Departure := do
  let note ← a.function r.call.function
  let codomain := positions r.call ((note.map Note.codomain).getD [])
  let pins ← (outputNames r note).mapM fun n => do
    let pin ← pinFor a .output n.1 (Table.at? codomain n.1) (exchanged? r n.1)
    return (n.2, pin)
  let productions ← (produced r note).mapM fun p => do
    let reference ← referenceTo a p.2
    let slots ← if settings.storeSlots then slotsOf a p.2 else pure none
    return (⟨p.1, p.2.id, reference, slots⟩ : Production)
  return ⟨pins, productions⟩

end Flow

end ObjectFlow
