import ObjectFlow.Profile

/-!
# Calls and the references between them

A call has pins: one for every argument that goes in, and one for the result and for every argument
that the call changes.
-/

namespace ObjectFlow

inductive Side where
  | input
  | output
deriving DecidableEq, Repr

def Side.names : List (String × Side) := [("input", input), ("output", output)]

namespace Flow

structure Pin where
  side : Side
  /-- The argument that goes in or comes back through the pin. -/
  argument : Option String := none
  /-- The place, counted from one, in the domain or codomain of the call's note. -/
  position : Option Nat := none
  note : Option NoteKey := none
  id : Option ObjectId := none
  value : Option Json := none
  slots : Table String Profile := []

/-- What is known about the object that passes through a pin. -/
def Pin.profile (p : Pin) : Profile := ⟨p.id, p.note, p.value, none, p.slots⟩

structure Call where
  module : String
  qualifiedName : String
  pins : Table String Pin
  /-- The attribute, where the call gets one. -/
  slot : Option String := none
  note : Option NoteKey := none
  /-- The graph of the body, where that was traced. -/
  body : Option Handle := none

namespace Call

def fullName (c : Call) : String := c.module ++ "." ++ c.qualifiedName

def pinsOf (c : Call) (s : Side) : Table String Pin := c.pins.filter fun p => p.2.side = s

end Call

/-- A call, or one of the two markers between which a body lies. -/
inductive Node where
  | input
  | output
  | call (c : Call)

namespace Node

def call? : Node → Option Call
  | .call c => some c
  | _ => none

/-- Changes a call and leaves a marker as it is. -/
def mapCall (f : Call → Call) : Node → Node
  | .call c => .call (f c)
  | n => n

end Node

/-- What is known about an object that is handed on. -/
structure Reference where
  id : Option ObjectId := none
  value : Option Json := none
  type : Option RuntimeType := none
  note : Option NoteKey := none

/-- A reference that goes from a pin to a pin; a marker has no pins. -/
structure Link where
  object : Reference := {}
  sourcePin : Option String := none
  targetPin : Option String := none

def Link.carries (l : Link) (id : Option ObjectId) : Bool := id.isSome && l.object.id == id

end Flow

end ObjectFlow
