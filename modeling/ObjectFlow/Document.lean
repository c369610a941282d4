import ObjectFlow.Graph.Error
import ObjectFlow.Json.Value

/-!
# Reading records from documents

A record is read member by member. A member that it does not know is ignored, one that is written
twice is refused, and each of the others is required, or has a default, or may be null. A document
that describes no graph fails with the reason; any other wrong document is just malformed.

A record that names its variant in one of its members is set aside as a whole until that name is
known; from there on names may be written in a few more ways (`Origin`).
-/

namespace ObjectFlow

/-- A document has the wrong form, or it has the right form and describes no graph. -/
inductive DecodeError where
  | malformed
  | graph (cause : GraphError)
deriving DecidableEq, Repr

namespace Document

/-- Whether a value is read as it stands in the document or after it has been set aside. -/
inductive Origin where
  | document
  | aside
deriving DecidableEq, Repr

/-- The members of a record by name. -/
abbrev Fields := Table String Json

def repeats : List String → Bool
  | [] => false
  | n :: rest => rest.contains n || repeats rest

/--
The members of an object that a record knows; each may stand once, and all others are ignored.
-/
def members (names : List String) (ms : List (String × Json)) : Except DecodeError Fields :=
  let known := ms.filter fun m => names.contains m.1
  if repeats (known.map Prod.fst) then .error .malformed else .ok known

/-- The members of a record, which a list gives in the order of the names. -/
def leading (names : List String) : Json → Except DecodeError Fields
  | .obj ms => members names ms
  | .arr items => .ok (names.zip items)
  | _ => .error .malformed

/-- Whether a list goes on behind the last member of its record. -/
def goesOn (names : List String) : Json → Bool
  | .arr items => names.length < items.length
  | _ => false

/-- A record is an object, or the list of its members in the order of the names. -/
def record (names : List String) (j : Json) : Except DecodeError Fields :=
  if goesOn names j then .error .malformed else leading names j

variable {α : Type}

def required (fs : Fields) (name : String) (read : Json → Except DecodeError α) :
    Except DecodeError α :=
  match Table.at? fs name with
  | some j => read j
  | none => .error .malformed

/-- A member that may be missing, but not be null. -/
def defaulted (fs : Fields) (name : String) (value : α) (read : Json → Except DecodeError α) :
    Except DecodeError α :=
  match Table.at? fs name with
  | some j => read j
  | none => .ok value

/-- A member that may be missing or null. -/
def optional (fs : Fields) (name : String) (read : Json → Except DecodeError α) :
    Except DecodeError (Option α) :=
  match Table.at? fs name with
  | none => .ok none
  | some .null => .ok none
  | some j => (read j).map some

def text : Json → Except DecodeError String
  | .str s => .ok s
  | _ => .error .malformed

def flag : Json → Except DecodeError Bool
  | .bool b => .ok b
  | _ => .error .malformed

def natBelow (limit : Nat) : Json → Except DecodeError Nat
  | .int (.ofNat n) => if n < limit then .ok n else .error .malformed
  | _ => .error .malformed

/-- Any value; of members with one name the last counts. -/
def anything (j : Json) : Except DecodeError Json := .ok j.merged

def readAll (read : Json → Except DecodeError α) : List Json → Except DecodeError (List α)
  | [] => .ok []
  | j :: rest => do
    let a ← read j
    let as ← readAll read rest
    return a :: as

def list (read : Json → Except DecodeError α) : Json → Except DecodeError (List α)
  | .arr items => readAll read items
  | _ => .error .malformed

def readEntries (read : Json → Except DecodeError α) :
    List (String × Json) → Except DecodeError (List (String × α))
  | [] => .ok []
  | (k, j) :: rest => do
    let a ← read j
    let as ← readEntries read rest
    return (k, a) :: as

/-- An object as a table from names to values. -/
def table (read : Json → Except DecodeError α) : Json → Except DecodeError (Table String α)
  | .obj ms => (readEntries read ms).map Table.ofEntries
  | _ => .error .malformed

/--
One of a fixed set of names, also written as an object whose only member has that name and is
null, or is empty where the object was set aside.
-/
def name (origin : Origin) : Json → Except DecodeError String
  | .str s => .ok s
  | .obj [(s, .null)] => .ok s
  | .obj [(s, .obj [])] => if origin = .aside then .ok s else .error .malformed
  | _ => .error .malformed

def chosen : Option α → Except DecodeError α
  | some a => .ok a
  | none => .error .malformed

def oneOf (origin : Origin) (choices : List (String × α)) (j : Json) : Except DecodeError α := do
  let s ← name origin j
  chosen (Table.at? choices s)

/--
The variant at the head of a list: its name, or its position among the names where the list was set
aside.
-/
def head (origin : Origin) (choices : List (String × α)) : Json → Except DecodeError α
  | .str s => chosen (Table.at? choices s)
  | .int (.ofNat i) =>
    if origin = .aside then chosen (choices[i]?.map Prod.snd) else .error .malformed
  | _ => .error .malformed

/-- A record that names its variant in a member of its own, or at the head of a list. -/
def variant (tag : String) : Json → Except DecodeError (String × Json)
  | .obj ms => do
    let fs ← members [tag] ms
    let s ← required fs tag text
    return (s, .obj (ms.filter fun m => m.1 ≠ tag))
  | .arr (.str s :: items) => .ok (s, .arr items)
  | _ => .error .malformed

/-- An identity that a generated number makes up, from the number's text. -/
def identity (make : Nat → α) (j : Json) : Except DecodeError α := do
  let s ← text j
  chosen ((Text.Uuid.parse? s).map make)

def nodeId : Json → Except DecodeError NodeId := identity NodeId.mk

def edgeId : Json → Except DecodeError EdgeId := identity EdgeId.mk

def objectId (j : Json) : Except DecodeError ObjectId := (text j).map ObjectId.mk

/-- A handle is an unsigned number of 32 bits. -/
def handle (j : Json) : Except DecodeError Handle := (natBelow 4294967296 j).map Handle.mk

/-- The failure of a member, under its name. -/
def failed (key : String) : Except DecodeError α → List (String × DecodeError)
  | .ok _ => []
  | .error e => [(key, e)]

/--
The failure of the member that stands first in the document; a missing member, or a list that goes
on, is noticed last.
-/
def firstFailure (fs : Fields) (failures : List (String × DecodeError)) : DecodeError :=
  ((fs.findSome? fun f => Table.at? failures f.1)).getD .malformed

/-- A member that is written only where there is a value. -/
def given (key : String) (write : α → Json) : Option α → List (String × Json)
  | none => []
  | some a => [(key, write a)]

/-- A member that is written unless it is empty. -/
def unlessEmpty (key : String) (write : List α → Json) (as : List α) : List (String × Json) :=
  if as.isEmpty then [] else [(key, write as)]

def texts (names : List String) : Json := .arr (names.map Json.str)

def writeIdentity (value : α → Nat) (a : α) : Json := .str (Text.Uuid.hyphenated (value a))

def writeNode : NodeId → Json := writeIdentity NodeId.value

def writeEdge : EdgeId → Json := writeIdentity EdgeId.value

def writeObject (id : ObjectId) : Json := .str id.text

def writeHandle (h : Handle) : Json := .int h.index

def writeTable (write : α → Json) (t : Table String α) : Json :=
  .obj (t.map fun e => (e.1, write e.2))

end Document

end ObjectFlow
