import ObjectFlow.Binary64
import ObjectFlow.Identity
import ObjectFlow.Note.Basic

/-!
# Snapshots of runtime values

A tracked object has an identity and a snapshot of its attributes. Builtin containers have no
identity of their own; they hold their members.
-/

namespace ObjectFlow

inductive Snapshot where
  | none
  | bool (b : Bool)
  | int (i : Int64)
  | float (x : Binary64)
  | str (s : String)
  | bytes (octets : List UInt8)
  | tuple (items : List Snapshot)
  | list (items : List Snapshot)
  | set (items : List Snapshot)
  | dict (entries : List (Snapshot × Snapshot))
  | object (id : ObjectId) (type : RuntimeType) (attributes : List (String × Snapshot))
  | method (name : String) (receiver : Option ObjectId)
  /-- A value that is neither tracked nor made of such parts: only its type is known. -/
  | untracked (type : RuntimeType)
deriving Inhabited

/-- The kinds of values, in the order in which they are numbered. -/
inductive Snapshot.Kind where
  | none
  | bool
  | int
  | float
  | str
  | bytes
  | tuple
  | list
  | set
  | dict
  | object
  | method
  | untracked
deriving DecidableEq, Repr

/-- A tracked object, taken out of the value that it is. -/
structure TrackedObject where
  id : ObjectId
  type : RuntimeType
  attributes : Table String Snapshot

def TrackedObject.value (o : TrackedObject) : Snapshot := .object o.id o.type o.attributes

namespace Snapshot

def object? : Snapshot → Option TrackedObject
  | .object id type attributes => some ⟨id, type, attributes⟩
  | _ => Option.none

def objectId? (v : Snapshot) : Option ObjectId := v.object?.map TrackedObject.id

def isNone : Snapshot → Bool
  | .none => true
  | _ => false

def isMethod : Snapshot → Bool
  | .method _ _ => true
  | _ => false

/-- The class of an object or untracked value, unless it is built in. -/
def foreignType? : Snapshot → Option RuntimeType
  | .object _ type _ => if type.isBuiltin then Option.none else some type
  | .untracked type => if type.isBuiltin then Option.none else some type
  | _ => Option.none

def typeName : Snapshot → String
  | .none => "NoneType"
  | .bool _ => "bool"
  | .int _ => "int"
  | .float _ => "float"
  | .str _ => "str"
  | .bytes _ => "bytes"
  | .tuple _ => "tuple"
  | .list _ => "list"
  | .set _ => "set"
  | .dict _ => "dict"
  | .object _ type _ => type.fullName
  | .method _ _ => "method"
  | .untracked type => type.fullName

/-- The values that a builtin container holds directly, keys before their values. -/
def members : Snapshot → List Snapshot
  | .tuple items => items
  | .list items => items
  | .set items => items
  | .dict entries => entries.flatMap fun e => [e.1, e.2]
  | _ => []

/-- The first object of every identity. -/
def distinctObjects : List TrackedObject → List ObjectId → List TrackedObject
  | [], _ => []
  | o :: rest, seen =>
    if seen.contains o.id then distinctObjects rest seen
    else o :: distinctObjects rest (o.id :: seen)

/-- The tracked objects that a builtin container holds directly, each of them once. -/
def heldObjects (v : Snapshot) : List TrackedObject :=
  distinctObjects (v.members.filterMap object?) []

@[simp] theorem object?_value (o : TrackedObject) : o.value.object? = some o := rfl

end Snapshot

end ObjectFlow
