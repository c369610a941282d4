import ObjectFlow.Decimal.Shortest
import ObjectFlow.Json.Value
import ObjectFlow.Text.Utf8
import ObjectFlow.Trace.Snapshot

/-!
# Literal payloads

A value that holds no object, method or untracked value is captured as JSON. A dictionary becomes
an object, whose names are the texts of the keys.
-/

namespace ObjectFlow

inductive PayloadError where
  | notJsonable (typeName : String)
  | keyCollision (key : String)
  | unsupportedKey (kind : String)
deriving DecidableEq, Repr

def PayloadError.message : PayloadError → String
  | .notJsonable typeName => "value of type '" ++ typeName ++ "' is not JSON-able"
  | .keyCollision key => "dictionary key collision on '" ++ key ++ "'"
  | .unsupportedKey kind => "unsupported dictionary key of kind '" ++ kind ++ "'"

/-- The name of a number that JSON cannot write. -/
def Binary64.irregular (x : Binary64) : String :=
  if x.isNaN then "nan" else if x.negative then "-inf" else "inf"

/--
A number as a key: whole numbers below `10 ^ 16` keep a zero behind the point, and no number has
an exponent. Of two equally near decimals the one farther from zero is written.
-/
def Binary64.keyText (x : Binary64) : String :=
  if !x.isFinite then x.irregular
  else
    let d := Decimal.shortest .upward x
    let body := d.plain (if d.exponent < 16 then ['.', '0'] else [])
    String.ofList (if x.negative then '-' :: body else body)

namespace Snapshot

/-- The text of a scalar that stands as a key. -/
def keyText : Snapshot → Except PayloadError String
  | .str s => .ok s
  | .int i => .ok (toString i.toInt)
  | .float x => .ok x.keyText
  | .bool true => .ok "True"
  | .bool false => .ok "False"
  | .none => .ok "None"
  | v => .error (.unsupportedKey v.typeName)

mutual

/-- The value as JSON, or the first part of it that stands in the way. -/
def payload : Snapshot → Except PayloadError Json
  | .none => .ok .null
  | .bool b => .ok (.bool b)
  | .int i => .ok (.int i.toInt)
  | .float x => .ok (if x.isFinite then .float x else .str x.irregular)
  | .str s => .ok (.str s)
  | .bytes octets => .ok (.str (Text.Utf8.text (octets.map UInt8.toNat)))
  | .tuple items => (payloads items).map .arr
  | .list items => (payloads items).map .arr
  | .set items => (payloads items).map .arr
  | .dict entries => (payloadEntries [] entries).map .obj
  | .object _ type _ => .error (.notJsonable type.fullName)
  | .method _ _ => .error (.notJsonable "method")
  | .untracked type => .error (.notJsonable type.fullName)

def payloads : List Snapshot → Except PayloadError (List Json)
  | [] => .ok []
  | v :: rest => do
    let j ← payload v
    let js ← payloads rest
    return j :: js

/-- The entries of a dictionary; each key is looked at before its value. -/
def payloadEntries (taken : List String) :
    List (Snapshot × Snapshot) → Except PayloadError (List (String × Json))
  | [] => .ok []
  | (k, v) :: rest => do
    let key ← keyText k
    if taken.contains key then .error (.keyCollision key)
    let j ← payload v
    let more ← payloadEntries (key :: taken) rest
    return (key, j) :: more

end

def isPrimitive (v : Snapshot) : Bool :=
  match v.payload with
  | .ok _ => true
  | .error _ => false

/-- What is kept of a value beside its identity: its payload, unless it is an object or nothing. -/
def captured? : Snapshot → Option Json
  | .none => Option.none
  | .object _ _ _ => Option.none
  | v =>
    match v.payload with
    | .ok j => some j
    | .error _ => Option.none

end Snapshot

end ObjectFlow
