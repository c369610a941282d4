import ObjectFlow.Binary64
import ObjectFlow.Table

/-!
# JSON values

Objects keep the order of their members and, as they are read, also repeated names; `merged` leaves
one member of each name.
-/

namespace ObjectFlow

/-- Whole numbers and floating-point numbers are different values. -/
inductive Json where
  | null
  | bool (b : Bool)
  | int (n : Int)
  | float (x : Binary64)
  | str (s : String)
  | arr (items : List Json)
  | obj (members : List (String × Json))
deriving Inhabited

namespace Json

def isNull : Json → Bool
  | .null => true
  | _ => false

def isObject : Json → Bool
  | .obj _ => true
  | _ => false

def text? : Json → Option String
  | .str s => some s
  | _ => none

/-- The value of an object's first member of a name. -/
def member? : Json → String → Option Json
  | .obj members, name => Table.at? members name
  | _, _ => none

mutual

/-- Equality, which does not see the order of an object's members. -/
def same : Json → Json → Bool
  | .null, .null => true
  | .bool a, .bool b => a == b
  | .int a, .int b => a == b
  | .float a, .float b => Binary64.equal a b
  | .str a, .str b => a == b
  | .arr as, .arr bs => sameItems as bs
  | .obj as, .obj bs => as.length == bs.length && sameMembers as bs
  | _, _ => false

def sameItems : List Json → List Json → Bool
  | [], [] => true
  | a :: as, b :: bs => same a b && sameItems as bs
  | _, _ => false

/-- Every member of the first list has an equal one in the second. -/
def sameMembers : List (String × Json) → List (String × Json) → Bool
  | [], _ => true
  | (k, a) :: as, bs =>
    (match Table.at? bs k with
      | some b => same a b
      | none => false) && sameMembers as bs

end

mutual

/-- Of members with one name the last counts, at the place of the first. -/
def merged : Json → Json
  | .arr items => .arr (mergedItems items)
  | .obj members => .obj (Table.ofEntries (mergedMembers members))
  | .null => .null
  | .bool b => .bool b
  | .int n => .int n
  | .float x => .float x
  | .str s => .str s

def mergedItems : List Json → List Json
  | [] => []
  | j :: rest => merged j :: mergedItems rest

def mergedMembers : List (String × Json) → List (String × Json)
  | [] => []
  | (k, j) :: rest => (k, merged j) :: mergedMembers rest

end

end Json

end ObjectFlow
