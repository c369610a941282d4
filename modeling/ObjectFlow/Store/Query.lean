import ObjectFlow.Json.Printer

/-!
# Queries over documents

A query compares members of a document with values, with lists of values, or with further queries,
and has a notation in JSON.
-/

namespace ObjectFlow

/-- A condition on one member of a document, or a choice between queries. -/
inductive Clause where
  | equals (key : String) (value : Json)
  | oneOf (key : String) (values : List Json)
  | nested (key : String) (query : List Clause)
  | anyOf (queries : List (List Clause))
deriving Inhabited

/-- All clauses of a query must hold. -/
abbrev Query := List Clause

inductive QueryError where
  | unsupportedOperator (operator : String)
  | notAnObject (found : Json)
  | orWithoutList
  | inWithoutList
  | inBesideOthers

def QueryError.message : QueryError → String
  | .unsupportedOperator operator => "unsupported query operator: '" ++ operator ++ "'"
  | .notAnObject found => "malformed query: expected an object, got " ++ found.compact
  | .orWithoutList => "malformed query: $or expects an array of queries"
  | .inWithoutList => "malformed query: $in expects an array"
  | .inBesideOthers => "malformed query: $in cannot be combined with other keys"

namespace Query

def isOperator (key : String) : Bool := key.toList.head? == some '$'

mutual

/-- Whether a document satisfies a clause. -/
def clauseHolds : Clause → Json → Bool
  | .equals key value, doc =>
    match doc.member? key with
    | some field => Json.same field value
    | none => false
  | .oneOf key values, doc =>
    match doc.member? key with
    | some field => values.any fun value => Json.same value field
    | none => false
  | .nested key query, doc =>
    match doc.member? key with
    | some field => field.isObject && allHold query field
    | none => false
  | .anyOf queries, doc => anyHolds queries doc

def allHold : List Clause → Json → Bool
  | [], _ => true
  | c :: rest, doc => clauseHolds c doc && allHold rest doc

def anyHolds : List (List Clause) → Json → Bool
  | [], _ => false
  | q :: rest, doc => allHold q doc || anyHolds rest doc

end

def holds (q : Query) (doc : Json) : Bool := allHold q doc

mutual

def clauseEntry : Clause → String × Json
  | .equals key value => (key, value)
  | .oneOf key values => (key, .obj [("$in", .arr values)])
  | .nested key query => (key, .obj (Table.ofEntries (entries query)))
  | .anyOf queries => ("$or", .arr (notations queries))

def entries : List Clause → List (String × Json)
  | [] => []
  | c :: rest => clauseEntry c :: entries rest

def notations : List (List Clause) → List Json
  | [] => []
  | q :: rest => .obj (Table.ofEntries (entries q)) :: notations rest

end

/-- A query as a document: of clauses on one key the last is written. -/
def toJson (q : Query) : Json := .obj (Table.ofEntries (entries q))

def text (q : Query) : String := q.toJson.compact

/-- The operator that keeps an object from being a nested query, unless it is a lone `$in`. -/
def refusal? (members : List (String × Json)) : Option QueryError :=
  match (members.map Prod.fst).filter isOperator with
  | [] => none
  | operators =>
    match operators.find? fun o => o ≠ "$in" with
    | some o => some (.unsupportedOperator o)
    | none => if members.length = 1 then none else some .inBesideOthers

mutual

/-- Reads a query from its notation. -/
def ofJson : Json → Except QueryError Query
  | .obj members => ofMembers members
  | j => .error (.notAnObject j)

def ofMembers : List (String × Json) → Except QueryError Query
  | [] => .ok []
  | (key, j) :: rest => do
    let c ← if key = "$or" then alternatives j
      else if isOperator key then .error (.unsupportedOperator key)
      else condition key j
    let q ← ofMembers rest
    return c :: q

def alternatives : Json → Except QueryError Clause
  | .arr items => do
    let qs ← ofItems items
    return .anyOf qs
  | _ => .error .orWithoutList

def ofItems : List Json → Except QueryError (List Query)
  | [] => .ok []
  | j :: rest => do
    let q ← ofJson j
    let qs ← ofItems rest
    return q :: qs

def condition (key : String) : Json → Except QueryError Clause
  | .obj members =>
    match refusal? members with
    | some e => .error e
    | none =>
      if (members.map Prod.fst).any isOperator then
        match Table.at? members "$in" with
        | some (.arr values) => .ok (.oneOf key values)
        | _ => .error .inWithoutList
      else do
        let q ← ofMembers members
        return .nested key q
  | j => .ok (.equals key j)

end

end Query

end ObjectFlow
