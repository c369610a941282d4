import ObjectFlow.Ontology.Basic

/-!
# Inherited supertypes and aspects

The supertypes of a type are visited by their distance, each of them once, and the roots come last.
The first declaration of an aspect on this way counts.
-/

namespace ObjectFlow

/-- A type with its supertypes, nearest first, and the aspects that they declare. -/
structure Inherited where
  supertypes : List String := []
  aspects : Table String Aspect := []
  /-- The roots of those types that declare no supertype. -/
  roots : List RootKind := []
deriving DecidableEq, Repr

namespace Inherited

/-- Adds aspects whose names are not taken. -/
def declare (aspects : Table String Aspect) (new : List Aspect) : Table String Aspect :=
  new.foldl (fun t a => if Table.holds t a.name then t else Table.put t a.name a) aspects

def add (i : Inherited) (t : OntologyType) : Inherited where
  supertypes := i.supertypes ++ [t.name]
  aspects := declare i.aspects t.aspects
  roots := if t.supertypes.isEmpty && !i.roots.contains t.root then i.roots ++ [t.root] else i.roots

end Inherited

namespace Ontology

/-- Visits the types of a queue, and behind them the supertypes that they declare. -/
def climb (o : Ontology) (fresh : List String) (found : Inherited) :
    List String → Except OntologyError Inherited
  | [] => .ok found
  | name :: queue =>
    if fresh.contains name then
      match o.type? name with
      | none => .error (.typeNotFound name)
      | some t =>
        match t.supertypes.find? fun s => (o.type? s).isNone with
        | some missing => .error (.typeNotFound missing)
        | none => climb o (fresh.erase name) (found.add t) (queue ++ t.supertypes)
    else climb o fresh found queue
termination_by queue => (fresh.length, queue.length)
decreasing_by
  · apply Prod.Lex.left
    have h : name ∈ fresh := by simpa using ‹fresh.contains name = true›
    have := List.length_pos_of_mem h
    rw [List.length_erase_of_mem h]
    omega
  · apply Prod.Lex.right
    simp

/-- Adds the root types that were not met on the way. -/
def addRoots (o : Ontology) (i : Inherited) : Inherited :=
  i.roots.foldl
    (fun acc kind =>
      match o.type? kind.label with
      | none => acc
      | some t =>
        if acc.supertypes.contains t.name then acc
        else { acc with
          supertypes := acc.supertypes ++ [t.name]
          aspects := Inherited.declare acc.aspects t.aspects })
    i

/--
Supertypes in the order of their distance, and aspects of which the nearest declaration counts.
-/
def inherited (o : Ontology) (name : String) : Except OntologyError Inherited :=
  match o.type? name with
  | none => .error (.typeNotFound name)
  | some t => do
    let i ← o.climb o.names {} [t.name]
    return o.addRoots i

def isSubtype (o : Ontology) (sub sup : String) : Bool :=
  match o.inherited sub with
  | .ok i => i.supertypes.contains sup
  | .error _ => false

/-- The lower of two types, where one is a subtype of the other. -/
def mostSpecific (o : Ontology) (left right : String) : Except OntologyError String :=
  if left = right then .ok left
  else if o.isSubtype left right then .ok left
  else if o.isSubtype right left then .ok right
  else .error (.incomparable left right)

/-- The first supertype of one type that the other has too. -/
def commonSupertype? (o : Ontology) (left right : String) : Option String :=
  match o.inherited left, o.inherited right with
  | .ok l, .ok r => l.supertypes.find? fun name => r.supertypes.contains name
  | _, _ => none

end Ontology

end ObjectFlow
