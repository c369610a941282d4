import ObjectFlow.Table
import ObjectFlow.Text.Order

/-!
# Notes on library functions and classes

A note says to which functions or classes of a language it applies, and what they are in terms of an
ontology: the type, the arguments that count as inputs and outputs, the attributes that count as
slots.
-/

namespace ObjectFlow

/--
A note is identified by the language and the package that it belongs to, and a name within them.
-/
structure NoteKey where
  language : String
  package : String
  id : String
deriving DecidableEq, Repr

namespace NoteKey

def label (k : NoteKey) : String := k.language ++ "/" ++ k.package ++ "/" ++ k.id

/-- The text has three parts, none of them empty; the last one may hold further slashes. -/
def ofText? (s : String) : Option NoteKey :=
  match Text.cut '/' s with
  | (_, none) => none
  | (language, some rest) =>
    match Text.cut '/' rest with
    | (_, none) => none
    | (package, some id) =>
      if language.isEmpty || package.isEmpty || id.isEmpty then none
      else some ⟨language, package, id⟩

/-- What is said of a text that is no key. -/
def refusal (s : String) : String := "malformed annotation key: '" ++ s ++ "'"

end NoteKey

/-- An argument by its position, or an argument or attribute path by name. -/
inductive Slot where
  | index (i : Nat)
  | path (name : String)
deriving DecidableEq, Repr

def Slot.label : Slot → String
  | .index i => toString i
  | .path name => name

inductive NoteKind where
  | object
  | morphism
deriving DecidableEq, Repr

/-- What is known about a class (`object`) or about a function or method (`morphism`). -/
structure Note where
  language : String
  package : String
  id : String
  kind : NoteKind
  function : Option String
  method : Option String
  /-- The classes that a type must have, all of them, for the note to apply. -/
  classes : List String
  typeName : Option String
  domain : List Slot
  codomain : List Slot
  slots : Table String Slot
deriving DecidableEq, Repr

def Note.key (n : Note) : NoteKey := ⟨n.language, n.package, n.id⟩

/-- A runtime class with the full names of its ancestors, nearest first. -/
structure RuntimeType where
  module : String
  qualifiedName : String
  bases : List String
deriving DecidableEq, Repr

namespace RuntimeType

def fullName (t : RuntimeType) : String := t.module ++ "." ++ t.qualifiedName

/-- The class itself and then its ancestors. -/
def lineage (t : RuntimeType) : List String := t.fullName :: t.bases

def isBuiltin (t : RuntimeType) : Bool := t.module == "builtins"

end RuntimeType

/-- A called function, with the type of the receiver where it is a method. -/
structure Callee where
  module : String
  qualifiedName : String
  boundType : Option RuntimeType
deriving DecidableEq, Repr

namespace Callee

def fullName (f : Callee) : String := f.module ++ "." ++ f.qualifiedName

/-- What follows the last point of the qualified name. -/
def name (f : Callee) : String := ((Text.split '.' f.qualifiedName).getLast?).getD f.qualifiedName

end Callee

end ObjectFlow
