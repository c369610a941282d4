import ObjectFlow.Store.Annotator

/-!
# Asking once

An annotator that remembers its answers gives the first answer again; a function is remembered by
its names alone, and a type with its ancestors.
-/

namespace ObjectFlow

/-- A function is remembered by its names and the full name of its receiver's type. -/
structure FunctionKey where
  module : String
  qualifiedName : String
  boundType : Option String
deriving DecidableEq, Repr

def Callee.key (f : Callee) : FunctionKey :=
  ⟨f.module, f.qualifiedName, f.boundType.map RuntimeType.fullName⟩

/-- The answers that were given so far, and the state from which new ones come. -/
structure Memory (σ : Type) where
  state : σ
  functions : Table FunctionKey (Option Note) := []
  types : Table RuntimeType (Option Note) := []

namespace Memory

variable {σ : Type}

def function (a : Annotator σ) (f : Callee) (m : Memory σ) : Option Note × Memory σ :=
  match Table.at? m.functions f.key with
  | some note => (note, m)
  | none =>
    let (note, state) := a.function f m.state
    (note, { m with state := state, functions := Table.put m.functions f.key note })

def object (a : Annotator σ) (type : RuntimeType) (m : Memory σ) : Option Note × Memory σ :=
  match Table.at? m.types type with
  | some note => (note, m)
  | none =>
    let (note, state) := a.object type m.state
    (note, { m with state := state, types := Table.put m.types type note })

end Memory

/-- The same annotator, asked no question twice. -/
def Annotator.remembering {σ : Type} (a : Annotator σ) : Annotator (Memory σ) :=
  ⟨Memory.function a, Memory.object a⟩

end ObjectFlow
