import ObjectFlow.Json.Value

/-!
# Outlines of texts

An outline is what the grammar alone sees of a text: its containers, and for every literal the value
that it stands for. A literal may keep to the grammar and yet stand for nothing, as a number that is
too large and a text with half of a pair do. Such literals, and containers that lie too deep, matter
only where a reader looks; `Outline.within?` is the value of what it looks at.
-/

namespace ObjectFlow.Json

inductive Outline where
  | scalar (value : Option Json)
  | arr (items : List Outline)
  | obj (members : List (Option String × Outline))
deriving Inhabited

/-- How much of a document is looked at: all of it, or of its records the members that they know. -/
inductive Extent where
  | whole
  | list (items : Extent)
  | record (members : List (String × Extent))

namespace Extent

/-- A record whose members are all looked at as a whole. -/
def members (names : List String) : Extent := .record (names.map fun name => (name, .whole))

/-- What is looked at of an item; a record may be written as the list of its members. -/
def item : Extent → Nat → Extent
  | .whole, _ => .whole
  | .list items, _ => items
  | .record members, i => (members[i]?.map Prod.snd).getD .whole

/-- What is looked at of a member; `none` where it is skipped. -/
def member? : Extent → String → Option Extent
  | .record members, name => Table.at? members name
  | _, _ => some .whole

@[simp] theorem item_whole (i : Nat) : item .whole i = .whole := rfl

@[simp] theorem member?_whole (name : String) : member? .whole name = some .whole := rfl

end Extent

namespace Outline

mutual

/--
The value of an outline without the members that are skipped, inside of which so many more
containers may be open at a time. The name of a member must be a text also where it is skipped.
-/
def within? (extent : Extent) (room : Nat) : Outline → Option Json
  | .scalar value => value
  | .arr items =>
    match room with
    | 0 => none
    | room + 1 => (itemsWithin? extent 0 room items).map Json.arr
  | .obj members =>
    match room with
    | 0 => none
    | room + 1 => (membersWithin? extent room members).map Json.obj

def itemsWithin? (extent : Extent) (index room : Nat) : List Outline → Option (List Json)
  | [] => some []
  | o :: rest => do
    let j ← within? (extent.item index) room o
    let js ← itemsWithin? extent (index + 1) room rest
    return j :: js

def membersWithin? (extent : Extent) (room : Nat) :
    List (Option String × Outline) → Option (List (String × Json))
  | [] => some []
  | (name, o) :: rest => do
    let name ← name
    match extent.member? name with
    | none => membersWithin? extent room rest
    | some extent' =>
      let j ← within? extent' room o
      let ms ← membersWithin? extent room rest
      return (name, j) :: ms

end

end Outline

end ObjectFlow.Json
