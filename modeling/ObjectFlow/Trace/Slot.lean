import ObjectFlow.Text.Integer
import ObjectFlow.Trace.Snapshot

/-!
# Slots of values

A slot is an attribute, a member of a sequence or an entry of a dictionary. A path leads from slot
to slot; its parts are separated by points.
-/

namespace ObjectFlow

namespace Snapshot

/-- A negative position counts from the end. -/
def item? (items : List Snapshot) (i : Int64) : Option Snapshot :=
  if 0 ≤ i.toInt then items[i.toInt.toNat]?
  else if i.toInt.natAbs ≤ items.length then items[items.length - i.toInt.natAbs]?
  else Option.none

/-- The member of a tuple or list at a position. -/
def indexed? : Snapshot → Int64 → Option Snapshot
  | .tuple items, i => item? items i
  | .list items, i => item? items i
  | _, _ => Option.none

/-- Whether a part of a path names a key of a dictionary. -/
def isNamed (name : String) : Snapshot → Bool
  | .str s => s == name
  | .int i => Text.int64? name == some i
  | _ => false

/--
One part of a path: an attribute of an object, a position in a sequence, or a key of a dictionary.
-/
def part? (name : String) : Snapshot → Option Snapshot
  | .object _ _ attributes => Table.at? attributes name
  | .tuple items => (Text.int64? name).bind (item? items)
  | .list items => (Text.int64? name).bind (item? items)
  | .dict entries => (entries.find? fun e => isNamed name e.1).map Prod.snd
  | _ => Option.none

def follow? (v : Snapshot) (path : List String) : Option Snapshot :=
  path.foldlM (fun v name => v.part? name) v

/-- A bound method is no slot. -/
def unlessMethod (v : Snapshot) : Option Snapshot := if v.isMethod then Option.none else some v

/--
The slot of a value. A position counts modulo `2 ^ 64`, so that the upper half counts from the
end.
-/
def slot? (v : Snapshot) : Slot → Option Snapshot
  | .index i => (v.indexed? (Int64.ofNat i)).bind unlessMethod
  | .path path => (v.follow? (Text.split '.' path)).bind unlessMethod

end Snapshot

/-- The slot of an object: an attribute, and the rest of the path from there. -/
def TrackedObject.slot? (o : TrackedObject) : Slot → Option Snapshot
  | .index _ => none
  | .path path =>
    let (head, rest) := Text.cut '.' path
    (Table.at? o.attributes head).bind fun v =>
      match rest with
      | none => v.unlessMethod
      | some rest => v.slot? (.path rest)

end ObjectFlow
