import ObjectFlow.Proofs.Trace.Slot

/-!
# Paths from slot to slot

Each part of a path leads from an object to an attribute, from a sequence to a member or from a
dictionary to an entry (`Leads`), and the path arrives at what its last part leads to (`Arrives`).
The slots of an object are found by cutting off the first part, and those of a value by following
all parts in a row. For the value that is the object both find the same (`slot?_value`).

`Leads` and `Arrives` are given by what a value is made of, without the functions that look for
slots. They answer in how far a part may be ambiguous: of the entries in a dictionary the first
counts that the part names, and a number that is negative counts from the end.
-/

namespace ObjectFlow

namespace Snapshot

/-- What one part of a path leads to. -/
inductive Leads : Snapshot → String → Snapshot → Prop where
  | attr {id type attributes name w} (found : Table.at? attributes name = some w) :
    Leads (.object id type attributes) name w
  /-- The part is a number, which counts from the end if it is negative. -/
  | member {v items name k w} {p : Nat} (sequence : v.IsSequence items)
    (number : Text.int64? name = some k) (found : items[p]? = some w)
    (place : (p : Int) = if 0 ≤ k.toInt then k.toInt else items.length + k.toInt) : Leads v name w
  /-- The part is the key of an entry, or a number that is, and of no entry before. -/
  | entry {before : List (Snapshot × Snapshot)} {key w after name}
    (named : isNamed name key = true) (first : ∀ e ∈ before, isNamed name e.1 = false) :
    Leads (.dict (before ++ (key, w) :: after)) name w

/-- What the parts of a path lead to, one after the other. -/
inductive Arrives : Snapshot → List String → Snapshot → Prop where
  | here {v} : Arrives v [] v
  | next {v name w path x} (first : Leads v name w) (rest : Arrives w path x) :
    Arrives v (name :: path) x

variable {v w : Snapshot} {name : String} {path : List String}

/-- What is found under one part is what it leads to. -/
theorem part?_eq_some_iff : v.part? name = some w ↔ Leads v name w := by
  constructor
  · intro h
    have hmember : ∀ items, v.IsSequence items → (Text.int64? name).bind (item? items) = some w →
        Leads v name w := by
      intro items hv hw
      obtain ⟨k, hk, hw⟩ := Option.bind_eq_some_iff.1 hw
      obtain ⟨p, hp, hplace⟩ := item?_eq_some_iff.1 hw
      exact .member hv hk hp hplace
    cases v with
    | object id type attributes => exact .attr h
    | tuple items => exact hmember items (.inl rfl) h
    | list items => exact hmember items (.inr rfl) h
    | dict entries =>
      obtain ⟨⟨key, x⟩, hfind, rfl⟩ := Option.map_eq_some_iff.1 h
      obtain ⟨hnamed, before, after, rfl, hfirst⟩ := List.find?_eq_some_iff_append.1 hfind
      exact .entry hnamed fun e he => by simpa using hfirst e he
    | _ => cases h
  · intro h
    cases h with
    | attr found => exact found
    | member sequence number found place =>
      have hitem := item?_eq_some_iff.2 ⟨_, found, place⟩
      rcases sequence with rfl | rfl <;> exact Option.bind_eq_some_iff.2 ⟨_, number, hitem⟩
    | @entry before key w after name named first =>
      have hfind : (before ++ (key, w) :: after).find? (fun e => isNamed name e.1) =
          some (key, w) :=
        List.find?_eq_some_iff_append.2
          ⟨named, before, after, rfl, fun e he => by simpa using first e he⟩
      exact Option.map_eq_some_iff.2 ⟨(key, w), hfind, rfl⟩

/-- The first part is followed, and then the others. -/
theorem follow?_cons : v.follow? (name :: path) = (v.part? name).bind fun w => w.follow? path := by
  rw [follow?, List.foldlM_cons]
  rfl

/-- What is found at the end is what the path arrives at. -/
theorem follow?_eq_some_iff : v.follow? path = some w ↔ Arrives v path w := by
  induction path generalizing v with
  | nil =>
    constructor
    · rintro ⟨⟩
      exact .here
    · rintro ⟨⟩
      rfl
  | cons name path ih =>
    rw [follow?_cons, Option.bind_eq_some_iff]
    constructor
    · rintro ⟨x, hx, hw⟩
      exact .next (part?_eq_some_iff.1 hx) (ih.1 hw)
    · rintro (_ | ⟨hx, hw⟩)
      exact ⟨_, part?_eq_some_iff.2 hx, ih.2 hw⟩

/-- A slot of a value is what its path arrives at, unless this is a method. -/
theorem slot?_path_eq_some_iff {path : String} : v.slot? (.path path) = some w ↔
    w.isMethod = false ∧ Arrives v (Text.split '.' path) w := by
  rw [slot?, bind_unlessMethod_eq_some_iff, follow?_eq_some_iff, and_comm]

end Snapshot

namespace TrackedObject

/-- Cutting off the first part or splitting at every point comes to the same. -/
theorem slot?_eq_value (o : TrackedObject) (slot : Slot) : o.slot? slot = o.value.slot? slot := by
  cases slot with
  | index i => rfl
  | path path =>
    rw [slot?, Snapshot.slot?, Text.split_eq_cut, Snapshot.follow?_cons, Option.bind_assoc]
    obtain ⟨head, rest⟩ := Text.cut '.' path
    -- The head is an attribute on both sides; what is left starts from its value.
    refine congrArg (Option.bind (Table.at? o.attributes head)) (funext fun v => ?_)
    cases rest with
    | none => rfl
    | some rest => rfl

/--
An object and the value that it is have the same slots: what a path arrives at from the object,
unless it is a method, and nothing under a number.
-/
theorem slot?_value (o : TrackedObject) (slot : Slot) : o.slot? slot = o.value.slot? slot ∧
    ∀ w, o.slot? slot = some w ↔ ∃ path, slot = .path path ∧ w.isMethod = false ∧
      Snapshot.Arrives o.value (Text.split '.' path) w := by
  refine ⟨slot?_eq_value o slot, fun w => ?_⟩
  rw [slot?_eq_value]
  cases slot with
  | index i => exact iff_of_false nofun nofun
  | path path =>
    rw [Snapshot.slot?_path_eq_some_iff]
    simp

end TrackedObject

end ObjectFlow
