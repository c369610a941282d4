import ObjectFlow.Proofs.Profile
import ObjectFlow.Trace.Document

/-!
# Reading snapshots back

A snapshot is read back from its document to any depth, as it stands there or set aside, unless a
number in it cannot be written: then nothing is read at all (`ofJson_toJson`). Attributes of one
object have distinct names, as members of a table have.

For an infinite or undefined number a `null` is written, and the reader takes no `null` for a
number. One such number anywhere makes the whole document unreadable. So the round trip is stated as
an equation that covers both cases: reading gives the value if all of it could be written, and the
error otherwise (`readIf`). In this form it composes, since a record of two parts is read if both
parts are (`readIf_bind`), and no case is to be split before the numbers themselves.
-/

namespace ObjectFlow

open Document Outcome

/-! ## Reading what could not always be written

These lemmas move `readIf` outwards through the readers of records and lists. -/

namespace Document

variable {α β : Type}

/-- A value, where its document holds all of it. -/
def readIf (whole : Bool) (a : α) : Except DecodeError α :=
  if whole then .ok a else .error .malformed

/-- What is made of a value is there if the value is. -/
theorem readIf_map (whole : Bool) (a : α) (f : α → β) :
    (readIf whole a).map f = readIf whole (f a) := by
  cases whole <;> rfl

/-- What is made of a value in a last step is there if the value is. -/
theorem readIf_bind_pure (whole : Bool) (a : α) (f : α → β) :
    (readIf whole a >>= fun a => pure (f a)) = readIf whole (f a) := by
  cases whole <;> rfl

/-- What is read in two parts is there if both parts are. -/
theorem readIf_bind {whole whole' : Bool} {a : α} {b : β} {f : α → Except DecodeError β}
    (h : f a = readIf whole' b) : (readIf whole a >>= f) = readIf (whole && whole') b := by
  cases whole with
  | true => exact h
  | false => rfl

end Document

namespace Snapshot

/-! ## All the values in a value

One traversal is used for both tests, for numbers that can be written and for attributes with
distinct names. -/

mutual

/-- Whether all values in a value, itself and the keys of dictionaries included, pass a test. -/
def every (p : Snapshot → Bool) : Snapshot → Bool
  | .tuple items => p (.tuple items) && everyItem p items
  | .list items => p (.list items) && everyItem p items
  | .set items => p (.set items) && everyItem p items
  | .dict entries => p (.dict entries) && everyEntry p entries
  | .object id type attributes => p (.object id type attributes) && everyAttribute p attributes
  | v => p v

/-- Whether all values in several values pass a test. -/
def everyItem (p : Snapshot → Bool) : List Snapshot → Bool
  | [] => true
  | v :: rest => every p v && everyItem p rest

/-- Whether all values in the keys and values of a dictionary pass a test. -/
def everyEntry (p : Snapshot → Bool) : List (Snapshot × Snapshot) → Bool
  | [] => true
  | (k, v) :: rest => every p k && (every p v && everyEntry p rest)

/-- Whether all values in the values of attributes pass a test. -/
def everyAttribute (p : Snapshot → Bool) : List (String × Snapshot) → Bool
  | [] => true
  | (_, v) :: rest => every p v && everyAttribute p rest

end

/-- A number that is not infinite and not undefined; all other values are whole in this respect. -/
def isWritable : Snapshot → Bool
  | .float x => x.isFinite
  | _ => true

/-- The attributes of an object have distinct names. -/
def isTabular : Snapshot → Bool
  | .object _ _ attributes => decide (Table.keys attributes).Nodup
  | _ => true

/-! ## Members of the records

Each kind of value is written as an object with one member that is named by the kind. What stands
under it is different for each. -/

variable {origin : Origin}

/-- A kind and its content are read in the place where they stand. -/
theorem ofJson_tagged {name : String} {kind : Kind} (h : Table.at? Kind.names name = some kind)
    (j : Json) : ofJson origin (tagged name j) = content origin kind j := by
  have hmembers : Document.members ["kind", "value"] [("kind", .str name), ("value", j)] =
      .ok [("kind", .str name), ("value", j)] :=
    InOrder.members_eq (inOrder_of_keys rfl) (by simp)
  have hkind : required [("kind", .str name), ("value", j)] "kind" (oneOf origin Kind.names) =
      .ok kind := by
    rw [required, at?_members_cons, if_pos rfl]
    exact congrArg chosen h
  rw [tagged, ofJson, hmembers, ok_bind, hkind, ok_bind, contentIn, if_neg (by decide), contentIn,
    if_pos rfl]
  rfl

/-- Attributes that are not written are read as none. -/
theorem attributesIn_append {ms : List (String × Json)} (h : "attributes" ∉ Table.keys ms)
    (attributes : List (String × Json)) :
    attributesIn origin (ms ++ unlessEmpty "attributes" Json.obj attributes) =
      attributesOfJson origin (.obj attributes) := by
  induction ms with
  | nil => cases attributes <;> rfl
  | cons m rest ih =>
    rw [Table.keys_cons, List.mem_cons, not_or] at h
    rw [List.cons_append, attributesIn, if_neg (Ne.symm h.1)]
    exact ih h.2

/-- An octet is read back from a number. -/
theorem readsBack_octet :
    ReadsBack (fun b : UInt8 => Json.int b.toNat) octetOfJson fun _ => True where
  read_write b _ := by
    rw [octetOfJson, (readsBack_natBelow 256).read_write b.toNat b.toNat_lt, map_ok]
    exact congrArg Except.ok (UInt8.ofNat_toNat)
  exact_read _ _ _ := trivial

/-- A method is read back from its name and its receiver. -/
theorem methodOfJson_eq (name : String) (receiver : Option ObjectId) :
    methodOfJson (.obj (("name", .str name) :: given "receiver" writeObject receiver)) =
      .ok (.method name receiver) := by
  have horder : InOrder ["name", "receiver"]
      (("name", .str name) :: given "receiver" writeObject receiver) :=
    (inOrder_singleton "name" (.str name)).append (inOrder_given "receiver" receiver)
  set ms := ("name", .str name) :: given "receiver" writeObject receiver with hms
  have hname : required ms "name" text = .ok name :=
    readsBack_text.required (by simp [hms]) trivial
  have hreceiver : optional ms "receiver" objectId = .ok receiver :=
    readsBack_objectId.optional (by simp [hms]) (by simp [writeObject]) fun _ _ => trivial
  rw [methodOfJson, horder.record_eq (by simp), ok_bind, hname, ok_bind, hreceiver]
  rfl

/-- A number in a word is read back. -/
theorem wordOfJson_eq (i : Int64) : wordOfJson (.int i.toInt) = .ok (.int i) := by
  have hword : Text.word? i.toInt = some i := by simp [Text.word?]
  rw [wordOfJson, hword]

/-- An object is read as its identity, its type and its attributes. -/
theorem content_object (id : ObjectId) (type : RuntimeType) (attributes : Table String Snapshot) :
    content origin .object (.obj ([("id", writeObject id), ("class", type.toJson)]
      ++ unlessEmpty "attributes" Json.obj (attributesToJson attributes))) =
      (attributesOfJson origin (.obj (attributesToJson attributes))).map (.object id type) := by
  set ms := [("id", writeObject id), ("class", type.toJson)]
    ++ unlessEmpty "attributes" Json.obj (attributesToJson attributes) with hms
  have horder : InOrder ["id", "class", "attributes"] ms :=
    (inOrder_of_keys (by rfl)).append (inOrder_unlessEmpty "attributes" _ _)
  have hid : required ms "id" objectId = .ok id :=
    readsBack_objectId.required (by simp [hms]) trivial
  have hclass : required ms "class" RuntimeType.ofJson = .ok type :=
    RuntimeType.readsBack.required (by simp [hms]) trivial
  have hattributes : attributesIn origin ms =
      attributesOfJson origin (.obj (attributesToJson attributes)) :=
    attributesIn_append (by simp) _
  rw [content, if_pos rfl, horder.members_eq (by simp), ok_bind, hid, ok_bind, hclass, ok_bind,
    hattributes]
  rfl

/-! ## The round trip

The recursion is that of the writer. Lists of items, of entries and of attributes are read member by
member, so each of them has its own lemma. -/

mutual

/-- What was written is read back, if all of it was written. -/
theorem ofJson_toJson :
    (v : Snapshot) → v.every isTabular → ofJson origin v.toJson = readIf (v.every isWritable) v
  | .none, _ => rfl
  | .bool b, _ => by
    rw [toJson, ofJson_tagged rfl]
    rfl
  | .int i, _ => by
    rw [toJson, ofJson_tagged rfl]
    exact wordOfJson_eq i
  | .float x, _ => by
    -- The only content that can be missing: for a number that is not finite, null is written.
    rw [toJson, ofJson_tagged rfl, show every isWritable (.float x) = x.isFinite from rfl]
    cases x.isFinite <;> rfl
  | .str s, _ => by
    rw [toJson, ofJson_tagged rfl]
    rfl
  | .bytes octets, _ => by
    have hoctets := (readsBack_list readsBack_octet).read_write octets fun _ _ => trivial
    rw [toJson, ofJson_tagged rfl]
    exact congrArg (Except.map Snapshot.bytes) hoctets
  | .tuple items, h => by
    rw [toJson, ofJson_tagged rfl, content, itemsOfJson_itemsToJson items h]
    exact readIf_map _ _ _
  | .list items, h => by
    rw [toJson, ofJson_tagged rfl, content, itemsOfJson_itemsToJson items h]
    exact readIf_map _ _ _
  | .set items, h => by
    rw [toJson, ofJson_tagged rfl, content, itemsOfJson_itemsToJson items h]
    exact readIf_map _ _ _
  | .dict entries, h => by
    rw [toJson, ofJson_tagged rfl, content, entriesOfJson_entriesToJson entries h]
    exact readIf_map _ _ _
  | .object id type attributes, h => by
    obtain ⟨hnames, hall⟩ := (Bool.and_eq_true_iff ..).1 h
    rw [toJson, ofJson_tagged rfl, content_object, attributesOfJson,
      namedOfJson_attributesToJson attributes hall, readIf_map, readIf_map,
      Table.ofEntries_eq_self (of_decide_eq_true hnames)]
    rfl
  | .method name receiver, _ => by
    rw [toJson, ofJson_tagged rfl]
    exact methodOfJson_eq name receiver
  | .untracked type, _ => by
    rw [toJson, ofJson_tagged rfl]
    exact congrArg (Except.map Snapshot.untracked) (RuntimeType.readsBack.read_write type trivial)

/-- Items are read back if all of them were written. -/
theorem itemsOfJson_itemsToJson : (items : List Snapshot) → everyItem isTabular items →
    itemsOfJson origin (itemsToJson items) = readIf (everyItem isWritable items) items
  | [], _ => rfl
  | v :: rest, h => by
    obtain ⟨hv, hrest⟩ := (Bool.and_eq_true_iff ..).1 h
    rw [itemsToJson, itemsOfJson, ofJson_toJson v hv, itemsOfJson_itemsToJson rest hrest]
    exact readIf_bind (readIf_bind_pure _ _ _)

/-- Entries are read back if all keys and all values were written. -/
theorem entriesOfJson_entriesToJson : (entries : List (Snapshot × Snapshot)) →
    everyEntry isTabular entries →
    entriesOfJson origin (entriesToJson entries) = readIf (everyEntry isWritable entries) entries
  | [], _ => rfl
  | (k, v) :: rest, h => by
    obtain ⟨hk, h⟩ := (Bool.and_eq_true_iff ..).1 h
    obtain ⟨hv, hrest⟩ := (Bool.and_eq_true_iff ..).1 h
    rw [entriesToJson, entriesOfJson, ofJson_toJson k hk, ofJson_toJson v hv,
      entriesOfJson_entriesToJson rest hrest]
    exact readIf_bind (readIf_bind (readIf_bind_pure _ _ _))

/-- Attributes are read back if all of them were written, in their order. -/
theorem namedOfJson_attributesToJson : (attributes : List (String × Snapshot)) →
    everyAttribute isTabular attributes →
    namedOfJson origin (attributesToJson attributes) =
      readIf (everyAttribute isWritable attributes) attributes
  | [], _ => rfl
  | (name, v) :: rest, h => by
    obtain ⟨hv, hrest⟩ := (Bool.and_eq_true_iff ..).1 h
    rw [attributesToJson, namedOfJson, ofJson_toJson v hv, namedOfJson_attributesToJson rest hrest]
    exact readIf_bind (readIf_bind_pure _ _ _)

end

/-! ## Tables of values

Arguments of calls are tables of values, read as members of an object. -/

/-- Attributes are written one by one. -/
theorem attributesToJson_eq_map (t : Table String Snapshot) :
    attributesToJson t = t.map fun e => (e.1, e.2.toJson) := by
  induction t with
  | nil => rfl
  | cons e rest ih => rw [attributesToJson, ih, List.map_cons]

/-- They are read as the entries of any table. -/
theorem namedOfJson_eq_readEntries (ms : List (String × Json)) :
    namedOfJson origin ms = readEntries (ofJson origin) ms := by
  induction ms with
  | nil => rfl
  | cons m rest ih => rw [namedOfJson, readEntries, ih]

/-- A table of values is read as attributes are. -/
theorem table_writeTable {t : Table String Snapshot} (hnames : (Table.keys t).Nodup)
    (h : everyAttribute isTabular t) :
    table (ofJson origin) (writeTable toJson t) = readIf (everyAttribute isWritable t) t := by
  rw [writeTable, table, ← attributesToJson_eq_map, ← namedOfJson_eq_readEntries,
    namedOfJson_attributesToJson t h, readIf_map, Table.ofEntries_eq_self hnames]

end Snapshot

end ObjectFlow
