import ObjectFlow.Proofs.Table
import ObjectFlow.Store.Database

/-!
# What a database holds

Every load inserts documents one after the other, and it depends on the files alone which documents
these are and how the load ends (`Load.run_spec`). So a database holds under each key the last
document that was inserted under it, at the place of the first one, and no load that is repeated at
once changes anything (`Load.runAll_spec`).

A load may fail half way, and then the documents before the failure stay. They are described without
the database they go into: for each kind of load there is the list of documents that it inserts
(`Load.inserted`), cut off where the load is refused (`accepted`, `acceptedFrom`). With this a
history of loads, failing ones included, is nothing but one list of documents (`Load.runAll_eq`),
and what is stored can be said of that list (`Holds`).
-/

namespace ObjectFlow

/-! ## Loading

Loads go from single documents to whole languages. Each is made of those before it, and so is what
it inserts. -/

/-- Everything that puts documents into a database. -/
inductive Load where
  | insert (doc : Json)
  | documents (docs : List Json)
  | file (path : String)
  | package (language name : String)
  | all (language : String)

namespace Database

variable {db db' : Database} {e : StorageError}

/-- The key of a document that has one. -/
def key? (doc : Json) : Option NoteKey := (keyOf doc).toOption

/-- Documents under their keys. -/
def entriesOf (docs : List Json) : List (NoteKey × Json) :=
  docs.filterMap fun doc => (key? doc).map fun key => (key, doc)

/-- The database into which documents were inserted one after the other. -/
def holding (db : Database) (docs : List Json) : Database :=
  { db with documents := Table.putAll db.documents (entriesOf docs) }

/-- The documents before the first that has no key. -/
def accepted (docs : List Json) : List Json := docs.takeWhile fun doc => (key? doc).isSome

/-- The documents in a file, if there is such a file and it holds a list. -/
def documentsOf? (files : Files) (path : String) : Option (List Json) :=
  match (files.text? path).bind Json.read? with
  | some (.arr docs) => some (docs.map Json.merged)
  | _ => none

/-- Whether a file is there, holds a list, and all documents in it have keys. -/
def isWhole (files : Files) (path : String) : Bool :=
  (documentsOf? files path).any fun docs => docs.all fun doc => (key? doc).isSome

/-- The documents that are inserted from a file. -/
def acceptedIn (files : Files) (path : String) : List Json :=
  accepted ((documentsOf? files path).getD [])

/-- The documents that are inserted from files, up to the first that is refused. -/
def acceptedFrom (files : Files) : List String → List Json
  | [] => []
  | path :: rest =>
    acceptedIn files path ++ if isWhole files path then acceptedFrom files rest else []

end Database

namespace Load

/-- How a load ends, and the database that it leaves behind. -/
def run (db : Database) : Load → Except StorageError Nat × Database
  | .insert doc => db.insertAll 0 [doc]
  | .documents docs => db.insertAll 0 docs
  | .file path => db.loadFile path
  | .package language name => db.loadPackage language name
  | .all language => db.loadAll language

/-- The documents that a load inserts, in their order. -/
def inserted (db : Database) : Load → List Json
  | .insert doc => Database.accepted [doc]
  | .documents docs => Database.accepted docs
  | .file path => Database.acceptedIn db.files path
  | .package language name => Database.acceptedFrom db.files (db.packageFiles language name)
  | .all language => Database.acceptedFrom db.files
      ((db.languageDirectories language).flatMap (db.files.pathsBelow "json"))

/-- The database after several loads, whether or not they failed. -/
def runAll (db : Database) (ls : List Load) : Database := ls.foldl (fun db l => (l.run db).2) db

end Load

namespace Database

/-- Documents are entered one list after the other. -/
theorem entriesOf_append (docs docs' : List Json) :
    entriesOf (docs ++ docs') = entriesOf docs ++ entriesOf docs' := List.filterMap_append

/-- Lists of documents may be inserted one after the other or at once. -/
theorem holding_append (db : Database) (docs docs' : List Json) :
    db.holding (docs ++ docs') = (db.holding docs).holding docs' := by
  simp only [holding, entriesOf_append, Table.putAll_append]

/-- A document is inserted under its key if it has one. -/
theorem insert_eq (db : Database) (doc : Json) :
    db.insert doc = (keyOf doc).map fun _ => db.holding [doc] := by
  cases h : keyOf doc with
  | error e => rw [insert, h]; rfl
  | ok key => rw [insert, h, holding, entriesOf, List.filterMap_cons, key?, h]; rfl

/-- The key of a document is the one under which it is stored. -/
theorem key?_eq_some_iff {doc : Json} {key : NoteKey} :
    key? doc = some key ↔ keyOf doc = .ok key := by
  unfold key?
  cases keyOf doc <;> simp [Except.toOption]

/-- Whatever is stored already, a list of documents is inserted up to the first without a key. -/
theorem insertAll_spec (n : Nat) (docs : List Json) :
    ∃ r, (∀ db : Database, db.insertAll n docs = (r, db.holding (accepted docs))) ∧
      ((∃ k, r = .ok k) ↔ (docs.all fun doc => (key? doc).isSome) = true) := by
  induction docs generalizing n with
  | nil => exact ⟨.ok n, fun _ => rfl, by simp⟩
  | cons doc docs ih =>
    cases hkey : keyOf doc with
    | error e =>
      refine ⟨.error e, fun db => ?_, by simp [key?, hkey, Except.toOption]⟩
      have hacc : accepted (doc :: docs) = [] := by simp [accepted, key?, hkey, Except.toOption]
      rw [insertAll, insert_eq, hkey, hacc]
      rfl
    | ok key =>
      obtain ⟨r, hr, hok⟩ := ih (n + 1)
      refine ⟨r, fun db => ?_, by simpa [key?, hkey, Except.toOption] using hok⟩
      have hacc : accepted (doc :: docs) = [doc] ++ accepted docs := by
        simp [accepted, key?, hkey, Except.toOption]
      rw [insertAll, insert_eq, hkey, hacc, holding_append]
      exact hr (db.holding [doc])

/-- A file that is there and holds a list is inserted document by document. -/
theorem loadFile_eq (db : Database) (path : String) :
    db.loadFile path = match documentsOf? db.files path with
      | some docs => db.insertAll 0 docs
      | none => (.error (match db.files.text? path with
          | none => .unreadable path
          | some _ => .undecodable), db) := by
  unfold loadFile documentsOf?
  cases db.files.text? path with
  | none => rfl
  | some text =>
    simp only [Option.bind_some]
    cases Json.read? text with
    | none => rfl
    | some j => cases j <;> rfl

/-- Whatever is stored already, a file is loaded up to the first document without a key. -/
theorem loadFile_spec (files : Files) (path : String) :
    ∃ r, (∀ db : Database, db.files = files →
      db.loadFile path = (r, db.holding (acceptedIn files path))) ∧
        ((∃ k, r = .ok k) ↔ isWhole files path = true) := by
  unfold acceptedIn isWhole
  cases hdocs : documentsOf? files path with
  | none =>
    refine ⟨.error (match files.text? path with
      | none => .unreadable path
      | some _ => .undecodable), fun db hfiles => ?_, by simp⟩
    subst hfiles
    rw [loadFile_eq, hdocs]
    rfl
  | some docs =>
    obtain ⟨r, hr, hok⟩ := insertAll_spec 0 docs
    refine ⟨r, fun db hfiles => ?_, hok⟩
    rw [loadFile_eq, hfiles, hdocs]
    exact hr db

/-- Whatever is stored already, files are loaded up to the first that is refused. -/
theorem loadFiles_spec (files : Files) (n : Nat) (paths : List String) :
    ∃ r, ∀ db : Database, db.files = files →
      db.loadFiles n paths = (r, db.holding (acceptedFrom files paths)) := by
  induction paths generalizing n with
  | nil => exact ⟨.ok n, fun _ _ => rfl⟩
  | cons path paths ih =>
    obtain ⟨r, hfile, hok⟩ := loadFile_spec files path
    cases r with
    | error e =>
      have hpart : ¬isWhole files path = true := fun hwhole => by
        obtain ⟨k, hk⟩ := hok.2 hwhole
        cases hk
      refine ⟨.error e, fun db hfiles => ?_⟩
      rw [loadFiles, hfile db hfiles, acceptedFrom, if_neg hpart, List.append_nil]
    | ok k =>
      obtain ⟨r, hrest⟩ := ih (n + k)
      refine ⟨r, fun db hfiles => ?_⟩
      rw [loadFiles, hfile db hfiles, acceptedFrom, if_pos (hok.1 ⟨k, rfl⟩), holding_append]
      exact hrest _ hfiles

end Database

namespace Load

/-- A load inserts its documents, and what is stored already does not change how it ends. -/
theorem run_spec (db : Database) (l : Load) :
    ∃ r, ∀ t, l.run { db with documents := t } =
      (r, Database.holding { db with documents := t } (l.inserted db)) := by
  cases l with
  | insert doc =>
    obtain ⟨r, hr, -⟩ := Database.insertAll_spec 0 [doc]
    exact ⟨r, fun t => hr _⟩
  | documents docs =>
    obtain ⟨r, hr, -⟩ := Database.insertAll_spec 0 docs
    exact ⟨r, fun t => hr _⟩
  | file path =>
    obtain ⟨r, hr, -⟩ := Database.loadFile_spec db.files path
    exact ⟨r, fun t => hr _ rfl⟩
  | package language name =>
    obtain ⟨r, hr⟩ := Database.loadFiles_spec db.files 0 (db.packageFiles language name)
    exact ⟨r, fun t => hr _ rfl⟩
  | all language =>
    obtain ⟨r, hr⟩ := Database.loadFiles_spec db.files 0
      ((db.languageDirectories language).flatMap (db.files.pathsBelow "json"))
    exact ⟨r, fun t => hr _ rfl⟩

/-- Which documents a load inserts depends on the files alone. -/
theorem inserted_holding (db : Database) (docs : List Json) (l : Load) :
    l.inserted (db.holding docs) = l.inserted db := by
  cases l <;> rfl

/-- After any history of loads the database holds what they inserted. -/
theorem runAll_eq (db : Database) (ls : List Load) :
    runAll db ls = db.holding (ls.flatMap (inserted db)) := by
  induction ls generalizing db with
  | nil => rfl
  | cons l ls ih =>
    obtain ⟨r, hr⟩ := l.run_spec db
    have hrun : l.run db = (r, db.holding (l.inserted db)) := hr db.documents
    rw [runAll, List.foldl_cons, hrun, List.flatMap_cons, Database.holding_append]
    refine (ih _).trans (congrArg _ ?_)
    exact List.flatMap_congr fun l' _ => inserted_holding db _ l'

/-- A load that is repeated at once ends as before and changes nothing. -/
theorem run_run {db : Database} (hd : (Table.keys db.documents).Nodup) (l : Load) :
    l.run (l.run db).2 = l.run db := by
  obtain ⟨r, hr⟩ := l.run_spec db
  have hrun : l.run db = (r, db.holding (l.inserted db)) := hr db.documents
  rw [hrun]
  refine (hr _).trans (congrArg (Prod.mk r) ?_)
  rw [Database.holding]
  exact congrArg (Database.mk db.files db.searchPath) (Table.putAll_putAll hd _)

end Load

/-! ## What is stored

The documents are a table whose entries stay in the order in which their keys were first inserted. A
list of documents with an index beside it is another way to store them, and the two are shown to
stay in step. -/

namespace Database

/-- The index that leads from keys to the places of documents. -/
def index (db : Database) : Table NoteKey Nat := (Table.keys db.documents).zipIdx

/-- The stored documents in their order. -/
def stored (db : Database) : List Json := db.documents.map Prod.snd

/--
Inserts a document into a list of documents beside which stands an index: in the place that the
index gives, or else at the end.
-/
def insertAt (docs : List Json) (index : Table NoteKey Nat) (doc : Json) :
    Except StorageError (List Json × Table NoteKey Nat) := do
  let key ← keyOf doc
  match Table.at? index key with
  | some i => return (docs.set i doc, index)
  | none => return (docs ++ [doc], Table.put index key docs.length)

/-- The query for one key. -/
def byKey (key : NoteKey) : Query :=
  [.equals "language" (.str key.language), .equals "package" (.str key.package),
    .equals "id" (.str key.id)]

/--
A database holds, after some documents were inserted: under each key the last one, at the place of
the first one.
-/
structure Holds (db : Database) (docs : List Json) : Prop where
  nodup : (Table.keys db.documents).Nodup
  keyed : ∀ e ∈ db.documents, keyOf e.2 = .ok e.1
  keys_eq : Table.keys db.documents = (docs.filterMap key?).eraseDups
  last : ∀ key, Table.at? db.documents key = (docs.filter fun doc => key? doc = some key).getLast?

section Holds

variable {db : Database} {docs : List Json}

/-- The documents entered under a key are those that have it. -/
theorem map_snd_entriesOf (docs : List Json) (key : NoteKey) :
    ((entriesOf docs).filter fun e => e.1 = key).map Prod.snd =
      docs.filter fun doc => key? doc = some key := by
  induction docs with
  | nil => rfl
  | cons doc docs ih =>
    rw [entriesOf] at ih ⊢
    rw [List.filterMap_cons]
    cases hkey : key? doc with
    | none => simpa [hkey] using ih
    | some key' =>
      by_cases heq : key' = key
      · subst heq
        simpa [hkey] using ih
      · simpa [hkey, heq] using ih

/-- The query for a key asks for its three texts. -/
theorem holds_byKey_iff {doc : Json} {key : NoteKey} :
    Query.holds (byKey key) doc = true ↔ keyOf doc = .ok key := by
  have hfield : ∀ name text, Query.clauseHolds (.equals name (.str text)) doc = true ↔
      doc.member? name = some (.str text) := by
    intro name text
    rw [Query.clauseHolds]
    cases doc.member? name with
    | none => simp
    | some field => cases field <;> simp [Json.same]
  obtain ⟨language, package, id⟩ := key
  simp only [Query.holds, byKey, Query.allHold, Bool.and_eq_true, hfield, Bool.and_true]
  unfold keyOf
  constructor
  · rintro ⟨hl, hp, hi⟩
    simp only [hl, hp, hi]
    rfl
  · intro hkey
    dsimp only at hkey
    split at hkey
    · rename_i hl
      split at hkey
      · rename_i hp
        split at hkey
        · rename_i hi
          cases hkey
          exact ⟨‹_›, ‹_›, ‹_›⟩
        · cases hkey
      · cases hkey
    · cases hkey

/-- Where nothing was stored, what is stored is what was inserted. -/
theorem holds_holding (files : Files) (searchPath : List String) (docs : List Json) :
    (holding { files := files, searchPath := searchPath } docs).Holds docs := by
  refine ⟨Table.nodup_keys_putAll (t := []) List.nodup_nil _, fun e he => ?_, ?_, fun key => ?_⟩
  · obtain ⟨doc, -, hdoc⟩ := List.mem_filterMap.1 (Table.mem_ofEntries he)
    obtain ⟨key, hkey, rfl⟩ := Option.map_eq_some_iff.1 hdoc
    exact key?_eq_some_iff.1 hkey
  · refine (Table.keys_ofEntries _).trans (congrArg _ ?_)
    rw [entriesOf, List.map_filterMap]
    exact List.filterMap_congr fun doc _ => by cases key? doc <;> rfl
  · refine (Table.at?_putAll [] _ key).trans ?_
    rw [Table.at?_nil, Option.or_none, ← List.getLast?_map, map_snd_entriesOf]

namespace Holds

variable (h : db.Holds docs)
include h

/-- The index leads from each key to the place of the document with that key. -/
theorem at?_index_iff {key : NoteKey} {i : Nat} :
    Table.at? db.index key = some i ↔ ∃ doc, db.stored[i]? = some doc ∧ keyOf doc = .ok key := by
  have hkeys : Table.keys db.index = Table.keys db.documents := List.zipIdx_map_fst 0 _
  rw [Table.at?_eq_some_iff (hkeys ▸ h.nodup), index, List.mem_zipIdx_iff_getElem?]
  simp only [stored, Table.keys, List.getElem?_map, Option.map_eq_some_iff]
  constructor
  · rintro ⟨e, he, rfl⟩
    exact ⟨e.2, ⟨e, he, rfl⟩, h.keyed e (List.mem_of_getElem? he)⟩
  · rintro ⟨doc, ⟨e, he, rfl⟩, hkey⟩
    have := h.keyed e (List.mem_of_getElem? he)
    rw [hkey] at this
    exact ⟨e, he, (Except.ok.inj this).symm⟩

/-- Asking for a key gives the document that is stored under it. -/
theorem get_byKey (key : NoteKey) : db.get (byKey key) = .ok (Table.at? db.documents key) := by
  have hfilter : db.filter (byKey key) = (Table.at? db.documents key).toList := by
    rw [filter, List.filter_map]
    refine Eq.trans (congrArg _ (List.filter_congr (q := fun e => e.1 = key) fun e he => ?_))
      (Table.map_snd_filter_eq h.nodup key)
    rw [Function.comp_apply, Bool.eq_iff_iff, holds_byKey_iff, decide_eq_true_iff, h.keyed e he]
    exact ⟨fun heq => Except.ok.inj heq, fun heq => congrArg _ heq⟩
  rw [get, hfilter]
  cases Table.at? db.documents key <;> rfl

end Holds

end Holds

/-- Documents and index stay in step. -/
theorem insert_stored {db : Database} (hd : (Table.keys db.documents).Nodup) (doc : Json) :
    (db.insert doc).map (fun db' => (db'.stored, db'.index)) =
      insertAt db.stored db.index doc := by
  have hkeys : Table.keys db.index = Table.keys db.documents := List.zipIdx_map_fst 0 _
  unfold insert insertAt
  cases keyOf doc with
  | error e => rfl
  | ok key =>
    show Except.ok _ = match Table.at? db.index key with
      | some i => Except.ok (db.stored.set i doc, db.index)
      | none => Except.ok (db.stored ++ [doc], Table.put db.index key db.stored.length)
    cases hat : Table.at? db.index key with
    | none =>
      have hnew : key ∉ Table.keys db.documents := hkeys ▸ Table.at?_eq_none_iff.1 hat
      refine congrArg Except.ok (Prod.ext ?_ ?_)
      · show (Table.put db.documents key doc).map Prod.snd = db.documents.map Prod.snd ++ [doc]
        rw [Table.put_eq_append hnew, List.map_append]
        rfl
      · show (Table.keys (Table.put db.documents key doc)).zipIdx = Table.put db.index key _
        rw [Table.keys_put, if_neg hnew, List.zipIdx_append, Nat.zero_add,
          Table.put_eq_append (hkeys ▸ hnew), Table.keys, List.length_map, stored, List.length_map]
        rfl
    | some i =>
      have hi : (Table.keys db.documents)[i]? = some key :=
        List.mem_zipIdx_iff_getElem?.1 (Table.mem_of_at? hat)
      refine congrArg Except.ok (Prod.ext ?_ ?_)
      · show (Table.put db.documents key doc).map Prod.snd = (db.documents.map Prod.snd).set i doc
        rw [Table.put_eq_set hd hi, List.map_set]
      · show (Table.keys (Table.put db.documents key doc)).zipIdx = _
        rw [Table.keys_put, if_pos (List.mem_of_getElem? hi)]
        rfl

end Database

/--
Whatever is loaded, and whether or not it fails, under each key the last document is stored that was
inserted, at the place of the first one, where the index finds it. So asking for a key is never
ambiguous, and a load that is repeated at once changes nothing.
-/
theorem Load.runAll_spec (files : Files) (searchPath : List String) (ls : List Load) :
    let start : Database := { files := files, searchPath := searchPath }
    let docs := ls.flatMap (inserted start)
    let db := runAll start ls
    db.Holds docs ∧
      (∀ key i, Table.at? db.index key = some i ↔
        ∃ doc, db.stored[i]? = some doc ∧ Database.keyOf doc = .ok key) ∧
      (∀ doc, (db.insert doc).map (fun db' => (db'.stored, db'.index)) =
        Database.insertAt db.stored db.index doc) ∧
      (∀ key, db.get (Database.byKey key) =
        .ok (docs.filter fun doc => Database.key? doc = some key).getLast?) ∧
      ∀ l, Load.run (l.run db).2 l = l.run db := by
  intro start docs db
  have hholds : db.Holds docs := by
    rw [show db = start.holding docs from runAll_eq start ls]
    exact Database.holds_holding files searchPath docs
  refine ⟨hholds, fun key i => hholds.at?_index_iff,
    fun doc => Database.insert_stored hholds.nodup doc,
    fun key => ?_, fun l => Load.run_run hholds.nodup l⟩
  rw [hholds.get_byKey, hholds.last]

end ObjectFlow
