import ObjectFlow.Json.Reader
import ObjectFlow.Note.Document
import ObjectFlow.Store.Files
import ObjectFlow.Store.Query

/-!
# A database of notes

A document is stored under its language, its package and its name; the last one with a key counts,
at the place of the first. Loading stops at the first document that is refused and keeps those
before it.
-/

namespace ObjectFlow

inductive StorageError where
  | unreadable (path : String)
  | undecodable
  | missingField (field : String) (doc : Json)
  | query (cause : QueryError)
  | ambiguous (query : String) (found : Nat)

def StorageError.message : StorageError → String
  | .unreadable path => "cannot read " ++ path
  | .undecodable => "serialization error"
  | .missingField field doc =>
    "invalid annotation document: missing string field '" ++ field ++ "' in " ++ doc.compact
  | .query cause => cause.message
  | .ambiguous q found => "query " ++ q ++ " matched " ++ toString found ++ " documents"

/-- Documents by their keys, and the directories from which more are loaded. -/
structure Database where
  files : Files := ⟨.directory [], []⟩
  searchPath : List String := []
  documents : Table NoteKey Json := []

namespace Database

/-- The three texts that identify a document. -/
def keyOf (doc : Json) : Except StorageError NoteKey := do
  let field (name : String) : Except StorageError String :=
    match doc.member? name with
    | some (.str s) => .ok s
    | _ => .error (.missingField name doc)
  let language ← field "language"
  let package ← field "package"
  let id ← field "id"
  return ⟨language, package, id⟩

/-- A document takes the place of the one with the same key, or goes to the end. -/
def insert (db : Database) (doc : Json) : Except StorageError Database := do
  let key ← keyOf doc
  return { db with documents := Table.put db.documents key doc }

/-- Inserts documents up to the first that is refused, and counts them. -/
def insertAll (db : Database) (counted : Nat) : List Json → Except StorageError Nat × Database
  | [] => (.ok counted, db)
  | doc :: rest =>
    match db.insert doc with
    | .error e => (.error e, db)
    | .ok db => insertAll db (counted + 1) rest

/-- Inserts the documents of a file. -/
def loadFile (db : Database) (path : String) : Except StorageError Nat × Database :=
  match db.files.text? path with
  | none => (.error (.unreadable path), db)
  | some text =>
    match Json.read? text with
    | some (.arr docs) => db.insertAll 0 (docs.map Json.merged)
    | _ => (.error .undecodable, db)

def loadFiles (db : Database) (counted : Nat) : List String → Except StorageError Nat × Database
  | [] => (.ok counted, db)
  | path :: rest =>
    match db.loadFile path with
    | (.error e, db) => (.error e, db)
    | (.ok n, db) => loadFiles db (counted + n) rest

/-- The directories of a language on the search path. -/
def languageDirectories (db : Database) (language : String) : List String :=
  (db.searchPath.map fun dir => Path.join dir language).filter db.files.isDirectory

/-- The files of a package: one with its name, and all below the directory with its name. -/
def packageFiles (db : Database) (language package : String) : List String :=
  (db.languageDirectories language).flatMap fun dir =>
    let file := Path.join dir (package ++ ".json")
    (if db.files.isFile file then [file] else [])
      ++ db.files.pathsBelow "json" (Path.join dir package)

def loadPackage (db : Database) (language package : String) : Except StorageError Nat × Database :=
  db.loadFiles 0 (db.packageFiles language package)

def loadAll (db : Database) (language : String) : Except StorageError Nat × Database :=
  db.loadFiles 0 ((db.languageDirectories language).flatMap (db.files.pathsBelow "json"))

/-- The documents that satisfy a query, in the order in which their keys were first inserted. -/
def filter (db : Database) (q : Query) : List Json :=
  (db.documents.map Prod.snd).filter (Query.holds q)

/-- The one document that satisfies a query, if there is one. -/
def get (db : Database) (q : Query) : Except StorageError (Option Json) :=
  match db.filter q with
  | [] => .ok none
  | [doc] => .ok (some doc)
  | docs => .error (.ambiguous (Query.text q) docs.length)

def noteOf (doc : Json) : Except StorageError Note :=
  (Note.ofJson doc).mapError fun _ => .undecodable

def getNote (db : Database) (q : Query) : Except StorageError (Option Note) := do
  match ← db.get q with
  | none => return none
  | some doc => (noteOf doc).map some

def filterNotes (db : Database) (q : Query) : Except StorageError (List Note) :=
  (db.filter q).mapM noteOf

end Database

end ObjectFlow
