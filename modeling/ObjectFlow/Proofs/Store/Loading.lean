import ObjectFlow.Proofs.Store.Database
import ObjectFlow.Proofs.Store.Files

/-!
# Loading one package and loading all

Where all files of a language are those of one package, the package is loaded as all packages are,
but for the order: the file of a package comes before its directory in the one case, and behind it
in the other. So the two differ just where file and directory have different documents under one key
(`Database.loadPackage_loadAll`).

If every file can be read to its end, both loads insert the same documents, grouped alike by the
directories of the language, and differ only in which of two groups comes first in each directory.
Under a key the last document counts. So one goes to the last directory that has any for the key
(`lastDirectory`) and looks there which of the two groups has one.
-/

namespace ObjectFlow.Database

open Files

/-! ## Whole files

A file that can be read to its end adds all of its documents, and the count goes on. -/

/-- Documents that all have keys are inserted, and counted. -/
theorem insertAll_eq_ok {docs : List Json} (h : (docs.all fun doc => (key? doc).isSome) = true)
    (n : Nat) (db : Database) :
    db.insertAll n docs = (.ok (n + docs.length), db.holding docs) := by
  induction docs generalizing n db with
  | nil => rfl
  | cons doc docs ih =>
    rw [List.all_cons, Bool.and_eq_true] at h
    obtain ⟨key, hkey⟩ := Option.isSome_iff_exists.1 h.1
    rw [insertAll, insert_eq, key?_eq_some_iff.1 hkey]
    show insertAll (db.holding [doc]) (n + 1) docs = _
    rw [ih h.2, ← holding_append, List.length_cons]
    simp only [List.singleton_append, Nat.add_assoc, Nat.add_comm 1]

/-- All documents of a whole file are inserted. -/
theorem loadFile_eq_ok {files : Files} {path : String} (h : isWhole files path = true)
    {db : Database} (hfiles : db.files = files) : db.loadFile path =
      (.ok (acceptedIn files path).length, db.holding (acceptedIn files path)) := by
  rw [isWhole, Option.any_eq_true] at h
  obtain ⟨docs, hdocs, hall⟩ := h
  have haccepted : acceptedIn files path = docs := by
    rw [acceptedIn, hdocs, Option.getD_some, accepted, List.takeWhile_eq_self_iff]
    exact List.all_eq_true.1 hall
  rw [loadFile_eq, hfiles, hdocs, haccepted]
  exact (insertAll_eq_ok hall 0 db).trans (by rw [Nat.zero_add])

/-- Whole files are read to the end. -/
theorem loadFiles_eq_ok {files : Files} {paths : List String}
    (h : ∀ path ∈ paths, isWhole files path = true) (n : Nat) {db : Database}
    (hfiles : db.files = files) : db.loadFiles n paths =
      (.ok (n + (paths.flatMap (acceptedIn files)).length),
        db.holding (paths.flatMap (acceptedIn files))) := by
  induction paths generalizing n db with
  | nil => rfl
  | cons path paths ih =>
    rw [List.forall_mem_cons] at h
    rw [loadFiles, loadFile_eq_ok h.1 hfiles]
    have hheld : (db.holding (acceptedIn files path)).files = files := hfiles
    show loadFiles (db.holding _) (n + (acceptedIn files path).length) paths = _
    rw [ih h.2 _ hheld, ← holding_append, List.flatMap_cons, List.length_append, Nat.add_assoc]

/-! ## The last document under a key

For a list that is put together from others, the last document under a key is in the last of them
that has any. -/

/-- The last of some documents under a key. -/
def lastUnder (key : NoteKey) (docs : List Json) : Option Json :=
  (docs.filter fun doc => key? doc = some key).getLast?

/-- Of two lists the second counts, and the first where the second has nothing under the key. -/
theorem lastUnder_append (key : NoteKey) (docs docs' : List Json) :
    lastUnder key (docs ++ docs') = (lastUnder key docs').or (lastUnder key docs) := by
  rw [lastUnder, List.filter_append, List.getLast?_append]
  rfl

/-- What is inserted counts before what was stored. -/
theorem at?_holding (db : Database) (docs : List Json) (key : NoteKey) :
    Table.at? (db.holding docs).documents key =
      (lastUnder key docs).or (Table.at? db.documents key) := by
  refine (Table.at?_putAll db.documents _ key).trans ?_
  rw [← List.getLast?_map, map_snd_entriesOf]
  rfl

/-- Of several lists the last counts that has a document under the key. -/
theorem lastUnder_flatMap {α : Type} (key : NoteKey) (f : α → List Json) (as : List α) :
    lastUnder key (as.flatMap f) =
      (as.filter fun a => (lastUnder key (f a)).isSome).getLast?.bind fun a =>
        lastUnder key (f a) := by
  induction as using List.reverseRecOn with
  | nil => rfl
  | append_singleton as a ih =>
    rw [List.flatMap_append, List.flatMap_singleton, lastUnder_append, ih, List.filter_append]
    cases ha : lastUnder key (f a) with
    | none => simp [ha]
    | some doc => simp [ha]

/-! ## One package

The two groups of documents are those in the file with the name of the package and those in the
files below its directory. -/

/-- The documents in the file of a package in a directory. -/
def fileDocuments (db : Database) (package dir : String) : List Json :=
  (db.files.packageFile dir package).flatMap (acceptedIn db.files)

/-- The documents in the files below the directory of a package. -/
def directoryDocuments (db : Database) (package dir : String) : List Json :=
  (db.files.packageDirectory dir package).flatMap (acceptedIn db.files)

/-- The last directory of a language in which a package has a document under a key. -/
def lastDirectory (db : Database) (language package : String) (key : NoteKey) : Option String :=
  ((db.languageDirectories language).filter fun dir =>
    (lastUnder key (db.fileDocuments package dir)).isSome ||
      (lastUnder key (db.directoryDocuments package dir)).isSome).getLast?

/-- All files of a language are those of one package, and all of them can be read. -/
structure Sole (db : Database) (language package : String) : Prop where
  proper : db.files.root.Proper
  plain : Path.Plain package
  belongs : ∀ dir ∈ db.languageDirectories language, ∀ path ∈ db.files.pathsBelow "json" dir,
    path ∈ db.files.packageFile dir package ++ db.files.packageDirectory dir package
  whole : ∀ dir ∈ db.languageDirectories language, ∀ path ∈ db.files.pathsBelow "json" dir,
    isWhole db.files path = true

namespace Sole

variable {db : Database} {language package : String} (h : db.Sole language package)
include h

/-- Below a directory of the language stands the directory of the package, and then its file. -/
theorem pathsBelow_eq {dir : String} (hdir : dir ∈ db.languageDirectories language) :
    db.files.pathsBelow "json" dir =
      db.files.packageDirectory dir package ++ db.files.packageFile dir package :=
  pathsBelow_sole h.proper (List.mem_filter.1 hdir).2 h.plain (h.belongs dir hdir)

/-- The files of the package can be read. -/
theorem isWhole_of_mem {dir path : String} (hdir : dir ∈ db.languageDirectories language)
    (hpath : path ∈ db.files.packageFile dir package ++ db.files.packageDirectory dir package) :
    isWhole db.files path = true := by
  refine h.whole dir hdir path ?_
  rw [h.pathsBelow_eq hdir]
  exact List.mem_append.2 (List.mem_append.1 hpath).symm

/-- A package is loaded with its file in front of its directory. -/
theorem loadPackage_eq :
    let docs := (db.languageDirectories language).flatMap fun dir =>
      db.fileDocuments package dir ++ db.directoryDocuments package dir
    db.loadPackage language package = (.ok docs.length, db.holding docs) := by
  have hdocs : (db.packageFiles language package).flatMap (acceptedIn db.files) =
      (db.languageDirectories language).flatMap fun dir =>
        db.fileDocuments package dir ++ db.directoryDocuments package dir := by
    rw [packageFiles, List.flatMap_assoc]
    exact List.flatMap_congr fun dir _ => List.flatMap_append
  rw [loadPackage, loadFiles_eq_ok (fun path hpath => ?_) 0 rfl, hdocs, Nat.zero_add]
  obtain ⟨dir, hdir, hpath⟩ := List.mem_flatMap.1 hpath
  exact h.isWhole_of_mem hdir hpath

/-- All packages are loaded with the directory in front of the file. -/
theorem loadAll_eq :
    let docs := (db.languageDirectories language).flatMap fun dir =>
      db.directoryDocuments package dir ++ db.fileDocuments package dir
    db.loadAll language = (.ok docs.length, db.holding docs) := by
  have hdocs : ((db.languageDirectories language).flatMap (db.files.pathsBelow "json")).flatMap
      (acceptedIn db.files) = (db.languageDirectories language).flatMap fun dir =>
        db.directoryDocuments package dir ++ db.fileDocuments package dir := by
    rw [List.flatMap_assoc]
    refine List.flatMap_congr fun dir hdir => ?_
    rw [h.pathsBelow_eq hdir, List.flatMap_append]
    rfl
  rw [loadAll, loadFiles_eq_ok (fun path hpath => ?_) 0 rfl, hdocs, Nat.zero_add]
  obtain ⟨dir, hdir, hpath⟩ := List.mem_flatMap.1 hpath
  exact h.whole dir hdir path hpath

/-- If a package is loaded, the files below its directory count. -/
theorem at?_loadPackage (key : NoteKey) :
    Table.at? (db.loadPackage language package).2.documents key =
      ((db.lastDirectory language package key).bind fun dir =>
        (lastUnder key (db.directoryDocuments package dir)).or
          (lastUnder key (db.fileDocuments package dir))).or (Table.at? db.documents key) := by
  rw [h.loadPackage_eq, at?_holding, lastUnder_flatMap, lastDirectory]
  simp only [lastUnder_append, Option.isSome_or, Bool.or_comm]

/-- If all packages are loaded, the file with the name of the package counts. -/
theorem at?_loadAll (key : NoteKey) :
    Table.at? (db.loadAll language).2.documents key =
      ((db.lastDirectory language package key).bind fun dir =>
        (lastUnder key (db.fileDocuments package dir)).or
          (lastUnder key (db.directoryDocuments package dir))).or (Table.at? db.documents key) := by
  rw [h.loadAll_eq, at?_holding, lastUnder_flatMap, lastDirectory]
  simp only [lastUnder_append, Option.isSome_or]

end Sole

/--
Where all files of a language are those of one package, loading the package and loading all packages
read the same number of documents. They leave the same document under a key just if the file and the
directory of the package do not have different ones, in the last directory of the language that has
any.
-/
theorem loadPackage_loadAll {db : Database} {language package : String}
    (h : db.Sole language package) :
    (∃ n, (db.loadPackage language package).1 = .ok n ∧ (db.loadAll language).1 = .ok n) ∧
    ∀ key, Table.at? (db.loadPackage language package).2.documents key =
        Table.at? (db.loadAll language).2.documents key ↔
      ∀ dir, db.lastDirectory language package key = some dir →
        ∀ doc doc', lastUnder key (db.fileDocuments package dir) = some doc →
          lastUnder key (db.directoryDocuments package dir) = some doc' → doc = doc' := by
  constructor
  · refine ⟨_, congrArg Prod.fst h.loadPackage_eq, (congrArg Prod.fst h.loadAll_eq).trans ?_⟩
    simp only [List.length_flatMap, List.length_append, Nat.add_comm]
  · intro key
    rw [h.at?_loadPackage, h.at?_loadAll]
    cases hlast : db.lastDirectory language package key with
    | none => simp
    | some dir =>
      simp only [Option.bind_some, Option.some.injEq, forall_eq']
      cases lastUnder key (db.fileDocuments package dir) with
      | none => simp
      | some doc =>
        cases lastUnder key (db.directoryDocuments package dir) with
        | none => simp
        | some doc' => simp [eq_comm]

/-- A package with one file in its directory, beside the file with its name. -/
def shelf (inDirectory beside : String) : Database where
  files := ⟨.directory [("notes", .directory [("python", .directory [
    ("p", .directory [("x.json", .file inDirectory)]), ("p.json", .file beside)])])], []⟩
  searchPath := ["notes"]

/-- The documents that a text lists. -/
def documentsIn? (text : String) : Option (List Json) :=
  match Json.read? text with
  | some (.arr docs) => some (docs.map Json.merged)
  | _ => none

/-- Whether a text lists documents that all have keys. -/
def isReadable (text : String) : Bool :=
  (documentsIn? text).any fun docs => docs.all fun doc => (key? doc).isSome

/-- The text of a file with one document. -/
def oneDocument (kind : String) : String :=
  "[\x7b\"language\":\"python\",\"package\":\"p\",\"id\":\"k\",\"kind\":\"" ++ kind ++ "\"\x7d]"

section Shelf

variable {a b : String}

/-- There is one directory of the language on the shelf. -/
theorem languageDirectories_shelf : (shelf a b).languageDirectories "python" = ["notes/python"] :=
  rfl

/-- Two files are below it. -/
theorem pathsBelow_shelf : (shelf a b).files.pathsBelow "json" "notes/python" =
    ["notes/python/p/x.json", "notes/python/p.json"] := by
  have hfind : (shelf a b).files.find? "notes/python" = some (.directory [
      ("p", .directory [("x.json", .file a)]), ("p.json", .file b)]) := by rfl
  rw [Files.pathsBelow_eq, hfind]
  simp only [inside, trails, trailsAll, sorted_singleton]
  rw [sorted_of_pairwise (List.pairwise_pair.2 (by decide))]
  decide +kernel

/-- One of them has the name of the package. -/
theorem packageFile_shelf :
    (shelf a b).files.packageFile "notes/python" "p" = ["notes/python/p.json"] := rfl

/-- The other one is in its directory. -/
theorem packageDirectory_shelf :
    (shelf a b).files.packageDirectory "notes/python" "p" = ["notes/python/p/x.json"] := by
  have hfind : (shelf a b).files.find? "notes/python/p" =
      some (.directory [("x.json", .file a)]) := by rfl
  rw [packageDirectory, Files.pathsBelow_eq]
  simp only [show Path.join "notes/python" "p" = "notes/python/p" from rfl, hfind, inside, trails,
    trailsAll, sorted_singleton]
  decide +kernel

/-- The files hold the documents that their texts list. -/
theorem documentsOf?_shelf :
    documentsOf? (shelf a b).files "notes/python/p/x.json" = documentsIn? a ∧
      documentsOf? (shelf a b).files "notes/python/p.json" = documentsIn? b := ⟨rfl, rfl⟩

/-- Both files are those of the package. -/
theorem sole_shelf (ha : isReadable a = true) (hb : isReadable b = true) :
    (shelf a b).Sole "python" "p" where
  proper := by
    have hone : ∀ (name : String) (e : Entry), name ≠ "" ∧ '/' ∉ name.toList → e.Proper →
        (Entry.directory [(name, e)]).Proper := by
      intro name e hname he
      refine .directory (List.nodup_singleton _) ?_ ?_ <;> simpa
    refine hone _ _ (by decide) (hone _ _ (by decide) (.directory (by simp) (by simp) ?_))
    simp only [List.forall_mem_cons, List.not_mem_nil, false_imp_iff, implies_true, and_true]
    exact ⟨hone _ _ (by decide) (.file _), .file _⟩
  plain := by
    show ∀ name ∈ Text.split '/' "p", _
    decide
  belongs := by
    rw [languageDirectories_shelf]
    simp only [List.forall_mem_singleton, pathsBelow_shelf, packageFile_shelf,
      packageDirectory_shelf]
    decide
  whole := by
    rw [languageDirectories_shelf]
    simp only [List.forall_mem_singleton, pathsBelow_shelf, List.forall_mem_cons, isWhole,
      documentsOf?_shelf]
    exact ⟨ha, hb⟩

/-- The documents in the file beside the directory. -/
theorem fileDocuments_shelf :
    (shelf a b).fileDocuments "p" "notes/python" = accepted ((documentsIn? b).getD []) := by
  rw [fileDocuments, packageFile_shelf, List.flatMap_singleton, acceptedIn, documentsOf?_shelf.2]

/-- The documents in the directory. -/
theorem directoryDocuments_shelf :
    (shelf a b).directoryDocuments "p" "notes/python" = accepted ((documentsIn? a).getD []) := by
  rw [directoryDocuments, packageDirectory_shelf, List.flatMap_singleton, acceptedIn,
    documentsOf?_shelf.1]

end Shelf

/-- With the same documents in both places it does not matter which of them counts. -/
theorem loadPackage_loadAll_repeated :
    let db := shelf (oneDocument "object") (oneDocument "object")
    db.Sole "python" "p" ∧
      (∃ n, (db.loadPackage "python" "p").1 = .ok n ∧ (db.loadAll "python").1 = .ok n) ∧
      ∀ key, Table.at? (db.loadPackage "python" "p").2.documents key =
        Table.at? (db.loadAll "python").2.documents key := by
  intro db
  have hreadable : isReadable (oneDocument "object") = true := by decide +kernel
  have hsole : db.Sole "python" "p" := sole_shelf hreadable hreadable
  have h := loadPackage_loadAll hsole
  refine ⟨hsole, h.1, fun key => (h.2 key).2 fun dir hdir doc doc' hdoc hdoc' => ?_⟩
  have hone : dir = "notes/python" := by
    simpa [languageDirectories_shelf, db] using
      (List.mem_filter.1 (List.mem_of_getLast? hdir)).1
  rw [hone, fileDocuments_shelf] at hdoc
  rw [hone, directoryDocuments_shelf] at hdoc'
  exact Option.some.inj (hdoc.symm.trans hdoc')

/-- The directory of the package counts if the package is loaded, its file if all packages are. -/
theorem loadPackage_loadAll_contested :
    let db := shelf (oneDocument "morphism") (oneDocument "object")
    let key : NoteKey := ⟨"python", "p", "k"⟩
    let kind (doc : Json) := (doc.member? "kind").bind Json.text?
    db.Sole "python" "p" ∧
      (Table.at? (db.loadPackage "python" "p").2.documents key).bind kind = some "morphism" ∧
      (Table.at? (db.loadAll "python").2.documents key).bind kind = some "object" := by
  intro db key kind
  have hsole : db.Sole "python" "p" := sole_shelf (by decide +kernel) (by decide +kernel)
  have hlast : db.lastDirectory "python" "p" key = some "notes/python" := by decide +kernel
  rw [hsole.at?_loadPackage, hsole.at?_loadAll, hlast]
  exact ⟨hsole, by decide +kernel, by decide +kernel⟩

end ObjectFlow.Database
