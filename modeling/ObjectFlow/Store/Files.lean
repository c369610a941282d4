import ObjectFlow.Table
import ObjectFlow.Text.Order

/-!
# Files and directories

A tree of files stands for the part of a file system that is read. Paths are followed name by name,
as far as they lead through directories.
-/

namespace ObjectFlow

inductive Entry where
  | file (text : String)
  | directory (entries : List (String × Entry))
deriving Inhabited

/-- A tree of files, and the directory in it from which relative paths start. -/
structure Files where
  root : Entry
  here : List String := []

namespace Entry

def child? : Entry → String → Option Entry
  | .file _, _ => none
  | .directory entries, name => Table.at? entries name

def isDirectory : Entry → Bool
  | .file _ => false
  | .directory _ => true

/-- Puts an entry at a path and makes the directories on the way. -/
def place (new : Entry) : List String → Entry → Entry
  | [], _ => new
  | name :: rest, e =>
    let entries := match e with
      | .directory entries => entries
      | .file _ => []
    let old := (Table.at? entries name).getD (.directory [])
    .directory (Table.put entries name (place new rest old))

end Entry

namespace Path

/-- A path that starts at the root stands for itself behind any directory. -/
def join (dir path : String) : String :=
  if path.toList.head? == some '/' then path
  else if dir.isEmpty || dir.toList.getLast? == some '/' then dir ++ path
  else dir ++ "/" ++ path

/-- What follows the last point of a name, a point at its beginning apart. -/
def extension? (name : String) : Option String :=
  match (Text.split '.' name).reverse with
  | last :: before :: rest => if before.isEmpty && rest.isEmpty then none else some last
  | _ => none

/-- The names on a path. -/
def names (path : String) : List String :=
  (Text.split '/' path).filter fun n => n ≠ "" && n ≠ "."

/-- Two points take back the name before them. -/
def normal (names : List String) : List String :=
  names.foldl (fun above n => if n = ".." then above.dropLast else above ++ [n]) []

end Path

namespace Files

/-- Puts an entry at a path. -/
def mount (f : Files) (path : String) (new : Entry) : Files :=
  let start := if path.toList.head? == some '/' then [] else f.here
  { f with root := new.place (Path.normal (start ++ Path.names path)) f.root }

/-- One step of a path. What was passed on the way stands behind the place that was reached. -/
def enter : List Entry → String → Option (List Entry)
  | [], _ => none
  | e :: above, name =>
    if !e.isDirectory then none
    else if name = "" || name = "." then some (e :: above)
    else if name = ".." then some (if above.isEmpty then [e] else above)
    else (e.child? name).map fun c => c :: e :: above

def follow (start : List Entry) (names : List String) : Option (List Entry) :=
  names.foldlM enter start

/-- The entry that a path names. -/
def find? (f : Files) (path : String) : Option Entry := do
  let top := [f.root]
  let start ← if path.toList.head? == some '/' then some top else follow top f.here
  let trail ← follow start (Text.split '/' path)
  trail.head?

def text? (f : Files) (path : String) : Option String :=
  match f.find? path with
  | some (.file text) => some text
  | _ => none

def isFile (f : Files) (path : String) : Bool := (f.text? path).isSome

def isDirectory (f : Files) (path : String) : Bool :=
  match f.find? path with
  | some e => e.isDirectory
  | none => false

/-- Puts a list in the order of its keys. -/
def sorted {α : Type} (es : List (String × α)) : List (String × α) :=
  es.mergeSort fun a b => !Text.precedes b.1.toList a.1.toList

mutual

/-- The paths of the files at or below an entry whose names have an extension. -/
def below (extension path name : String) : Entry → List String
  | .file _ => if Path.extension? name = some extension then [path] else []
  | .directory entries => ((sorted (belowAll extension path entries)).map Prod.snd).flatten

/-- The same for each entry of a directory. -/
def belowAll (extension path : String) : List (String × Entry) → List (String × List String)
  | [] => []
  | (name, e) :: rest =>
    (name, below extension (Path.join path name) name e) :: belowAll extension path rest

end

/--
The paths of all files with an extension below a directory, in the order of the names on the way.
-/
def pathsBelow (f : Files) (extension path : String) : List String :=
  match f.find? path with
  | some e => if e.isDirectory then below extension path "" e else []
  | none => []

end Files

end ObjectFlow
