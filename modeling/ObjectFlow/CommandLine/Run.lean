import ObjectFlow.Annotated.Document
import ObjectFlow.CommandLine.Arguments
import ObjectFlow.Flow.Join
import ObjectFlow.Flow.Recorder
import ObjectFlow.Interpretation
import ObjectFlow.Semantic.Document
import ObjectFlow.Store.Memory
import ObjectFlow.Text.Blank

/-!
# Running a command

Every command reads documents and gives one as its result. The exit status is 0 after success, 1
where the documents do not fit together, 2 where the command line cannot be understood, and 3 where
a document cannot be read.
-/

namespace ObjectFlow.CommandLine

/-- What a command finds around it: the files, and the two variables that stand in for options. -/
structure Surroundings where
  files : Files
  /-- Directories of notes with colons between them. -/
  notePath : Option String := none
  ontology : Option String := none

/-- Why a command has no result, and what is said about it. -/
structure Failure where
  code : Nat
  lines : List String
deriving DecidableEq, Repr

/-- The exit status, the text of the result, and what is said about failures. -/
structure Report where
  code : Nat
  output : String := ""
  errors : List String := []
deriving DecidableEq, Repr

def unreadable (path : String) : Failure := ⟨3, ["Error: failed to read '" ++ path ++ "'"]⟩

def malformed (path : String) : Failure := ⟨3, ["Error: malformed document '" ++ path ++ "'"]⟩

def readRecording (f : Files) (path : String) : Except Failure Recording :=
  match f.text? path with
  | none => .error (unreadable path)
  | some text =>
    match Recording.ofText text with
    | .ok r => .ok r
    | .error _ => .error (malformed path)

/-- Reads two documents. Both are looked at, also if the first cannot be read. -/
def readBoth (f : Files) (first second : String) : Except Failure (Recording × Recording) :=
  match readRecording f first, readRecording f second with
  | .ok a, .ok b => .ok (a, b)
  | .error a, .error b => .error ⟨a.code, a.lines ++ b.lines⟩
  | .error a, .ok _ => .error a
  | .ok _, .error b => .error b

/-- The directories that are given, or else those of the surroundings. -/
def searchPath (s : Surroundings) (o : NoteOptions) : List String :=
  if o.directories.isEmpty then
    ((s.notePath.map (Text.split ':')).getD []).filter fun dir => !dir.isEmpty
  else o.directories

def database (s : Surroundings) (o : NoteOptions) : Database :=
  { files := s.files, searchPath := searchPath s o }

def eventOfLine (line : String) : Except EventError Event :=
  match Json.read? line with
  | some j => Event.ofJson j.merged
  | none => .error .malformed

/-- Records the events of lines, one a line; blank lines count and hold none. -/
def recordLines {σ : Type} (path : String) (number : Nat) (r : Recorder σ) :
    List String → Except Failure (Recorder σ)
  | [] => .ok r
  | line :: rest =>
    let told (what : String) := ["Error: " ++ path ++ ":" ++ toString number ++ ": " ++ what]
    if line.toList.all Text.isBlank then recordLines path (number + 1) r rest
    else
      match eventOfLine line with
      | .error e => .error ⟨3, told e.message⟩
      | .ok event =>
        match r.push event with
        | (.error e, _) => .error ⟨1, told e.message⟩
        | (.ok (), r) => recordLines path (number + 1) r rest

def runFlow (s : Surroundings) (supply : Supply) (events : String) (o : NoteOptions)
    (settings : Settings) : Except Failure Json :=
  match s.files.text? events with
  | none => .error (unreadable events)
  | some text => do
    let librarian : Librarian := { database := database s o, language := o.language }
    let r : Recorder (Memory Librarian) :=
      { annotator := Librarian.annotator.remembering, state := { state := librarian }
        settings := settings, tape := .empty supply }
    let r ← recordLines events 1 r (Text.lines text)
    return r.tape.recording.toJson

def runFlatten (s : Surroundings) (supply : Supply) (path : String) : Except Failure Json := do
  let r ← readRecording s.files path
  match r.flatten supply with
  | .ok (flow, _) => return flow.toJson
  | .error e => .error ⟨1, ["Flatten error: " ++ e.message]⟩

def runJoin (s : Surroundings) (supply : Supply) (first second : String) : Except Failure Json := do
  let (a, b) ← readBoth s.files first second
  match a.join b supply with
  | .ok (r, _) => return r.toJson
  | .error e => .error ⟨1, ["Join error: " ++ e.message]⟩

def runAnnotate (s : Surroundings) (supply : Supply) (path : String) : Except Failure Json := do
  let r ← readRecording s.files path
  match r.annotate supply with
  | .ok (_, g, _) => return g.toJson
  | .error e => .error ⟨1, ["Annotation error: " ++ e.message]⟩

/-- The ontology of a file, or where no file is named that of the roots alone. -/
def readOntology (f : Files) (path : Option String) : Except Failure Ontology :=
  match path with
  | none => .ok .roots
  | some path =>
    match f.text? path with
    | none => .error ⟨3, ["Error: failed to read ontology '" ++ path ++ "'"]⟩
    | some text =>
      (Ontology.ofText text).mapError fun e =>
        ⟨3, ["Error: invalid ontology '" ++ path ++ "': " ++ e.message]⟩

def runSemantic (s : Surroundings) (supply : Supply) (path : String) (o : NoteOptions)
    (ontology : Option String) : Except Failure Json := do
  let r ← readRecording s.files path
  let ontology ← readOntology s.files (ontology <|> s.ontology)
  match (r.interpret ontology { database := database s o } supply).1 with
  | .ok (found, _) => return found.semantic.toJson
  | .error e => .error ⟨1, ["Semantic error: " ++ e.message]⟩

def Command.run (s : Surroundings) (supply : Supply) : Command → Except Failure Json
  | .flow events notes settings => runFlow s supply events notes settings
  | .flatten path => runFlatten s supply path
  | .join first second => runJoin s supply first second
  | .annotate path => runAnnotate s supply path
  | .semantic path notes ontology => runSemantic s supply path notes ontology

/-- The files and directories that a command reads. -/
def Command.paths (s : Surroundings) : Command → List String
  | .flow events notes _ => events :: searchPath s notes
  | .flatten path => [path]
  | .join first second => [first, second]
  | .annotate path => [path]
  | .semantic path notes ontology =>
    path :: (ontology <|> s.ontology).toList ++ searchPath s notes

def usage : List String :=
  ["Flow graphs from execution traces", "",
    "Usage: objectflow [-v]... <COMMAND> ...", "",
    "Commands:",
    "  flow <EVENTS> [-d <DIR>]... [--language <LANGUAGE>] [--no-slots] [--no-hidden-referents]",
    "  flatten <TRACE>",
    "  join <FIRST> <SECOND>",
    "  annotate <TRACE>",
    "  semantic <TRACE> [-d <DIR>]... [--language <LANGUAGE>] [--ontology <FILE>]"]

/-- The paths that a command line asks for. -/
def pathsOf (s : Surroundings) (args : List String) : List String :=
  match Command.ofArguments args with
  | .ok c => c.paths s
  | .error _ => []

/-- Runs a command line. -/
def run (s : Surroundings) (supply : Supply) (args : List String) : Report :=
  match Command.ofArguments args with
  | .error .help => { code := 0, output := String.intercalate "\n" usage ++ "\n" }
  | .error .usage => { code := 2, errors := "error: invalid arguments" :: usage }
  | .ok c =>
    match c.run s supply with
    | .ok j => { code := 0, output := j.pretty 0 ++ "\n" }
    | .error f => { code := f.code, errors := f.lines }

end ObjectFlow.CommandLine
