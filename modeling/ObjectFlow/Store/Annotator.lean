import ObjectFlow.Store.Database

/-!
# Finding the note for a function or a class

Of the notes that apply to a class the best one is taken: a note is at least as good as another if
each class of the other is an ancestor of, or the same as, some class of the note. Packages are
asked in the order of the class and its ancestors.
-/

namespace ObjectFlow

/-- Answers from a state, which an answer may change. -/
structure Annotator (σ : Type) where
  function : Callee → σ → Option Note × σ
  object : RuntimeType → σ → Option Note × σ

/-- Knows nothing. -/
def Annotator.silent : Annotator Unit := ⟨fun _ s => (none, s), fun _ s => (none, s)⟩

/-- A database of which the packages of one language are loaded when they are first asked for. -/
structure Librarian where
  database : Database
  language : String
  loaded : List String := []

namespace Librarian

def defaultLanguage : String := "python"

/-- Loads a package once; what cannot be loaded is not tried again. -/
def fetch (l : Librarian) (package : String) : Librarian :=
  if l.loaded.contains package then l
  else
    let (_, database) := l.database.loadPackage l.language package
    { l with database := database, loaded := package :: l.loaded }

/-- The notes of a package that satisfy a query; none when one of the documents found is no note. -/
def ask (l : Librarian) (package : String) (q : Query) : List Note × Librarian :=
  let l := l.fetch package
  let q := q ++ [.equals "language" (.str l.language), .equals "package" (.str package)]
  match l.database.filterNotes q with
  | .ok notes => (notes, l)
  | .error _ => ([], l)

def topLevel (fullName : String) : String := (Text.cut '.' fullName).1

/-- The last place of a class in a lineage. -/
def place? (lineage : List String) (name : String) : Option Nat :=
  (lineage.reverse.findIdx? (· == name)).map fun i => lineage.length - 1 - i

/-- Every class of the first note stands at or behind some class of the second in the lineage. -/
def atMost (lineage : List String) (a b : Note) : Bool :=
  a.classes.all fun c => b.classes.any fun d =>
    match place? lineage d, place? lineage c with
    | some i, some j => i ≤ j
    | _, _ => false

/-- The lineage has all the classes of the note, and the note has at least one. -/
def applies (lineage : List String) (n : Note) : Bool :=
  !n.classes.isEmpty && n.classes.all lineage.contains

/-- The better of a note and the best one so far; the note wins only if it is at least as good. -/
def prefer (lineage : List String) (best : Option Note) (n : Note) : Option Note :=
  if applies lineage n then
    match best with
    | none => some n
    | some b => if atMost lineage b n then some n else best
  else best

/-- The packages that the names of a lineage begin with. -/
def packages (lineage : List String) : List String := (lineage.map topLevel).eraseDups

/-- Asks one package after the other and keeps the best note. -/
def best (lineage : List String) (q : Query) :
    List String → Option Note → Librarian → Option Note × Librarian
  | [], found, l => (found, l)
  | package :: rest, found, l =>
    let (notes, l) := l.ask package q
    best lineage q rest (notes.foldl (prefer lineage) found) l

def resolve (l : Librarian) (type : RuntimeType) (q : Query) : Option Note × Librarian :=
  best type.lineage q (packages type.lineage) none l

def object (type : RuntimeType) (l : Librarian) : Option Note × Librarian :=
  l.resolve type [.equals "kind" (.str "object")]

def plainFunction (f : Callee) (l : Librarian) : Option Note × Librarian :=
  let (notes, l) := l.ask (topLevel f.fullName)
    [.equals "kind" (.str "morphism"), .equals "function" (.str f.fullName)]
  (notes.head?, l)

/--
A method is looked up by its receiver's type first, and then like any function by its full name.
-/
def function (f : Callee) (l : Librarian) : Option Note × Librarian :=
  match f.boundType with
  | none => plainFunction f l
  | some type =>
    match l.resolve type [.equals "kind" (.str "morphism"), .equals "method" (.str f.name)] with
    | (some n, l) => (some n, l)
    | (none, l) => plainFunction f l

def annotator : Annotator Librarian := ⟨function, object⟩

end Librarian

end ObjectFlow
