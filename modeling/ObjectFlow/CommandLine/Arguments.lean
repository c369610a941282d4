import ObjectFlow.Flow.Exchange
import ObjectFlow.Store.Annotator

/-!
# Arguments of the command line

Options may stand before, between and after the operands of a command. They are read from left to
right, and the first one that asks for help or cannot be understood decides.
-/

namespace ObjectFlow.CommandLine

/-- Why no command is run. -/
inductive Halt where
  | help
  | usage
deriving DecidableEq, Repr

inductive Switch where
  | verbose
  | noSlots
  | noHidden
deriving DecidableEq, Repr

/-- An option with a value. -/
inductive Field where
  | directory
  | language
  | ontology
deriving DecidableEq, Repr

/-- What a command takes: a number of operands, and options by their long names. -/
structure Grammar where
  operands : Nat
  switches : List (String × Switch) := []
  fields : List (String × Field) := []

/-- What was given so far. -/
structure Given where
  operands : List String := []
  switches : List Switch := []
  fields : List (Field × String) := []

/-- The form of one argument. -/
inductive Shape where
  | operand
  /-- Everything behind it is an operand. -/
  | divider
  | long (name : String) (value : Option String)
  | short (letters : List Char)
deriving DecidableEq, Repr

/-- A lone hyphen is an operand. -/
def Shape.of (arg : String) : Shape :=
  match arg.toList with
  | ['-', '-'] => .divider
  | '-' :: '-' :: rest =>
    let (name, value) := Text.cut '=' (String.ofList rest)
    .long name value
  | '-' :: c :: rest => .short (c :: rest)
  | _ => .operand

namespace Given

/-- Operands are paths, which are never empty. -/
def place (g : Grammar) (p : Given) (arg : String) : Except Halt Given :=
  if arg.isEmpty || g.operands ≤ p.operands.length then .error .usage
  else .ok { p with operands := p.operands ++ [arg] }

/-- Only verbosity may be asked for more than once. -/
def turnOn (p : Given) (s : Switch) : Except Halt Given :=
  if s ≠ .verbose && p.switches.contains s then .error .usage
  else .ok { p with switches := s :: p.switches }

/-- Only directories may be given more than once, and only a language may be empty. -/
def fill (p : Given) (f : Field) (value : String) : Except Halt Given :=
  if value.isEmpty && f ≠ .language then .error .usage
  else if f ≠ .directory && Table.holds p.fields f then .error .usage
  else .ok { p with fields := p.fields ++ [(f, value)] }

/-- The values of an option in their order. -/
def valuesOf (p : Given) (f : Field) : List String :=
  (p.fields.filter fun e => e.1 = f).map Prod.snd

end Given

/-- Reads a long option; one that still lacks its value is told. -/
def readLong (g : Grammar) (p : Given) (name : String) (value : Option String) :
    Except Halt (Given × Option Field) :=
  match Table.at? g.fields name, value with
  | some f, some v => (p.fill f v).map fun p => (p, none)
  | some f, none => .ok (p, some f)
  | none, some _ => .error .usage
  | none, none =>
    if name = "help" then .error .help
    else
      match Table.at? (("verbose", .verbose) :: g.switches) name with
      | some s => (p.turnOn s).map fun p => (p, none)
      | none => .error .usage

/-- Whether an option can be written with the letter `d`. -/
def Grammar.takesDirectories (g : Grammar) : Bool := g.fields.any fun f => f.2 = .directory

/-- Reads a row of letters; what follows an option with a value is that value. -/
def readShort (g : Grammar) (p : Given) : List Char → Except Halt (Given × Option Field)
  | [] => .ok (p, none)
  | 'h' :: _ => .error .help
  | 'v' :: rest => do
    let p ← p.turnOn .verbose
    readShort g p rest
  | 'd' :: rest =>
    if !g.takesDirectories then .error .usage
    else
      match rest with
      | [] => .ok (p, some .directory)
      | '=' :: value => (p.fill .directory (String.ofList value)).map fun p => (p, none)
      | value => (p.fill .directory (String.ofList value)).map fun p => (p, none)
  | _ => .error .usage

/-- Reads the arguments of a command, the first of them as the value of an option that lacks one. -/
def readAll (g : Grammar) : Option Field → Given → List String → Except Halt Given
  | none, p, [] => .ok p
  | some _, _, [] => .error .usage
  | some f, p, arg :: rest =>
    match Shape.of arg with
    | .operand => do
      let p ← p.fill f arg
      readAll g none p rest
    | _ => .error .usage
  | none, p, arg :: rest =>
    match Shape.of arg with
    | .operand => do
      let p ← p.place g arg
      readAll g none p rest
    | .divider => rest.foldlM (Given.place g) p
    | .long name value => do
      let (p, lacking) ← readLong g p name value
      readAll g lacking p rest
    | .short letters => do
      let (p, lacking) ← readShort g p letters
      readAll g lacking p rest

/-- Where notes are found, and in which language. -/
structure NoteOptions where
  directories : List String
  language : String
deriving DecidableEq, Repr

inductive Command where
  | flow (events : String) (notes : NoteOptions) (settings : Settings)
  | flatten (recording : String)
  | join (first second : String)
  | annotate (recording : String)
  | semantic (recording : String) (notes : NoteOptions) (ontology : Option String)

namespace Command

def noteFields : List (String × Field) := [("annotations", .directory), ("language", .language)]

def grammars : List (String × Grammar) :=
  [("flow", ⟨1, [("no-slots", .noSlots), ("no-hidden-referents", .noHidden)], noteFields⟩),
    ("flatten", ⟨1, [], []⟩), ("join", ⟨2, [], []⟩), ("annotate", ⟨1, [], []⟩),
    ("semantic", ⟨1, [], noteFields ++ [("ontology", .ontology)]⟩)]

def noteOptions (p : Given) : NoteOptions :=
  ⟨p.valuesOf .directory, ((p.valuesOf .language).head?).getD Librarian.defaultLanguage⟩

/-- The command of a name with all its operands; none where one of them is missing. -/
def ofGiven? (name : String) (p : Given) : Option Command :=
  match name, p.operands with
  | "flow", [events] =>
    let settings : Settings := ⟨!p.switches.contains .noSlots, !p.switches.contains .noHidden⟩
    some (.flow events (noteOptions p) settings)
  | "flatten", [recording] => some (.flatten recording)
  | "join", [first, second] => some (.join first second)
  | "annotate", [recording] => some (.annotate recording)
  | "semantic", [recording] =>
    some (.semantic recording (noteOptions p) (p.valuesOf .ontology).head?)
  | _, _ => none

/-- Help on everything, or on one command. -/
def help (args : List String) : Halt :=
  match args with
  | [] => .help
  | [name] => if name = "help" || Table.holds grammars name then .help else .usage
  | _ => .usage

def named (name : String) (args : List String) : Except Halt Command :=
  if name = "help" then .error (help args)
  else
    match Table.at? grammars name with
    | none => .error .usage
    | some g => do
      let p ← readAll g none {} args
      match ofGiven? name p with
      | some c => .ok c
      | none => .error .usage

/-- Reads a command line: the first operand is the name of the command. -/
def ofArguments : List String → Except Halt Command
  | [] => .error .usage
  | arg :: rest =>
    match Shape.of arg with
    | .operand => named arg rest
    | .divider => .error .usage
    | .long name value => do
      let _ ← readLong ⟨0, [], []⟩ {} name value
      ofArguments rest
    | .short letters => do
      let _ ← readShort ⟨0, [], []⟩ {} letters
      ofArguments rest

end Command

end ObjectFlow.CommandLine
