import ObjectFlow.Json.Number
import ObjectFlow.Json.Outline
import ObjectFlow.Text.Hex
import ObjectFlow.Text.Surrogate

/-!
# Reading JSON

A text is cut into tokens by an automaton that looks at one character at a time, and the tokens are
put together to an outline by one that keeps a stack of open containers. Neither looks back, so both
recur on what is left of the text. A value is what a reader looks at of the outline: all of it
(`read?`), or only the members that it knows (`readWithin?`).
-/

namespace ObjectFlow.Json

/-- A text or another scalar that stands for nothing has no value. -/
inductive Token where
  | openArray
  | closeArray
  | openObject
  | closeObject
  | comma
  | colon
  | text (s : Option String)
  | scalar (value : Option Json)

/-- What the next character belongs to. What has been read of it so far stands newest first. -/
inductive Mode where
  | between
  | word (read : List Char)
  | number (read : List Char)
  | string (read : List Text.Surrogate.Piece)
  | escape (read : List Text.Surrogate.Piece)
  | unicode (read : List Text.Surrogate.Piece) (digits : Nat) (value : Nat)

def keyword? (read : List Char) : Option Json :=
  match String.ofList read.reverse with
  | "null" => some .null
  | "true" => some (.bool true)
  | "false" => some (.bool false)
  | _ => none

def isNumberChar (c : Char) : Bool :=
  c.isDigit || c == '-' || c == '+' || c == '.' || c == 'e' || c == 'E'

/-- A character between tokens. -/
def start (c : Char) : Option (Mode × List Token) :=
  let n := c.toNat
  if n = 32 || n = 9 || n = 10 || n = 13 then some (.between, [])
  else if c = '[' then some (.between, [.openArray])
  else if c = ']' then some (.between, [.closeArray])
  else if n = 123 then some (.between, [.openObject])
  else if n = 125 then some (.between, [.closeObject])
  else if c = ',' then some (.between, [.comma])
  else if c = ':' then some (.between, [.colon])
  else if c = '"' then some (.string [], [])
  else if c = '-' || c.isDigit then some (.number [c], [])
  else if c.isAlpha then some (.word [c], [])
  else none

/-- The token that a word or a number makes when it ends. -/
def finish : Mode → Option (List Token)
  | .between => some []
  | .word read => (keyword? read).map fun j => [.scalar (some j)]
  | .number read => (Literal.ofChars? read.reverse).map fun l => [.scalar l.value?]
  | _ => none

def escaped? (c : Char) : Option Char :=
  if c = '"' || c = '\\' || c = '/' then some c
  else if c = 'b' then some (Char.ofNat 8)
  else if c = 'f' then some (Char.ofNat 12)
  else if c = 'n' then some '\n'
  else if c = 'r' then some '\r'
  else if c = 't' then some '\t'
  else none

def step (mode : Mode) (c : Char) : Option (Mode × List Token) :=
  match mode with
  | .between => start c
  | .word read =>
    if c.isAlpha then some (.word (c :: read), [])
    else do
      let done ← finish mode
      let (next, tokens) ← start c
      return (next, done ++ tokens)
  | .number read =>
    if isNumberChar c then some (.number (c :: read), [])
    else do
      let done ← finish mode
      let (next, tokens) ← start c
      return (next, done ++ tokens)
  | .string read =>
    if c = '"' then
      some (.between, [.text ((Text.Surrogate.join? read []).map String.ofList)])
    else if c = '\\' then some (.escape read, [])
    else if c.toNat < 32 then none
    else some (.string (.char c :: read), [])
  | .escape read =>
    if c = 'u' then some (.unicode read 0 0, [])
    else (escaped? c).map fun e => (.string (.char e :: read), [])
  | .unicode read count value => do
    let d ← Text.hexValue? c
    let value := value * 16 + d
    if count < 3 then return (.unicode read (count + 1) value, [])
    return (.string (.ofUnit value :: read), [])

/-- The tokens of a text, in front of which stand those already read, newest first. -/
def tokens : List Char → Mode → List Token → Option (List Token)
  | [], mode, done => (finish mode).map fun last => (last.reverse ++ done).reverse
  | c :: rest, mode, done => do
    let (next, found) ← step mode c
    tokens rest next (found.reverse ++ done)

/-- An open array or object with the entries read so far, newest first. -/
inductive Frame where
  | array (items : List Outline)
  | object (members : List (Option String × Outline)) (key : Option String)

/-- What may come next, and the containers that are open, innermost first. -/
inductive Progress where
  | value (stack : List Frame)
  | firstItem (stack : List Frame)
  | firstKey (stack : List Frame)
  | key (stack : List Frame) (members : List (Option String × Outline))
  | colon (stack : List Frame) (members : List (Option String × Outline)) (key : Option String)
  | after (stack : List Frame) (o : Outline)

def beginValue (stack : List Frame) : Token → Option Progress
  | .scalar value => some (.after stack (.scalar value))
  | .text s => some (.after stack (.scalar (s.map Json.str)))
  | .openArray => some (.firstItem stack)
  | .openObject => some (.firstKey stack)
  | _ => none

def advance : Progress → Token → Option Progress
  | .value stack, t => beginValue stack t
  | .firstItem stack, .closeArray => some (.after stack (.arr []))
  | .firstItem stack, t => beginValue (.array [] :: stack) t
  | .firstKey stack, .closeObject => some (.after stack (.obj []))
  | .firstKey stack, .text k => some (.colon stack [] k)
  | .key stack members, .text k => some (.colon stack members k)
  | .colon stack members k, .colon => some (.value (.object members k :: stack))
  | .after (.array items :: stack) o, .comma => some (.value (.array (o :: items) :: stack))
  | .after (.array items :: stack) o, .closeArray => some (.after stack (.arr (o :: items).reverse))
  | .after (.object members k :: stack) o, .comma => some (.key stack ((k, o) :: members))
  | .after (.object members k :: stack) o, .closeObject =>
    some (.after stack (.obj ((k, o) :: members).reverse))
  | _, _ => none

def assemble : List Token → Progress → Option Outline
  | [], .after [] o => some o
  | [], _ => none
  | t :: rest, p => do
    let next ← advance p t
    assemble rest next

/-- The outline of a text; `none` when the text is no JSON. -/
def outline? (s : String) : Option Outline := do
  let ts ← tokens s.toList .between []
  assemble ts (.value [])

/-- So many containers may be open at a time. -/
def depthLimit : Nat := 127

/-- What is looked at of a text, whose objects may still repeat a name. -/
def readWithin? (extent : Extent) (s : String) : Option Json := do
  let o ← outline? s
  o.within? extent depthLimit

/-- The value of a text; `none` when the text is no JSON or some part of it stands for nothing. -/
def read? (s : String) : Option Json := readWithin? .whole s

end ObjectFlow.Json
