import ObjectFlow.Decimal.Shortest
import ObjectFlow.Json.Value
import ObjectFlow.Text.Hex

/-!
# Writing JSON

There are two forms: on one line without blanks, and with one entry a line.
-/

namespace ObjectFlow.Json

/--
Numbers stand without an exponent from the decimal exponent -5 up to 15, and never look like whole
numbers. Of two equally near decimals the even one is written.
-/
def numberText (x : Binary64) : String :=
  let d := Decimal.shortest .toEven x
  let body := if -5 ≤ d.exponent && d.exponent ≤ 15 then d.plain ['.', '0'] else d.scientific
  String.ofList (if x.negative then '-' :: body else body)

/-- Quotes, backslashes and control characters are escaped, and nothing else. -/
def escape (c : Char) : List Char :=
  if c = '"' then ['\\', '"']
  else if c = '\\' then ['\\', '\\']
  else if c.toNat = 8 then ['\\', 'b']
  else if c.toNat = 9 then ['\\', 't']
  else if c.toNat = 10 then ['\\', 'n']
  else if c.toNat = 12 then ['\\', 'f']
  else if c.toNat = 13 then ['\\', 'r']
  else if c.toNat < 32 then
    ['\\', 'u', '0', '0', Text.hexDigit (c.toNat / 16), Text.hexDigit (c.toNat % 16)]
  else [c]

def quote (s : String) : String := String.ofList ('"' :: s.toList.flatMap escape ++ ['"'])

mutual

/-- The text without any blanks. -/
def compact : Json → String
  | .null => "null"
  | .bool true => "true"
  | .bool false => "false"
  | .int n => toString n
  | .float x => numberText x
  | .str s => quote s
  | .arr items => "[" ++ String.intercalate "," (compactItems items) ++ "]"
  | .obj members => "\x7b" ++ String.intercalate "," (compactMembers members) ++ "\x7d"

def compactItems : List Json → List String
  | [] => []
  | j :: rest => compact j :: compactItems rest

def compactMembers : List (String × Json) → List String
  | [] => []
  | (k, j) :: rest => (quote k ++ ":" ++ compact j) :: compactMembers rest

end

/-- One entry a line, between brackets that stand on lines of their own. -/
def block (left right : String) (depth : Nat) (entries : List String) : String :=
  let indent (n : Nat) := String.ofList ('\n' :: List.replicate (2 * n) ' ')
  if entries.isEmpty then left ++ right
  else left ++ indent (depth + 1) ++ String.intercalate ("," ++ indent (depth + 1)) entries
    ++ indent depth ++ right

mutual

/-- The text with one entry a line, each level two blanks further in. -/
def pretty (depth : Nat) : Json → String
  | .arr items => block "[" "]" depth (prettyItems (depth + 1) items)
  | .obj members => block "\x7b" "\x7d" depth (prettyMembers (depth + 1) members)
  | .null => "null"
  | .bool true => "true"
  | .bool false => "false"
  | .int n => toString n
  | .float x => numberText x
  | .str s => quote s

def prettyItems (depth : Nat) : List Json → List String
  | [] => []
  | j :: rest => pretty depth j :: prettyItems depth rest

def prettyMembers (depth : Nat) : List (String × Json) → List String
  | [] => []
  | (k, j) :: rest => (quote k ++ ": " ++ pretty depth j) :: prettyMembers depth rest

end

end ObjectFlow.Json
