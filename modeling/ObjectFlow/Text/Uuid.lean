import ObjectFlow.Text.Hex

/-!
# The text of 128-bit identifiers

An identifier is written with hyphens in documents and without them in messages; four forms are
read, all of them in either case.
-/

namespace ObjectFlow.Text.Uuid

/-- So many hexadecimal digits, the most significant first. -/
def hex : Nat → Nat → List Char
  | 0, _ => []
  | width + 1, n => hex width (n / 16) ++ [hexDigit (n % 16)]

def simpleChars (n : Nat) : List Char := hex 32 n

/-- The 32 digits without hyphens. -/
def simple (n : Nat) : String := String.ofList (simpleChars n)

/-- Groups of eight, four, four, four and twelve digits. -/
def hyphenated (n : Nat) : String :=
  let cs := simpleChars n
  let group (start size : Nat) := (cs.drop start).take size
  String.ofList (group 0 8 ++ '-' :: group 8 4 ++ '-' :: group 12 4 ++ '-' :: group 16 4
    ++ '-' :: group 20 12)

def value? (cs : List Char) : Option Nat :=
  cs.foldl (fun acc c => do
    let n ← acc
    let d ← hexValue? c
    return n * 16 + d) (some 0)

/-- The digits of a hyphenated identifier. -/
def ungroup? (cs : List Char) : Option (List Char) :=
  let group (start size : Nat) := (cs.drop start).take size
  if cs.length = 36 && [8, 13, 18, 23].all (fun i => cs[i]? == some '-') then
    some (group 0 8 ++ group 9 4 ++ group 14 4 ++ group 19 4 ++ group 24 12)
  else none

def urn : List Char := "urn:uuid:".toList

/-- Reads 32 digits, or the hyphenated form alone, behind `urn:uuid:` or in braces. -/
def parse? (s : String) : Option Nat :=
  let cs := s.toList
  if cs.length = 32 then value? cs
  else if cs.length = 36 then (ungroup? cs).bind value?
  else if cs.length = 38 then
    if cs.head? == some (Char.ofNat 123) && cs.getLast? == some (Char.ofNat 125) then
      (ungroup? ((cs.drop 1).take 36)).bind value?
    else none
  else if cs.length = 45 && (cs.take 9).map Char.toLower == urn then
    (ungroup? (cs.drop 9)).bind value?
  else none

end ObjectFlow.Text.Uuid
