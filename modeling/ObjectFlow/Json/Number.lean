import ObjectFlow.Json.Value

/-!
# Number literals

A literal without fraction and exponent is a whole number as long as 64 bits can hold it. Of any
other one those leading whole digits count that stay below `2 ^ 64`, and the rest of them only shift
the point; then the digits of the fraction are taken on, again as long as they stay below `2 ^ 64`.
-/

namespace ObjectFlow.Json

/-- The parts of a literal: its sign, its whole digits, its fraction and its exponent. -/
structure Literal where
  negative : Bool
  whole : List Char
  fraction : Option (List Char)
  exponent : Option (Bool × List Char)

def digitValue (c : Char) : Nat := c.toNat - 48

def digitsValue (cs : List Char) : Nat := cs.foldl (fun n c => n * 10 + digitValue c) 0

def digits (cs : List Char) : List Char × List Char :=
  (cs.takeWhile Char.isDigit, cs.dropWhile Char.isDigit)

/-- A sign, digits without a leading zero, and where they stand a fraction and an exponent. -/
def Literal.ofChars? (cs : List Char) : Option Literal := do
  let (negative, cs) := match cs with
    | '-' :: rest => (true, rest)
    | _ => (false, cs)
  let (whole, cs) := digits cs
  if whole.isEmpty || (whole.head? == some '0' && 1 < whole.length) then none
  let (fraction, cs) ← match cs with
    | '.' :: rest =>
      let (fraction, rest) := digits rest
      if fraction.isEmpty then none else some (some fraction, rest)
    | _ => some (none, cs)
  let (exponent, cs) ← match cs with
    | c :: rest =>
      if c = 'e' || c = 'E' then
        let (below, rest) := match rest with
          | '-' :: rest => (true, rest)
          | '+' :: rest => (false, rest)
          | _ => (false, rest)
        let (power, rest) := digits rest
        if power.isEmpty then none else some (some (below, power), rest)
      else none
    | [] => some (none, [])
  if cs.isEmpty then some ⟨negative, whole, fraction, exponent⟩ else none

/-- The leading digits that stay below `2^64`, and how many follow them. -/
def leading (limit : Nat) : List Char → Nat → Nat × Nat
  | [], value => (value, 0)
  | c :: rest, value =>
    let next := value * 10 + digitValue c
    if next < limit then leading limit rest next else (value, rest.length + 1)

def wordLimit : Nat := 18446744073709551616

def half : Nat := 9223372036854775808

def power (e : Option (Bool × List Char)) : Int :=
  match e with
  | none => 0
  | some (below, cs) =>
    let n : Int := digitsValue cs
    if below then -n else n

/--
Whole numbers of 64 bits, signed or not, stay whole; any other number is a floating-point one, and
one that is too large for that is none.
-/
def Literal.value? (l : Literal) : Option Json :=
  let (significand, dropped) := leading wordLimit l.whole 0
  let float (s : Nat) (e : Int) : Option Json :=
    (Binary64.ofDecimal? l.negative (Binary64.ofNat false s) e).map Json.float
  if l.fraction.isNone && l.exponent.isNone then
    if 0 < dropped then float significand dropped
    else if !l.negative then some (.int significand)
    else if significand = 0 then some (.float (Binary64.zero true))
    else if significand ≤ half then some (.int (-(significand : Int)))
    else float significand 0
  else
    let fraction := l.fraction.getD []
    let (significand, rest) := leading wordLimit fraction significand
    float significand (dropped - ((fraction.length - rest : Nat) : Int) + power l.exponent)

end ObjectFlow.Json
