/-!
# Reading octets as UTF-8

The octets that can follow the first one of a character lie in ranges that leave out overlong forms,
surrogates and values above `0x10FFFF`.
-/

namespace ObjectFlow.Text.Utf8

/--
Where a reader stands: the octets still owed, the range of the next one, and the value so far.
-/
structure Pending where
  owed : Nat
  low : Nat
  high : Nat
  value : Nat

/-- What may follow a first octet; `none` where no character starts with it. -/
def lead (b : Nat) : Option Pending :=
  if b < 0x80 then some ⟨0, 0, 0, b⟩
  else if 0xC2 ≤ b && b ≤ 0xDF then some ⟨1, 0x80, 0xBF, b - 0xC0⟩
  else if b = 0xE0 then some ⟨2, 0xA0, 0xBF, 0⟩
  else if b = 0xED then some ⟨2, 0x80, 0x9F, 13⟩
  else if 0xE1 ≤ b && b ≤ 0xEF then some ⟨2, 0x80, 0xBF, b - 0xE0⟩
  else if b = 0xF0 then some ⟨3, 0x90, 0xBF, 0⟩
  else if b = 0xF4 then some ⟨3, 0x80, 0x8F, 4⟩
  else if 0xF1 ≤ b && b ≤ 0xF3 then some ⟨3, 0x80, 0xBF, b - 0xF0⟩
  else none

def replacement : Char := Char.ofNat 0xFFFD

/-- The characters that an octet outside of a sequence begins or completes. -/
def begin (b : Nat) : List Char × Option Pending :=
  match lead b with
  | none => ([replacement], none)
  | some p => if p.owed = 0 then ([Char.ofNat p.value], none) else ([], some p)

/--
Every maximal beginning of a sequence that cannot be completed reads as one replacement character.
-/
def decode : List Nat → Option Pending → List Char
  | [], none => []
  | [], some _ => [replacement]
  | b :: rest, none => (begin b).1 ++ decode rest (begin b).2
  | b :: rest, some p =>
    if p.low ≤ b && b ≤ p.high then
      let value := p.value * 64 + (b - 0x80)
      if p.owed ≤ 1 then Char.ofNat value :: decode rest none
      else decode rest (some ⟨p.owed - 1, 0x80, 0xBF, value⟩)
    else replacement :: (begin b).1 ++ decode rest (begin b).2

/-- The text of a list of octets, with replacement characters for what is no UTF-8. -/
def text (octets : List Nat) : String := String.ofList (decode octets none)

end ObjectFlow.Text.Utf8
