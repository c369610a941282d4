import ObjectFlow.Binary64

/-!
# The shortest decimal that reads back

The reals that read back as a number form an interval around it. Grids of powers of ten are tried
from the coarsest to the finest, and the first one with a point in the interval gives the digits. Of
two such points the nearer one counts; where both are equally near, the writer decides.
-/

namespace ObjectFlow

/-- Significant digits, the first of which stands at the power of ten `exponent`. -/
structure Decimal where
  digits : List Char
  exponent : Int
deriving DecidableEq, Repr

namespace Decimal

/-- Which of two equally near decimals is written. -/
inductive Tie where
  | toEven
  | upward
deriving DecidableEq, Repr

/-- Whether the lower one of two neighbours on a grid is taken from the middle between them. -/
def Tie.isLower : Tie → Nat → Bool
  | .toEven, low => low % 2 == 0
  | .upward, _ => false

/-- The power of ten of the first digit of a positive ratio. -/
def decade (num den : Nat) : Int :=
  if den ≤ num then ((Nat.toDigits 10 (num / den)).length : Int) - 1
  else -((Nat.toDigits 10 ((den + num - 1) / num - 1)).length : Int)

/--
The reals that read back as `m · 2^q`, in quarters of `2^q`; the ends belong to them when `m` is
even.
-/
structure Neighbourhood where
  below : Nat
  centre : Nat
  above : Nat
  closed : Bool

def Neighbourhood.of (x : Binary64) : Neighbourhood :=
  let m := x.significand
  let gap := if x.fraction = 0 && 1 < x.exponent then 1 else 2
  ⟨4 * m - gap, 4 * m, 4 * m + 2, m % 2 == 0⟩

/-- The multiple of `10^s` next to the centre that lies in the neighbourhood, if one does. -/
def onGrid (tie : Tie) (r : Neighbourhood) (q : Int) (s : Int) : Option Nat :=
  let unit := Binary64.shifted 1 4 q
  let p := if 0 ≤ s then Nat.pow 10 s.toNat * unit.2 else unit.2
  let a := if 0 ≤ s then unit.1 else unit.1 * Nat.pow 10 (-s).toNat
  let inside (c : Nat) : Bool :=
    if r.closed then r.below * a ≤ c * p && c * p ≤ r.above * a
    else r.below * a < c * p && c * p < r.above * a
  let low := r.centre * a / p
  let left := r.centre * a - low * p
  let right := (low + 1) * p - r.centre * a
  let first := if left < right || (left == right && tie.isLower low) then low else low + 1
  let second := if first = low then low + 1 else low
  if inside first then some first else if inside second then some second else none

def trimZeros (digits : List Char) : List Char :=
  (digits.reverse.dropWhile (· == '0')).reverse

/-- The fewest digits that read back as a finite positive number, and of those the nearest. -/
def shortest (tie : Tie) (x : Binary64) : Decimal :=
  if x.isZero then ⟨['0'], 0⟩
  else
    let r := Neighbourhood.of x
    let v := Binary64.shifted x.significand 1 x.scale
    let k := decade v.1 v.2
    let found := (List.range 17).findSome? fun (i : Nat) =>
      let s : Int := k - (i : Int)
      (onGrid tie r x.scale s).map fun c => (c, s)
    let (c, s) := found.getD (0, 0)
    let digits := Nat.toDigits 10 c
    ⟨trimZeros digits, s + (digits.length : Int) - 1⟩

/-- Written out without an exponent; `mark` follows a number without fraction. -/
def plain (d : Decimal) (mark : List Char) : List Char :=
  if d.exponent < 0 then
    '0' :: '.' :: List.replicate (-d.exponent - 1).toNat '0' ++ d.digits
  else
    let whole := d.exponent.toNat + 1
    if d.digits.length ≤ whole then
      d.digits ++ List.replicate (whole - d.digits.length) '0' ++ mark
    else d.digits.take whole ++ '.' :: d.digits.drop whole

/-- One digit before the point, and the exponent with its sign. -/
def scientific (d : Decimal) : List Char :=
  let fraction := if d.digits.length ≤ 1 then [] else '.' :: d.digits.drop 1
  let sign := if d.exponent < 0 then '-' else '+'
  d.digits.take 1 ++ fraction ++ 'e' :: sign :: Nat.toDigits 10 d.exponent.natAbs

end Decimal

end ObjectFlow
