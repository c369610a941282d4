/-!
# Binary floating-point numbers of 64 bits

A number is given by its three fields, and all operations on it are exact arithmetic on natural
numbers with one rounding at the end, to the nearest number and to even in the middle.
-/

namespace ObjectFlow

/-- The three fields of the format: sign, biased exponent (11 bits) and fraction (52 bits). -/
structure Binary64 where
  negative : Bool
  exponent : Nat
  fraction : Nat
deriving DecidableEq, Repr

namespace Binary64

/-- The weight of the bit that the fields of a normal number leave out. -/
def implicitBit : Nat := 4503599627370496

def isFinite (x : Binary64) : Bool := x.exponent < 2047

def isNaN (x : Binary64) : Bool := x.exponent == 2047 && x.fraction != 0

def isZero (x : Binary64) : Bool := x.exponent == 0 && x.fraction == 0

def infinity (negative : Bool) : Binary64 := ⟨negative, 2047, 0⟩

def nan : Binary64 := ⟨false, 2047, 2251799813685248⟩

def zero (negative : Bool) : Binary64 := ⟨negative, 0, 0⟩

/-- A finite number is its significand times two to its scale. -/
def significand (x : Binary64) : Nat :=
  if x.exponent = 0 then x.fraction else x.fraction + implicitBit

def scale (x : Binary64) : Int :=
  (if x.exponent = 0 then 1 else (x.exponent : Int)) - 1075

/-- The two zeros are equal, and a number that is none differs from itself. -/
def equal (x y : Binary64) : Bool :=
  !x.isNaN && !y.isNaN && ((x.isZero && y.isZero) || decide (x = y))

/-- The whole number nearest to a ratio; of two, the even one. -/
def roundHalfEven (num den : Nat) : Nat :=
  let quotient := num / den
  let rest := 2 * (num % den)
  if rest < den || (rest == den && quotient % 2 == 0) then quotient else quotient + 1

def pack (negative : Bool) (m : Nat) (q : Int) : Binary64 :=
  if m < implicitBit then ⟨negative, 0, m⟩
  else
    let e := (q + 1075).toNat
    if e ≥ 2047 then infinity negative else ⟨negative, e, m - implicitBit⟩

/-- A ratio times two to a power, as a ratio. -/
def shifted (num den : Nat) (q : Int) : Nat × Nat :=
  if 0 ≤ q then (num <<< q.toNat, den) else (num, den <<< (-q).toNat)

/-- The number nearest to a ratio, ties to even; too large a ratio gives infinity. -/
def ofRatio (negative : Bool) (num den : Nat) : Binary64 :=
  if num = 0 then zero negative
  else
    let low : Int := (Nat.log2 num : Int) - (Nat.log2 den : Int) - 53
    let atLow := shifted num den (-low)
    let q := if atLow.1 < 2 * implicitBit * atLow.2 then low else low + 1
    let q := if q < -1074 then -1074 else q
    let ratio := shifted num den (-q)
    let m := roundHalfEven ratio.1 ratio.2
    if m = 2 * implicitBit then pack negative implicitBit (q + 1) else pack negative m q

def ofNat (negative : Bool) (n : Nat) : Binary64 := ofRatio negative n 1

def ofInt (i : Int) : Binary64 := ofNat (i < 0) i.natAbs

/-- The product of the magnitudes of two finite numbers. -/
def times (negative : Bool) (x y : Binary64) : Binary64 :=
  let r := shifted (x.significand * y.significand) 1 (x.scale + y.scale)
  ofRatio negative r.1 r.2

/-- The quotient of the magnitudes of two finite numbers. -/
def quotient (negative : Bool) (x y : Binary64) : Binary64 :=
  let r := shifted x.significand y.significand (x.scale - y.scale)
  ofRatio negative r.1 r.2

def powerOfTen (k : Nat) : Binary64 := ofNat false (Nat.pow 10 k)

/--
A decimal is read by rounding its significand and the power of ten each on its own and combining
the two; `none` where the result is too large.
-/
def ofDecimal? (negative : Bool) (x : Binary64) (exponent : Int) : Option Binary64 :=
  if x.isZero then some (zero negative)
  else if 308 < exponent then none
  else if 0 ≤ exponent then
    let product := times negative x (powerOfTen exponent.toNat)
    if product.isFinite then some product else none
  else if -308 ≤ exponent then some (quotient negative x (powerOfTen (-exponent).toNat))
  else ofDecimal? negative (quotient false x (powerOfTen 308)) (exponent + 308)
termination_by exponent.natAbs
decreasing_by omega

end Binary64

end ObjectFlow
