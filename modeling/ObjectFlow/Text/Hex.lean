/-! # Hexadecimal digits -/

namespace ObjectFlow.Text

/-- The digit of a number below 16, in lower case. -/
def hexDigit (n : Nat) : Char := ((Nat.toDigits 16 n).head?).getD '0'

/-- The value of a digit in either case. -/
def hexValue? (c : Char) : Option Nat :=
  let n := c.toNat
  if 48 ≤ n && n ≤ 57 then some (n - 48)
  else if 97 ≤ n && n ≤ 102 then some (n - 87)
  else if 65 ≤ n && n ≤ 70 then some (n - 55)
  else none

theorem hexValue?_hexDigit (n : Fin 16) : hexValue? (hexDigit n) = some n.val := by
  revert n
  decide

end ObjectFlow.Text
