/-! # Whole numbers in texts -/

namespace ObjectFlow.Text

/-- The value of at least one decimal digit, leading zeros allowed. -/
def natural? (cs : List Char) : Option Nat :=
  if cs.isEmpty || !cs.all Char.isDigit then none
  else some (cs.foldl (fun n c => 10 * n + (c.toNat - 48)) 0)

/-- Decimal digits with at most one sign before them. -/
def integer? (cs : List Char) : Option Int :=
  match cs with
  | '-' :: rest => (natural? rest).map fun n => -(n : Int)
  | '+' :: rest => (natural? rest).map fun n => (n : Int)
  | _ => (natural? cs).map fun n => (n : Int)

/-- A whole number, where 64 bits can hold it with its sign. -/
def word? (i : Int) : Option Int64 :=
  if (Int64.ofInt i).toInt = i then some (Int64.ofInt i) else none

def int64? (s : String) : Option Int64 := (integer? s.toList).bind word?

end ObjectFlow.Text
