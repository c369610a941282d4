/-!
# Pairs of code units

A character beyond the first `2 ^ 16` is written in escapes as two code units, a high half and a low
half. Neither half stands for anything on its own, so a text in which one stands alone is no text.
-/

namespace ObjectFlow.Text.Surrogate

def isHigh (unit : Nat) : Bool := 0xD800 ≤ unit && unit ≤ 0xDBFF

def isLow (unit : Nat) : Bool := 0xDC00 ≤ unit && unit ≤ 0xDFFF

/-- The character that a pair of halves stands for. -/
def pair (high low : Nat) : Char :=
  Char.ofNat (0x10000 + (high - 0xD800) * 1024 + (low - 0xDC00))

/-- What a text is put together from: characters, and the halves of others. -/
inductive Piece where
  | char (c : Char)
  | half (unit : Nat)

def Piece.ofUnit (unit : Nat) : Piece :=
  if isHigh unit || isLow unit then .half unit else .char (Char.ofNat unit)

/--
The text whose pieces stand newest first, in front of the characters that follow it; `none` where a
half stands alone.
-/
def join? : List Piece → List Char → Option (List Char)
  | [], following => some following
  | .char c :: rest, following => join? rest (c :: following)
  | .half low :: .half high :: rest, following =>
    if isHigh high && isLow low then join? rest (pair high low :: following) else none
  | .half _ :: _, _ => none

@[simp] theorem join?_map_char (cs following : List Char) :
    join? (cs.map Piece.char) following = some (cs.reverse ++ following) := by
  induction cs generalizing following with
  | nil => rfl
  | cons c cs ih => simp [join?, ih]

end ObjectFlow.Text.Surrogate
