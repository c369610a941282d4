/-! # White space -/

namespace ObjectFlow.Text

/-- The characters with the Unicode property `White_Space`. -/
def isBlank (c : Char) : Bool :=
  let n := c.toNat
  (9 ≤ n && n ≤ 13) || n == 32 || n == 0x85 || n == 0xA0 || n == 0x1680
    || (0x2000 ≤ n && n ≤ 0x200A) || n == 0x2028 || n == 0x2029 || n == 0x202F
    || n == 0x205F || n == 0x3000

/--
Lines end at a line feed, which a carriage return may precede; nothing after the last one is no
line.
-/
def lines (s : String) : List String :=
  (go s.toList []).map String.ofList
where
  go : List Char → List Char → List (List Char)
    | [], [] => []
    | [], line => [line.reverse]
    | '\n' :: rest, '\r' :: line => line.reverse :: go rest []
    | '\n' :: rest, line => line.reverse :: go rest []
    | c :: rest, line => go rest (c :: line)

end ObjectFlow.Text
