/-! # Texts ordered by code points, and texts in pieces -/

namespace ObjectFlow.Text

/-- Lexicographic, a proper beginning first. UTF-8 bytes give the same order. -/
def precedes : List Char → List Char → Bool
  | [], [] => false
  | [], _ :: _ => true
  | _ :: _, [] => false
  | a :: as, b :: bs => if a.toNat = b.toNat then precedes as bs else a.toNat < b.toNat

/-- The parts between the occurrences of a separator; there is one more of them than occurrences. -/
def pieces (separator : Char) (s : List Char) : List (List Char) :=
  match s with
  | [] => [[]]
  | c :: rest =>
    if c = separator then [] :: pieces separator rest
    else match pieces separator rest with
      | [] => [[c]]
      | piece :: more => (c :: piece) :: more

def split (separator : Char) (s : String) : List String :=
  (pieces separator s.toList).map String.ofList

/--
The text before the first occurrence of a separator, and the text after it where there is one.
-/
def cut (separator : Char) (s : String) : String × Option String :=
  let head := s.toList.takeWhile fun c => !(c == separator)
  match s.toList.drop head.length with
  | [] => (s, none)
  | _ :: rest => (String.ofList head, some (String.ofList rest))

theorem pieces_ne_nil (separator : Char) (s : List Char) : pieces separator s ≠ [] := by
  cases s with
  | nil => simp [pieces]
  | cons c rest =>
    simp only [pieces]
    split
    · simp
    · split <;> simp

end ObjectFlow.Text
