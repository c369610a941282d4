import ObjectFlow.Text.Integer
import ObjectFlow.Text.Order
import Mathlib.Algebra.Ring.Nat
import Mathlib.Data.List.TakeWhile

/-!
# Texts in order and in pieces, and numbers in texts

A text without the separator is a single piece, a text is told by its pieces, and a number is read
back from its digits.

Texts are strings here, and lists of characters where they are taken apart. The lemmas come in
pairs, first for lists and then for strings, where the second follows from the first. Pieces are
those of the library function on lists (`pieces_eq_splitOn`), so that its lemmas apply.
-/

namespace ObjectFlow.Text

/-- What is in front of the first separator. -/
theorem takeWhile_of_not_mem {separator : Char} {s : List Char} (h : separator ∉ s)
    (rest : List Char) :
    (s ++ separator :: rest).takeWhile (fun c => !(c == separator)) = s := by
  induction s with
  | nil => simp
  | cons c s ih =>
    rw [List.mem_cons, not_or] at h
    rw [List.cons_append, List.takeWhile_cons, if_pos (by simpa using Ne.symm h.1), ih h.2]

/-- A text without the separator is not cut. -/
theorem cut_of_not_mem {separator : Char} {s : String} (h : separator ∉ s.toList) :
    cut separator s = (s, none) := by
  have hall : s.toList.takeWhile (fun c => !(c == separator)) = s.toList := by
    rw [List.takeWhile_eq_self_iff]
    intro c hc
    have hne : c ≠ separator := fun heq => h (heq ▸ hc)
    simpa using hne
  simp only [cut, hall, List.drop_length]

/-- A text is cut at its first separator. -/
theorem cut_of_toList_eq {separator : Char} {s head rest : String} (h : separator ∉ head.toList)
    (hs : s.toList = head.toList ++ separator :: rest.toList) :
    cut separator s = (head, some rest) := by
  simp only [cut, hs, takeWhile_of_not_mem h, List.drop_left, String.ofList_toList]

theorem pieces_of_not_mem {separator : Char} {s : List Char} (h : separator ∉ s) :
    pieces separator s = [s] := by
  induction s with
  | nil => rfl
  | cons c rest ih =>
    rw [List.mem_cons, not_or] at h
    rw [pieces, if_neg (Ne.symm h.1), ih h.2]

theorem split_of_not_mem {separator : Char} {s : String} (h : separator ∉ s.toList) :
    split separator s = [s] := by
  rw [split, pieces_of_not_mem h]
  simp

theorem pieces_eq_splitOn (separator : Char) (s : List Char) :
    pieces separator s = s.splitOn separator := by
  induction s with
  | nil => rfl
  | cons c rest ih =>
    rw [pieces, ih, List.splitOn, List.splitOn, List.splitOnP_cons_eq_if_modifyHead]
    by_cases hc : c = separator
    · rw [if_pos hc, if_pos (beq_iff_eq.2 hc)]
    · rw [if_neg hc, if_neg (by simpa using hc)]
      cases hrest : List.splitOnP (· == separator) rest with
      | nil => exact absurd hrest (List.splitOnP_ne_nil _ _)
      | cons piece more => rfl

/-- A separator ends one piece and begins the next. -/
theorem pieces_append_cons (separator : Char) (s t : List Char) :
    pieces separator (s ++ separator :: t) = pieces separator s ++ pieces separator t := by
  simp only [pieces_eq_splitOn, List.splitOn]
  exact List.splitOnP_append_cons s t (beq_self_eq_true separator)

theorem split_ne_nil (separator : Char) (s : String) : split separator s ≠ [] := fun h =>
  pieces_ne_nil separator s.toList (List.map_eq_nil_iff.1 h)

theorem split_eq_append {separator : Char} {s a b : String}
    (h : s.toList = a.toList ++ separator :: b.toList) :
    split separator s = split separator a ++ split separator b := by
  rw [split, h, pieces_append_cons, List.map_append]
  rfl

/-- The first piece ends where the text is cut, and the others are those of what comes behind. -/
theorem split_eq_cut (separator : Char) (s : String) : split separator s =
    (cut separator s).1 :: ((cut separator s).2.map (split separator)).getD [] := by
  by_cases h : separator ∈ s.toList
  · obtain ⟨head, rest, hs, hhead⟩ := List.eq_append_cons_of_mem h
    rw [← String.toList_ofList (l := head)] at hhead
    have hs' : s.toList =
        (String.ofList head).toList ++ separator :: (String.ofList rest).toList := by
      rw [String.toList_ofList, String.toList_ofList, hs]
    rw [cut_of_toList_eq hhead hs', split_eq_append hs', split_of_not_mem hhead]
    rfl
  · rw [cut_of_not_mem h, split_of_not_mem h]
    rfl

/-- No two texts have the same pieces. -/
theorem split_injective (separator : Char) : Function.Injective (split separator) := by
  intro s t h
  have hpieces := (List.map_inj_right fun _ _ => String.ofList_injective).1 h
  rw [pieces_eq_splitOn, pieces_eq_splitOn] at hpieces
  have hjoined := congrArg [separator].intercalate hpieces
  rw [List.intercalate_splitOn, List.intercalate_splitOn] at hjoined
  exact String.toList_injective hjoined

/-- No piece has a separator in it. -/
theorem not_mem_of_mem_pieces {separator : Char} {s piece : List Char}
    (h : piece ∈ pieces separator s) : separator ∉ piece := by
  induction s generalizing piece with
  | nil =>
    obtain rfl := List.mem_singleton.1 h
    exact List.not_mem_nil
  | cons c rest ih =>
    rw [pieces] at h
    split at h
    · rcases List.mem_cons.1 h with rfl | h
      · exact List.not_mem_nil
      · exact ih h
    · rename_i hc
      split at h
      · obtain rfl := List.mem_singleton.1 h
        simpa using Ne.symm hc
      · rename_i first more hpieces
        rw [hpieces] at ih
        rcases List.mem_cons.1 h with rfl | h
        · simpa [Ne.symm hc] using ih List.mem_cons_self
        · exact ih (List.mem_cons_of_mem _ h)

theorem not_mem_of_mem_split {separator : Char} {s piece : String}
    (h : piece ∈ split separator s) : separator ∉ piece.toList := by
  obtain ⟨cs, hcs, rfl⟩ := List.mem_map.1 h
  rw [String.toList_ofList]
  exact not_mem_of_mem_pieces hcs

/-- What is put to the end of a text is put to its last piece. -/
theorem pieces_append_of_not_mem {separator : Char} {t : List Char} (h : separator ∉ t)
    (s : List Char) : ∃ init last, pieces separator s = init ++ [last] ∧
      pieces separator (s ++ t) = init ++ [last ++ t] := by
  induction s with
  | nil => exact ⟨[], [], rfl, pieces_of_not_mem h⟩
  | cons c rest ih =>
    obtain ⟨init, last, hs, hst⟩ := ih
    rw [List.cons_append, pieces, pieces, hs, hst]
    by_cases hc : c = separator
    · exact ⟨[] :: init, last, by simp [hc], by simp [hc]⟩
    · cases init with
      | nil => exact ⟨[], c :: last, by simp [hc], by simp [hc]⟩
      | cons first more => exact ⟨(c :: first) :: more, last, by simp [hc], by simp [hc]⟩

theorem split_append_of_not_mem {separator : Char} {t : String} (h : separator ∉ t.toList)
    (s : String) : ∃ init last, split separator s = init ++ [last] ∧
      split separator (s ++ t) = init ++ [last ++ t] := by
  obtain ⟨init, last, hs, hst⟩ := pieces_append_of_not_mem h s.toList
  refine ⟨init.map String.ofList, String.ofList last, ?_, ?_⟩
  · rw [split, hs, List.map_append, List.map_singleton]
  · rw [split, String.toList_append, hst, List.map_append, List.map_singleton, String.ofList_append,
      String.ofList_toList]

/-! ## Order

Texts are compared as lists of numbers, as in the library. -/

/-- Texts are in the order of their code points. -/
theorem precedes_iff {a b : List Char} :
    precedes a b = true ↔ a.map Char.toNat < b.map Char.toNat := by
  induction a generalizing b with
  | nil => cases b <;> simp [precedes]
  | cons c as ih =>
    cases b with
    | nil => simp [precedes]
    | cons d bs =>
      simp only [precedes, List.map_cons, List.cons_lt_cons_iff]
      split <;> simp_all

/-- A text precedes any longer one that begins with it. -/
theorem precedes_append (a : List Char) {b : List Char} (h : b ≠ []) :
    precedes a (a ++ b) = true := by
  induction a with
  | nil =>
    cases b with
    | nil => exact absurd rfl h
    | cons c b => rfl
  | cons c a ih => simpa [precedes] using ih

/-! ## Digits

Numbers are written by the library, and read by functions of its own that also take a sign. -/

theorem toList_toString (n : Nat) : (toString n).toList = Nat.toDigits 10 n := Nat.toList_repr

theorem isDigit_of_mem_toString {n : Nat} {c : Char} (h : c ∈ (toString n).toList) : c.isDigit :=
  Nat.isDigit_of_mem_toDigits (by decide) (by decide) (toList_toString n ▸ h)

/-- A number is read back from its digits. -/
theorem natural?_toDigits (n : Nat) : natural? (Nat.toDigits 10 n) = some n := by
  have hall : (Nat.toDigits 10 n).all Char.isDigit := List.all_eq_true.2 fun c hc =>
    Nat.isDigit_of_mem_toDigits (by decide) (by decide) hc
  have hne : (Nat.toDigits 10 n).isEmpty = false := by
    rw [List.isEmpty_eq_false_iff]
    exact Nat.toDigits_ne_nil
  have hval : (Nat.toDigits 10 n).foldl (fun n c => 10 * n + (c.toNat - 48)) 0 = n :=
    Nat.ofDigitChars_toDigits (by decide) (by decide)
  rw [natural?, hall, hne, hval]
  rfl

/-- The digits of a number begin with no sign. -/
theorem integer?_toDigits (n : Nat) : integer? (Nat.toDigits 10 n) = some (n : Int) := by
  have hdigit : ∀ c ∈ Nat.toDigits 10 n, c.isDigit := fun c hc =>
    Nat.isDigit_of_mem_toDigits (by decide) (by decide) hc
  unfold integer?
  split
  · rename_i heq
    exact absurd (hdigit '-' (heq ▸ List.mem_cons_self)) (by decide)
  · rename_i heq
    exact absurd (hdigit '+' (heq ▸ List.mem_cons_self)) (by decide)
  · rw [natural?_toDigits]
    rfl

/-- A number that fits into a word is read back from its text. -/
theorem int64?_toString {n : Nat} (h : n < 2 ^ 63) :
    ∃ i : Int64, int64? (toString n) = some i ∧ i.toInt = n := by
  have hval : (Int64.ofInt n).toInt = n := Int64.toInt_ofInt_of_le (by omega) (by omega)
  refine ⟨Int64.ofInt n, ?_, hval⟩
  rw [int64?, toList_toString, integer?_toDigits, Option.bind_some, word?, if_pos hval]

theorem isDigit_of_natural? {cs : List Char} {n : Nat} (h : natural? cs = some n) {c : Char}
    (hc : c ∈ cs) : c.isDigit = true := by
  unfold natural? at h
  split at h
  · cases h
  · rename_i hall
    rw [Bool.or_eq_true, not_or] at hall
    exact List.all_eq_true.1 (by simpa using hall.2) c hc

/-- A whole number is written with digits and at most a sign. -/
theorem mem_of_integer? {cs : List Char} {i : Int} (h : integer? cs = some i) {c : Char}
    (hc : c ∈ cs) : c.isDigit = true ∨ c = '-' ∨ c = '+' := by
  unfold integer? at h
  split at h <;>
    simp only [Option.map_eq_some_iff, Option.bind_eq_bind, Option.bind_eq_some_iff,
      Option.pure_def] at h <;>
    obtain ⟨_, ⟨n, hn, -⟩, -⟩ := h
  · rcases List.mem_cons.1 hc with rfl | hc
    · exact .inr (.inl rfl)
    · exact .inl (isDigit_of_natural? hn hc)
  · rcases List.mem_cons.1 hc with rfl | hc
    · exact .inr (.inr rfl)
    · exact .inl (isDigit_of_natural? hn hc)
  · exact .inl (isDigit_of_natural? hn hc)

/-- A number has no point in it. -/
theorem point_not_mem_of_int64? {s : String} {i : Int64} (h : int64? s = some i) :
    '.' ∉ s.toList := by
  intro hm
  obtain ⟨j, hj, -⟩ := Option.bind_eq_some_iff.1 h
  rcases mem_of_integer? hj hm with hdigit | hsign | hsign
  · exact absurd hdigit (by decide)
  · exact absurd hsign (by decide)
  · exact absurd hsign (by decide)

end ObjectFlow.Text
