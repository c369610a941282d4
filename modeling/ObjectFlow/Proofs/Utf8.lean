import Mathlib.Algebra.Ring.Nat
import Mathlib.Tactic.SplitIfs
import ObjectFlow.Text.Utf8

/-!
# Texts as octets

What is read from the octets of a text is that text (`text_utf8EncodeChar`): the first octet of a
character says how many follow, and each of these holds six bits more.

The decoder goes octet by octet and keeps in mind what is still owed: how many octets, in which
range the next one must be, and the value so far. For each length of a character it is shown what
its first octet makes the decoder owe (`lead_two`, `lead_three`, `lead_four`), and then how what is
owed is paid off one octet at a time (`decode_owed`, `decode_last`). The ranges of the second octet
are there to rule out longer forms than needed and values that are no characters, so the octets of a
character are always within them.
-/

namespace ObjectFlow.Text.Utf8

/-- The first octet of several says what is owed. -/
theorem decode_lead {b owed low high value : Nat}
    (h : lead b = some ⟨owed + 1, low, high, value⟩) (rest : List Nat) :
    decode (b :: rest) none = decode rest (some ⟨owed + 1, low, high, value⟩) := by
  rw [decode, begin, h]
  exact List.nil_append _

/-- An octet that is owed holds the next six bits. -/
theorem decode_owed {owed low high x : Nat} (hlow : low ≤ x % 64 + 0x80)
    (hhigh : x % 64 + 0x80 ≤ high) (rest : List Nat) :
    decode ((x % 64 + 0x80) :: rest) (some ⟨owed + 2, low, high, x / 64⟩) =
      decode rest (some ⟨owed + 1, 0x80, 0xBF, x⟩) := by
  have hx : x / 64 * 64 + (x % 64 + 0x80 - 0x80) = x := by omega
  rw [decode, if_pos (by simp [hlow, hhigh]), hx]
  exact if_neg (show ¬ owed + 2 ≤ 1 by omega)

/-- The last octet that is owed completes the character. -/
theorem decode_last {low high x : Nat} (hlow : low ≤ x % 64 + 0x80)
    (hhigh : x % 64 + 0x80 ≤ high) (rest : List Nat) :
    decode ((x % 64 + 0x80) :: rest) (some ⟨1, low, high, x / 64⟩) =
      Char.ofNat x :: decode rest none := by
  have hx : x / 64 * 64 + (x % 64 + 0x80 - 0x80) = x := by omega
  rw [decode, if_pos (by simp [hlow, hhigh]), hx]
  exact if_pos (Nat.le_refl 1)

/-- One octet is owed behind the first of two. -/
theorem lead_two {v : Nat} (h : 0x7F < v) (h' : v ≤ 0x7FF) :
    lead (v / 64 % 32 + 0xC0) = some ⟨1, 0x80, 0xBF, v / 64⟩ := by
  rw [lead, if_neg (by omega), if_pos (by simp only [Bool.and_eq_true, decide_eq_true_eq]; omega)]
  exact congrArg (fun x => some (Pending.mk 1 _ _ x)) (by omega)

/-- What is left out behind the first of three octets are smaller values and surrogates. -/
theorem lead_three {v : Nat} (h : 0x7FF < v) (hv : v < 0xD800 ∨ 0xDFFF < v) (h' : v ≤ 0xFFFF) :
    ∃ low high, lead (v / 4096 % 16 + 0xE0) = some ⟨2, low, high, v / 64 / 64⟩ ∧
      low ≤ v / 64 % 64 + 0x80 ∧ v / 64 % 64 + 0x80 ≤ high := by
  -- The bounds of `v` rule out all first octets but 0xE0, 0xED and those between 0xE1 and 0xEF.
  unfold lead
  simp only [Bool.and_eq_true, decide_eq_true_eq]
  split_ifs
  all_goals first
    | omega
    | exact ⟨_, _, congrArg (fun x => some (Pending.mk 2 _ _ x)) (by omega), by omega, by omega⟩

/-- What is left out behind the first of four octets are smaller values and those beyond all
characters. -/
theorem lead_four {v : Nat} (h : 0xFFFF < v) (h' : v < 0x110000) :
    ∃ low high, lead (v / 262144 % 8 + 0xF0) = some ⟨3, low, high, v / 4096 / 64⟩ ∧
      low ≤ v / 4096 % 64 + 0x80 ∧ v / 4096 % 64 + 0x80 ≤ high := by
  unfold lead
  simp only [Bool.and_eq_true, decide_eq_true_eq]
  split_ifs
  all_goals first
    | omega
    | exact ⟨_, _, congrArg (fun x => some (Pending.mk 3 _ _ x)) (by omega), by omega, by omega⟩

/-- The octets of a character as numbers. -/
theorem utf8EncodeChar_toNat (c : Char) : (String.utf8EncodeChar c).map UInt8.toNat =
    let v := c.val.toNat
    if v ≤ 0x7F then [v]
    else if v ≤ 0x7FF then [v / 64 % 32 + 0xC0, v % 64 + 0x80]
    else if v ≤ 0xFFFF then [v / 4096 % 16 + 0xE0, v / 64 % 64 + 0x80, v % 64 + 0x80]
    else [v / 262144 % 8 + 0xF0, v / 4096 % 64 + 0x80, v / 64 % 64 + 0x80, v % 64 + 0x80] := by
  have toNat_octet {n : Nat} (h : n < 256) : (UInt8.ofNat n).toNat = n :=
    UInt8.toNat_ofNat_of_lt' h
  unfold String.utf8EncodeChar
  dsimp only
  split_ifs
  · exact congrArg (fun b => [b]) (toNat_octet (by omega))
  all_goals
    simp only [List.map_cons, List.map_nil]
    repeat rw [toNat_octet (by omega)]

/-- A character is read from its octets, whatever follows. -/
theorem decode_utf8EncodeChar (c : Char) (rest : List Nat) :
    decode ((String.utf8EncodeChar c).map UInt8.toNat ++ rest) none = c :: decode rest none := by
  have hc : Char.ofNat c.val.toNat = c := Char.ofNat_toNat c
  have hvalid : c.val.toNat < 0xD800 ∨ 0xDFFF < c.val.toNat ∧ c.val.toNat < 0x110000 := c.valid
  rw [utf8EncodeChar_toNat]
  generalize c.val.toNat = v at hc hvalid
  rw [← hc]
  dsimp only
  split_ifs with h₁ h₂ h₃
  · have hlead : lead v = some ⟨0, 0, 0, v⟩ := if_pos (by omega)
    rw [List.singleton_append, decode, begin, hlead]
    rfl
  · rw [List.cons_append, decode_lead (lead_two (by omega) h₂)]
    exact decode_last (by omega) (by omega) rest
  · obtain ⟨low, high, hlead, hlow, hhigh⟩ := lead_three (v := v) (by omega) (by omega) h₃
    rw [List.cons_append, decode_lead hlead, List.cons_append, decode_owed hlow hhigh]
    exact decode_last (by omega) (by omega) rest
  · obtain ⟨low, high, hlead, hlow, hhigh⟩ := lead_four (v := v) (by omega) (by omega)
    have hv : v / 4096 = v / 64 / 64 := by omega
    rw [List.cons_append, decode_lead hlead, List.cons_append, decode_owed hlow hhigh, hv,
      List.cons_append, decode_owed (by omega) (by omega)]
    exact decode_last (by omega) (by omega) rest

/-- A text is read back from the octets of its characters. -/
theorem text_utf8EncodeChar (s : String) :
    text ((s.toList.flatMap String.utf8EncodeChar).map UInt8.toNat) = s := by
  have hdecode (cs : List Char) :
      decode ((cs.flatMap String.utf8EncodeChar).map UInt8.toNat) none = cs := by
    induction cs with
    | nil => rfl
    | cons c rest ih => rw [List.flatMap_cons, List.map_append, decode_utf8EncodeChar, ih]
  rw [text, hdecode, String.ofList_toList]

end ObjectFlow.Text.Utf8
