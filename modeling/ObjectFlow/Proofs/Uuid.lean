import Mathlib.Algebra.Order.Ring.Nat
import Mathlib.Data.List.Induction
import ObjectFlow.Text.Uuid

/-!
# Identifiers are read back from their text

The hyphenated form of an identifier is read back as long as the number has 128 bits, and no other
number is read.

An identifier is written in digits of a fixed width, which are then put in five groups. Reading goes
the other way round: the groups are put together (`ungroup?_hyphenated`), and the digits are read
(`value?_hex`). The bound on what is read comes from the number of digits alone.
-/

namespace ObjectFlow.Text

theorem hexValue?_lt {c : Char} {d : Nat} (h : hexValue? c = some d) : d < 16 := by
  simp only [hexValue?, Bool.and_eq_true, decide_eq_true_eq] at h
  split at h
  · cases h
    omega
  · split at h
    · cases h
      omega
    · split at h
      · cases h
        omega
      · cases h

namespace Uuid

/-! ## Digits

The least digit is written last, so the induction takes digits off at the end. -/

@[simp] theorem length_hex (width n : Nat) : (hex width n).length = width := by
  induction width generalizing n with
  | zero => rfl
  | succ width ih => simp [hex, ih]

@[simp] theorem length_simpleChars (n : Nat) : (simpleChars n).length = 32 := length_hex 32 n

/-- The last digit counts once, and those before it sixteen times. -/
theorem value?_concat (cs : List Char) (c : Char) :
    value? (cs ++ [c]) = (value? cs).bind fun n => (hexValue? c).map fun d => n * 16 + d := by
  rw [value?, List.foldl_append]
  cases h : value? cs with
  | none =>
    rw [value?] at h
    rw [h]
    rfl
  | some n =>
    rw [value?] at h
    rw [h, List.foldl_cons, List.foldl_nil]
    cases hexValue? c <;> rfl

/-- A number is read back from digits that it fits in. -/
theorem value?_hex {width n : Nat} (h : n < 16 ^ width) : value? (hex width n) = some n := by
  induction width generalizing n with
  | zero =>
    obtain rfl : n = 0 := by simpa using h
    rfl
  | succ width ih =>
    rw [Nat.pow_succ] at h
    have hlast := hexValue?_hexDigit ⟨n % 16, Nat.mod_lt n (by omega)⟩
    rw [hex, value?_concat, ih (Nat.div_lt_of_lt_mul (by omega)), Option.bind_some, hlast,
      Option.map_some, Nat.mul_comm, Nat.div_add_mod]

/-- What is read fits in the digits. -/
theorem value?_lt {cs : List Char} {n : Nat} (h : value? cs = some n) : n < 16 ^ cs.length := by
  induction cs using List.reverseRecOn generalizing n with
  | nil =>
    obtain rfl : 0 = n := Option.some.inj h
    exact Nat.one_pos
  | append_singleton cs c ih =>
    rw [value?_concat] at h
    obtain ⟨m, hm, h⟩ := Option.bind_eq_some_iff.1 h
    obtain ⟨d, hd, rfl⟩ := Option.map_eq_some_iff.1 h
    have hd := hexValue?_lt hd
    have hm := ih hm
    rw [List.length_append, List.length_singleton, Nat.pow_succ]
    omega

/-! ## Groups

The hyphens stand at fixed places, and only there. -/

/-- Five groups of the right lengths are put together. -/
theorem ungroup?_groups {a b c d e : List Char} (ha : a.length = 8) (hb : b.length = 4)
    (hc : c.length = 4) (hd : d.length = 4) (he : e.length = 12) :
    ungroup? (a ++ '-' :: b ++ '-' :: c ++ '-' :: d ++ '-' :: e) =
      some (a ++ b ++ c ++ d ++ e) := by
  simp [ungroup?, ha, hb, hc, hd, he, List.getElem?_append, List.drop_append,
    List.take_of_length_le, List.drop_of_length_le]

/-- Pieces of a list that begin where the last one ended. -/
theorem take_drop_append (cs : List Char) (i k : Nat) :
    (cs.drop i).take k ++ cs.drop (i + k) = cs.drop i := by
  rw [← List.drop_drop, List.take_append_drop]

/-- Groups that are put together have all of their digits. -/
theorem length_ungroup? {cs ds : List Char} (h : ungroup? cs = some ds) : ds.length = 32 := by
  simp only [ungroup?] at h
  split at h
  · rename_i hform
    rw [Bool.and_eq_true, decide_eq_true_eq] at hform
    cases h
    simp [hform.1]
  · cases h

theorem ungroup?_hyphenated (n : Nat) :
    ungroup? (hyphenated n).toList = some (simpleChars n) := by
  set cs := simpleChars n with hcs
  have hlen : cs.length = 32 := length_simpleChars n
  have hlast : (cs.drop 20).take 12 = cs.drop 20 := List.take_of_length_le (by simp [hlen])
  have hgroups := ungroup?_groups (a := (cs.drop 0).take 8) (b := (cs.drop 8).take 4)
    (c := (cs.drop 12).take 4) (d := (cs.drop 16).take 4) (e := (cs.drop 20).take 12)
    (by simp [hlen]) (by simp [hlen]) (by simp [hlen]) (by simp [hlen]) (by simp [hlen])
  rw [hyphenated, String.toList_ofList, hgroups, hlast]
  simp only [List.append_assoc, take_drop_append cs 16 4, take_drop_append cs 12 4,
    take_drop_append cs 8 4, List.drop_zero, List.take_append_drop]

/-! ## Identifiers

Other forms than the hyphenated one are read too, but what is read always has 128 bits. -/

/-- An identifier is read back from its hyphenated form. -/
theorem parse?_hyphenated {n : Nat} (h : n < 2 ^ 128) : parse? (hyphenated n) = some n := by
  have hlen : (hyphenated n).toList.length = 36 := by
    simp [hyphenated]
  have hvalue : value? (simpleChars n) = some n := value?_hex h
  simp [parse?, hlen, ungroup?_hyphenated, hvalue]

/-- No number is read that is too great. -/
theorem parse?_lt {s : String} {n : Nat} (h : parse? s = some n) : n < 2 ^ 128 := by
  have hgrouped : ∀ cs : List Char, (ungroup? cs).bind value? = some n → n < 2 ^ 128 := by
    intro cs hcs
    obtain ⟨ds, hds, hn⟩ := Option.bind_eq_some_iff.1 hcs
    have hlt := value?_lt hn
    rwa [length_ungroup? hds] at hlt
  simp only [parse?] at h
  split at h
  · rename_i hlen
    have hlt := value?_lt h
    rwa [hlen] at hlt
  · split at h
    · exact hgrouped _ h
    · split at h
      · split at h
        · exact hgrouped _ h
        · cases h
      · split at h
        · exact hgrouped _ h
        · cases h

end Uuid

end ObjectFlow.Text
