import Mathlib.Algebra.Ring.Int.Defs
import ObjectFlow.Proofs.Text
import ObjectFlow.Trace.Slot

/-!
# Members of sequences by position

A part of a path that reads as a number counts the members of a tuple or list from its start or, if
negative, from its end, and nothing overflows on the way (`wordItem?_eq`). A slot that is a number
cannot be negative, but in its upper half it counts from the end too (`slot?_members`).

Positions are integers in the definition that is run. The words of 64 bits in which they are worked
out are written down beside it (`wordItem?`), and for all sequences whose length is a word with a
sign the two agree. The one place where the words show is a slot that is a number without a sign: it
is taken for one with a sign, so that numbers from `2 ^ 63` on are negative.
-/

namespace ObjectFlow.Snapshot

variable {items : List Snapshot} {v w : Snapshot}

/-- Just one member stands where a number says, and none where it is negative or too great. -/
theorem exists_place_iff {k : Int} :
    (∃ p : Nat, items[p]? = some w ∧ (p : Int) = k) ↔ 0 ≤ k ∧ items[k.toNat]? = some w := by
  constructor
  · rintro ⟨p, hp, rfl⟩
    exact ⟨by omega, hp⟩
  · rintro ⟨hk, hw⟩
    exact ⟨k.toNat, hw, Int.toNat_of_nonneg hk⟩

/-- A position counts from the start, or from the end if it is negative. -/
theorem item?_eq_some_iff {i : Int64} :
    item? items i = some w ↔ ∃ p : Nat, items[p]? = some w ∧
      (p : Int) = if 0 ≤ i.toInt then i.toInt else items.length + i.toInt := by
  rw [exists_place_iff, item?]
  split
  · rename_i hi
    exact (and_iff_right hi).symm
  · split
    · rename_i hi hle
      have hplace : ((items.length : Int) + i.toInt).toNat = items.length - i.toInt.natAbs := by
        omega
      rw [hplace]
      exact (and_iff_right (by omega)).symm
    · rename_i hi hle
      exact iff_of_false (by simp) fun h => absurd h.1 (by omega)

/-! ## Positions in words

The sum of a length and a negative number lies between the two, so it is no greater than either
allows. -/

/-- A length and a negative position have a sum in the range of words. -/
theorem toInt_length_add {n : Nat} (hn : n < 2 ^ 63) {i : Int64} (hi : i < 0) :
    (Int64.ofNat n + i).toInt = n + i.toInt := by
  have hneg : i.toInt < 0 := Int64.lt_iff_toInt_lt.1 hi
  have hlow : -2 ^ 63 ≤ i.toInt := i.le_toInt
  rw [Int64.toInt_add, Int64.toInt_ofNat_of_lt hn]
  exact Int.bmod_eq_of_le (by omega) (by omega)

/-- Without a sign a word that is not negative is the same number. -/
theorem toNat_toUInt64 {i : Int64} (hi : 0 ≤ i.toInt) : (i.toUInt64.toNat : Int) = i.toInt := by
  have hsign : i.toInt = if 2 * i.toUInt64.toNat < 2 ^ 64 then (i.toUInt64.toNat : Int)
      else i.toUInt64.toNat - (2 ^ 64 : Nat) := BitVec.toInt_eq_toNat_cond i.toBitVec
  have hlt : i.toUInt64.toNat < 2 ^ 64 := i.toUInt64.toNat_lt
  split at hsign <;> omega

/-- The member at a signed position, with the length and the place in words of 64 bits. -/
def wordItem? (items : List Snapshot) (i : Int64) : Option Snapshot :=
  let length := Int64.ofNat items.length
  let place := if i < 0 then length + i else i
  if 0 ≤ place ∧ place < length then items[place.toUInt64.toNat]? else Option.none

/-- Words are wide enough for the positions of all sequences that have their length in one. -/
theorem wordItem?_eq (hn : items.length < 2 ^ 63) (i : Int64) :
    wordItem? items i = item? items i := by
  have hplace : (if i < 0 then Int64.ofNat items.length + i else i).toInt =
      if 0 ≤ i.toInt then i.toInt else items.length + i.toInt := by
    by_cases hi : i < 0
    · have hneg : i.toInt < 0 := Int64.lt_iff_toInt_lt.1 hi
      rw [if_pos hi, toInt_length_add hn hi, if_neg (Int.not_le.2 hneg)]
    · have hpos : 0 ≤ i.toInt := Int.not_lt.1 fun h => hi (Int64.lt_iff_toInt_lt.2 h)
      rw [if_neg hi, if_pos hpos]
  refine Option.ext fun w => ?_
  rw [item?_eq_some_iff, exists_place_iff, ← hplace, wordItem?]
  -- What is left to compare are the bounds of one word, however it was found.
  generalize (if i < 0 then Int64.ofNat items.length + i else i) = place
  have hbound : 0 ≤ place ∧ place < Int64.ofNat items.length ↔
      0 ≤ place.toInt ∧ place.toInt < items.length := by
    rw [Int64.le_iff_toInt_le, Int64.lt_iff_toInt_lt, Int64.toInt_ofNat_of_lt hn]
    rfl
  by_cases hp : 0 ≤ place.toInt ∧ place.toInt < items.length
  · have hnat : place.toUInt64.toNat = place.toInt.toNat := by
      have := toNat_toUInt64 hp.1
      omega
    rw [if_pos (hbound.2 hp), hnat]
    exact (and_iff_right hp.1).symm
  · rw [if_neg (mt hbound.1 hp)]
    refine iff_of_false (by simp) fun ⟨h0, hw⟩ => hp ⟨h0, ?_⟩
    have := (List.getElem?_eq_some_iff.1 hw).1
    omega

/-! ## Slots of sequences

A slot is looked up as a path or as a number. A path without a point in it is one part. -/

/-- Whatever is found is a slot unless it is a method. -/
theorem bind_unlessMethod_eq_some_iff {o : Option Snapshot} :
    o.bind unlessMethod = some w ↔ o = some w ∧ w.isMethod = false := by
  rw [Option.bind_eq_some_iff]
  constructor
  · rintro ⟨v, rfl, hv⟩
    unfold unlessMethod at hv
    split at hv
    · cases hv
    · rename_i hm
      cases hv
      exact ⟨rfl, Bool.eq_false_iff.2 hm⟩
  · rintro ⟨rfl, hm⟩
    exact ⟨w, rfl, by rw [unlessMethod, hm]; rfl⟩

/-- A name without a point is looked up at once. -/
theorem slot?_path_of_not_mem {name : String} (h : '.' ∉ name.toList) :
    v.slot? (.path name) = (v.part? name).bind unlessMethod := by
  rw [slot?, Text.split_of_not_mem h]
  simp [follow?]

/-- A number below `2 ^ 64` as a word with a sign. -/
theorem toInt_ofNat_of_lt_two_pow {i : Nat} (hi : i < 2 ^ 64) :
    (Int64.ofNat i).toInt = if i < 2 ^ 63 then (i : Int) else i - 2 ^ 64 := by
  split
  · rename_i h
    exact Int64.toInt_ofNat_of_lt h
  · rw [Int64.toInt_ofNat', ← Int.sub_bmod_right]
    exact Int.bmod_eq_of_le (by simp only [Int64.size]; omega) (by simp only [Int64.size]; omega)

/-- The sequences that are indexed. -/
def IsSequence (v : Snapshot) (items : List Snapshot) : Prop := v = .tuple items ∨ v = .list items

/--
The slot of a tuple or list under a number is the member there, for numbers below `2 ^ 63`; greater
ones count from the end as if `2 ^ 64` were the length. A name that reads as a number is the member
there, counted from the end if it is negative. Nothing else is a slot, and no method is; and words
of 64 bits are wide enough to work this out.
-/
theorem slot?_members (hv : v.IsSequence items) (hn : items.length < 2 ^ 63) :
    (∀ i < 2 ^ 64, ∀ w, v.slot? (.index i) = some w ↔ w.isMethod = false ∧
      ∃ p : Nat, items[p]? = some w ∧
        (p : Int) = if i < 2 ^ 63 then (i : Int) else items.length + i - 2 ^ 64) ∧
    (∀ name k, Text.int64? name = some k → ∀ w, v.slot? (.path name) = some w ↔
      w.isMethod = false ∧ ∃ p : Nat, items[p]? = some w ∧
        (p : Int) = if 0 ≤ k.toInt then k.toInt else items.length + k.toInt) ∧
    ∀ k : Int64, wordItem? items k = v.indexed? k ∧
      (Int64.ofNat items.length).toInt = items.length ∧
      (k < 0 → (Int64.ofNat items.length + k).toInt = items.length + k.toInt) := by
  have hitem : ∀ k, v.indexed? k = item? items k := by
    rcases hv with rfl | rfl <;> exact fun _ => rfl
  have hpart : ∀ name, v.part? name = (Text.int64? name).bind (item? items) := by
    rcases hv with rfl | rfl <;> exact fun _ => rfl
  refine ⟨fun i hi w => ?_, fun name k hk w => ?_, fun k => ⟨?_, ?_, toInt_length_add hn⟩⟩
  · rw [slot?, bind_unlessMethod_eq_some_iff, hitem, item?_eq_some_iff, and_comm,
      toInt_ofNat_of_lt_two_pow hi]
    refine and_congr_right fun _ => exists_congr fun p => and_congr_right fun _ => ?_
    by_cases h : i < 2 ^ 63
    · rw [if_pos h, if_pos h, if_pos (Int.natCast_nonneg i)]
    · rw [if_neg h, if_neg h, if_neg (by omega), Int.add_sub_assoc]
  · rw [slot?_path_of_not_mem (Text.point_not_mem_of_int64? hk), bind_unlessMethod_eq_some_iff,
      hpart, hk, Option.bind_some, item?_eq_some_iff, and_comm]
  · rw [hitem, wordItem?_eq hn]
  · exact Int64.toInt_ofNat_of_lt hn

/-- The last member is found by its distance from the end, and a method is not found. -/
theorem slot?_members_mixed :
    let items : List Snapshot := [.int 5, .method "run" Option.none, .str "x"]
    (Snapshot.tuple items).IsSequence items ∧ items.length < 2 ^ 63 ∧
      (Snapshot.tuple items).slot? (.path "-1") = some (.str "x") ∧
      (Snapshot.tuple items).slot? (.index 1) = Option.none ∧
      (Snapshot.tuple items).slot? (.index 18446744073709551613) = some (.int 5) := by
  intro items
  have hv : (Snapshot.tuple items).IsSequence items := .inl rfl
  have hn : items.length < 2 ^ 63 := by decide
  have hback : Text.int64? "-1" = some (-1) := by decide
  obtain ⟨hindex, hpath, -⟩ := slot?_members hv hn
  refine ⟨hv, hn, ?_, ?_, ?_⟩
  · exact (hpath "-1" (-1) hback _).2 ⟨rfl, 2, rfl, by decide⟩
  · refine Option.eq_none_iff_forall_ne_some.2 fun w hw => ?_
    obtain ⟨hm, p, hp, hplace⟩ := (hindex 1 (by decide) w).1 hw
    have hone : (p : Int) = 1 := by simpa using hplace
    obtain rfl : p = 1 := by omega
    cases hp
    cases hm
  · exact (hindex _ (by decide) _).2 ⟨rfl, 0, rfl, by decide⟩

/-- The number `2 ^ 64 - 1` leads to the last member, though no member has that number. -/
theorem slot?_index_turns :
    (Snapshot.list [.int 5]).slot? (.index 18446744073709551615) = some (.int 5) ∧
      [Snapshot.int 5][18446744073709551615]? = Option.none :=
  ⟨rfl, rfl⟩

end ObjectFlow.Snapshot
