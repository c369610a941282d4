import ObjectFlow.Json.Value
import ObjectFlow.Proofs.Table

/-!
# Values without repeated names

Merging leaves a value in which no object repeats a name, and changes no such value.

In the text of an object one name may stand twice, and then the last member counts. A value is
merged when it is read, so no object that the program holds repeats a name. So `Merged` is what is
asked of a captured value wherever it is written and read back.
-/

namespace ObjectFlow.Json

/-- No object within a value repeats a name. -/
def Merged (j : Json) : Prop := j.merged = j

/-- Members are merged one by one. -/
theorem mergedMembers_eq_map (ms : List (String × Json)) :
    mergedMembers ms = ms.map fun m => (m.1, m.2.merged) := by
  induction ms with
  | nil => rfl
  | cons m rest ih => rw [mergedMembers, ih, List.map_cons]

theorem mergedMembers_eq_self {ms : List (String × Json)} (h : ∀ m ∈ ms, m.2.Merged) :
    mergedMembers ms = ms := by
  rw [mergedMembers_eq_map]
  refine (List.map_congr_left fun m hm => ?_).trans (List.map_id ms)
  rw [h m hm]
  rfl

mutual

/-- Merging once is enough. -/
theorem merged_merged : (j : Json) → j.merged.Merged
  | .arr items => by
    rw [merged, Merged, merged, mergedItems_merged items]
  | .obj ms => by
    rw [merged, Merged, merged, mergedMembers_eq_self fun m hm =>
      merged_of_mem ms m (Table.mem_ofEntries hm), Table.ofEntries_eq_self
      (Table.nodup_keys_ofEntries _)]
  | .null => rfl
  | .bool _ => rfl
  | .int _ => rfl
  | .float _ => rfl
  | .str _ => rfl

theorem mergedItems_merged :
    (items : List Json) → mergedItems (mergedItems items) = mergedItems items
  | [] => rfl
  | j :: rest => by rw [mergedItems, mergedItems, merged_merged j, mergedItems_merged rest]

theorem merged_of_mem : (ms : List (String × Json)) → ∀ m ∈ mergedMembers ms, m.2.Merged
  | [] => fun _ h => nomatch h
  | (_, j) :: rest => fun m hm => by
    rcases List.mem_cons.1 hm with rfl | hm
    · exact merged_merged j
    · exact merged_of_mem rest m hm

end

/-- A list is merged if its items are. -/
theorem merged_arr_iff {items : List Json} :
    (Json.arr items).Merged ↔ ∀ i ∈ items, i.Merged := by
  rw [Merged, merged, Json.arr.injEq]
  induction items with
  | nil => simp [mergedItems]
  | cons i items ih => rw [mergedItems, List.cons.injEq, ih, List.forall_mem_cons]; rfl

/-- An object is merged if its names are distinct and its members are merged. -/
theorem merged_obj_iff {ms : List (String × Json)} :
    (Json.obj ms).Merged ↔ (Table.keys ms).Nodup ∧ ∀ m ∈ ms, m.2.Merged := by
  rw [Merged, merged, Json.obj.injEq]
  constructor
  · intro h
    refine ⟨h ▸ Table.nodup_keys_ofEntries _, fun m hm => ?_⟩
    rw [← h] at hm
    exact merged_of_mem ms m (Table.mem_ofEntries hm)
  · rintro ⟨hkeys, hvalues⟩
    rw [mergedMembers_eq_self hvalues, Table.ofEntries_eq_self hkeys]

theorem merged_eq_null_iff {j : Json} : j.merged = .null ↔ j = .null := by
  cases j <;> simp [merged]

end ObjectFlow.Json
