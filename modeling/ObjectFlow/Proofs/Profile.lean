import ObjectFlow.Profile
import ObjectFlow.Proofs.Document

/-!
# Documents of notes, types and profiles

Keys of notes and runtime types are read back as they were written. So are profiles to any depth,
unless the value in one of them is null: a null is read as no value.

The slots of a profile are profiles, so its reader is recursive, through the members of a document
that may also be a list of values in the order of the names. For writing, the induction is on the
profile (`ofJson_toJson`). For reading, it is on the document, with one lemma for each of the
functions that read slots (`exact_ofJson` and those after it). What must not be null is kept as a
list of all captured values (`payloads`), so that it can be said of whole graphs later.
-/

namespace ObjectFlow

open Document Outcome

/-! ## Keys of notes, and runtime types

These are records of texts, which are read back without any condition. -/

/-- A key is read where each of its members is. -/
theorem NoteKey.ofJson_eq_ok_iff {j : Json} {k : NoteKey} :
    ofJson j = .ok k ↔ ∃ fs, record ["language", "package", "id"] j = .ok fs ∧
      required fs "language" text = .ok k.language ∧ required fs "package" text = .ok k.package ∧
      required fs "id" text = .ok k.id := by
  simp only [ofJson, bind_eq_ok_iff]
  constructor
  · rintro ⟨fs, hfs, language, hlanguage, package, hpackage, id, hid, ⟨⟩⟩
    exact ⟨fs, hfs, hlanguage, hpackage, hid⟩
  · rintro ⟨fs, hfs, hlanguage, hpackage, hid⟩
    exact ⟨fs, hfs, _, hlanguage, _, hpackage, _, hid, rfl⟩

/-- A key is read back from its document. -/
theorem NoteKey.readsBack : ReadsBack toJson ofJson fun _ => True where
  read_write k _ := ofJson_eq_ok_iff.2 ⟨_, (inOrder_of_keys (by rfl)).record_eq (by simp),
    readsBack_text.required (by simp) trivial, readsBack_text.required (by simp) trivial,
    readsBack_text.required (by simp) trivial⟩
  exact_read _ _ _ := trivial

/-- A type is read where each of its members is. -/
theorem RuntimeType.ofJson_eq_ok_iff {j : Json} {t : RuntimeType} :
    ofJson j = .ok t ↔ ∃ fs, record ["module", "qualified_name", "bases"] j = .ok fs ∧
      required fs "module" text = .ok t.module ∧
      required fs "qualified_name" text = .ok t.qualifiedName ∧
      defaulted fs "bases" [] (list text) = .ok t.bases := by
  simp only [ofJson, bind_eq_ok_iff]
  constructor
  · rintro ⟨fs, hfs, module, hmodule, qualifiedName, hname, bases, hbases, ⟨⟩⟩
    exact ⟨fs, hfs, hmodule, hname, hbases⟩
  · rintro ⟨fs, hfs, hmodule, hname, hbases⟩
    exact ⟨fs, hfs, _, hmodule, _, hname, _, hbases, rfl⟩

/-- A type is read back from its document. -/
theorem RuntimeType.readsBack : ReadsBack toJson ofJson fun _ => True where
  read_write t _ := ofJson_eq_ok_iff.2 ⟨_,
    InOrder.record_eq ((inOrder_of_keys (by rfl)).append (inOrder_unlessEmpty "bases" _ _))
      (by simp),
    readsBack_text.required (by simp) trivial, readsBack_text.required (by simp) trivial,
    readsBack_texts.defaulted (by simp) trivial⟩
  exact_read _ _ _ := trivial

namespace Profile

/-! ## Captured values

What a document can say of a profile is put together from two conditions, one on types and names and
one on nulls. -/

mutual

/-- The values that are captured in a profile and in the profiles of its slots. -/
def payloads : Profile → List Json
  | ⟨_, _, value, _, slots⟩ => value.toList ++ slotPayloads slots

def slotPayloads : List (String × Profile) → List Json
  | [] => []
  | (_, p) :: rest => payloads p ++ slotPayloads rest

end

/-- The values in slots are those of each slot. -/
theorem slotPayloads_eq_flatMap (t : List (String × Profile)) :
    slotPayloads t = t.flatMap fun e => e.2.payloads := by
  induction t with
  | nil => rfl
  | cons e rest ih => rw [slotPayloads, ih, List.flatMap_cons]

/-- Slots have distinct names to any depth, and so have the members of captured values. -/
inductive Typed : Profile → Prop
  | intro (id : Option ObjectId) (note : Option NoteKey) (value : Option Json)
      (type : Option String) (slots : List (String × Profile)) (hvalue : ∀ j ∈ value, j.Merged)
      (hnames : (Table.keys slots).Nodup) (hslots : ∀ e ∈ slots, Typed e.2) :
      Typed ⟨id, note, value, type, slots⟩

/-- What a document can say of an object: a captured null is not told from no value. -/
def Exact (p : Profile) : Prop := p.Typed ∧ .null ∉ p.payloads

/-- The slots of a profile that can be told from a document. -/
theorem exactSlots_iff {t : Table String Profile} :
    ExactTable Exact t ↔ ExactTable Typed t ∧ .null ∉ slotPayloads t := by
  rw [slotPayloads_eq_flatMap]
  exact exactTable_and_iff

/-- What is asked of a profile is asked of its value and of every slot. -/
theorem exact_iff {p : Profile} :
    p.Exact ↔
      (∀ j ∈ p.value, j.Merged) ∧ (∀ j ∈ p.value, j ≠ .null) ∧ ExactTable Exact p.slots := by
  obtain ⟨id, note, value, type, slots⟩ := p
  have hvalue : Json.null ∉ value.toList ↔ ∀ j ∈ value, j ≠ .null := by
    cases value <;> simp [eq_comm]
  rw [Exact, payloads, List.mem_append, not_or, hvalue, exactSlots_iff]
  constructor
  · rintro ⟨ht, hnull, hslots⟩
    cases ht with
    | intro _ _ _ _ _ hmerged hnames htyped => exact ⟨hmerged, hnull, ⟨hnames, htyped⟩, hslots⟩
  · rintro ⟨hmerged, hnull, ht, hslots⟩
    exact ⟨.intro _ _ _ _ _ hmerged ht.keys_nodup ht.exact, hnull, hslots⟩

/-! ## Writing and reading

Members without a value are not written, and neither are slots if there are none. -/

/-- A profile is read where each of its members is, given its slots. -/
theorem ofFields_eq_ok_iff {fs : Fields} {slots slots' : List (String × Profile)}
    {id : Option ObjectId} {note : Option NoteKey} {value : Option Json} {type : Option String} :
    ofFields fs slots = .ok ⟨id, note, value, type, slots'⟩ ↔
      optional fs "id" objectId = .ok id ∧ optional fs "annotation" NoteKey.ofJson = .ok note ∧
      optional fs "value" anything = .ok value ∧ optional fs "type" text = .ok type ∧
      slots = slots' := by
  simp only [ofFields, bind_eq_ok_iff]
  constructor
  · rintro ⟨id, hid, note, hnote, value, hvalue, type, htype, ⟨⟩⟩
    exact ⟨hid, hnote, hvalue, htype, rfl⟩
  · rintro ⟨hid, hnote, hvalue, htype, rfl⟩
    exact ⟨_, hid, _, hnote, _, hvalue, _, htype, rfl⟩

/-- The slots are read from the first member of that name. -/
theorem slotsIn_eq (ms : List (String × Json)) :
    slotsIn ms = match Table.at? ms "slots" with
      | some j => slotsOfJson j
      | none => .ok [] := by
  induction ms with
  | nil => rfl
  | cons m rest ih =>
    obtain ⟨name, j⟩ := m
    rw [slotsIn, Table.at?_cons]
    split
    · rfl
    · exact ih

/-- Slots are read back if each profile is. -/
theorem namedOfJson_slotsToJson {slots : List (String × Profile)}
    (h : ∀ e ∈ slots, ofJson e.2.toJson = .ok e.2) :
    namedOfJson (slotsToJson slots) = .ok slots := by
  induction slots with
  | nil => rfl
  | cons e rest ih =>
    have hrest := ih fun e' he' => h e' (List.mem_cons_of_mem _ he')
    rw [slotsToJson, namedOfJson, h e List.mem_cons_self, ok_bind, hrest]
    rfl

/-- A profile is read back from its document. -/
theorem ofJson_toJson {p : Profile} (ht : p.Typed) (hn : .null ∉ p.payloads) :
    ofJson p.toJson = .ok p := by
  induction ht with
  | intro id note value type slots hvalue hnames hslots ih =>
    obtain ⟨hmerged, hnull, hexact⟩ := exact_iff.1 ⟨.intro _ _ _ _ _ hvalue hnames hslots, hn⟩
    have hread : slotsOfJson (.obj (slotsToJson slots)) = .ok slots := by
      rw [slotsOfJson, namedOfJson_slotsToJson fun e he => ih e he (hexact.exact e he).2, map_ok,
        Table.ofEntries_eq_self hnames]
    rw [toJson]
    set ms := given "id" writeObject id ++ given "annotation" NoteKey.toJson note
      ++ given "value" (fun j => j) value ++ given "type" Json.str type
      ++ unlessEmpty "slots" Json.obj (slotsToJson slots) with hms
    have horder : InOrder fieldNames ms := ((((inOrder_given "id" id).append
      (inOrder_given "annotation" note)).append (inOrder_given "value" value)).append
      (inOrder_given "type" type)).append (inOrder_unlessEmpty "slots" _ (slotsToJson slots))
    have hslotsIn : slotsIn ms = .ok slots := by
      have hat : Table.at? ms "slots" =
          if (slotsToJson slots).isEmpty then none else some (.obj (slotsToJson slots)) := by
        simp [hms]
      rw [slotsIn_eq, hat]
      cases slots with
      | nil => rfl
      | cons e rest => exact hread
    rw [ofJson, horder.members_eq (by simp [fieldNames]), ok_bind, hslotsIn, ok_bind]
    exact ofFields_eq_ok_iff.2
      ⟨readsBack_objectId.optional (by simp [hms]) (by simp [writeObject]) fun _ _ => trivial,
        NoteKey.readsBack.optional (by simp [hms]) (by simp [NoteKey.toJson]) fun _ _ => trivial,
        readsBack_anything.optional (by simp [hms]) hnull hmerged,
        readsBack_text.optional (by simp [hms]) (by simp) fun _ _ => trivial, rfl⟩

/-! ## What is read

Nothing that is read is null, and no name is there twice. -/

/-- What is read from members is exact if the slots are. -/
theorem exact_ofFields {fs : Fields} {slots : List (String × Profile)} {p : Profile}
    (hs : ExactTable Exact slots) (h : ofFields fs slots = .ok p) : p.Exact := by
  obtain ⟨id, note, value, type, slots'⟩ := p
  obtain ⟨-, -, hvalue, -, rfl⟩ := ofFields_eq_ok_iff.1 h
  exact exact_iff.2 ⟨readsBack_anything.exact_optional hvalue, ne_null_of_optional hvalue, hs⟩

mutual

/-- Whatever document a profile is read from, it is exact. -/
theorem exact_ofJson : (j : Json) → ∀ p, ofJson j = .ok p → p.Exact
  | .obj ms => fun p h => by
    rw [ofJson, bind_eq_ok_iff] at h
    obtain ⟨fs, -, h⟩ := h
    obtain ⟨slots, hslots, h⟩ := bind_eq_ok_iff.1 h
    exact exact_ofFields (exact_slotsIn ms slots hslots) h
  | .arr items => fun p h => by
    rw [ofJson, bind_eq_ok_iff] at h
    obtain ⟨fs, -, h⟩ := h
    obtain ⟨slots, hslots, h⟩ := bind_eq_ok_iff.1 h
    exact exact_ofFields (exact_slotsAt items slots hslots) h
  | .null => fun _ h => nomatch h
  | .bool _ => fun _ h => nomatch h
  | .int _ => fun _ h => nomatch h
  | .float _ => fun _ h => nomatch h
  | .str _ => fun _ h => nomatch h

theorem exact_slotsIn : (ms : List (String × Json)) → ∀ t, slotsIn ms = .ok t → ExactTable Exact t
  | [] => fun t h => by
    cases h
    exact exactTable_nil
  | (name, j) :: rest => fun t h => by
    rw [slotsIn] at h
    split at h
    · exact exact_slotsOfJson j t h
    · exact exact_slotsIn rest t h

theorem exact_slotsAt : (items : List Json) → ∀ t, slotsAt items = .ok t → ExactTable Exact t
  | [_, _, _, _, slots] => fun t h => exact_slotsOfJson slots t h
  | [] | [_] | [_, _] | [_, _, _] | [_, _, _, _] | _ :: _ :: _ :: _ :: _ :: _ :: _ => fun t h => by
    cases h
    exact exactTable_nil

theorem exact_slotsOfJson : (j : Json) → ∀ t, slotsOfJson j = .ok t → ExactTable Exact t
  | .obj ms => fun t h => by
    obtain ⟨es, hes, rfl⟩ := map_eq_ok_iff.1 h
    exact ⟨Table.nodup_keys_ofEntries es,
      fun e he => exact_namedOfJson ms es hes e (Table.mem_ofEntries he)⟩
  | .arr _ => fun _ h => nomatch h
  | .null => fun _ h => nomatch h
  | .bool _ => fun _ h => nomatch h
  | .int _ => fun _ h => nomatch h
  | .float _ => fun _ h => nomatch h
  | .str _ => fun _ h => nomatch h

theorem exact_namedOfJson : (ms : List (String × Json)) → ∀ es, namedOfJson ms = .ok es →
    ∀ e ∈ es, e.2.Exact
  | [] => fun es h => by
    cases h
    exact fun e he => nomatch he
  | (name, j) :: rest => fun es h => by
    rw [namedOfJson, bind_eq_ok_iff] at h
    obtain ⟨p, hp, h⟩ := h
    obtain ⟨more, hmore, h⟩ := bind_eq_ok_iff.1 h
    cases h
    exact List.forall_mem_cons.2 ⟨exact_ofJson j p hp, exact_namedOfJson rest more hmore⟩

end

/-- A profile is read back from its document if it is exact, and none other is read. -/
theorem readsBack : ReadsBack toJson ofJson Exact :=
  ⟨fun _ h => ofJson_toJson h.1 h.2, exact_ofJson⟩

end Profile

end ObjectFlow
