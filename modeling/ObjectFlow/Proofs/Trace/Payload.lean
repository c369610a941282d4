import Mathlib.Data.List.Nodup
import Mathlib.Logic.Relation
import ObjectFlow.Proofs.Outcome
import ObjectFlow.Proofs.Utf8
import ObjectFlow.Trace.Payload

/-!
# Which values have a literal payload

A walk through a value meets the values in it from left to right, each before its own parts, and
each key of a dictionary before its value. A value has a payload just if the walk meets nothing at
fault, and else the first fault is the error (`payload_exact`).

## Outline

The function that makes payloads stops at the first error, so what it does is best said of a list:
the elements that the walk meets, in their order (`elements`), and for each of them what is wrong
with it alone (`Element.fault?`).

1. The error of the payload is the first fault in that list (`findSome?_elements`). This is an
   induction along the function, and the order of the list is what makes it go through.
2. Which elements there are can be said without the walk (`mem_elements`): those of the values that
   are contained in the value (`Contains`). So that nothing is at fault can be said without it too,
   as `Capturable` (`elements_sound_iff`).
3. What the payload looks like, where there is one, is a relation between values and JSON
   (`Pictures`), which is proved along the function once more (`pictures_payload`).
-/

namespace ObjectFlow

namespace Snapshot

/-! ## The parts of a value

Keys are no parts. They are looked at when their dictionary is, but not into. -/

/-- What a value holds directly, the keys of a dictionary left out. -/
def parts : Snapshot → List Snapshot
  | .tuple items => items
  | .list items => items
  | .set items => items
  | .dict entries => entries.map Prod.snd
  | _ => []

/-- The value itself, its parts, their parts and so on. -/
def Contains : Snapshot → Snapshot → Prop := Relation.ReflTransGen fun v w => w ∈ v.parts

/-- The values that no JSON stands for, whatever they hold. -/
def lacksLiteral : Snapshot → Bool
  | .object _ _ _ => true
  | .method _ _ => true
  | .untracked _ => true
  | _ => false

/-- The values that can be keys of a JSON object. -/
def isKey : Snapshot → Bool
  | .str _ => true
  | .int _ => true
  | .float _ => true
  | .bool _ => true
  | .none => true
  | _ => false

/-- The text of a key, where it has one. -/
def keyText? (k : Snapshot) : Option String := k.keyText.toOption

/-- Nothing in the value stands in the way of a payload. -/
structure Capturable (v : Snapshot) : Prop where
  literal : ∀ w, v.Contains w → w.lacksLiteral = false
  key : ∀ entries, v.Contains (.dict entries) → ∀ e ∈ entries, e.1.isKey = true
  distinct : ∀ entries, v.Contains (.dict entries) → (entries.map fun e => e.1.keyText?).Nodup

/-! ## A walk through a value

A key is met together with those in front of it, as it is at fault if one of them has the same
text. -/

/-- What a walk meets: a value, or a key of a dictionary, with the keys in front of it. -/
inductive Element where
  | value (v : Snapshot)
  | key (earlier : List Snapshot) (k : Snapshot)

mutual

/-- Depth first and from left to right, each key before its value. -/
def elements : Snapshot → List Element
  | .tuple items => .value (.tuple items) :: elementsOf items
  | .list items => .value (.list items) :: elementsOf items
  | .set items => .value (.set items) :: elementsOf items
  | .dict entries => .value (.dict entries) :: elementsOfEntries [] entries
  | v => [.value v]

/-- What a walk through several values meets. -/
def elementsOf : List Snapshot → List Element
  | [] => []
  | v :: rest => elements v ++ elementsOf rest

/-- What a walk through the entries of a dictionary meets, behind some keys. -/
def elementsOfEntries (earlier : List Snapshot) : List (Snapshot × Snapshot) → List Element
  | [] => []
  | (k, v) :: rest => .key earlier k :: elements v ++ elementsOfEntries (earlier ++ [k]) rest

end

/-- What is wrong with an element, apart from its parts. -/
def Element.fault? : Element → Option PayloadError
  | .value v => if v.lacksLiteral then some (.notJsonable v.typeName) else Option.none
  | .key earlier k =>
    match k.keyText? with
    | Option.none => some (.unsupportedKey k.typeName)
    | some s => if some s ∈ earlier.map keyText? then some (.keyCollision s) else Option.none

/-! ## The first fault

The function carries the texts of the keys that were seen, and the walk the keys themselves. That
the two agree is what the induction through the entries is about. -/

/-- A key has a text, or it is refused for its type. -/
theorem keyText_cases (k : Snapshot) :
    (k.isKey = true ∧ ∃ s, k.keyText = .ok s ∧ k.keyText? = some s) ∨
      (k.isKey = false ∧ k.keyText = .error (.unsupportedKey k.typeName) ∧
        k.keyText? = Option.none) := by
  cases k with
  | bool b => cases b <;> exact .inl ⟨rfl, _, rfl, rfl⟩
  | none => exact .inl ⟨rfl, _, rfl, rfl⟩
  | int i => exact .inl ⟨rfl, _, rfl, rfl⟩
  | float x => exact .inl ⟨rfl, _, rfl, rfl⟩
  | str s => exact .inl ⟨rfl, _, rfl, rfl⟩
  | _ => exact .inr ⟨rfl, rfl, rfl⟩

open Outcome in
mutual

/-- A payload fails with the first fault that the walk meets. -/
theorem findSome?_elements :
    (v : Snapshot) → (elements v).findSome? Element.fault? = cause? v.payload
  | .none => rfl
  | .bool _ => rfl
  | .int _ => rfl
  | .float _ => rfl
  | .str _ => rfl
  | .bytes _ => rfl
  | .object _ _ _ => rfl
  | .method _ _ => rfl
  | .untracked _ => rfl
  | .tuple items => (findSome?_elementsOf items).trans (cause?_map _ _).symm
  | .list items => (findSome?_elementsOf items).trans (cause?_map _ _).symm
  | .set items => (findSome?_elementsOf items).trans (cause?_map _ _).symm
  | .dict entries => (findSome?_elementsOfEntries entries (by simp)).trans (cause?_map _ _).symm

/-- A list of payloads fails with the first fault in the values. -/
theorem findSome?_elementsOf :
    (items : List Snapshot) → (elementsOf items).findSome? Element.fault? = cause? (payloads items)
  | [] => rfl
  | v :: rest => by
    rw [elementsOf, List.findSome?_append, findSome?_elements v, findSome?_elementsOf rest]
    exact (cause?_bind_pure _ _ List.cons).symm

/-- The entries of a dictionary fail with the first fault in them, where the texts that are taken
are those of the keys in front. -/
theorem findSome?_elementsOfEntries {taken : List String} {earlier : List Snapshot} :
    (entries : List (Snapshot × Snapshot)) → (∀ s, s ∈ taken ↔ some s ∈ earlier.map keyText?) →
      (elementsOfEntries earlier entries).findSome? Element.fault? =
        cause? (payloadEntries taken entries)
  | [], _ => rfl
  | (k, v) :: rest, h => by
    rw [elementsOfEntries, List.cons_append, List.findSome?_cons, Element.fault?, payloadEntries]
    rcases keyText_cases k with ⟨-, s, htext, hkey⟩ | ⟨-, htext, hkey⟩
    · rw [hkey, htext]
      by_cases hs : some s ∈ earlier.map keyText?
      · simp [hs, (h s).2 hs, cause?]
      · have htaken : ∀ t, t ∈ s :: taken ↔ some t ∈ (earlier ++ [k]).map keyText? := by
          intro t
          rw [List.map_append, List.mem_append, ← h, List.map_singleton, List.mem_singleton, hkey,
            List.mem_cons, Option.some_inj, or_comm]
        simp only [hs, if_false, Outcome.ok_bind, List.contains_eq_mem, mt (h s).1 hs,
          decide_false, Bool.false_eq_true]
        rw [List.findSome?_append, findSome?_elements v, findSome?_elementsOfEntries rest htaken]
        exact (cause?_bind_pure _ _ fun j more => (s, j) :: more).symm
    · rw [hkey, htext]
      rfl

end

/-! ## What the walk meets

Elements belong to a value: it is one itself, and so are its keys. The others are those of its
parts. -/

/-- The keys of a dictionary, each with those in front of it. -/
def keyElements (earlier : List Snapshot) : List (Snapshot × Snapshot) → List Element
  | [] => []
  | (k, _) :: rest => .key earlier k :: keyElements (earlier ++ [k]) rest

/-- A value and its keys, without its parts. -/
def ownElements (v : Snapshot) : List Element :=
  .value v :: match v with
    | .dict entries => keyElements [] entries
    | _ => []

/-- A value is contained in itself. -/
theorem contains_self (v : Snapshot) : v.Contains v := Relation.ReflTransGen.refl

/-- What is contained in a part is contained in the value. -/
theorem Contains.head {v u w : Snapshot} (hu : u ∈ v.parts) (h : u.Contains w) : v.Contains w :=
  Relation.ReflTransGen.head hu h

/-- The elements of several values are those of each. -/
theorem mem_elementsOf {x : Element} {items : List Snapshot} :
    x ∈ elementsOf items ↔ ∃ u ∈ items, x ∈ elements u := by
  induction items with
  | nil => simp [elementsOf]
  | cons u rest ih => simp [elementsOf, ih]

/-- The elements of entries are their keys, and the elements of their values. -/
theorem mem_elementsOfEntries {x : Element} {earlier : List Snapshot}
    {entries : List (Snapshot × Snapshot)} :
    x ∈ elementsOfEntries earlier entries ↔
      x ∈ keyElements earlier entries ∨ ∃ u ∈ entries.map Prod.snd, x ∈ elements u := by
  induction entries generalizing earlier with
  | nil => simp [elementsOfEntries, keyElements]
  | cons e rest ih =>
    simp only [elementsOfEntries, keyElements, List.cons_append, List.mem_cons, List.mem_append, ih,
      List.map_cons, or_and_right, exists_or, exists_eq_left]
    tauto

/-- The elements of a value are its own and those of its parts. -/
theorem mem_elements_iff_own {x : Element} {v : Snapshot} :
    x ∈ elements v ↔ x ∈ v.ownElements ∨ ∃ u ∈ v.parts, x ∈ elements u := by
  cases v with
  | tuple items => simp [elements, ownElements, parts, mem_elementsOf]
  | list items => simp [elements, ownElements, parts, mem_elementsOf]
  | set items => simp [elements, ownElements, parts, mem_elementsOf]
  | dict entries =>
    rw [elements, ownElements, parts, List.mem_cons, List.mem_cons, mem_elementsOfEntries, or_assoc]
  | _ => simp [elements, ownElements, parts]

/-- Parts are smaller than the value. -/
theorem sizeOf_lt_of_mem_parts {v u : Snapshot} (h : u ∈ v.parts) : sizeOf u < sizeOf v := by
  cases v with
  | tuple items =>
    have hlt : sizeOf u < sizeOf items := List.sizeOf_lt_of_mem h
    rw [tuple.sizeOf_spec]
    omega
  | list items =>
    have hlt : sizeOf u < sizeOf items := List.sizeOf_lt_of_mem h
    rw [list.sizeOf_spec]
    omega
  | set items =>
    have hlt : sizeOf u < sizeOf items := List.sizeOf_lt_of_mem h
    rw [set.sizeOf_spec]
    omega
  | dict entries =>
    obtain ⟨⟨k, u⟩, he, rfl⟩ := List.mem_map.1 h
    have hlt : sizeOf (k, u) < sizeOf entries := List.sizeOf_lt_of_mem he
    show sizeOf u < sizeOf (dict entries)
    rw [Prod.mk.sizeOf_spec] at hlt
    rw [dict.sizeOf_spec]
    omega
  | _ => cases h

/-- The walk meets the keys and the values that are contained in a value, and nothing else. -/
theorem mem_elements {x : Element} {v : Snapshot} :
    x ∈ elements v ↔ ∃ w, v.Contains w ∧ x ∈ w.ownElements := by
  rw [mem_elements_iff_own]
  constructor
  · rintro (hx | ⟨u, hu, hx⟩)
    · exact ⟨v, v.contains_self, hx⟩
    · -- By size and not by constructors, since the values of a dictionary stand in pairs.
      have := sizeOf_lt_of_mem_parts hu
      obtain ⟨w, hw, hx⟩ := mem_elements.1 hx
      exact ⟨w, hw.head hu, hx⟩
  · rintro ⟨w, hw, hx⟩
    rcases Relation.ReflTransGen.cases_head hw with rfl | ⟨u, hu, hw⟩
    · exact .inl hx
    · have := sizeOf_lt_of_mem_parts hu
      exact .inr ⟨u, hu, mem_elements.2 ⟨w, hw, hx⟩⟩
termination_by sizeOf v

/-- A key is without fault if it can be one and no key in front has its text. -/
theorem fault?_key_eq_none_iff {earlier : List Snapshot} {k : Snapshot} :
    (Element.key earlier k).fault? = Option.none ↔
      k.isKey = true ∧ k.keyText? ∉ earlier.map keyText? := by
  rw [Element.fault?]
  rcases keyText_cases k with ⟨hk, s, -, hkey⟩ | ⟨hk, -, hkey⟩
  · rw [hkey, hk]
    simp
  · rw [hkey, hk]
    simp

/-- Keys are without fault if each of them can be one and no two have one text. -/
theorem keyElements_sound_iff {entries : List (Snapshot × Snapshot)} (earlier : List Snapshot)
    (hd : (earlier.map keyText?).Nodup) :
    (∀ x ∈ keyElements earlier entries, x.fault? = Option.none) ↔
      (∀ e ∈ entries, e.1.isKey = true) ∧
        (earlier.map keyText? ++ entries.map fun e => e.1.keyText?).Nodup := by
  induction entries generalizing earlier with
  | nil => simp [keyElements, hd]
  | cons e rest ih =>
    rw [keyElements, List.forall_mem_cons, fault?_key_eq_none_iff, List.forall_mem_cons,
      List.map_cons]
    -- A key whose text is taken breaks both sides; any other joins those in front.
    by_cases hk : e.1.keyText? ∈ earlier.map keyText?
    · refine iff_of_false (fun h => h.1.2 hk) fun h => ?_
      have hnot := (List.nodup_cons.1 (List.nodup_middle.1 h.2)).1
      exact hnot (List.mem_append_left _ hk)
    · have hd' : ((earlier ++ [e.1]).map keyText?).Nodup := by
        rw [List.map_append]
        exact hd.append (List.nodup_singleton _) (by simpa using hk)
      rw [ih _ hd', List.map_append, List.append_assoc, List.map_singleton, List.singleton_append,
        and_iff_left hk, and_assoc]

/-- The elements that belong to a value are without fault if it has a literal and its keys are
distinct. -/
theorem ownElements_sound_iff {v : Snapshot} :
    (∀ x ∈ v.ownElements, x.fault? = Option.none) ↔ v.lacksLiteral = false ∧
      ∀ entries, v = .dict entries → (∀ e ∈ entries, e.1.isKey = true) ∧
        (entries.map fun e => e.1.keyText?).Nodup := by
  have hvalue : (Element.value v).fault? = Option.none ↔ v.lacksLiteral = false := by
    simp [Element.fault?]
  unfold ownElements
  rw [List.forall_mem_cons, hvalue]
  refine and_congr_right fun _ => ?_
  cases v with
  | dict entries =>
    constructor
    · rintro h _ ⟨⟩
      exact (keyElements_sound_iff [] List.nodup_nil).1 h
    · exact fun h => (keyElements_sound_iff [] List.nodup_nil).2 (h entries rfl)
  | _ => exact iff_of_true (fun _ h => nomatch h) fun _ h => nomatch h

/-- What a value needs for a payload is that the walk meets no fault. -/
theorem elements_sound_iff {v : Snapshot} :
    (∀ x ∈ elements v, x.fault? = Option.none) ↔ v.Capturable := by
  have hown : (∀ x ∈ elements v, x.fault? = Option.none) ↔
      ∀ w, v.Contains w → ∀ x ∈ w.ownElements, x.fault? = Option.none := by
    simp only [mem_elements]
    exact ⟨fun h w hw x hx => h x ⟨w, hw, hx⟩, fun h x ⟨w, hw, hx⟩ => h w hw x hx⟩
  simp only [hown, ownElements_sound_iff]
  constructor
  · exact fun h => ⟨fun w hw => (h w hw).1, fun entries hw => ((h _ hw).2 entries rfl).1,
      fun entries hw => ((h _ hw).2 entries rfl).2⟩
  · rintro h w hw
    refine ⟨h.literal w hw, ?_⟩
    rintro entries rfl
    exact ⟨h.key entries hw, h.distinct entries hw⟩

/-! ## What a payload shows

The relation follows the constructors of values. Three of them have no rule, as nothing stands for
them. -/

/--
The JSON that stands for a value: members and entries keep their number and their order, and the
names of an object are the texts of the keys. Octets that are those of a text stand for that text.
-/
inductive Pictures : Snapshot → Json → Prop where
  | none : Pictures .none .null
  | bool (b : Bool) : Pictures (.bool b) (.bool b)
  | int (i : Int64) : Pictures (.int i) (.int i.toInt)
  | float {x : Binary64} (h : x.isFinite = true) : Pictures (.float x) (.float x)
  | nan {x : Binary64} (h : x.isNaN = true) : Pictures (.float x) (.str "nan")
  | infinity {x : Binary64} (h : x.isFinite = false) (hn : x.isNaN = false) :
    Pictures (.float x) (.str (if x.negative then "-inf" else "inf"))
  | str (s : String) : Pictures (.str s) (.str s)
  | text (s : String) : Pictures (.bytes (s.toList.flatMap String.utf8EncodeChar)) (.str s)
  | bytes {octets : List UInt8} (h : ∀ s : String, s.toList.flatMap String.utf8EncodeChar ≠ octets) :
    Pictures (.bytes octets) (.str (Text.Utf8.text (octets.map UInt8.toNat)))
  | tuple {items : List Snapshot} {js : List Json} (h : List.Forall₂ Pictures items js) :
    Pictures (.tuple items) (.arr js)
  | list {items : List Snapshot} {js : List Json} (h : List.Forall₂ Pictures items js) :
    Pictures (.list items) (.arr js)
  | set {items : List Snapshot} {js : List Json} (h : List.Forall₂ Pictures items js) :
    Pictures (.set items) (.arr js)
  | dict {entries : List (Snapshot × Snapshot)} {ms : List (String × Json)}
    (hk : entries.map (fun e => e.1.keyText?) = ms.map fun m => some m.1)
    (h : List.Forall₂ Pictures (entries.map Prod.snd) (ms.map Prod.snd)) :
    Pictures (.dict entries) (.obj ms)

/-- Octets are shown as the text that is made of them, whether or not they are those of a text. -/
theorem pictures_bytes (octets : List UInt8) :
    Pictures (.bytes octets) (.str (Text.Utf8.text (octets.map UInt8.toNat))) := by
  by_cases h : ∃ s : String, s.toList.flatMap String.utf8EncodeChar = octets
  · obtain ⟨s, rfl⟩ := h
    rw [Text.Utf8.text_utf8EncodeChar]
    exact .text s
  · exact .bytes fun s hs => h ⟨s, hs⟩

/-- A number is shown as itself if it is finite, and by name otherwise. -/
theorem pictures_float (x : Binary64) :
    Pictures (.float x) (if x.isFinite then .float x else .str x.irregular) := by
  by_cases h : x.isFinite = true
  · rw [if_pos h]
    exact .float h
  · rw [if_neg h, Binary64.irregular]
    by_cases hn : x.isNaN = true
    · rw [if_pos hn]
      exact .nan hn
    · rw [if_neg hn]
      exact .infinity (Bool.eq_false_iff.2 h) (Bool.eq_false_iff.2 hn)

open Outcome in
mutual

/-- A payload shows its value, by recursion on the value. -/
theorem pictures_payload : (v : Snapshot) → ∀ j, v.payload = .ok j → Pictures v j
  | .none, _, h => by
    cases h
    exact .none
  | .bool b, _, h => by
    cases h
    exact .bool b
  | .int i, _, h => by
    cases h
    exact .int i
  | .float x, _, h => by
    cases h
    exact pictures_float x
  | .str s, _, h => by
    cases h
    exact .str s
  | .bytes octets, _, h => by
    cases h
    exact pictures_bytes octets
  | .tuple items, _, h => by
    obtain ⟨js, hjs, rfl⟩ := map_eq_ok_iff.1 h
    exact .tuple (pictures_payloads items js hjs)
  | .list items, _, h => by
    obtain ⟨js, hjs, rfl⟩ := map_eq_ok_iff.1 h
    exact .list (pictures_payloads items js hjs)
  | .set items, _, h => by
    obtain ⟨js, hjs, rfl⟩ := map_eq_ok_iff.1 h
    exact .set (pictures_payloads items js hjs)
  | .dict entries, _, h => by
    obtain ⟨ms, hms, rfl⟩ := map_eq_ok_iff.1 h
    obtain ⟨hkeys, hvalues⟩ := pictures_payloadEntries entries [] ms hms
    exact .dict hkeys hvalues
  | .object _ _ _, _, h => nomatch h
  | .method _ _, _, h => nomatch h
  | .untracked _, _, h => nomatch h

/-- Several payloads show their values one by one. -/
theorem pictures_payloads :
    (items : List Snapshot) → ∀ js, payloads items = .ok js → List.Forall₂ Pictures items js
  | [], _, h => by
    cases h
    exact .nil
  | v :: rest, js, h => by
    obtain ⟨j, hj, h⟩ := bind_eq_ok_iff.1 h
    obtain ⟨js', hjs, h⟩ := bind_eq_ok_iff.1 h
    cases h
    exact .cons (pictures_payload v j hj) (pictures_payloads rest js' hjs)

/-- Payloads of entries show the texts of the keys and the values. -/
theorem pictures_payloadEntries :
    (entries : List (Snapshot × Snapshot)) → ∀ taken ms, payloadEntries taken entries = .ok ms →
      entries.map (fun e => e.1.keyText?) = ms.map (fun m => some m.1) ∧
        List.Forall₂ Pictures (entries.map Prod.snd) (ms.map Prod.snd)
  | [], _, _, h => by
    cases h
    exact ⟨rfl, .nil⟩
  | (k, v) :: rest, taken, ms, h => by
    obtain ⟨key, hkey, h⟩ := bind_eq_ok_iff.1 h
    have htext : k.keyText? = some key := by rw [keyText?, hkey]; rfl
    split at h
    · cases h
    · obtain ⟨j, hj, h⟩ := bind_eq_ok_iff.1 h
      obtain ⟨more, hmore, h⟩ := bind_eq_ok_iff.1 h
      cases h
      obtain ⟨hkeys, hvalues⟩ := pictures_payloadEntries rest _ more hmore
      exact ⟨congrArg₂ List.cons htext hkeys, .cons (pictures_payload v j hj) hvalues⟩

end

/-- There is a payload if nothing stands in its way. -/
theorem exists_payload_iff (v : Snapshot) : (∃ j, v.payload = .ok j) ↔ v.Capturable := by
  rw [← elements_sound_iff, ← List.findSome?_eq_none_iff, findSome?_elements,
    Outcome.cause?_eq_none_iff]

/-- A value is primitive if it has a payload. -/
theorem isPrimitive_iff (v : Snapshot) : v.isPrimitive = true ↔ ∃ j, v.payload = .ok j := by
  unfold isPrimitive
  cases v.payload <;> simp

/--
A value has a payload just if it contains no object, method or untracked value, every key in it is a
text, a number, a truth value or nothing, and no two keys of one dictionary have one text; keys are
not looked into. The payload shows the value. Else the error is that of the first element at fault,
where a key comes before its value, and what is on the left before what is on the right.
-/
theorem payload_exact (v : Snapshot) :
    ((∃ j, v.payload = .ok j) ↔ v.Capturable) ∧ (v.isPrimitive = true ↔ v.Capturable) ∧
      (∀ j, v.payload = .ok j → Pictures v j) ∧
      ∀ e, v.payload = .error e ↔ ∃ before x after, elements v = before ++ x :: after ∧
        x.fault? = some e ∧ ∀ y ∈ before, y.fault? = Option.none := by
  refine ⟨exists_payload_iff v, (isPrimitive_iff v).trans (exists_payload_iff v),
    pictures_payload v, fun e => ?_⟩
  rw [← Outcome.cause?_eq_some_iff, ← findSome?_elements, List.findSome?_eq_some_iff]

/-- Two keys with one text are at fault before the object that the second of them stands for. -/
theorem payload_exact_collision :
    (Snapshot.list [.dict [(.int 1, .none), (.str "1", .object ⟨"o"⟩ ⟨"m", "T", []⟩ [])],
      .method "run" Option.none]).payload = .error (.keyCollision "1") := by
  have hint : keyText? (.int 1) = some "1" := by decide
  have hstr : keyText? (.str "1") = some "1" := rfl
  refine ((payload_exact _).2.2.2 _).2
    ⟨_ :: _ :: _ :: [_], .key [.int 1] (.str "1"), _, rfl, ?_, ?_⟩
  · simp [Element.fault?, hint, hstr]
  · simp [Element.fault?, hint, lacksLiteral]

end Snapshot

end ObjectFlow
