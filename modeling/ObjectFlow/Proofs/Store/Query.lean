import ObjectFlow.Proofs.Json
import ObjectFlow.Proofs.Outcome
import ObjectFlow.Store.Query

/-!
# The notation of queries

`IsNotation` says which values are the notation of a query, and `Describes` reads such a value as it
stands, member by member. The reader accepts just the notations, loses nothing of them, and the
query that it makes holds for just the documents that the notation describes (`ofJson_reads`).

Both relations are defined without the reader and without queries, so they say what the notation is
meant to be. What is to be shown of a value is collected in one structure, `Understood`, and what is
to be shown of one member in another, `UnderstoodAt`. The induction goes over the value: a value is
understood if its members are, and a member, with its key, if the value under it is. For the latter
there is one lemma for each way in which a member can stand there. Where such a lemma refuses, it
only has to give the error, and where it accepts, the clause.
-/

namespace ObjectFlow

/-- A clause stands under its key, a choice under `$or`. -/
def Clause.name (c : Clause) : String := (Query.clauseEntry c).1

namespace Query

open Outcome

/-! ## Notations

Two constructors may look alike: an object under a key is either a list of values or a nested query.
They are told apart by operators, of which a nested query has none. -/

mutual

/-- Every member of the notation of a query is the notation of a clause. -/
inductive IsNotation : Json → Prop where
  | obj {members : List (String × Json)} :
    (∀ m ∈ members, IsEntry m.1 m.2) → IsNotation (.obj members)

/-- A member of a notation: a choice, or a key with a value, with a list of values, or with a nested
query. -/
inductive IsEntry : String → Json → Prop where
  | anyOf {items : List Json} : (∀ j ∈ items, IsNotation j) → IsEntry "$or" (.arr items)
  | equals {key : String} {operand : Json} :
    isOperator key = false → operand.isObject = false → IsEntry key operand
  | oneOf {key : String} {values : List Json} :
    isOperator key = false → IsEntry key (.obj [("$in", .arr values)])
  | nested {key : String} {members : List (String × Json)} :
    isOperator key = false → (∀ m ∈ members, isOperator m.1 = false) →
      IsNotation (.obj members) → IsEntry key (.obj members)

end

mutual

/-- What the notation of a query says of a document. -/
inductive Describes : Json → Json → Prop where
  | obj {members : List (String × Json)} {doc : Json} :
    (∀ m ∈ members, DescribesAt m.1 m.2 doc) → Describes (.obj members) doc

/-- What a member of a notation says of a document. -/
inductive DescribesAt : String → Json → Json → Prop where
  | anyOf {items : List Json} {j doc : Json} :
    j ∈ items → Describes j doc → DescribesAt "$or" (.arr items) doc
  | equals {key : String} {operand field doc : Json} :
    isOperator key = false → operand.isObject = false → doc.member? key = some field →
      Json.same field operand = true → DescribesAt key operand doc
  | oneOf {key : String} {values : List Json} {value field doc : Json} :
    isOperator key = false → doc.member? key = some field → value ∈ values →
      Json.same value field = true → DescribesAt key (.obj [("$in", .arr values)]) doc
  | nested {key : String} {members fields : List (String × Json)} {doc : Json} :
    isOperator key = false → (∀ m ∈ members, isOperator m.1 = false) →
      doc.member? key = some (.obj fields) → Describes (.obj members) (.obj fields) →
        DescribesAt key (.obj members) doc

end

/-! ## Queries as lists of clauses

The functions on queries are recursive through lists. Here each of them is told as one that goes
through a list with a function for one clause. -/

/-- All clauses are gone through. -/
theorem allHold_eq_all (q : Query) (doc : Json) :
    allHold q doc = q.all fun c => clauseHolds c doc := by
  induction q with
  | nil => rfl
  | cons c q ih => rw [allHold, ih, List.all_cons]

/-- All alternatives are gone through. -/
theorem anyHolds_eq_any (qs : List Query) (doc : Json) :
    anyHolds qs doc = qs.any fun q => q.holds doc := by
  induction qs with
  | nil => rfl
  | cons q qs ih => rw [anyHolds, ih, List.any_cons, holds]

/-- A query holds if all of its clauses do. -/
theorem holds_iff {q : Query} {doc : Json} :
    q.holds doc = true ↔ ∀ c ∈ q, clauseHolds c doc = true := by
  rw [holds, allHold_eq_all, List.all_eq_true]

/-- A nested query holds for the object under its key. -/
theorem clauseHolds_nested_iff {key : String} {q : Query} {doc : Json} :
    clauseHolds (.nested key q) doc = true ↔
      ∃ field, doc.member? key = some field ∧ field.isObject = true ∧ q.holds field = true := by
  rw [clauseHolds]
  cases doc.member? key with
  | none => simp
  | some field => simp [holds]

/-- A choice holds if one of its queries does. -/
theorem clauseHolds_anyOf_iff {qs : List Query} {doc : Json} :
    clauseHolds (.anyOf qs) doc = true ↔ ∃ q ∈ qs, q.holds doc = true := by
  rw [clauseHolds, anyHolds_eq_any, List.any_eq_true]

theorem entries_eq_map (q : Query) : entries q = q.map clauseEntry := by
  induction q with
  | nil => rfl
  | cons c q ih => rw [entries, ih, List.map_cons]

theorem notations_eq_map (qs : List Query) : notations qs = qs.map toJson := by
  induction qs with
  | nil => rfl
  | cons q qs ih => rw [notations, ih, List.map_cons, toJson]

/-- The clause that a member of a notation stands for. -/
def clauseOf (key : String) (j : Json) : Except QueryError Clause :=
  if key = "$or" then alternatives j
  else if isOperator key then .error (.unsupportedOperator key)
  else condition key j

/-- The members of a notation are read one by one, up to the first that is refused. -/
theorem ofMembers_eq_mapM (ms : List (String × Json)) :
    ofMembers ms = ms.mapM fun m => clauseOf m.1 m.2 := by
  induction ms with
  | nil => rfl
  | cons m ms ih =>
    obtain ⟨key, j⟩ := m
    rw [ofMembers, ih, List.mapM_cons]
    show _ = clauseOf key j >>= fun c => _
    unfold clauseOf
    split
    · rfl
    · split <;> rfl

/-- The alternatives of a choice are read one by one. -/
theorem ofItems_eq_mapM (items : List Json) : ofItems items = items.mapM ofJson := by
  induction items with
  | nil => rfl
  | cons j items ih => rw [ofItems, ih, List.mapM_cons]

/-! ## One member

What stands under `$or` is a choice, and no other operator may stand in front. Behind a key, an
object is read as a list of values if its only member is `$in`, and as a nested query if no member
is an operator. -/

theorem isOperator_or : isOperator "$or" = true := rfl

theorem isOperator_in : isOperator "$in" = true := rfl

/-- What is to be said of a choice is to be said of its alternatives. -/
theorem isEntry_or_iff {items : List Json} :
    IsEntry "$or" (.arr items) ↔ ∀ j ∈ items, IsNotation j := by
  refine ⟨fun h => ?_, .anyOf⟩
  cases h with
  | anyOf hall => exact hall
  | equals hkey => cases hkey

/-- A choice describes what one of its alternatives describes. -/
theorem describesAt_or_iff {items : List Json} {doc : Json} :
    DescribesAt "$or" (.arr items) doc ↔ ∃ j ∈ items, Describes j doc := by
  refine ⟨fun h => ?_, fun ⟨j, hj, h⟩ => .anyOf hj h⟩
  cases h with
  | anyOf hj h => exact ⟨_, hj, h⟩
  | equals hkey => cases hkey

section Nested

variable {key : String} {ms : List (String × Json)}

/-- An object without operators is a nested query, if it is a query at all. -/
theorem isEntry_nested_iff (hop : isOperator key = false)
    (hms : ∀ m ∈ ms, isOperator m.1 = false) : IsEntry key (.obj ms) ↔ IsNotation (.obj ms) := by
  refine ⟨fun h => ?_, .nested hop hms⟩
  cases h with
  | equals _ hobj => cases hobj
  | oneOf => exact absurd (hms _ List.mem_cons_self) (by simp [isOperator_in])
  | nested _ _ h => exact h

/-- A nested query describes what has an object under the key that it describes. -/
theorem describesAt_nested_iff (hop : isOperator key = false)
    (hms : ∀ m ∈ ms, isOperator m.1 = false) {doc : Json} : DescribesAt key (.obj ms) doc ↔
      ∃ field, doc.member? key = some field ∧ field.isObject = true ∧
        Describes (.obj ms) field := by
  constructor
  · intro h
    cases h with
    | equals _ hobj => cases hobj
    | oneOf => exact absurd (hms _ List.mem_cons_self) (by simp [isOperator_in])
    | nested _ _ hfield h => exact ⟨_, hfield, rfl, h⟩
  · rintro ⟨field, hfield, hobj, h⟩
    cases field with
    | obj fields => exact .nested hop hms hfield h
    | _ => cases hobj

end Nested

/-- The alternatives of a choice are read from a list. -/
theorem alternatives_arr (items : List Json) :
    alternatives (.arr items) = (ofItems items).map .anyOf := by
  rw [alternatives]
  cases ofItems items <;> rfl

/-- That no member is an operator can be told by going through them. -/
theorem any_isOperator_eq_false_iff {ms : List (String × Json)} :
    (ms.map Prod.fst).any isOperator = false ↔ ∀ m ∈ ms, isOperator m.1 = false := by
  simp

/-- An object without operators is read as a query on what stands under the key. -/
theorem condition_nested {ms : List (String × Json)} (h : ∀ m ∈ ms, isOperator m.1 = false)
    (key : String) : condition key (.obj ms) = (ofMembers ms).map (.nested key) := by
  have hnone : (ms.map Prod.fst).filter isOperator = [] := by simpa using h
  rw [condition, refusal?, hnone]
  simp only [any_isOperator_eq_false_iff.2 h]
  cases ofMembers ms <;> rfl

/-- A list of values under `$in` is read as it is. -/
theorem condition_oneOf (key : String) (values : List Json) :
    condition key (.obj [("$in", .arr values)]) = .ok (.oneOf key values) := by
  simp [condition, refusal?, isOperator_in, Table.at?]

/-- Of the objects with an operator only a list of values is read. -/
theorem condition_operator {ms : List (String × Json)} (h : ¬ ∀ m ∈ ms, isOperator m.1 = false)
    (key : String) : (∃ values, ms = [("$in", .arr values)]) ∨
      ∃ e, condition key (.obj ms) = .error e ∧
        ∀ o, e = .unsupportedOperator o → isOperator o = true := by
  have hany : (ms.map Prod.fst).any isOperator = true := by
    rwa [← any_isOperator_eq_false_iff, Bool.not_eq_false] at h
  have hfilter : (ms.map Prod.fst).filter isOperator ≠ [] := by simpa using hany
  rw [condition]
  cases hr : refusal? ms with
  | some e =>
    refine .inr ⟨e, rfl, fun o ho => ?_⟩
    unfold refusal? at hr
    split at hr
    · cases hr
    · split at hr
      · rename_i o' hfind
        cases hr
        cases ho
        exact (List.mem_filter.1 (List.mem_of_find?_eq_some hfind)).2
      · split at hr <;> cases hr
        cases ho
  | none =>
    -- a single member is left, and its name is the operator
    unfold refusal? at hr
    split at hr
    · rename_i hnil
      exact absurd hnil hfilter
    · split at hr
      · cases hr
      · rename_i hfind
        split at hr
        · rename_i hlen
          obtain ⟨⟨name, j⟩, rfl⟩ := List.length_eq_one_iff.1 hlen
          have hop : isOperator name = true := by simpa using hany
          obtain rfl : name = "$in" := by simpa [hop] using hfind
          rw [if_pos hany]
          cases j with
          | arr values => exact .inl ⟨values, rfl⟩
          | _ => exact .inr ⟨_, rfl, fun o ho => by cases ho⟩
        · cases hr

/-! ## Reading

The two structures have the same four fields. The first field is about acceptance, the next two
about what was read, and the last about what is blamed for a refusal. -/

/-- The reader accepts a value just if it is a notation, and the query says what the value says. -/
structure Understood (j : Json) : Prop where
  accepted_iff : (∃ q, ofJson j = .ok q) ↔ IsNotation j
  toJson_eq : ∀ q, ofJson j = .ok q → j.Merged → q.toJson = j
  holds_iff : ∀ q, ofJson j = .ok q → ∀ doc, q.holds doc = true ↔ Describes j doc
  blamed : ∀ o, ofJson j = .error (.unsupportedOperator o) → isOperator o = true

/-- The same for one member of a notation. -/
structure UnderstoodAt (key : String) (j : Json) : Prop where
  accepted_iff : (∃ c, clauseOf key j = .ok c) ↔ IsEntry key j
  entry_eq : ∀ c, clauseOf key j = .ok c → j.Merged → clauseEntry c = (key, j)
  holds_iff : ∀ c, clauseOf key j = .ok c → ∀ doc, clauseHolds c doc = true ↔ DescribesAt key j doc
  blamed : ∀ o, clauseOf key j = .error (.unsupportedOperator o) → isOperator o = true

/-- The members of an object are read one by one. -/
theorem ofJson_obj (ms : List (String × Json)) :
    ofJson (.obj ms) = ms.mapM fun m => clauseOf m.1 m.2 := by
  rw [ofJson, ofMembers_eq_mapM]

/-- An object is understood if all of its members are. -/
theorem understood_obj {ms : List (String × Json)} (h : ∀ m ∈ ms, UnderstoodAt m.1 m.2) :
    Understood (.obj ms) where
  accepted_iff := by
    rw [ofJson_obj, exists_mapM_eq_ok_iff]
    constructor
    · exact fun hok => .obj fun m hm => (h m hm).accepted_iff.1 (hok m hm)
    · rintro ⟨hentries⟩ m hm
      exact (h m hm).accepted_iff.2 (hentries m hm)
  toJson_eq q hq hmerged := by
    obtain ⟨hkeys, hvalues⟩ := Json.merged_obj_iff.1 hmerged
    rw [ofJson_obj, mapM_eq_ok_iff] at hq
    have hentries : entries q = ms := by
      rw [entries_eq_map]
      clear hmerged hkeys
      induction hq with
      | nil => rfl
      | cons hc _ ih =>
        rw [List.forall_mem_cons] at h hvalues
        rw [List.map_cons, h.1.entry_eq _ hc hvalues.1, ih h.2 hvalues.2]
    rw [toJson, hentries, Table.ofEntries_eq_self hkeys]
  holds_iff q hq doc := by
    rw [ofJson_obj] at hq
    obtain ⟨hleft, hright⟩ := exists_mem_of_mapM_eq_ok hq
    rw [holds_iff]
    constructor
    · intro hall
      refine .obj fun m hm => ?_
      obtain ⟨c, hc, hmc⟩ := hleft m hm
      exact ((h m hm).holds_iff c hmc doc).1 (hall c hc)
    · rintro ⟨hall⟩ c hc
      obtain ⟨m, hm, hmc⟩ := hright c hc
      exact ((h m hm).holds_iff c hmc doc).2 (hall m hm)
  blamed o ho := by
    rw [ofJson_obj] at ho
    obtain ⟨m, hm, hmo⟩ := exists_mem_of_mapM_eq_error ho
    exact (h m hm).blamed o hmo

/-- What is no object is no query. -/
theorem understood_other {j : Json} (h : j.isObject = false) : Understood j := by
  have herr : ofJson j = .error (.notAnObject j) := by
    cases j <;> first | rfl | cases h
  refine ⟨⟨fun ⟨q, hq⟩ => ?_, fun hn => ?_⟩, fun q hq => ?_, fun q hq => ?_, fun o ho => ?_⟩
  · rw [herr] at hq
    cases hq
  · cases hn
    cases h
  · rw [herr] at hq
    cases hq
  · rw [herr] at hq
    cases hq
  · rw [herr] at ho
    cases ho

section Member

variable {key : String} {j : Json} {ms : List (String × Json)}

/-- Where the clause is known, only its notation and its meaning are to be compared. -/
theorem understoodAt_of_ok {c : Clause} (hentry : IsEntry key j) (hclause : clauseOf key j = .ok c)
    (heq : clauseEntry c = (key, j))
    (hholds : ∀ doc, clauseHolds c doc = true ↔ DescribesAt key j doc) : UnderstoodAt key j := by
  refine ⟨⟨fun _ => hentry, fun _ => ⟨c, hclause⟩⟩, fun c' hc _ => ?_, fun c' hc => ?_,
    fun o ho => ?_⟩
  · rw [hclause] at hc
    cases hc
    exact heq
  · rw [hclause] at hc
    cases hc
    exact hholds
  · rw [hclause] at ho
    cases ho

/-- Where an error is known, only the error is to be looked at. -/
theorem understoodAt_of_error {e : QueryError} (hentry : ¬ IsEntry key j)
    (hclause : clauseOf key j = .error e)
    (hblamed : ∀ o, e = .unsupportedOperator o → isOperator o = true) : UnderstoodAt key j := by
  refine ⟨⟨fun ⟨c, hc⟩ => ?_, fun h => absurd h hentry⟩, fun c hc => ?_, fun c hc => ?_,
    fun o ho => ?_⟩
  · rw [hclause] at hc
    cases hc
  · rw [hclause] at hc
    cases hc
  · rw [hclause] at hc
    cases hc
  · rw [hclause] at ho
    cases ho
    exact hblamed o rfl

/-- A clause made of something else that is read: it is enough to say what that stands for. -/
theorem understoodAt_of_map {α : Type} {r : Except QueryError α} {mk : α → Clause}
    (hclause : clauseOf key j = r.map mk) (haccepted : (∃ a, r = .ok a) ↔ IsEntry key j)
    (hentry : ∀ a, r = .ok a → j.Merged → clauseEntry (mk a) = (key, j))
    (hholds : ∀ a, r = .ok a → ∀ doc, clauseHolds (mk a) doc = true ↔ DescribesAt key j doc)
    (hblamed : ∀ o, r = .error (.unsupportedOperator o) → isOperator o = true) :
    UnderstoodAt key j := by
  cases r with
  | error e =>
    refine understoodAt_of_error (fun h => ?_) hclause fun o ho => hblamed o (congrArg _ ho)
    obtain ⟨a, ha⟩ := haccepted.2 h
    cases ha
  | ok a =>
    refine ⟨⟨fun _ => haccepted.1 ⟨a, rfl⟩, fun _ => ⟨_, hclause⟩⟩, fun c hc => ?_, fun c hc => ?_,
      fun o ho => ?_⟩
    · cases hclause.symm.trans hc
      exact hentry a rfl
    · cases hclause.symm.trans hc
      exact hholds a rfl
    · cases hclause.symm.trans ho

/-- A choice is read if all that it offers is. -/
theorem understoodAt_or {items : List Json} (h : ∀ i ∈ items, Understood i) :
    UnderstoodAt "$or" (.arr items) := by
  have hclause : clauseOf "$or" (.arr items) = (items.mapM ofJson).map .anyOf := by
    rw [clauseOf, if_pos rfl, alternatives_arr, ofItems_eq_mapM]
  refine understoodAt_of_map hclause ?_ (fun qs hqs hmerged => ?_) (fun qs hqs doc => ?_)
    fun o ho => ?_
  · rw [exists_mapM_eq_ok_iff, isEntry_or_iff]
    exact forall₂_congr fun i hi => (h i hi).accepted_iff
  · rw [clauseEntry, notations_eq_map]
    rw [mapM_eq_ok_iff] at hqs
    have hmap : qs.map toJson = items := by
      rw [Json.merged_arr_iff] at hmerged
      clear hclause
      induction hqs with
      | nil => rfl
      | cons hq _ ih =>
        rw [List.forall_mem_cons] at h hmerged
        rw [List.map_cons, h.1.toJson_eq _ hq hmerged.1, ih h.2 hmerged.2]
    rw [hmap]
  · obtain ⟨hleft, hright⟩ := exists_mem_of_mapM_eq_ok hqs
    rw [clauseHolds_anyOf_iff, describesAt_or_iff]
    constructor
    · rintro ⟨q, hq, hholds⟩
      obtain ⟨i, hi, hiq⟩ := hright q hq
      exact ⟨i, hi, ((h i hi).holds_iff q hiq doc).1 hholds⟩
    · rintro ⟨i, hi, hdesc⟩
      obtain ⟨q, hq, hiq⟩ := hleft i hi
      exact ⟨q, hq, ((h i hi).holds_iff q hiq doc).2 hdesc⟩
  · obtain ⟨i, hi, hio⟩ := exists_mem_of_mapM_eq_error ho
    exact (h i hi).blamed o hio

/-- Under an operator nothing is read but the alternatives of a choice. -/
theorem understoodAt_operator (hop : isOperator key = true)
    (hor : key = "$or" → ∀ items, j ≠ .arr items) : UnderstoodAt key j := by
  have hentry : ¬ IsEntry key j := by
    intro hentry
    cases hentry with
    | anyOf => exact hor rfl _ rfl
    | equals hkey => rw [hop] at hkey; cases hkey
    | oneOf hkey => rw [hop] at hkey; cases hkey
    | nested hkey => rw [hop] at hkey; cases hkey
  by_cases hkey : key = "$or"
  · subst hkey
    have hclause : clauseOf "$or" j = .error .orWithoutList := by
      rw [clauseOf, if_pos rfl]
      cases j with
      | arr items => exact absurd rfl (hor rfl items)
      | _ => rfl
    exact understoodAt_of_error hentry hclause fun o ho => by cases ho
  · have hclause : clauseOf key j = .error (.unsupportedOperator key) := by
      rw [clauseOf, if_neg hkey, if_pos hop]
    exact understoodAt_of_error hentry hclause fun o ho => by cases ho; exact hop

/-- Under a key stands a condition. -/
theorem clauseOf_key (hop : isOperator key = false) (j : Json) :
    clauseOf key j = condition key j := by
  have hne : key ≠ "$or" := by
    rintro rfl
    cases hop
  rw [clauseOf, if_neg hne, if_neg (by rw [hop]; exact Bool.false_ne_true)]

/-- What is no object is an operand. -/
theorem understoodAt_equals (hop : isOperator key = false) (hj : j.isObject = false) :
    UnderstoodAt key j := by
  have hclause : clauseOf key j = .ok (.equals key j) := by
    rw [clauseOf_key hop]
    cases j <;> first | rfl | cases hj
  refine understoodAt_of_ok (.equals hop hj) hclause rfl fun doc => ?_
  rw [clauseHolds]
  constructor
  · intro hholds
    split at hholds
    · exact .equals hop hj ‹_› hholds
    · cases hholds
  · intro hdesc
    cases hdesc with
    | anyOf => cases hop
    | equals _ _ hfield hsame => rw [hfield]; exact hsame
    | oneOf => cases hj
    | nested => cases hj

/-- Under `$in` stand the values to choose from. -/
theorem understoodAt_oneOf (hop : isOperator key = false) (values : List Json) :
    UnderstoodAt key (.obj [("$in", .arr values)]) := by
  have hclause : clauseOf key (.obj [("$in", .arr values)]) = .ok (.oneOf key values) := by
    rw [clauseOf_key hop, condition_oneOf]
  refine understoodAt_of_ok (.oneOf hop) hclause rfl fun doc => ?_
  rw [clauseHolds]
  constructor
  · intro hholds
    split at hholds
    · rw [List.any_eq_true] at hholds
      obtain ⟨v, hv, hsame⟩ := hholds
      exact .oneOf hop ‹_› hv hsame
    · cases hholds
  · intro hdesc
    cases hdesc with
    | equals _ hobj => cases hobj
    | oneOf _ hfield hv hsame =>
      rw [hfield]
      exact List.any_eq_true.2 ⟨_, hv, hsame⟩
    | nested _ hms => exact absurd (hms _ List.mem_cons_self) (by simp [isOperator_in])

/-- An object without operators is a nested query. -/
theorem understoodAt_nested (hop : isOperator key = false)
    (hms : ∀ m ∈ ms, isOperator m.1 = false) (h : Understood (.obj ms)) :
    UnderstoodAt key (.obj ms) := by
  have hclause : clauseOf key (.obj ms) = (ofJson (.obj ms)).map (.nested key) := by
    rw [clauseOf_key hop, condition_nested hms, ofJson]
  refine understoodAt_of_map hclause ?_ (fun q hq hmerged => ?_) (fun q hq doc => ?_) h.blamed
  · rw [h.accepted_iff, isEntry_nested_iff hop hms]
  · exact congrArg (Prod.mk key) (h.toJson_eq q hq hmerged)
  · rw [clauseHolds_nested_iff, describesAt_nested_iff hop hms]
    simp only [h.holds_iff q hq]

/-- Objects with an operator are refused unless they are lists of values. -/
theorem understoodAt_mixed (hop : isOperator key = false)
    (hms : ¬ ∀ m ∈ ms, isOperator m.1 = false) (hin : ∀ values, ms ≠ [("$in", .arr values)]) :
    UnderstoodAt key (.obj ms) := by
  obtain ⟨e, hclause, hblamed⟩ :=
    (condition_operator hms key).resolve_left fun ⟨values, hvalues⟩ => hin values hvalues
  refine understoodAt_of_error (fun hentry => ?_) ((clauseOf_key hop _).trans hclause) hblamed
  cases hentry with
  | equals _ hobj => cases hobj
  | oneOf => exact hin _ rfl
  | nested _ hms' => exact hms hms'

/-- The ways in which a member may stand there, put together. -/
theorem understoodAt_of_understood (h : Understood j)
    (hitems : ∀ items, j = .arr items → ∀ i ∈ items, Understood i) : UnderstoodAt key j := by
  cases hop : isOperator key with
  | true =>
    by_cases hor : key = "$or" ∧ ∃ items, j = .arr items
    · obtain ⟨rfl, items, rfl⟩ := hor
      exact understoodAt_or (hitems items rfl)
    · exact understoodAt_operator hop fun hkey items hj => hor ⟨hkey, items, hj⟩
  | false =>
    cases j with
    | obj ms =>
      by_cases hms : ∀ m ∈ ms, isOperator m.1 = false
      · exact understoodAt_nested hop hms h
      · by_cases hin : ∃ values, ms = [("$in", .arr values)]
        · obtain ⟨values, rfl⟩ := hin
          exact understoodAt_oneOf hop values
        · exact understoodAt_mixed hop hms fun values hvalues => hin ⟨values, hvalues⟩
    | _ => exact understoodAt_equals hop rfl

end Member

-- Of a list its items are understood too, since a choice reads them one by one.
mutual

/-- By recursion on the value. The members of a list are taken along, since a choice looks at them
before it is known that the list is one. -/
theorem understood_parts :
    (j : Json) → Understood j ∧ ∀ items, j = .arr items → ∀ i ∈ items, Understood i
  | .obj ms => ⟨understood_obj (understood_members ms), by simp⟩
  | .arr items => ⟨understood_other rfl, fun _ heq => by cases heq; exact understood_items items⟩
  | .null => ⟨understood_other rfl, by simp⟩
  | .bool _ => ⟨understood_other rfl, by simp⟩
  | .int _ => ⟨understood_other rfl, by simp⟩
  | .float _ => ⟨understood_other rfl, by simp⟩
  | .str _ => ⟨understood_other rfl, by simp⟩

theorem understood_members : (ms : List (String × Json)) → ∀ m ∈ ms, UnderstoodAt m.1 m.2
  | [] => fun _ h => nomatch h
  | (_, j) :: rest => List.forall_mem_cons.2
    ⟨understoodAt_of_understood (understood_parts j).1 (understood_parts j).2,
      understood_members rest⟩

theorem understood_items : (items : List Json) → ∀ i ∈ items, Understood i
  | [] => fun _ h => nomatch h
  | i :: rest => List.forall_mem_cons.2 ⟨(understood_parts i).1, understood_items rest⟩

end

/-- Every value is understood. -/
theorem understood (j : Json) : Understood j := (understood_parts j).1

/-- Every member is understood. -/
theorem understoodAt (key : String) (j : Json) : UnderstoodAt key j :=
  understoodAt_of_understood (understood j) (understood_parts j).2

/-- All other errors call the query malformed. -/
theorem message_malformed {e : QueryError} (h : ∀ o, e ≠ .unsupportedOperator o) :
    ∃ reason, e.message = "malformed query: " ++ reason := by
  cases e with
  | unsupportedOperator o => exact absurd rfl (h o)
  | notAnObject j =>
    refine ⟨"expected an object, got " ++ j.compact, ?_⟩
    rw [← String.append_assoc]
    rfl
  | orWithoutList => exact ⟨"$or expects an array of queries", rfl⟩
  | inWithoutList => exact ⟨"$in expects an array", rfl⟩
  | inBesideOthers => exact ⟨"$in cannot be combined with other keys", rfl⟩

/--
A value is read as a query just if it is the notation of one. The query is written back as the same
value, with its members in their order, and holds for the documents that the value describes. What
is refused is refused for an operator, which the message names, or as malformed.
-/
theorem ofJson_reads (j : Json) :
    (IsNotation j → ∃ q, ofJson j = .ok q ∧ (j.Merged → q.toJson = j) ∧
      ∀ doc, q.holds doc = true ↔ Describes j doc) ∧
    (¬ IsNotation j → ∃ e, ofJson j = .error e ∧
      ((∃ o, isOperator o = true ∧ e.message = "unsupported query operator: '" ++ o ++ "'") ∨
        ∃ reason, e.message = "malformed query: " ++ reason)) := by
  have h := understood j
  constructor
  · intro hn
    obtain ⟨q, hq⟩ := h.accepted_iff.2 hn
    exact ⟨q, hq, h.toJson_eq q hq, h.holds_iff q hq⟩
  · intro hn
    cases hq : ofJson j with
    | ok q => exact absurd (h.accepted_iff.1 ⟨q, hq⟩) hn
    | error e =>
      refine ⟨e, rfl, ?_⟩
      by_cases ho : ∃ o, e = .unsupportedOperator o
      · obtain ⟨o, rfl⟩ := ho
        exact .inl ⟨o, h.blamed o hq, rfl⟩
      · exact .inr (message_malformed fun o heq => ho ⟨o, heq⟩)

end Query

end ObjectFlow
