import ObjectFlow.Proofs.Store.Query

/-!
# Queries in their own notation

An object has one member of a name, so of the clauses with one name the notation of a query keeps
the last (`lasting`). What the reader makes of the notation is found clause by clause
(`clauseOf_clauseEntry_eq`, `exists_clauseOf_clauseEntry`).

Three things can go wrong between a query and its notation, and there is a condition for each of
them, at every depth (`Throughout`). Clauses with one name overwrite each other (`Agreeing` rules
out that this matters, `Single` that it happens). An operand that is an object is read as a nested
query or as a list of values (`Simple`), or not at all (`Legible`). And a choice within a nested
query is taken for an unknown operator, which both of these rule out as well. The main result first
puts the query in the form it has in its notation, where names are distinct, and then compares that
form with what is read (`written_reads`).
-/

namespace ObjectFlow

namespace Clause

/-- Whether the clause is a choice. -/
def isChoice : Clause → Bool
  | .anyOf _ => true
  | _ => false

/-- The queries that a clause is made of. -/
def inner : Clause → List Query
  | .nested _ q => [q]
  | .anyOf qs => qs
  | _ => []

/-- No key is an operator. -/
def Plain (c : Clause) : Prop := c.isChoice = false → Query.isOperator c.name = false

/-- Every clause can be read. -/
def Legible : Clause → Prop
  | .equals key value => Query.IsEntry key value
  | .nested _ q => ∀ c ∈ q, c.isChoice = false
  | _ => True

/-- Every clause is read as itself. -/
def Simple : Clause → Prop
  | .equals _ value => value.isObject = false
  | .nested _ q => ∀ c ∈ q, c.isChoice = false
  | _ => True

end Clause

mutual

/-- What is left of a clause in its notation. -/
def Clause.lasting : Clause → Clause
  | .equals key value => .equals key value
  | .oneOf key values => .oneOf key values
  | .nested key q => .nested key ((Table.ofEntries (Query.named q)).map Prod.snd)
  | .anyOf qs => .anyOf (Query.lastings qs)

/-- Clauses under their names, as they are left in the notation. -/
def Query.named : List Clause → List (String × Clause)
  | [] => []
  | c :: rest => (c.name, c.lasting) :: Query.named rest

/-- What is left of several queries. -/
def Query.lastings : List (List Clause) → List Query
  | [] => []
  | q :: rest => (Table.ofEntries (Query.named q)).map Prod.snd :: Query.lastings rest

end

namespace Query

open Outcome

/-- Of clauses with one name the last, at the place of the first. -/
def lasting (q : Query) : Query := (Table.ofEntries (named q)).map Prod.snd

/-! ## Queries within a query

A condition that is asked throughout a query is asked of the query and of all that its clauses are
made of. Induction goes the same way (`inner_induction`). -/

/-- A query is within itself, and within a query are those within what its clauses are made of. -/
inductive Within : Query → Query → Prop where
  | self (q : Query) : Within q q
  | inner {c : Clause} {r s q : Query} : c ∈ q → s ∈ c.inner → Within r s → Within r q

/-- The query and all queries within it are as `p` says. -/
def Throughout (p : Query → Prop) (q : Query) : Prop := ∀ r, Within r q → p r

def Plain : Query → Prop := Throughout fun r => ∀ c ∈ r, c.Plain

def Legible : Query → Prop := Throughout fun r => ∀ c ∈ r, c.Legible

def Simple : Query → Prop := Throughout fun r => ∀ c ∈ r, c.Simple

/-- No two clauses of a query have one name. -/
def Single : Query → Prop := Throughout fun r => (r.map Clause.name).Nodup

/-- Clauses with one name are the same. -/
def Agreeing : Query → Prop := Throughout fun r => ∀ c ∈ r, ∀ c' ∈ r, c.name = c'.name → c = c'

/-- What the clauses of a query are made of is throughout as `p` says. -/
def Inside (p : Query → Prop) (q : Query) : Prop := ∀ c ∈ q, ∀ s ∈ c.inner, Throughout p s

/-- A query is throughout as `p` says if it is so itself, and so are the queries that its clauses
are made of. -/
theorem throughout_iff {p : Query → Prop} {q : Query} : Throughout p q ↔ p q ∧ Inside p q := by
  constructor
  · exact fun h => ⟨h q (.self q), fun c hc s hs r hr => h r (.inner hc hs hr)⟩
  · rintro ⟨hq, hinside⟩ r (_ | ⟨hc, hs, hr⟩)
    · exact hq
    · exact hinside _ hc _ hs r hr

@[simp] theorem inside_nil {p : Query → Prop} : Inside p [] := fun _ h => nomatch h

@[simp] theorem inside_cons {p : Query → Prop} {c : Clause} {q : Query} :
    Inside p (c :: q) ↔ (∀ s ∈ c.inner, Throughout p s) ∧ Inside p q := List.forall_mem_cons

/-- What a clause is made of is smaller than the clause. -/
theorem sizeOf_inner_lt {c : Clause} {s : Query} (h : s ∈ c.inner) : sizeOf s < sizeOf c := by
  cases c with
  | nested key q =>
    obtain rfl := List.mem_singleton.1 h
    simp only [Clause.nested.sizeOf_spec]
    omega
  | anyOf qs =>
    have hlt : sizeOf s < sizeOf qs := List.sizeOf_lt_of_mem h
    simp only [Clause.anyOf.sizeOf_spec]
    omega
  | _ => cases h

/-- What holds of a query if it holds of all that its clauses are made of holds of every query. -/
theorem inner_induction {P : Query → Prop} (h : ∀ q, (∀ c ∈ q, ∀ s ∈ c.inner, P s) → P q)
    (q : Query) : P q :=
  h q fun _ hc s hs =>
    have : sizeOf s < sizeOf q := Nat.lt_trans (sizeOf_inner_lt hs) (List.sizeOf_lt_of_mem hc)
    inner_induction h s
termination_by sizeOf q

/-! ## The lasting clauses

What lasts is found from the inside out: first within each clause, and then among the clauses. No
clause changes its name by it. -/

/-- Each clause is taken with its name. -/
theorem named_eq_map (q : Query) : named q = q.map fun c => (c.name, c.lasting) := by
  induction q with
  | nil => rfl
  | cons c q ih => rw [named, ih, List.map_cons]

/-- Each query is taken on its own. -/
theorem lastings_eq_map (qs : List Query) : lastings qs = qs.map lasting := by
  induction qs with
  | nil => rfl
  | cons q qs ih => rw [lastings, ih, List.map_cons, lasting]

/-- A clause keeps its name. -/
@[simp] theorem name_lasting (c : Clause) : c.lasting.name = c.name := by
  cases c <;> simp only [Clause.lasting, Clause.name, clauseEntry]

/-- A choice stays one. -/
@[simp] theorem isChoice_lasting (c : Clause) : c.lasting.isChoice = c.isChoice := by
  cases c <;> simp only [Clause.lasting, Clause.isChoice]

/-- What a clause is made of is left as it is in its notation. -/
theorem inner_lasting (c : Clause) : c.lasting.inner = c.inner.map lasting := by
  cases c with
  | nested key q => simp only [Clause.lasting, Clause.inner, List.map_singleton, lasting]
  | anyOf qs => simp only [Clause.lasting, Clause.inner, lastings_eq_map]
  | _ => simp only [Clause.lasting, Clause.inner, List.map_nil]

theorem mem_ofEntries_named {q : Query} {e : String × Clause}
    (h : e ∈ Table.ofEntries (named q)) : ∃ c ∈ q, (c.name, c.lasting) = e := by
  have hnamed := Table.mem_ofEntries h
  rwa [named_eq_map, List.mem_map] at hnamed

/-- Whatever lasts is left of some clause. -/
theorem mem_lasting {q : Query} {c : Clause} (h : c ∈ q.lasting) : ∃ c' ∈ q, c'.lasting = c := by
  obtain ⟨e, he, rfl⟩ := List.mem_map.1 h
  obtain ⟨c', hc', rfl⟩ := mem_ofEntries_named he
  exact ⟨c', hc', rfl⟩

/-- Every name is there once, at its first place. -/
theorem names_lasting (q : Query) :
    q.lasting.map Clause.name = Table.keys (Table.ofEntries (named q)) := by
  rw [lasting, List.map_map]
  refine List.map_congr_left fun e he => ?_
  obtain ⟨c, -, rfl⟩ := mem_ofEntries_named he
  exact name_lasting c

/-- A condition that is kept by one query, when it is put in the form of its notation, is kept
throughout. -/
theorem throughout_lasting {p p' : Query → Prop} (hp : ∀ q, p q → p' q.lasting) {q : Query}
    (h : Throughout p q) : Throughout p' q.lasting := by
  induction q using inner_induction with
  | h q ih =>
    obtain ⟨hq, hinside⟩ := throughout_iff.1 h
    refine throughout_iff.2 ⟨hp q hq, fun c hc s hs => ?_⟩
    obtain ⟨c', hc', rfl⟩ := mem_lasting hc
    rw [inner_lasting] at hs
    obtain ⟨s', hs', rfl⟩ := List.mem_map.1 hs
    exact ih c' hc' s' hs' (hinside c' hc' s' hs')

/-- In the notation no two clauses have one name. -/
theorem single_lasting (q : Query) : q.lasting.Single :=
  throughout_lasting (p := fun _ => True)
    (fun q _ => names_lasting q ▸ Table.nodup_keys_ofEntries _) fun _ _ => trivial

/-- No key becomes an operator. -/
theorem Plain.lasting {q : Query} (h : q.Plain) : q.lasting.Plain := by
  refine throughout_lasting (fun q hq c hc => ?_) h
  obtain ⟨c', hc', rfl⟩ := mem_lasting hc
  simpa only [Clause.Plain, name_lasting, isChoice_lasting] using hq c' hc'

/-- What can be read as itself still can. -/
theorem Simple.lasting {q : Query} (h : q.Simple) : q.lasting.Simple := by
  refine throughout_lasting (fun q hq c hc => ?_) h
  obtain ⟨c', hc', rfl⟩ := mem_lasting hc
  have hsimple := hq c' hc'
  cases c' with
  | nested key s =>
    intro c hc
    obtain ⟨c', hc', rfl⟩ := mem_lasting hc
    rw [isChoice_lasting]
    exact hsimple c' hc'
  | anyOf qs => trivial
  | _ => exact hsimple

/-! ### Their notation

A member that is written over by a later one leaves no trace, so it does not matter whether clauses
are dropped before they are written. -/

/-- A query is written clause by clause. -/
theorem toJson_eq_entries (q : Query) : q.toJson = .obj (Table.ofEntries (q.map clauseEntry)) := by
  rw [toJson, entries_eq_map]

/-- A clause is written as what lasts of it, if the queries that it is made of are. -/
theorem clauseEntry_lasting {c : Clause} (h : ∀ s ∈ c.inner, s.lasting.toJson = s.toJson) :
    clauseEntry c.lasting = clauseEntry c := by
  cases c with
  | nested key q => exact congrArg (Prod.mk key) (h q List.mem_cons_self)
  | anyOf qs =>
    rw [Clause.lasting, clauseEntry, clauseEntry, notations_eq_map, notations_eq_map,
      lastings_eq_map, List.map_map]
    exact congrArg (fun items => ("$or", Json.arr items)) (List.map_congr_left h)
  | _ => rfl

/-- The notation of a query is the notation of its lasting clauses. -/
theorem toJson_lasting (q : Query) : q.lasting.toJson = q.toJson := by
  induction q using inner_induction with
  | h q ih =>
    have hentries : q.map clauseEntry = (named q).map fun e => (e.1, (clauseEntry e.2).2) := by
      rw [named_eq_map, List.map_map]
      refine List.map_congr_left fun c hc => ?_
      rw [Function.comp_apply, clauseEntry_lasting (ih c hc)]
      rfl
    have hlasting : q.lasting.map clauseEntry = Table.ofEntries (q.map clauseEntry) := by
      rw [hentries, Table.ofEntries_map (fun c => (clauseEntry c).2), lasting, List.map_map]
      refine List.map_congr_left fun e he => ?_
      obtain ⟨c, -, rfl⟩ := mem_ofEntries_named he
      exact Prod.ext (name_lasting c) rfl
    rw [toJson_eq_entries, toJson_eq_entries, hlasting,
      Table.ofEntries_eq_self (Table.nodup_keys_ofEntries _)]

/-! ### What they say

A query asks for all of its clauses, so it holds for no more documents than what lasts of it. -/

/-- What is left of a clause holds where the clause does, if this is so of the queries within. -/
theorem clauseHolds_lasting {c : Clause} {doc : Json}
    (h : ∀ s ∈ c.inner, ∀ doc, s.holds doc = true → s.lasting.holds doc = true)
    (hc : clauseHolds c doc = true) : clauseHolds c.lasting doc = true := by
  cases c with
  | nested key q =>
    obtain ⟨field, hfield, hobj, hq⟩ := clauseHolds_nested_iff.1 hc
    exact clauseHolds_nested_iff.2 ⟨field, hfield, hobj, h q List.mem_cons_self field hq⟩
  | anyOf qs =>
    obtain ⟨q, hq, hholds⟩ := clauseHolds_anyOf_iff.1 hc
    rw [Clause.lasting, lastings_eq_map]
    exact clauseHolds_anyOf_iff.2 ⟨q.lasting, List.mem_map_of_mem hq, h q hq doc hholds⟩
  | _ => exact hc

/-- The clause holds where what is left of it does, if this is so of the queries within. -/
theorem clauseHolds_of_lasting {c : Clause} {doc : Json}
    (h : ∀ s ∈ c.inner, ∀ doc, s.lasting.holds doc = true → s.holds doc = true)
    (hc : clauseHolds c.lasting doc = true) : clauseHolds c doc = true := by
  cases c with
  | nested key q =>
    obtain ⟨field, hfield, hobj, hq⟩ := clauseHolds_nested_iff.1 hc
    exact clauseHolds_nested_iff.2 ⟨field, hfield, hobj, h q List.mem_cons_self field hq⟩
  | anyOf qs =>
    rw [Clause.lasting, lastings_eq_map] at hc
    obtain ⟨s, hs, hholds⟩ := clauseHolds_anyOf_iff.1 hc
    obtain ⟨q, hq, rfl⟩ := List.mem_map.1 hs
    exact clauseHolds_anyOf_iff.2 ⟨q, hq, h q hq doc hholds⟩
  | _ => exact hc

/-- Clauses are only lost. -/
theorem holds_lasting (q : Query) :
    ∀ doc, q.holds doc = true → q.lasting.holds doc = true := by
  induction q using inner_induction with
  | h q ih =>
    intro doc hq
    refine holds_iff.2 fun c hc => ?_
    obtain ⟨c', hc', rfl⟩ := mem_lasting hc
    exact clauseHolds_lasting (ih c' hc') (holds_iff.1 hq c' hc')

/-- Where clauses with one name are the same, each of them lasts. -/
theorem lasting_mem_lasting {q : Query} (h : ∀ c ∈ q, ∀ c' ∈ q, c.name = c'.name → c = c')
    {c : Clause} (hc : c ∈ q) : c.lasting ∈ q.lasting := by
  have hone : ∀ k a a', (k, a) ∈ named q → (k, a') ∈ named q → a = a' := by
    rw [named_eq_map]
    intro k a a' ha ha'
    obtain ⟨c₁, hc₁, heq₁⟩ := List.mem_map.1 ha
    obtain ⟨c₂, hc₂, heq₂⟩ := List.mem_map.1 ha'
    cases heq₁
    obtain ⟨hname, rfl⟩ := Prod.mk.inj heq₂
    rw [h c₂ hc₂ c₁ hc₁ hname]
  have hmem : (c.name, c.lasting) ∈ named q := by
    rw [named_eq_map]
    exact List.mem_map_of_mem hc
  exact List.mem_map_of_mem (Table.mem_of_at? ((Table.at?_ofEntries_iff hone).2 hmem))

/-- Where clauses with one name are the same, none is lost. -/
theorem holds_of_lasting {q : Query} (h : q.Agreeing) :
    ∀ doc, q.lasting.holds doc = true → q.holds doc = true := by
  induction q using inner_induction with
  | h q ih =>
    obtain ⟨hq, hinside⟩ := throughout_iff.1 h
    intro doc hholds
    refine holds_iff.2 fun c hc => ?_
    exact clauseHolds_of_lasting (fun s hs => ih c hc s hs (hinside c hc s hs))
      (holds_iff.1 hholds _ (lasting_mem_lasting hq hc))

/-! ## Reading what was written

For each kind of clause it is looked up what the reader makes of its notation. The two main lemmas
differ in what is asked: whether it is read as itself, and whether it is read at all. -/

/-- The names in the notation are those of the clauses. -/
theorem mem_keys_written {q : Query} {key : String} :
    key ∈ Table.keys (Table.ofEntries (q.map clauseEntry)) ↔ ∃ c ∈ q, c.name = key := by
  rw [Table.keys_ofEntries, List.mem_eraseDups, List.map_map, List.mem_map]
  rfl

/-- A choice stands under `$or`. -/
theorem name_eq_or {c : Clause} (h : c.isChoice = true) : c.name = "$or" := by
  cases c with
  | anyOf qs => rfl
  | _ => cases h

/-- Of the clauses of a query only the choices stand under an operator. -/
theorem isOperator_written {q : Query} (hp : ∀ c ∈ q, c.Plain) :
    (∀ m ∈ Table.ofEntries (q.map clauseEntry), isOperator m.1 = false) ↔
      ∀ c ∈ q, c.isChoice = false := by
  constructor
  · intro h c hc
    by_contra hchoice
    rw [Bool.not_eq_false] at hchoice
    obtain ⟨j, hm⟩ := Table.mem_keys.1 (mem_keys_written.2 ⟨c, hc, name_eq_or hchoice⟩)
    cases (h _ hm).symm.trans isOperator_or
  · rintro h ⟨key, j⟩ hm
    obtain ⟨c, hc, rfl⟩ := mem_keys_written.1 (Table.mem_keys.2 ⟨j, hm⟩)
    exact hp c hc (h c hc)

section Nested

variable {key : String} {q : Query} (hkey : isOperator key = false) (hp : ∀ c ∈ q, c.Plain)
include hkey hp

/-- Without a choice in it, a nested query is read as one. -/
theorem clauseOf_nested (h : ∀ c ∈ q, c.isChoice = false) :
    clauseOf key q.toJson = (ofJson q.toJson).map (.nested key) := by
  rw [clauseOf_key hkey, toJson_eq_entries, condition_nested ((isOperator_written hp).2 h), ofJson]

/-- Under a key a choice is taken for an unknown operator. -/
theorem clauseOf_nested_choice (h : ¬ ∀ c ∈ q, c.isChoice = false) (c : Clause) :
    clauseOf key q.toJson ≠ .ok c := by
  rw [clauseOf_key hkey, toJson_eq_entries]
  obtain ⟨values, hin⟩ | ⟨e, he, -⟩ := condition_operator (mt (isOperator_written hp).1 h) key
  · obtain ⟨c', hc', hchoice⟩ : ∃ c' ∈ q, c'.isChoice = true := by simpa using h
    have hor := mem_keys_written.2 ⟨c', hc', name_eq_or hchoice⟩
    rw [hin] at hor
    simp at hor
  · rw [he]
    exact fun h => nomatch h

end Nested

/-- A choice is read query by query. -/
theorem clauseOf_anyOf (qs : List Query) :
    clauseOf "$or" (.arr (qs.map toJson)) = ((qs.map toJson).mapM ofJson).map .anyOf := by
  rw [clauseOf, if_pos rfl, alternatives_arr, ofItems_eq_mapM]

/-- An operand that is an object is never read as an operand. -/
theorem condition_eq_equals_iff {key : String} {j : Json} :
    condition key j = .ok (.equals key j) ↔ j.isObject = false := by
  cases j with
  | obj ms =>
    refine ⟨fun h => ?_, fun h => nomatch h⟩
    by_cases hms : ∀ m ∈ ms, isOperator m.1 = false
    · rw [condition_nested hms, map_eq_ok_iff] at h
      obtain ⟨q, -, heq⟩ := h
      cases heq
    · obtain ⟨values, rfl⟩ | ⟨e, he, -⟩ := condition_operator hms key
      · rw [condition_oneOf] at h
        cases h
      · rw [he] at h
        cases h
  | _ => exact iff_of_true rfl rfl

section Clause

variable {c : Clause} (hp : c.Plain) (hinner : ∀ s ∈ c.inner, ∀ c' ∈ s, c'.Plain)
include hp hinner

/-- The clause is read back just if it is simple and the queries that it is made of are. -/
theorem clauseOf_clauseEntry_eq : clauseOf (clauseEntry c).1 (clauseEntry c).2 = .ok c ↔
    c.Simple ∧ ∀ s ∈ c.inner, ofJson s.toJson = .ok s := by
  cases c with
  | equals key value =>
    have hkey : isOperator key = false := hp rfl
    rw [clauseEntry, clauseOf_key hkey, condition_eq_equals_iff]
    simp [Clause.Simple, Clause.inner]
  | oneOf key values =>
    have hkey : isOperator key = false := hp rfl
    rw [clauseEntry, clauseOf_key hkey, condition_oneOf]
    simp [Clause.Simple, Clause.inner]
  | nested key q =>
    have hkey : isOperator key = false := hp rfl
    have hq := hinner q List.mem_cons_self
    show clauseOf key (toJson q) = _ ↔ (∀ c ∈ q, _) ∧ ∀ s ∈ [q], _
    rw [List.forall_mem_singleton]
    by_cases h : ∀ c ∈ q, c.isChoice = false
    · rw [clauseOf_nested hkey hq h, map_eq_ok_iff, and_iff_right h]
      constructor
      · rintro ⟨q', hq', heq⟩
        cases heq
        exact hq'
      · exact fun hok => ⟨q, hok, rfl⟩
    · exact iff_of_false (clauseOf_nested_choice hkey hq h _) fun hq' => h hq'.1
  | anyOf qs =>
    rw [clauseEntry, notations_eq_map, clauseOf_anyOf, map_eq_ok_iff]
    simp only [Clause.Simple, Clause.inner, true_and, mapM_eq_ok_iff, Clause.anyOf.injEq,
      exists_eq_right, List.forall₂_map_left_iff, List.forall₂_same]

/-- The clause is read, as itself or not, just if it is legible and the queries within it are. -/
theorem exists_clauseOf_clauseEntry :
    (∃ c', clauseOf (clauseEntry c).1 (clauseEntry c).2 = .ok c') ↔
      c.Legible ∧ ∀ s ∈ c.inner, ∃ r, ofJson s.toJson = .ok r := by
  cases c with
  | equals key value =>
    rw [clauseEntry, (understoodAt key value).accepted_iff]
    simp [Clause.Legible, Clause.inner]
  | oneOf key values =>
    have hkey : isOperator key = false := hp rfl
    rw [clauseEntry, clauseOf_key hkey, condition_oneOf]
    simp [Clause.Legible, Clause.inner]
  | nested key q =>
    have hkey : isOperator key = false := hp rfl
    have hq := hinner q List.mem_cons_self
    show (∃ c', clauseOf key (toJson q) = _) ↔ (∀ c ∈ q, _) ∧ ∀ s ∈ [q], _
    rw [List.forall_mem_singleton]
    by_cases h : ∀ c ∈ q, c.isChoice = false
    · rw [clauseOf_nested hkey hq h, and_iff_right h]
      simp only [map_eq_ok_iff]
      constructor
      · rintro ⟨c', q', hq', -⟩
        exact ⟨q', hq'⟩
      · rintro ⟨q', hq'⟩
        exact ⟨_, q', hq', rfl⟩
    · refine iff_of_false ?_ fun hq' => h hq'.1
      rintro ⟨c', hc'⟩
      exact clauseOf_nested_choice hkey hq h c' hc'
  | anyOf qs =>
    have hread : (∃ rs, (qs.map toJson).mapM ofJson = .ok rs) ↔
        ∀ s ∈ qs, ∃ r, ofJson (toJson s) = .ok r := by
      rw [exists_mapM_eq_ok_iff, List.forall_mem_map]
    show (∃ c', clauseOf "$or" (.arr (notations qs)) = _) ↔ True ∧ ∀ s ∈ qs, _
    rw [notations_eq_map, clauseOf_anyOf, true_and, ← hread]
    simp only [map_eq_ok_iff]
    constructor
    · rintro ⟨c', rs, hrs, -⟩
      exact ⟨rs, hrs⟩
    · rintro ⟨rs, hrs⟩
      exact ⟨_, rs, hrs, rfl⟩

end Clause

/-- Where every clause has a name of its own, none is lost. -/
theorem ofJson_written {q : Query} (h : (q.map Clause.name).Nodup) :
    ofJson q.toJson = (q.map clauseEntry).mapM fun m => clauseOf m.1 m.2 := by
  have hkeys : (Table.keys (q.map clauseEntry)).Nodup := by
    rw [Table.keys, List.map_map]
    exact h
  rw [toJson_eq_entries, Table.ofEntries_eq_self hkeys, ofJson_obj]

/-- With one clause of a name, a query is read back as itself just if it is simple. -/
theorem ofJson_toJson_eq_self_iff {q : Query} (hp : q.Plain) (hs : q.Single) :
    ofJson q.toJson = .ok q ↔ q.Simple := by
  induction q using inner_induction with
  | h q ih =>
    obtain ⟨hpq, hpinside⟩ := throughout_iff.1 hp
    obtain ⟨hsq, hsinside⟩ := throughout_iff.1 hs
    rw [ofJson_written hsq, mapM_eq_ok_iff, List.forall₂_map_left_iff, List.forall₂_same, Simple,
      throughout_iff, Inside, ← forall₂_and]
    refine forall₂_congr fun c hc => ?_
    rw [clauseOf_clauseEntry_eq (hpq c hc) fun s hs => (throughout_iff.1 (hpinside c hc s hs)).1]
    exact and_congr_right fun _ => forall₂_congr fun s hs =>
      ih c hc s hs (hpinside c hc s hs) (hsinside c hc s hs)

/-- With one clause of a name, a query is read just if it is legible. -/
theorem exists_ofJson_toJson_iff {q : Query} (hp : q.Plain) (hs : q.Single) :
    (∃ r, ofJson q.toJson = .ok r) ↔ q.Legible := by
  induction q using inner_induction with
  | h q ih =>
    obtain ⟨hpq, hpinside⟩ := throughout_iff.1 hp
    obtain ⟨hsq, hsinside⟩ := throughout_iff.1 hs
    rw [ofJson_written hsq, exists_mapM_eq_ok_iff, List.forall_mem_map, Legible, throughout_iff,
      Inside, ← forall₂_and]
    refine forall₂_congr fun c hc => ?_
    rw [exists_clauseOf_clauseEntry (hpq c hc) fun s hs =>
      (throughout_iff.1 (hpinside c hc s hs)).1]
    exact and_congr_right fun _ => forall₂_congr fun s hs =>
      ih c hc s hs (hpinside c hc s hs) (hsinside c hc s hs)

/--
The notation of a query whose keys are no operators is read just if its lasting clauses are
legible. They are what is read, unless an operand is an object. They hold where the query does, and
nowhere else if clauses with one name are the same.
-/
theorem written_reads {q : Query} (h : q.Plain) :
    ((∃ r, ofJson q.toJson = .ok r) ↔ q.lasting.Legible) ∧
    (ofJson q.toJson = .ok q.lasting ↔ q.lasting.Simple) ∧
    (∀ doc, q.holds doc = true → q.lasting.holds doc = true) ∧
    (q.Agreeing → ∀ doc, q.lasting.holds doc = q.holds doc) := by
  have hread := exists_ofJson_toJson_iff h.lasting (single_lasting q)
  have hself := ofJson_toJson_eq_self_iff h.lasting (single_lasting q)
  rw [toJson_lasting] at hread hself
  refine ⟨hread, hself, holds_lasting q, fun hagreeing doc => ?_⟩
  rw [Bool.eq_iff_iff]
  exact ⟨holds_of_lasting hagreeing doc, holds_lasting q doc⟩

/-- One clause stands twice, beside a nested query and a choice. -/
def twofold : Query :=
  [.equals "id" (.str "a"), .nested "slots" [.oneOf "x" [.int 1, .null]], .equals "id" (.str "a"),
    .anyOf [[.equals "kind" (.str "object")], []]]

/-- The clause that stands twice lasts once. -/
theorem written_reads_twofold : twofold.Plain ∧ twofold.Agreeing ∧ twofold.lasting.Simple ∧
    ofJson twofold.toJson = .ok twofold.lasting ∧
      ∀ doc, twofold.lasting.holds doc = twofold.holds doc := by
  have hplain : twofold.Plain := by
    simp [Plain, throughout_iff, twofold, Clause.inner, Clause.Plain, Clause.isChoice, Clause.name,
      clauseEntry, isOperator]
  have hagreeing : twofold.Agreeing := by
    simp [Agreeing, throughout_iff, twofold, Clause.inner, Clause.name, clauseEntry]
  have hsimple : twofold.lasting.Simple := by
    refine Simple.lasting ?_
    simp [Simple, throughout_iff, twofold, Clause.inner, Clause.Simple, Clause.isChoice,
      Json.isObject]
  have h := written_reads hplain
  exact ⟨hplain, hagreeing, hsimple, h.2.1.2 hsimple, h.2.2.2 hagreeing⟩

/-- Two conditions on what stands under one key. -/
def divided : Query :=
  [.nested "slots" [.equals "x" (.int 1)], .nested "slots" [.equals "y" (.int 1)]]

/-- The member is to be this object, without any other members. -/
def exactly : Query := [.equals "slots" (.obj [("x", .int 1)])]

/-- A choice for what stands under a key. -/
def offered : Query := [.nested "slots" [.anyOf [[.equals "x" (.int 1)], [.equals "y" (.int 1)]]]]

/-- What is read need not be what was written, and may not be read at all. -/
theorem written_astray :
    (divided.Plain ∧ ∃ r doc, ofJson divided.toJson = .ok r ∧ r.holds doc = true ∧
      divided.holds doc = false) ∧
    (exactly.Plain ∧ ∃ r doc, ofJson exactly.toJson = .ok r ∧ r.holds doc = true ∧
      exactly.holds doc = false) ∧
    (offered.Plain ∧ ofJson offered.toJson = .error (.unsupportedOperator "$or")) := by
  refine ⟨⟨?_, [.nested "slots" [.equals "y" (.int 1)]], .obj [("slots", .obj [("y", .int 1)])],
      rfl, by decide, by decide⟩,
    ⟨?_, [.nested "slots" [.equals "x" (.int 1)]],
      .obj [("slots", .obj [("x", .int 1), ("y", .int 2)])], rfl, by decide, by decide⟩, ?_, rfl⟩
  · simp [Plain, throughout_iff, divided, Clause.inner, Clause.Plain, Clause.isChoice, Clause.name,
      clauseEntry, isOperator]
  · simp [Plain, throughout_iff, exactly, Clause.inner, Clause.Plain, Clause.isChoice, Clause.name,
      clauseEntry, isOperator]
  · simp [Plain, throughout_iff, offered, Clause.inner, Clause.Plain, Clause.isChoice, Clause.name,
      clauseEntry, isOperator]

end Query

end ObjectFlow
