import Mathlib.Data.Finset.Card
import Mathlib.Order.Lattice.Nat
import ObjectFlow.Ontology.Inheritance
import ObjectFlow.Proofs.Outcome

/-!
# Declared types and the way up

An ontology is built from its two roots by registering types (`Built`). The supertypes that types
declare lead upwards from a type, in a number of steps (`Ascends`); the least number is the
distance.

All of this is about declarations, without the walk that is made through them. An ontology to which
types are added one by one may refer to types that it lacks, and its types may lead round in a
circle. What a statement needs of the two is asked of it by name: `Closed` for the one and `Acyclic`
for the other.
-/

namespace ObjectFlow

/-- The two roots have different names. -/
theorem RootKind.label_injective : Function.Injective RootKind.label := by
  intro a b h
  cases a <;> cases b
  · rfl
  · exact absurd h (by decide)
  · exact absurd h (by decide)
  · rfl

namespace Ontology

open Outcome

variable {o o' : Ontology} {s t u : String} {m n : Nat}

/-! ## Types by name

Types are looked up by name, the first of a name counts, and in the ontologies at hand there is no
second. -/

/-- A type that is found has the name it was looked for by. -/
theorem name_of_type? {T : OntologyType} (h : o.type? s = some T) : T.name = s :=
  of_decide_eq_true (List.find?_some (p := fun t : OntologyType => decide (t.name = s)) h)

theorem mem_types_of_type? {T : OntologyType} (h : o.type? s = some T) : T ∈ o.types :=
  List.mem_of_find?_eq_some h

/-- No type is found where no type has the name. -/
theorem type?_eq_none_iff : o.type? s = none ↔ s ∉ o.names := by
  simp [type?, names, List.find?_eq_none]

/-- A name of the ontology is that of some type. -/
theorem mem_names_iff : s ∈ o.names ↔ ∃ T, o.type? s = some T := by
  rw [← Option.isSome_iff_exists, ← Option.ne_none_iff_isSome, ne_eq, type?_eq_none_iff, not_not]

theorem mem_names_of_type? {T : OntologyType} (h : o.type? s = some T) : s ∈ o.names :=
  mem_names_iff.2 ⟨T, h⟩

/-! ## Building an ontology

A type of the same name is replaced at its place, which only happens to the roots. So names stay
distinct, and once there they stay. -/

/-- The ontologies that come about by adding to the two roots. -/
inductive Built : Ontology → Prop
  | roots : Built roots
  | register {o o' : Ontology} {t : OntologyType} : Built o → o.register t = .ok o' → Built o'
  | setValueType {o : Ontology} (kind : ValueKind) (name : String) :
    Built o → Built (o.setValueType kind name)

/-- Replacing a type changes no names, and adding one appends its name. -/
theorem names_replace (t : OntologyType) (ts : List OntologyType) :
    (replace t ts).map OntologyType.name =
      if t.name ∈ ts.map OntologyType.name then ts.map OntologyType.name
      else ts.map OntologyType.name ++ [t.name] := by
  induction ts with
  | nil => rfl
  | cons t' ts ih =>
    rw [replace]
    by_cases h : t'.name = t.name
    · simp [h]
    · rw [if_neg h, List.map_cons, ih]
      by_cases hm : t.name ∈ ts.map OntologyType.name <;> simp [hm, Ne.symm h]

/-- A type that may be registered is put in its place. -/
theorem register_eq_ok {t : OntologyType} (h : o.register t = .ok o') :
    o' = { o with types := replace t o.types } := by
  unfold register at h
  split at h
  · cases h
  · exact (Except.ok.inj h).symm

theorem names_register {t : OntologyType} (h : o.register t = .ok o') :
    o'.names = if t.name ∈ o.names then o.names else o.names ++ [t.name] := by
  rw [register_eq_ok h]
  exact names_replace t o.types

/-- No two types have one name. -/
theorem Built.names_nodup (h : o.Built) : o.names.Nodup := by
  induction h with
  | roots => decide
  | register _ hr ih =>
    rw [names_register hr]
    split
    · exact ih
    · rename_i hn
      exact ih.append (List.nodup_singleton _) (by simpa using hn)
  | setValueType _ _ _ ih => exact ih

/-- The roots are there from the beginning. -/
theorem Built.root_mem (h : o.Built) (kind : RootKind) : kind.label ∈ o.names := by
  induction h with
  | roots => cases kind <;> decide
  | register _ hr ih =>
    rw [names_register hr]
    split
    · exact ih
    · exact List.mem_append_left _ ih
  | setValueType _ _ _ ih => exact ih

/-! ## Ontologies that are declared as a whole

Here the references are checked at the end, when all types are known, so that types may be declared
in any order. -/

/-- Registering one type after the other builds an ontology. -/
theorem Built.foldlM_register {ts : List OntologyType} (h : o.Built)
    (hf : ts.foldlM Ontology.register o = .ok o') : o'.Built := by
  induction ts generalizing o with
  | nil =>
    cases hf
    exact h
  | cons t ts ih =>
    obtain ⟨o₁, h₁, hf⟩ := bind_eq_ok_iff.1 hf
    exact ih (h.register h₁) hf

/-- Naming the types of values leaves an ontology built. -/
theorem Built.foldl_setValueType (h : o.Built) (vs : List (ValueKind × String)) :
    (vs.foldl (fun o v => o.setValueType v.1 v.2) o).Built := by
  induction vs generalizing o with
  | nil => exact h
  | cons v vs ih => exact ih (h.setValueType v.1 v.2)

variable {types : List OntologyType} {valueTypes : List (ValueKind × String)}

/-- What is declared as a whole is built from its types, and refers to no type that it lacks. -/
theorem declare_eq_ok (h : declare types valueTypes = .ok o) :
    o.Built ∧ o.undeclared? = none := by
  obtain ⟨o₁, h₁, h⟩ := bind_eq_ok_iff.1 h
  dsimp only at h
  split at h
  · cases h
  · rename_i hnone
    cases h
    exact ⟨(Built.roots.foldlM_register h₁).foldl_setValueType valueTypes, hnone⟩

/-! ## The way up

The way up is the reflexive and transitive closure of what types declare, with the number of steps
kept. A number is kept because the order of the supertypes goes by it. -/

/-- The one type declares the other as a supertype of its own. -/
def Extends (o : Ontology) (s t : String) : Prop := ∃ T, o.type? s = some T ∧ t ∈ T.supertypes

/-- So many declared supertypes lead from the one type up to the other. -/
inductive Ascends (o : Ontology) : Nat → String → String → Prop
  | refl (s : String) : Ascends o 0 s s
  | step {n : Nat} {s t u : String} : Ascends o n s t → o.Extends t u → Ascends o (n + 1) s u

/-- Declared supertypes lead from the one type up to the other, or it is the same. -/
def Reaches (o : Ontology) (s t : String) : Prop := ∃ n, o.Ascends n s t

/-- The least number of declared supertypes that lead from the one type up to the other. -/
noncomputable def distance (o : Ontology) (s t : String) : Nat := sInf {n | o.Ascends n s t}

/-- No type is among its own proper supertypes. -/
def Acyclic (o : Ontology) : Prop := ∀ n s, o.Ascends n s s → n = 0

/-- All supertypes that types declare are types. -/
def Closed (o : Ontology) : Prop := ∀ s t, o.Extends s t → t ∈ o.names

/-- Ways up are joined to longer ones. -/
theorem Ascends.trans (h : o.Ascends m s t) (h' : o.Ascends n t u) : o.Ascends (m + n) s u := by
  induction h' with
  | refl => exact h
  | step _ he ih => exact .step (ih h) he

theorem Ascends.eq_of_zero (h : o.Ascends 0 s t) : t = s := by
  cases h
  rfl

theorem Reaches.refl (o : Ontology) (s : String) : o.Reaches s s := ⟨0, .refl s⟩

theorem Reaches.trans (h : o.Reaches s t) (h' : o.Reaches t u) : o.Reaches s u :=
  ⟨_, h.choose_spec.trans h'.choose_spec⟩

theorem Reaches.step (h : o.Reaches s t) (he : o.Extends t u) : o.Reaches s u :=
  ⟨_, .step h.choose_spec he⟩

theorem Extends.reaches (h : o.Extends s t) : o.Reaches s t := (Reaches.refl o s).step h

/-- In a closed ontology nothing but types is reached from a type. -/
theorem Closed.mem_names (hc : o.Closed) (hs : s ∈ o.names) (h : o.Reaches s t) : t ∈ o.names := by
  obtain ⟨n, h⟩ := h
  cases h with
  | refl => exact hs
  | step _ he => exact hc _ _ he

/-- No way up is shorter than the distance. -/
theorem Ascends.distance_le (h : o.Ascends n s t) : o.distance s t ≤ n := Nat.sInf_le h

/-- Some way up is as short as the distance. -/
theorem Reaches.ascends (h : o.Reaches s t) : o.Ascends (o.distance s t) s t := Nat.sInf_mem h

/-- An ontology that is declared as a whole is closed. -/
theorem declare_closed (h : declare types valueTypes = .ok o) : o.Closed := by
  rintro s t ⟨T, hT, ht⟩
  by_contra hn
  have hnone := List.findSome?_eq_none_iff.1 (declare_eq_ok h).2 T (mem_types_of_type? hT)
  have hfound := List.find?_eq_none.1 hnone t (List.mem_append_left _ ht)
  exact hfound (by rw [type?_eq_none_iff.2 hn]; rfl)

/-- Two types that reach each other are the same where no type is above itself. -/
theorem Acyclic.antisymm (ha : o.Acyclic) (h : o.Reaches s t) (h' : o.Reaches t s) : s = t := by
  obtain ⟨m, hm⟩ := h
  obtain ⟨n, hn⟩ := h'
  obtain rfl : m = 0 := by
    have := ha _ _ (hm.trans hn)
    omega
  exact hm.eq_of_zero.symm

/-- A type that declares no supertype and descends from a root of this kind. -/
def IsTop (o : Ontology) (kind : RootKind) (s : String) : Prop :=
  ∃ T, o.type? s = some T ∧ T.supertypes = [] ∧ T.root = kind

/--
Going up ends at a type that declares no supertype: on the way up there are fewer and fewer types
left to reach.
-/
theorem Acyclic.exists_isTop (ha : o.Acyclic) (hc : o.Closed) (hs : s ∈ o.names) :
    ∃ t kind, o.Reaches s t ∧ o.IsTop kind t := by
  classical
  obtain ⟨above, habove⟩ :
      ∃ above : String → Finset String, ∀ a b, b ∈ above a ↔ b ∈ o.names ∧ o.Reaches a b :=
    ⟨fun a => o.names.toFinset.filter (o.Reaches a), fun a b => by simp⟩
  induction hk : (above s).card using Nat.strong_induction_on generalizing s with
  | _ k ih =>
    obtain ⟨T, hT⟩ := mem_names_iff.1 hs
    cases hsup : T.supertypes with
    | nil => exact ⟨s, T.root, .refl o s, T, hT, hsup, rfl⟩
    | cons t rest =>
      have he : o.Extends s t := ⟨T, hT, hsup ▸ List.mem_cons_self⟩
      have hsub : above t ⊂ above s := by
        refine Finset.ssubset_iff_subset_ne.2 ⟨fun b hb => ?_, fun heq => ?_⟩
        · rw [habove] at hb ⊢
          exact ⟨hb.1, he.reaches.trans hb.2⟩
        · have hback := ((habove t s).1 (heq ▸ (habove s s).2 ⟨hs, .refl o s⟩)).2
          obtain ⟨n, hn⟩ := hback
          have := ha _ _ (hn.step he)
          omega
      obtain ⟨top, kind, hreach, htop⟩ :=
        ih _ (hk ▸ Finset.card_lt_card hsub) (hc s t he) rfl
      exact ⟨top, kind, he.reaches.trans hreach, htop⟩

end Ontology

end ObjectFlow
