import ObjectFlow.Proofs.Ontology.Inherited

/-!
# Subtypes as an order

A type is a subtype of whatever its declarations lead to and of the roots where they end
(`isSubtype_iff`). If the declarations do not lead round in a circle and the roots stay on top of
all others, subtypes are ordered (`isSubtype_order`).

Each of the two conditions is needed for its own part of the order. A type is below a root without
declaring it, and the root does not pass on what it extends itself; so subtypes of subtypes are
subtypes only if roots extend nothing. Two types that extend each other are subtypes of each other,
and no way up from them ends; so it takes the absence of circles for them to differ and to be below
a root. Neither condition is checked when an ontology is declared, and `isSubtype_disordered` shows
one without each of them.
-/

namespace ObjectFlow.Ontology

open Outcome

variable {o : Ontology} {s t u : String} {i : Inherited} {kind : RootKind}
  {types : List OntologyType} {valueTypes : List (ValueKind × String)}

/-! ## What a type is below

The relation is given by declarations alone. It agrees with looking up the supertypes because these
are lined up by the same declarations. -/

/-- The declarations of the one type lead to the other, or end below it where it is a root. -/
def Below (o : Ontology) (s t : String) : Prop :=
  o.Reaches s t ∨ ∃ kind u, RootKind.label kind = t ∧ o.Reaches s u ∧ o.IsTop kind u

/-- The roots declare no supertypes, and each of them descends from itself. -/
def RootsOnTop (o : Ontology) : Prop := ∀ kind : RootKind, o.IsTop kind kind.label

/-- The line of a type holds what the type is below. -/
theorem Lined.mem_iff_below {reached tops : List String} (hb : o.Built)
    (hl : o.Lined s reached tops) : t ∈ reached ++ tops ↔ o.Below s t := by
  rw [List.mem_append, hl.mem_reached_iff, hl.mem_tops_iff]
  constructor
  · rintro (h | ⟨-, -, h⟩)
    · exact .inl h
    · exact .inr h
  · rintro (h | ⟨kind, u, rfl, h⟩)
    · exact .inl h
    · by_cases hmem : kind.label ∈ reached
      · exact .inl ((hl.mem_reached_iff _).1 hmem)
      · exact .inr ⟨hmem, hb.root_mem kind, kind, u, rfl, h⟩

/-- The supertypes that are looked up are what the type is below. -/
theorem mem_supertypes_iff (hb : o.Built) (h : o.inherited s = .ok i) :
    t ∈ i.supertypes ↔ o.Below s t := by
  obtain ⟨-, -, reached, tops, heq, hl⟩ := inherited_eq_ok hb h
  rw [heq, hl.mem_iff_below hb]

/-- Where all declared supertypes are types, looking up what a type inherits does not fail. -/
theorem Closed.exists_inherited (hc : o.Closed) (hb : o.Built) (hs : s ∈ o.names) :
    ∃ i, o.inherited s = .ok i := by
  cases hi : o.inherited s with
  | ok i => exact ⟨i, rfl⟩
  | error e =>
    obtain ⟨t, ht, -⟩ := inherited_eq_error hb hi
    obtain ⟨hnot, hreach⟩ := misses_iff_reaches.1 ht
    exact absurd (hc.mem_names hs hreach) hnot

/-- A subtype is a type that is below the other one. -/
theorem isSubtype_iff (hb : o.Built) (hc : o.Closed) :
    o.isSubtype s t = true ↔ s ∈ o.names ∧ o.Below s t := by
  unfold isSubtype
  constructor
  · intro h
    split at h
    · rename_i i hi
      exact ⟨(inherited_eq_ok hb hi).1 s (.refl o s),
        (mem_supertypes_iff hb hi).1 (List.contains_iff_mem.1 h)⟩
    · cases h
  · rintro ⟨hs, h⟩
    obtain ⟨i, hi⟩ := hc.exists_inherited hb hs
    rw [hi]
    exact List.contains_iff_mem.2 ((mem_supertypes_iff hb hi).2 h)

/-! ## The order

Reflexivity is in the definition. For the rest it is enough to look at the roots, since what
declarations lead to is transitive anyway. -/

/-- What every declared supertype inherits is kept on the way up. -/
theorem Reaches.keeps {P : String → Prop} (hstep : ∀ t u, P t → o.Extends t u → P u)
    (h : o.Reaches s t) (hs : P s) : P t := by
  obtain ⟨n, h⟩ := h
  induction h with
  | refl => exact hs
  | step _ he ih => exact hstep _ _ (ih hs) he

/-- From a type that declares no supertype nothing but itself is reached. -/
theorem IsTop.eq_of_reaches (htop : o.IsTop kind s) (h : o.Reaches s t) : t = s := by
  refine h.keeps (P := (· = s)) ?_ rfl
  rintro _ u rfl ⟨T, hT, hmem⟩
  obtain ⟨T', hT', hnil, -⟩ := htop
  obtain rfl := Option.some.inj (hT.symm.trans hT')
  exact absurd hmem (by simp [hnil])

/-- A type has one root kind. -/
theorem IsTop.kind_eq {kind' : RootKind} (h : o.IsTop kind s) (h' : o.IsTop kind' s) :
    kind = kind' := by
  obtain ⟨T, hT, -, rfl⟩ := h
  obtain ⟨T', hT', -, rfl⟩ := h'
  exact congrArg _ (Option.some.inj (hT.symm.trans hT'))

/-- Nothing is above a root that stays on top. -/
theorem RootsOnTop.eq_of_below (hr : o.RootsOnTop) (h : o.Below kind.label t) : t = kind.label := by
  rcases h with h | ⟨kind', u, rfl, hu, htop⟩
  · exact (hr kind).eq_of_reaches h
  · rw [(hr kind).eq_of_reaches hu] at htop
    rw [htop.kind_eq (hr kind)]

/-- What is below something below a third is below the third. -/
theorem RootsOnTop.below_trans (hr : o.RootsOnTop) (h : o.Below s t) (h' : o.Below t u) :
    o.Below s u := by
  rcases h with h | ⟨kind, v, rfl, hv, htop⟩
  · rcases h' with h' | ⟨kind, v, rfl, hv, htop⟩
    · exact .inl (h.trans h')
    · exact .inr ⟨kind, v, rfl, h.trans hv, htop⟩
  · rw [hr.eq_of_below h']
    exact .inr ⟨kind, v, rfl, hv, htop⟩

/-- Without circles no two types are below each other. -/
theorem RootsOnTop.below_antisymm (hr : o.RootsOnTop) (ha : o.Acyclic) (h : o.Below s t)
    (h' : o.Below t s) : s = t := by
  rcases h with h | ⟨kind, v, rfl, -, -⟩
  · rcases h' with h' | ⟨kind, v, rfl, -, -⟩
    · exact ha.antisymm h h'
    · exact (hr.eq_of_below (.inl h)).symm
  · exact hr.eq_of_below h'

/-- The lower of two types is found from either side. -/
theorem mostSpecific_comm
    (hantisymm : o.isSubtype s t = true → o.isSubtype t s = true → s = t)
    (h : o.isSubtype s t = true ∨ o.isSubtype t s = true) :
    o.mostSpecific s t = o.mostSpecific t s := by
  unfold mostSpecific
  by_cases heq : s = t
  · rw [heq]
  · have hne : ¬ (o.isSubtype s t = true ∧ o.isSubtype t s = true) :=
      fun hboth => heq (hantisymm hboth.1 hboth.2)
    rw [if_neg heq, if_neg (Ne.symm heq)]
    rcases h with h | h
    · rw [if_pos h, if_neg fun h' => hne ⟨h, h'⟩, if_pos h]
    · rw [if_neg fun h' => hne ⟨h', h⟩, if_pos h, if_pos h]

/--
In an ontology that is declared as a whole every type is a subtype of itself. Subtypes of subtypes
are subtypes if the roots stay on top, every type is below a root if no type is above itself, and
with both no two types are subtypes of each other, so that the lower of two does not depend on their
order.
-/
theorem isSubtype_order (h : declare types valueTypes = .ok o) :
    (∀ s ∈ o.names, o.isSubtype s s = true) ∧
    (o.RootsOnTop → ∀ s t u,
      o.isSubtype s t = true → o.isSubtype t u = true → o.isSubtype s u = true) ∧
    (o.Acyclic → ∀ s ∈ o.names, ∃ kind : RootKind, o.isSubtype s kind.label = true) ∧
    (o.RootsOnTop → o.Acyclic →
      (∀ s t, o.isSubtype s t = true → o.isSubtype t s = true → s = t) ∧
      ∀ s t, o.isSubtype s t = true ∨ o.isSubtype t s = true →
        o.mostSpecific s t = o.mostSpecific t s) := by
  obtain ⟨hb, -⟩ := declare_eq_ok h
  have hc := declare_closed h
  have hiff : ∀ {s t}, o.isSubtype s t = true ↔ s ∈ o.names ∧ o.Below s t := isSubtype_iff hb hc
  refine ⟨fun s hs => hiff.2 ⟨hs, .inl (.refl o s)⟩, fun hr s t u hst htu => ?_,
    fun ha s hs => ?_, fun hr ha => ?_⟩
  · obtain ⟨hs, hst⟩ := hiff.1 hst
    exact hiff.2 ⟨hs, hr.below_trans hst (hiff.1 htu).2⟩
  · obtain ⟨t, kind, ht, htop⟩ := ha.exists_isTop hc hs
    exact ⟨kind, hiff.2 ⟨hs, .inr ⟨kind, t, rfl, ht, htop⟩⟩⟩
  · have hantisymm : ∀ s t, o.isSubtype s t = true → o.isSubtype t s = true → s = t :=
      fun s t hst hts => hr.below_antisymm ha (hiff.1 hst).2 (hiff.1 hts).2
    exact ⟨hantisymm, fun s t hst => mostSpecific_comm (hantisymm s t) hst⟩

/-- A rank that falls with every declared supertype rules out circles. -/
theorem acyclic_of_rank (rank : String → Nat)
    (h : ∀ T ∈ o.types, ∀ s ∈ T.supertypes, rank s < rank T.name) : o.Acyclic := by
  have hle : ∀ n s t, o.Ascends n s t → rank t + n ≤ rank s := by
    intro n s t hasc
    induction hasc with
    | refl => exact Nat.le_refl _
    | step _ he ih =>
      obtain ⟨T, hT, hmem⟩ := he
      have := h T (mem_types_of_type? hT) _ hmem
      rw [name_of_type? hT] at this
      omega
  intro n s hasc
  have := hle n s s hasc
  omega

/-- The first root, with an aspect. -/
def namedEntity : OntologyType := ⟨"entity", .entity, [], [⟨"name", "entity"⟩]⟩

/-- Two types below a third one, and one below both of them. -/
def diamond : List OntologyType :=
  [⟨"data", .entity, [], []⟩, ⟨"table", .entity, ["data"], []⟩, ⟨"model", .entity, ["data"], []⟩,
    ⟨"fit", .entity, ["table", "model"], []⟩]

/-- In the diamond the lower of two types does not depend on their order. -/
theorem isSubtype_order_diamond : ∃ o, declare (namedEntity :: diamond) [] = .ok o ∧
    o.RootsOnTop ∧ o.Acyclic ∧ o.isSubtype "fit" "data" = true ∧
    o.mostSpecific "fit" "data" = o.mostSpecific "data" "fit" := by
  have h : declare (namedEntity :: diamond) [] =
      .ok ⟨namedEntity :: rootType .action :: diamond, []⟩ := rfl
  have hr : RootsOnTop ⟨namedEntity :: rootType .action :: diamond, []⟩ := by
    intro kind
    cases kind with
    | entity => exact ⟨namedEntity, rfl, rfl, rfl⟩
    | action => exact ⟨rootType .action, rfl, rfl, rfl⟩
  have ha : Acyclic ⟨namedEntity :: rootType .action :: diamond, []⟩ := acyclic_of_rank
    (fun s => if s = "fit" then 2 else if s = "table" ∨ s = "model" then 1 else 0) (by decide)
  have hsub : isSubtype ⟨namedEntity :: rootType .action :: diamond, []⟩ "fit" "data" = true :=
    (isSubtype_iff (declare_eq_ok h).1 (declare_closed h)).2 ⟨by decide, .inl
      ((Extends.reaches (t := "table") ⟨_, rfl, by decide⟩).step ⟨_, rfl, by decide⟩)⟩
  exact ⟨_, h, hr, ha, hsub, ((isSubtype_order h).2.2.2 hr ha).2 _ _ (.inl hsub)⟩

/-- The first root, extending a type that descends from the other one. -/
def raisedEntity : OntologyType := ⟨"entity", .entity, ["deed"], []⟩

/-- One type below each root. -/
def pair : List OntologyType := [⟨"deed", .action, [], []⟩, ⟨"thing", .entity, [], []⟩]

/-- Two types extend each other. -/
def twins : List OntologyType :=
  [⟨"left", .entity, ["right"], []⟩, ⟨"right", .entity, ["left"], []⟩]

/-- From either of them the way leads round. -/
theorem eq_of_reaches_twins (h : (above twins).Reaches "left" s) : s = "left" ∨ s = "right" := by
  refine h.keeps (P := fun t => t = "left" ∨ t = "right") ?_ (.inl rfl)
  rintro t u (rfl | rfl) ⟨T, hT, hmem⟩ <;> cases hT
  · exact .inr (List.mem_singleton.1 hmem)
  · exact .inl (List.mem_singleton.1 hmem)

/--
If a root extends another type, subtypes of subtypes need not be subtypes; and two types that extend
each other are below no root, and the lower of them depends on their order.
-/
theorem isSubtype_disordered :
    (∃ o, declare (raisedEntity :: pair) [] = .ok o ∧ o.isSubtype "thing" "entity" = true ∧
      o.isSubtype "entity" "deed" = true ∧ o.isSubtype "thing" "deed" = false) ∧
    ∃ o, declare twins [] = .ok o ∧ o.isSubtype "left" "right" = true ∧
      o.isSubtype "right" "left" = true ∧ o.isSubtype "left" "entity" = false ∧
      o.isSubtype "left" "action" = false ∧
      o.mostSpecific "left" "right" ≠ o.mostSpecific "right" "left" := by
  constructor
  · have h : declare (raisedEntity :: pair) [] =
        .ok ⟨raisedEntity :: rootType .action :: pair, []⟩ := rfl
    have hiff := fun s t => isSubtype_iff (s := s) (t := t) (declare_eq_ok h).1 (declare_closed h)
    have htop : IsTop ⟨raisedEntity :: rootType .action :: pair, []⟩ .entity "thing" :=
      ⟨_, rfl, rfl, rfl⟩
    refine ⟨_, h, (hiff _ _).2 ⟨by decide, .inr ⟨.entity, "thing", rfl, .refl _ _, htop⟩⟩,
      (hiff _ _).2 ⟨by decide, .inl (Extends.reaches ⟨_, rfl, by decide⟩)⟩,
      Bool.eq_false_iff.2 fun hx => ?_⟩
    -- the type is a top itself, so that it is below its root only
    rcases ((hiff _ _).1 hx).2 with hreach | ⟨kind, u, hkind, -⟩
    · exact absurd (htop.eq_of_reaches hreach) (by decide)
    · cases kind <;> exact absurd hkind (by decide)
  · have h : declare twins [] = .ok (above twins) := rfl
    have hiff := fun s t => isSubtype_iff (s := s) (t := t) (declare_eq_ok h).1 (declare_closed h)
    have hleft : (above twins).isSubtype "left" "right" = true :=
      (hiff _ _).2 ⟨by decide, .inl (Extends.reaches ⟨_, rfl, by decide⟩)⟩
    have hright : (above twins).isSubtype "right" "left" = true :=
      (hiff _ _).2 ⟨by decide, .inl (Extends.reaches ⟨_, rfl, by decide⟩)⟩
    have hroot : ∀ kind : RootKind, (above twins).isSubtype "left" kind.label = false := by
      refine fun kind => Bool.eq_false_iff.2 fun hx => ?_
      rcases ((hiff _ _).1 hx).2 with hreach | ⟨kind', u, -, hreach, T, hT, hnil, -⟩
      · cases kind <;> exact absurd (eq_of_reaches_twins hreach) (by decide)
      · rcases eq_of_reaches_twins hreach with rfl | rfl <;> cases hT <;> cases hnil
    refine ⟨_, h, hleft, hright, hroot .entity, hroot .action, ?_⟩
    have hfirst : (above twins).mostSpecific "left" "right" = .ok "left" := by
      rw [mostSpecific, if_neg (by decide), if_pos hleft]
    have hsecond : (above twins).mostSpecific "right" "left" = .ok "right" := by
      rw [mostSpecific, if_neg (by decide), if_pos hright]
    rw [hfirst, hsecond]
    decide

end ObjectFlow.Ontology
