import ObjectFlow.Proofs.Ontology.Subtype

/-!
# Nearest supertypes first

Supertypes are lined up by their distance. This puts a type before a supertype that is farther away,
so that its declarations shadow those of the supertype, and that it is found first where both are
shared with another type (`inherited_shadows`). A supertype that is as near as one of its subtypes
may come before it (`inherited_shortcut`).

Everything follows from one property of the line, namely that of two types in it the one behind is
not both a subtype of the one in front and nearer (`Lined.pairwise_not_nearer`). What is looked up
first is then decided by lists: by the first that declares a name (`declared_first`) or the first
that is shared (`shared_lowest`).
-/

namespace ObjectFlow.Ontology

variable {o o' : Ontology} {s t : String} {i : Inherited}
  {types : List OntologyType} {valueTypes : List (ValueKind × String)}

/-! ## Roots that are not declared again

A root that is declared again may get supertypes, and then it is no longer above everything. -/

/-- Replacing a type leaves those of other names alone. -/
theorem type?_replace_of_ne {T : OntologyType} (h : T.name ≠ s) (Ts : List OntologyType) :
    (replace T Ts).find? (fun t => t.name = s) = Ts.find? fun t => t.name = s := by
  induction Ts with
  | nil => simp [replace, h]
  | cons T' Ts ih =>
    rw [replace]
    by_cases heq : T'.name = T.name
    · simp [heq, h]
    · rw [if_neg heq, List.find?_cons, List.find?_cons, ih]

/-- Registering types leaves those of other names alone. -/
theorem type?_foldlM_register (h : ∀ T ∈ types, T.name ≠ s)
    (hf : types.foldlM register o = .ok o') : o'.type? s = o.type? s := by
  induction types generalizing o with
  | nil =>
    cases hf
    rfl
  | cons T types ih =>
    obtain ⟨o₁, h₁, hf⟩ := Outcome.bind_eq_ok_iff.1 hf
    rw [ih (fun T' hT' => h T' (List.mem_cons_of_mem _ hT')) hf, register_eq_ok h₁]
    exact type?_replace_of_ne (h T List.mem_cons_self) o.types

/-- The types of values are kept apart from the types. -/
theorem type?_foldl_setValueType (o : Ontology) (vs : List (ValueKind × String)) (s : String) :
    (vs.foldl (fun o v => o.setValueType v.1 v.2) o).type? s = o.type? s := by
  induction vs generalizing o with
  | nil => rfl
  | cons v vs ih => exact ih (o.setValueType v.1 v.2)

/-- Roots that are not declared again stay on top. -/
theorem declare_rootsOnTop (h : declare types valueTypes = .ok o)
    (hroots : ∀ T ∈ types, isRoot T.name = false) : o.RootsOnTop := by
  intro kind
  obtain ⟨o₁, h₁, h⟩ := Outcome.bind_eq_ok_iff.1 h
  have hne : ∀ T ∈ types, T.name ≠ kind.label := by
    intro T hT heq
    have hnot := hroots T hT
    rw [heq] at hnot
    cases kind <;> exact absurd hnot (by decide)
  dsimp only at h
  split at h
  · cases h
  · cases h
    refine ⟨rootType kind, ?_, rfl, rfl⟩
    rw [type?_foldl_setValueType, type?_foldlM_register hne h₁]
    cases kind <;> rfl

/-! ## Types before their supertypes

A root that is added behind the line is the last of all, so it counts as far from every type,
although its distance is not defined. -/

/-- The one type is nearer than the other; a root that no declaration leads to is far from all. -/
def Nearer (o : Ontology) (t a b : String) : Prop := o.Reaches t b → o.distance t a < o.distance t b

/-- Of two types in the line, the one behind is no subtype of the one in front, or not nearer. -/
theorem Lined.pairwise_not_nearer {reached tops : List String} (hb : o.Built) (hc : o.Closed)
    (hr : o.RootsOnTop) (hl : o.Lined t reached tops) :
    (reached ++ tops).Pairwise fun a b => o.isSubtype b a = true → ¬ o.Nearer t b a := by
  -- A root that is put behind has no supertype in the line but itself.
  have htop : ∀ b ∈ tops, ∀ a, a ≠ b → o.isSubtype b a ≠ true := by
    intro b hmem a hne h
    obtain ⟨-, -, kind, u, rfl, -⟩ := (hl.mem_tops_iff b).1 hmem
    exact hne (hr.eq_of_below ((isSubtype_iff hb hc).1 h).2)
  obtain ⟨-, hnodup, hdisjoint⟩ := List.nodup_append.1 hl.nodup
  refine List.pairwise_append.2 ⟨?_, ?_, ?_⟩
  · refine hl.nearest_first.imp_of_mem fun {a b} ha _ hle _ hnear => ?_
    have hlt := hnear ((hl.mem_reached_iff a).1 ha)
    omega
  · exact hnodup.imp_of_mem fun _ hmem hne h => absurd h (htop _ hmem _ hne)
  · exact fun a ha b hmem h => absurd h (htop b hmem a (hdisjoint a ha b hmem))

section Pairwise

variable {α : Type} [DecidableEq α] {R : α → α → Prop} {l : List α} {a b : α}

/-- Of two members of a list the one that may not stand behind the other stands in front of it. -/
theorem idxOf_lt_of_pairwise (hl : l.Pairwise R) (ha : a ∈ l) (hb : b ∈ l) (hne : a ≠ b)
    (hR : ¬ R b a) : l.idxOf a < l.idxOf b := by
  have hla := List.idxOf_lt_length_of_mem ha
  have hlb := List.idxOf_lt_length_of_mem hb
  have hga : l[l.idxOf a] = a := List.getElem_idxOf hla
  have hgb : l[l.idxOf b] = b := List.getElem_idxOf hlb
  rcases Nat.lt_trichotomy (l.idxOf a) (l.idxOf b) with h | h | h
  · exact h
  · refine absurd ?_ hne
    rw [← hga, ← hgb]
    simp only [h]
  · have := List.pairwise_iff_getElem.1 hl _ _ hlb hla h
    rw [hga, hgb] at this
    exact absurd this hR

end Pairwise

/-- The declaration that counts is not one of a type above a nearer one that declares the name. -/
theorem declared_first {l : List String} {x : String} {A : Aspect}
    (hl : l.Pairwise fun a b => o.isSubtype b a = true → ¬ o.Nearer t b a)
    (h : (l.findSome? fun s => o.declared? s x) = some A) :
    ∃ c ∈ l, o.declared? c x = some A ∧ ∀ s ∈ l, o.isSubtype s c = true → s ≠ c →
      o.Nearer t s c → o.declared? s x = none := by
  obtain ⟨front, c, back, rfl, hc, hnone⟩ := List.findSome?_eq_some_iff.1 h
  refine ⟨c, List.mem_append_right _ List.mem_cons_self, hc, fun s hs hsub hne hnear => ?_⟩
  rcases List.mem_append.1 hs with hs | hs
  · exact hnone s hs
  · have hback := (List.mem_cons.1 hs).resolve_left hne
    have hnot := List.rel_of_pairwise_cons (List.pairwise_append.1 hl).2.1 hback
    exact absurd hnear (hnot hsub)

/-- The first supertype that is shared has none below it that is nearer and shared. -/
theorem shared_lowest {l : List String} {p : String → Bool} {c d : String}
    (hl : l.Pairwise fun a b => o.isSubtype b a = true → ¬ o.Nearer t b a) (h : l.find? p = some c)
    (hd : d ∈ l) (hp : p d = true) (hsub : o.isSubtype d c = true) (hnear : o.Nearer t d c) :
    d = c := by
  obtain ⟨-, front, back, rfl, hnone⟩ := List.find?_eq_some_iff_append.1 h
  rcases List.mem_append.1 hd with hd | hd
  · exact absurd hp (by simpa using hnone d hd)
  · refine (List.mem_cons.1 hd).resolve_right fun hback => ?_
    exact List.rel_of_pairwise_cons (List.pairwise_append.1 hl).2.1 hback hsub hnear

/--
In an ontology that is declared as a whole, with roots that are not declared again, each supertype
of a type stands before every proper supertype of its own that is farther from the type: its
declarations shadow those of that supertype, and that supertype is not found to be shared with
another type where it is shared too.
-/
theorem inherited_shadows (h : declare types valueTypes = .ok o)
    (hroots : ∀ T ∈ types, isRoot T.name = false) (ht : t ∈ o.names) :
    ∃ i, o.inherited t = .ok i ∧
      (∀ a ∈ i.supertypes, ∀ b ∈ i.supertypes, o.isSubtype a b = true → a ≠ b → o.Nearer t a b →
        i.supertypes.idxOf a < i.supertypes.idxOf b) ∧
      (∀ x A, Table.at? i.aspects x = some A → ∃ c ∈ i.supertypes, o.declared? c x = some A ∧
        ∀ s ∈ i.supertypes, o.isSubtype s c = true → s ≠ c → o.Nearer t s c →
          o.declared? s x = none) ∧
      ∀ u c d, o.commonSupertype? t u = some c → o.isSubtype t d = true →
        o.isSubtype u d = true → o.isSubtype d c = true → o.Nearer t d c → d = c := by
  obtain ⟨hb, -⟩ := declare_eq_ok h
  have hc := declare_closed h
  obtain ⟨i, hi⟩ := hc.exists_inherited hb ht
  obtain ⟨-, hgather, reached, tops, heq, hl⟩ := inherited_eq_ok hb hi
  have hline := hl.pairwise_not_nearer hb hc (declare_rootsOnTop h hroots)
  rw [← heq] at hline
  refine ⟨i, hi, fun a ha b hb' hsub hne hnear => ?_, fun x A hA => ?_,
    fun u c d hshared htd hud hdc hnear => ?_⟩
  · exact idxOf_lt_of_pairwise hline ha hb' hne fun hnot => hnot hsub hnear
  · exact declared_first hline ((hgather x).symm.trans hA)
  · unfold commonSupertype? at hshared
    unfold isSubtype at htd hud
    rw [hi] at hshared htd
    split at hshared
    · rename_i l r hl' hr'
      cases hl'
      rw [hr'] at hud
      exact shared_lowest hline hshared (List.contains_iff_mem.1 htd) hud hdc hnear
    · cases hshared

/-- In the diamond a type between two others stands between them. -/
theorem inherited_shadows_diamond : ∃ o i, declare diamond [] = .ok o ∧
    (∀ T ∈ diamond, isRoot T.name = false) ∧ "fit" ∈ o.names ∧ o.inherited "fit" = .ok i ∧
    o.Nearer "fit" "table" "data" ∧ i.supertypes.idxOf "table" < i.supertypes.idxOf "data" := by
  have h : declare diamond [] = .ok (above diamond) := rfl
  have hroots : ∀ T ∈ diamond, isRoot T.name = false := by decide
  have hext : ∀ {s t T}, (above diamond).type? s = some T → (above diamond).Extends s t →
      t ∈ T.supertypes := by
    rintro s t T hT ⟨T', hT', hmem⟩
    exact Option.some.inj (hT'.symm.trans hT) ▸ hmem
  have hnear : (above diamond).Nearer "fit" "table" "data" := by
    intro hreach
    have hone : (above diamond).distance "fit" "table" ≤ 1 :=
      ((Ascends.refl "fit").step
          ⟨⟨"fit", .entity, ["table", "model"], []⟩, rfl, by decide⟩).distance_le
    have hmany : (above diamond).distance "fit" "data" ≠ 0 ∧
        (above diamond).distance "fit" "data" ≠ 1 := by
      refine ⟨fun hzero => ?_, fun hone => ?_⟩
      · have hasc := hzero ▸ hreach.ascends
        exact absurd hasc.eq_of_zero (by decide)
      · have hasc := hone ▸ hreach.ascends
        cases hasc with
        | step hasc he =>
          obtain rfl := hasc.eq_of_zero
          exact absurd (hext rfl he) (by decide)
    omega
  obtain ⟨i, hi, hfirst, -, -⟩ := inherited_shadows h hroots (t := "fit") (by decide)
  obtain ⟨hb, -⟩ := declare_eq_ok h
  have hdata : (above diamond).Below "table" "data" :=
    .inl (Extends.reaches ⟨⟨"table", .entity, ["data"], []⟩, rfl, by decide⟩)
  have htable : (above diamond).Reaches "fit" "table" := Extends.reaches ⟨_, rfl, by decide⟩
  have hmem : ∀ s, s ∈ i.supertypes ↔ (above diamond).Below "fit" s := fun s =>
    mem_supertypes_iff hb hi
  refine ⟨_, i, h, hroots, by decide, hi, hnear, hfirst _ ((hmem _).2 (.inl htable)) _
    ((hmem _).2 (.inl (htable.step ⟨_, rfl, by decide⟩)))
    ((isSubtype_iff hb (declare_closed h)).2 ⟨by decide, hdata⟩) (by decide) hnear⟩

/-- A type that declares a supertype and, behind it, another one that extends the same. -/
def shortcut : List OntologyType :=
  [⟨"data", .entity, [], [⟨"size", "data"⟩]⟩, ⟨"table", .entity, ["data"], [⟨"size", "table"⟩]⟩,
    ⟨"sheet", .entity, ["data", "table"], []⟩, ⟨"view", .entity, ["table"], []⟩]

/--
A supertype that is declared directly and first stands before a subtype of its own: its declaration
counts, and it is found to be shared where its subtype is shared too.
-/
theorem inherited_shortcut : ∃ o i, declare shortcut [] = .ok o ∧
    (∀ T ∈ shortcut, isRoot T.name = false) ∧ o.Acyclic ∧ o.inherited "sheet" = .ok i ∧
    o.isSubtype "table" "data" = true ∧ i.supertypes = ["sheet", "data", "table", "entity"] ∧
    Table.at? i.aspects "size" = some ⟨"size", "data"⟩ ∧
    o.declared? "table" "size" = some ⟨"size", "table"⟩ ∧
    o.commonSupertype? "sheet" "view" = some "data" ∧ o.isSubtype "view" "table" = true := by
  have ha : (above shortcut).Acyclic := acyclic_of_rank
    (fun s => if s = "data" then 0 else if s = "table" then 1 else 2) (by decide)
  have hsheet := inherited_of_climb (o := above shortcut) (s := "sheet") rfl <|
    (climb_visit rfl rfl rfl).trans <| (climb_visit rfl rfl rfl).trans <|
      (climb_visit rfl rfl rfl).trans <| (climb_skip (by decide)).trans climb_nil
  have hview := inherited_of_climb (o := above shortcut) (s := "view") rfl <|
    (climb_visit rfl rfl rfl).trans <| (climb_visit rfl rfl rfl).trans <|
      (climb_visit rfl rfl rfl).trans climb_nil
  have h : declare shortcut [] = .ok (above shortcut) := rfl
  have hiff := fun s t => isSubtype_iff (s := s) (t := t) (declare_eq_ok h).1 (declare_closed h)
  refine ⟨_, _, h, by decide, ha, hsheet,
    (hiff _ _).2 ⟨by decide, .inl (Extends.reaches ⟨_, rfl, by decide⟩)⟩, rfl, rfl, rfl, ?_,
    (hiff _ _).2 ⟨by decide, .inl (Extends.reaches ⟨_, rfl, by decide⟩)⟩⟩
  rw [commonSupertype?, hsheet, hview]
  rfl

end ObjectFlow.Ontology
