import ObjectFlow.Proofs.Ontology.Climb

/-!
# What a type inherits

The supertypes of a type are all that its declarations lead to, nearest first, and behind them the
roots; of the aspects that they declare the first of each name counts (`inherited_exact`). Looking
them up fails just where the way up meets a name that no type has.

The walk gives what can be reached, in the order of the distances. What is left to describe are the
roots behind it. A root is added for each of the supertypes that declares none itself, unless
declarations lead to it anyway. `Lined` therefore splits the list in two: a part that is known by
what is reached, and a part that is known by which of these are on top.
-/

namespace ObjectFlow.Ontology

open Outcome

variable {o : Ontology} {name s t : String} {i : Inherited} {kind : RootKind}

/-! ## The roots at the end

At most two roots are added, in the order in which the walk noted them. A root that was met by name
stays where it was met. -/

/-- One root is added behind the supertypes, unless it is among them or no type. -/
def addRoot (o : Ontology) (i : Inherited) (kind : RootKind) : Inherited :=
  match o.type? kind.label with
  | none => i
  | some t =>
    if i.supertypes.contains t.name then i
    else { i with
      supertypes := i.supertypes ++ [t.name]
      aspects := Inherited.declare i.aspects t.aspects }

/-- The roots are added one after the other. -/
theorem addRoots_eq_foldl (o : Ontology) (i : Inherited) :
    o.addRoots i = i.roots.foldl o.addRoot i := rfl

/-- A root is added if it is not among the supertypes. -/
theorem supertypes_addRoot (hb : o.Built) (i : Inherited) (kind : RootKind) :
    (o.addRoot i kind).supertypes =
      if kind.label ∈ i.supertypes then i.supertypes else i.supertypes ++ [kind.label] := by
  obtain ⟨T, hT⟩ := mem_names_iff.1 (hb.root_mem kind)
  rw [addRoot, hT]
  dsimp only
  rw [name_of_type? hT]
  by_cases hmem : kind.label ∈ i.supertypes <;> simp [hmem]

/-- The aspects of a root are gathered behind all others. -/
theorem Gathered.addRoot (hg : o.Gathered i) (kind : RootKind) : o.Gathered (o.addRoot i kind) := by
  unfold Ontology.addRoot
  split
  · exact hg
  · rename_i T hT
    split
    · exact hg
    · exact hg.declare (by rw [name_of_type? hT, hT]) rfl rfl

theorem Gathered.addRoots (hg : o.Gathered i) : o.Gathered (o.addRoots i) := by
  rw [addRoots_eq_foldl]
  generalize i.roots = roots
  induction roots generalizing i with
  | nil => exact hg
  | cons kind roots ih => exact ih (hg.addRoot kind)

/-- As the two roots have different names, adding one does not keep the other out. -/
theorem supertypes_addRoots (hb : o.Built) (hn : i.roots.Nodup) :
    (o.addRoots i).supertypes =
      i.supertypes ++ (i.roots.map RootKind.label).filter (· ∉ i.supertypes) := by
  rw [addRoots_eq_foldl]
  generalize i.roots = roots at hn
  induction roots generalizing i with
  | nil => simp
  | cons kind roots ih =>
    obtain ⟨hk, hn⟩ := List.nodup_cons.1 hn
    rw [List.foldl_cons, ih hn, supertypes_addRoot hb]
    by_cases hmem : kind.label ∈ i.supertypes
    · simp [hmem]
    · have hother : ∀ r ∈ roots.map RootKind.label,
          decide (r ∉ i.supertypes ++ [kind.label]) = decide (r ∉ i.supertypes) := by
        intro r hr
        obtain ⟨k, hk', rfl⟩ := List.mem_map.1 hr
        have hne : k.label ≠ kind.label := fun h => hk (RootKind.label_injective h ▸ hk')
        simp [hne]
      rw [if_neg hmem, List.filter_congr hother]
      simp [hmem]

/-! ## The lines of supertypes

What follows is said without the walk, so it can be compared with other orders. -/

/-- A name that no type has is met on the way up, at its start or as a declared supertype. -/
def Misses (o : Ontology) (name s : String) : Prop :=
  s ∉ o.names ∧ (s = name ∨ ∃ t, o.Reaches name t ∧ o.Extends t s)

/--
The supertypes of a type stand in a line: first whatever the declarations lead to, nearest first,
and then the roots from which those of them descend that declare no supertype.
-/
structure Lined (o : Ontology) (name : String) (reached tops : List String) : Prop where
  nodup : (reached ++ tops).Nodup
  head_eq : reached.head? = some name
  mem_reached_iff : ∀ s, s ∈ reached ↔ o.Reaches name s
  nearest_first : reached.Pairwise fun s t => o.distance name s ≤ o.distance name t
  mem_tops_iff : ∀ r, r ∈ tops ↔
    r ∉ reached ∧ r ∈ o.names ∧
      ∃ kind s, RootKind.label kind = r ∧ o.Reaches name s ∧ o.IsTop kind s

/-- A name is missed if it can be reached and no type has it. -/
theorem misses_iff_reaches : o.Misses name s ↔ s ∉ o.names ∧ o.Reaches name s := by
  refine and_congr_right fun hs => ⟨?_, fun ⟨n, h⟩ => ?_⟩
  · rintro (rfl | ⟨t, ht, he⟩)
    · exact .refl o s
    · exact ht.step he
  · cases h with
    | refl => exact .inl rfl
    | step ht he => exact .inr ⟨_, ⟨_, ht⟩, he⟩

/-- A walk that has ended has met the line of the supertypes, up to the roots. -/
theorem Walking.lined {fresh : List String} (hb : o.Built) (hw : Walking o name fresh i [])
    (hr : o.Rooted i) :
    Lined o name i.supertypes ((i.roots.map RootKind.label).filter (· ∉ i.supertypes)) where
  nodup := by
    refine hw.nodup.append ((hr.nodup.map RootKind.label_injective).filter _) ?_
    exact List.disjoint_left.2 fun s hs hs' => of_decide_eq_true (List.mem_filter.1 hs').2 hs
  head_eq := by
    have hname : name ∈ i.supertypes := hw.mem_iff.2 (.refl o name)
    have hsorted := hw.sorted
    rw [List.map_nil, List.append_nil, List.pairwise_map] at hsorted
    have hreaches : ∀ s ∈ i.supertypes, o.Reaches name s := hw.reaches
    cases hline : i.supertypes with
    | nil => exact absurd hname (by simp [hline])
    | cons s rest =>
      rw [hline] at hname hsorted
      rcases List.mem_cons.1 hname with rfl | hmem
      · rfl
      · -- Only the type itself has the distance of the type itself.
        have hle := List.rel_of_pairwise_cons hsorted hmem
        have hzero : o.distance name name ≤ 0 := (Ascends.refl name).distance_le
        have hasc := (hreaches s (hline ▸ List.mem_cons_self)).ascends
        rw [show o.distance name s = 0 by omega] at hasc
        rw [hasc.eq_of_zero]
        rfl
  mem_reached_iff _ := hw.mem_iff
  nearest_first := by
    have hsorted := hw.sorted
    rwa [List.map_nil, List.append_nil, List.pairwise_map] at hsorted
  mem_tops_iff r := by
    simp only [List.mem_filter, List.mem_map, decide_eq_true_eq, hr.mem_iff, hw.mem_iff]
    constructor
    · rintro ⟨⟨kind, ⟨s, hs, htop⟩, rfl⟩, hnot⟩
      exact ⟨hnot, hb.root_mem kind, kind, s, rfl, hs, htop⟩
    · rintro ⟨hnot, -, kind, s, rfl, hs, htop⟩
      exact ⟨⟨kind, ⟨s, hs, htop⟩, rfl⟩, hnot⟩

/-! ## Looking them up

Either the walk ends, and its line is the one described, or it stops at a name that it misses. As it
cannot do both, each of the two cases is also told by the names alone. -/

/-- A failure names something that is missed. -/
theorem inherited_eq_error (hb : o.Built) {e : OntologyError} (h : o.inherited name = .error e) :
    ∃ s, o.Misses name s ∧ e = .typeNotFound s := by
  unfold inherited at h
  split at h
  · rename_i hnone
    cases h
    exact ⟨name, ⟨type?_eq_none_iff.1 hnone, .inl rfl⟩, rfl⟩
  · rename_i T hT
    have hclimb := (Walking.init (mem_names_of_type? hT) hb.names_nodup).climb
    rw [List.map_singleton, ← name_of_type? hT] at hclimb
    split at hclimb
    · rename_i i hi
      rw [hi] at h
      cases h
    · rename_i e' he
      rw [he] at h
      cases h
      obtain ⟨s, t, hs, hext, ht, rfl⟩ := hclimb
      rw [name_of_type? hT] at hs
      exact ⟨t, ⟨ht, .inr ⟨s, hs, hext⟩⟩, rfl⟩

/-- A success means that nothing is missed, and the supertypes are in line. -/
theorem inherited_eq_ok (hb : o.Built) (h : o.inherited name = .ok i) :
    (∀ s, o.Reaches name s → s ∈ o.names) ∧ o.Gathered i ∧
      ∃ reached tops, i.supertypes = reached ++ tops ∧ o.Lined name reached tops := by
  unfold inherited at h
  split at h
  · cases h
  · rename_i T hT
    obtain ⟨i', hi', heq⟩ := bind_eq_ok_iff.1 h
    cases heq
    have hclimb := (Walking.init (mem_names_of_type? hT) hb.names_nodup).climb
    rw [List.map_singleton, ← name_of_type? hT, hi', name_of_type? hT] at hclimb
    obtain ⟨fresh, hw⟩ := hclimb
    obtain ⟨hg, hr⟩ := gathered_climb (fun a => rfl) ⟨List.nodup_nil, by simp⟩ hi'
    exact ⟨fun s hs => hw.mem_names s (hw.mem_iff.2 hs), hg.addRoots, _, _,
      supertypes_addRoots hb hr.nodup, hw.lined hb hr⟩

/--
Looking up what a type inherits fails just where a name that no type has is met on the way up, with
such a name. Otherwise the supertypes are lined up by their distance, and of the aspects that they
declare the first of each name counts.
-/
theorem inherited_exact (hb : o.Built) (name : String) :
    (∀ e, o.inherited name = .error e → ∃ s, o.Misses name s ∧ e = .typeNotFound s) ∧
    ((∃ e, o.inherited name = .error e) ↔ ∃ s, o.Misses name s) ∧
    ∀ i, o.inherited name = .ok i →
      (∃ reached tops, i.supertypes = reached ++ tops ∧ o.Lined name reached tops) ∧
      ∀ a, Table.at? i.aspects a = i.supertypes.findSome? fun s => o.declared? s a := by
  refine ⟨fun e he => inherited_eq_error hb he, ⟨?_, ?_⟩, fun i hi => ?_⟩
  · rintro ⟨e, he⟩
    obtain ⟨s, hs, -⟩ := inherited_eq_error hb he
    exact ⟨s, hs⟩
  · rintro ⟨s, hs⟩
    obtain ⟨hnot, hreach⟩ := misses_iff_reaches.1 hs
    cases hi : o.inherited name with
    | error e => exact ⟨e, rfl⟩
    | ok i => exact absurd ((inherited_eq_ok hb hi).1 s hreach) hnot
  · obtain ⟨-, hg, hline⟩ := inherited_eq_ok hb hi
    exact ⟨hline, hg⟩

/-- Two types that extend each other, and one that extends a name that no type has. -/
def circle : List OntologyType :=
  [⟨"a", .entity, ["b"], [⟨"x", "a"⟩]⟩, ⟨"b", .entity, ["a", "c"], [⟨"x", "b"⟩]⟩,
    ⟨"c", .action, [], []⟩, ⟨"d", .entity, ["a", "gone"], []⟩]

/-- The roots and then other types. -/
def above (types : List OntologyType) : Ontology := ⟨roots.types ++ types, []⟩

/-- The circle is registered type by type. -/
theorem circle_built : (above circle).Built :=
  Built.roots.foldlM_register (show circle.foldlM Ontology.register roots = _ from rfl)

/-- The types of the circle are met once each; beside it the way up ends at a missing name. -/
theorem inherited_exact_circle : (above circle).Built ∧
    (∃ e, (above circle).inherited "d" = .error e) ∧
    ∀ i, (above circle).inherited "a" = .ok i → i.supertypes.Nodup := by
  refine ⟨circle_built, (inherited_exact circle_built "d").2.1.2
    ⟨"gone", by decide, .inr ⟨"d", .refl _ _, _, rfl, by decide⟩⟩, fun i hi => ?_⟩
  obtain ⟨⟨reached, tops, heq, hline⟩, -⟩ := (inherited_exact circle_built "a").2.2 i hi
  exact heq ▸ hline.nodup

end ObjectFlow.Ontology
