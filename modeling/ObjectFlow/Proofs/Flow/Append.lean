import ObjectFlow.Proofs.Flow.Inline
import ObjectFlow.Proofs.Flow.Continue
import ObjectFlow.Proofs.Flow.Extended

/-!
# One recorded graph behind another

The graph of an outermost scope can take up that of a later one (`Recorded.append_spec`). What comes
out has the ties of a graph on which both were recorded one after the other, except those that
revive a receiver.

`Flow.append_spec` says what appending does to any two graphs with a border, in terms of three lists
of ties: those between the markers of the later graph, those from outside and those left at its end.
Here both graphs were recorded. Each of the three lists is the image of its part of the ties under
one map, `Tie.appended`, which is the map by which the graph is described that recorded the later
events itself (`Tie.carried`), with all calls under their own names. So the two can be compared.
-/

namespace ObjectFlow

namespace Flow

/-! ## New handles

The handles of bodies occur in calls only, so the ties stay. -/

@[simp] theorem ties_rehandle (f : Flow) (ids : List NodeId) (moved : Table Handle Handle) :
    (f.rehandle ids moved).ties = f.ties :=
  congrArg (List.map tieOf) (edges_rehandle f ids moved)

theorem Framed.rehandle {f : Flow} (h : f.Framed) (ids : List NodeId)
    (moved : Table Handle Handle) : (f.rehandle ids moved).Framed := by
  induction ids generalizing f with
  | nil => exact h
  | cons id ids ih => exact ih (h.adjustCall id _)

/-- The calls at the nodes given get their new handles, and the others stay. -/
theorem Framed.calls_rehandle {f : Flow} (h : f.Framed) {ids : List NodeId} (hd : ids.Nodup)
    (moved : Table Handle Handle) : (f.rehandle ids moved).calls =
      f.calls.map fun c => if c.1 ∈ ids then (c.1, c.2.rehandled moved) else c := by
  induction ids generalizing f with
  | nil => simp [Flow.rehandle]
  | cons id ids ih =>
    obtain ⟨hid, hd⟩ := List.nodup_cons.1 hd
    rw [rehandle_cons, ih (h.adjustCall id _) hd, h.calls_adjustCall,
      Table.adjust_eq_map _ _ h.calls_nodup, List.map_map]
    refine List.map_congr_left fun c _ => ?_
    by_cases hc : c.1 = id
    · simp [hc, hid]
    · simp [hc]

/-! ## The ties of a later graph

The map is told apart by where a tie of the later graph leads: between calls it stays, at the end it
is led to the marker of the first graph, and from outside it is handed what the first graph left. -/

/-- The markers of a later graph are those of the graph that takes it up. -/
def unmarked (f later : Flow) (n : NodeId) : NodeId :=
  if n = later.output then f.output else if n = later.input then f.input else n

theorem unmarked_output (f later : Flow) : unmarked f later later.output = f.output := if_pos rfl

theorem unmarked_input (f : Flow) {later : Flow} (hl : later.Framed) :
    unmarked f later later.input = f.input := by
  rw [unmarked, if_neg hl.input_ne_output, if_pos rfl]

theorem unmarked_call (f : Flow) {later : Flow} (hl : later.Framed) {n : NodeId}
    (hn : n ∈ Table.keys later.calls) : unmarked f later n = n := by
  have hout : n ≠ later.output := fun heq => hl.output_not_mem (heq ▸ hn)
  have hin : n ≠ later.input := fun heq => hl.input_not_mem (heq ▸ hn)
  rw [unmarked, if_neg hout, if_neg hin]

/-- A tie of a later graph in the one that takes it up. -/
def Tie.appended (f later : Flow) (t : Tie) : Tie := t.carried (unmarked f later) f later.input

/-- A tie between calls stays as it is. -/
theorem appended_within (f : Flow) {later : Flow} (hl : later.Framed) {t : Tie}
    (ht : t ∈ later.within) : t.appended f later = t := by
  obtain ⟨ht, hs, hto⟩ := mem_within.1 ht
  have hs' := unmarked_call f hl ((hl.tie_source_cases ht).resolve_left hs)
  have ht' := unmarked_call f hl ((hl.tie_target_cases ht).resolve_left hto)
  rw [Tie.appended, Tie.carried, Tie.home_of_ne hs]
  dsimp only
  rw [hs', ht']

/-- What the later graph leaves is left by the first one now. -/
theorem appended_exit (f : Flow) {later : Flow} (hl : later.Framed) {t : Tie}
    (ht : t ∈ later.exits) : t.appended f later = t.leftAt f := by
  obtain ⟨ht, hto⟩ := mem_exits.1 ht
  have hs : t.source ≠ later.input := fun heq => by
    obtain ⟨e, he, rfl⟩ := mem_ties.1 ht
    exact hl.not_across e he ⟨heq, hto⟩
  have hs' := unmarked_call f hl ((hl.tie_source_cases ht).resolve_left hs)
  rw [Tie.appended, Tie.carried, Tie.home_of_ne hs]
  dsimp only
  rw [hs', hto, unmarked_output]
  rfl

/-- What the later graph takes from outside is handed over by the first one. -/
theorem appended_entry (f : Flow) {later : Flow} (hl : later.Recorded) {t : Tie}
    (ht : t ∈ later.entries) : t.appended f later = t.handed f := by
  have htarget : t.target ∈ Table.keys later.calls := by
    obtain ⟨htt, hs⟩ := mem_entries.1 ht
    obtain ⟨e, he, rfl⟩ := mem_ties.1 htt
    exact hl.target_call he hs
  obtain ⟨ht, hs⟩ := mem_entries.1 ht
  obtain ⟨e, he, rfl⟩ := mem_ties.1 ht
  obtain ⟨o, ho⟩ := hl.identified e he
  have ht' := unmarked_call f hl.toFramed htarget
  have hs' : unmarked f later (tieOf e).source = f.input :=
    (congrArg _ hs).trans (unmarked_input f hl.toFramed)
  have hp : (tieOf e).data.sourcePin = none := hl.unpinned e he hs
  have hmade : (tieOf e).made f = f.maker? o := by
    show e.data.object.id.bind f.maker? = _
    rw [ho, Option.bind_some]
  rw [Tie.appended, Tie.carried, Tie.home_of_eq hs ho, ht', hs', hp, Tie.handed, hmade]
  cases f.maker? o <;> rfl

/-! ## Appending

What remains is to see that the lists of ties agree: those that stay, and those that are brought. -/

/-- A recorded graph can take up another one with which it has nothing in common. -/
theorem Recorded.extendable {f later : Flow} (hf : f.Recorded) (hl : later.Recorded)
    (hap : f.Apart later) : f.Extendable later :=
  ⟨hf.bordered, hl.bordered, hap, hf.input_mem, hf.output_mem, hf.input_ne_output⟩

/-- What stays is what the later graph does not leave as well. -/
theorem Recorded.kept_eq {f later : Flow} (hf : f.Recorded) (hl : later.Recorded) :
    f.kept later = f.ties.filter fun t => ¬ t.Superseded f later := by
  refine List.filter_congr fun t ht => ?_
  obtain ⟨e, he, rfl⟩ := mem_ties.1 ht
  obtain ⟨o, ho⟩ := hf.identified e he
  have hmade : (tieOf e).made later = later.maker? o := by
    show e.data.object.id.bind later.maker? = _
    rw [ho, Option.bind_some]
  have hsuperseded : (tieOf e).Superseded f later ↔
      (tieOf e).target = f.output ∧ ((tieOf e).made later).isSome = true := by
    refine and_congr_right fun _ => ?_
    rw [hmade, Option.isSome_iff_exists]
    constructor
    · rintro ⟨u, hu, hto, hid⟩
      exact ⟨_, hl.bordered.maker?_eq_some_iff.2 ⟨u, mem_exits.2 ⟨hu, hto⟩, hid.trans ho, rfl⟩⟩
    · rintro ⟨m, hm⟩
      obtain ⟨u, hu, hid, -⟩ := hl.bordered.maker?_eq_some_iff.1 hm
      obtain ⟨hu, hto⟩ := mem_exits.1 hu
      exact ⟨u, hu, hto, hid.trans ho.symm⟩
  by_cases hs : (tieOf e).Superseded f later
  · simp [keeps, hs, hsuperseded.1 hs]
  · rw [decide_eq_true hs, keeps, Bool.not_eq_true', Bool.and_eq_false_imp]
    intro hto
    cases hsome : ((tieOf e).made later).isSome with
    | false => rfl
    | true => exact absurd (hsuperseded.2 ⟨of_decide_eq_true hto, hsome⟩) hs

/-- What is brought is the ties of the later graph, each where it leads now. -/
theorem Recorded.brought_perm {f later : Flow} (hl : later.Recorded) :
    (f.brought later).Perm (later.ties.map (Tie.appended f later)) := by
  refine .trans (List.Perm.of_eq ?_) (hl.bordered.ties_perm.map _).symm
  have hwithin : later.within.map (Tie.appended f later) = later.within :=
    (List.map_congr_left fun t ht => appended_within f hl.toFramed ht).trans (List.map_id _)
  rw [List.map_append, List.map_append, brought, hwithin,
    List.map_congr_left fun t ht => appended_entry f hl ht,
    List.map_congr_left fun t ht => appended_exit f hl.toFramed ht]

/-- A recorded graph takes up another one: its calls are followed by the later ones, and its ties,
less those that are superseded, by those of the later graph. -/
theorem Recorded.append_spec {f later : Flow} {s : Supply} (hf : f.Recorded) (hl : later.Recorded)
    (hap : f.Apart later) (hb : f.graph.Before s) (hlb : later.graph.Before s)
    (moved : Table Handle Handle) :
    ∃ g s', f.append s later moved = .ok (g, s') ∧ g.Framed ∧ g.input = f.input ∧
      g.output = f.output ∧
      g.calls = f.calls ++ later.calls.map (fun c => (c.1, c.2.rehandled moved)) ∧
      g.ties.Perm ((f.ties.filter fun t => ¬ t.Superseded f later) ++
        later.ties.map (Tie.appended f later)) := by
  have hx := hf.extendable hl hap
  obtain ⟨g, s', hok, h⟩ := Flow.append_spec hx hb hlb moved
  have hbordered := h.bordered hx
  have hnodes : g.graph.nodes = frame g.input g.output
      (f.calls ++ later.calls.map fun c => (c.1, c.2.rehandled moved)) := by
    have hinner : later.innerNodes = later.calls.map fun c => (c.1, .call c.2) :=
      congrArg Prod.fst hl.inner_eq
    rw [h.nodes_eq, hf.nodes_eq, hinner, h.input_eq, h.output_eq, frame, frame, List.map_map,
      List.map_append, List.map_map]
    rfl
  have hcalls := calls_eq hnodes
  refine ⟨g, s', hok, ⟨h.wellFormed, hcalls ▸ hnodes, hbordered.target_ne_input,
    hbordered.source_ne_output, hbordered.not_across⟩, h.input_eq, h.output_eq, hcalls, ?_⟩
  rw [← hf.kept_eq hl]
  exact h.ties_perm.trans (hl.brought_perm.append_left _)

end Flow

end ObjectFlow
