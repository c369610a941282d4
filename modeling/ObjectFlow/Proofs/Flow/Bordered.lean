import ObjectFlow.Proofs.Flow.Graft
import ObjectFlow.Proofs.Flow.Tie

/-!
# Graphs with a border

What crosses the border of a graph does so at its markers: a tie comes from outside, is left at the
end, or lies between the markers (`Bordered.ties_perm`), where nothing is said about the nodes. Each
object is left at the end by one node at most, so that a lookup tells which
(`Bordered.maker?_eq_some_iff`).

This is all that joining needs of a graph. Recorded graphs have a border (`Recorded.bordered`), but
so have graphs that were read from documents or put together by hand, with markers and calls in any
order.
-/

namespace ObjectFlow.Flow

/-- No edge enters the input marker, leaves the output marker, or leads from one to the other, and
each object has one edge to the output marker. -/
structure Bordered (f : Flow) : Prop where
  wellFormed : f.graph.WellFormed
  target_ne_input : ∀ e ∈ f.graph.edges, e.target ≠ f.input
  source_ne_output : ∀ e ∈ f.graph.edges, e.source ≠ f.output
  not_across : ∀ e ∈ f.graph.edges, ¬ (e.source = f.input ∧ e.target = f.output)
  last : ∀ e ∈ f.graph.edges, ∀ e' ∈ f.graph.edges, ∀ o, e.target = f.output →
    e'.target = f.output → e.data.object.id = some o → e'.data.object.id = some o → e = e'

/-- A recorded graph has a border. -/
theorem Recorded.bordered {f : Flow} (h : f.Recorded) : f.Bordered :=
  ⟨h.wellFormed, h.target_ne_input, h.source_ne_output, h.not_across,
    fun e he e' he' _ ht ht' ho ho' => h.last e he e' he' ht ht' (ho.trans ho'.symm)⟩

variable {f : Flow}

/-! ## Where ties lead

A graph is taken apart into three lists of ties. Joining treats each of them in its own way, and
afterwards the result is put together from them. -/

/-- What comes from outside. -/
def entries (f : Flow) : List Tie := f.ties.filter fun t => t.source = f.input

/-- What is left at the end. -/
def exits (f : Flow) : List Tie := f.ties.filter fun t => t.target = f.output

/-- What lies between the markers. -/
def within (f : Flow) : List Tie :=
  f.ties.filter fun t => t.source ≠ f.input ∧ t.target ≠ f.output

theorem mem_entries {t : Tie} : t ∈ f.entries ↔ t ∈ f.ties ∧ t.source = f.input := by
  simp [entries]

theorem mem_exits {t : Tie} : t ∈ f.exits ↔ t ∈ f.ties ∧ t.target = f.output := by
  simp [exits]

theorem mem_within {t : Tie} :
    t ∈ f.within ↔ t ∈ f.ties ∧ t.source ≠ f.input ∧ t.target ≠ f.output := by
  simp [within]

/-- A tie leaves a node of the graph, and not the output marker. -/
theorem Bordered.source_mem (h : f.Bordered) {t : Tie} (ht : t ∈ f.ties) :
    t.source ∈ f.graph.nodeIds ∧ t.source ≠ f.output := by
  obtain ⟨e, he, rfl⟩ := mem_ties.1 ht
  exact ⟨h.wellFormed.source_mem e he, h.source_ne_output e he⟩

/-- A tie enters a node of the graph, and not the input marker. -/
theorem Bordered.target_mem (h : f.Bordered) {t : Tie} (ht : t ∈ f.ties) :
    t.target ∈ f.graph.nodeIds ∧ t.target ≠ f.input := by
  obtain ⟨e, he, rfl⟩ := mem_ties.1 ht
  exact ⟨h.wellFormed.target_mem e he, h.target_ne_input e he⟩

/-- Nothing comes from outside and is left at the end at once. -/
theorem Bordered.not_entry_and_exit (h : f.Bordered) {t : Tie} (ht : t ∈ f.ties) :
    ¬ (t.source = f.input ∧ t.target = f.output) := by
  obtain ⟨e, he, rfl⟩ := mem_ties.1 ht
  exact h.not_across e he

/-- What comes from outside leads between the markers. -/
theorem Bordered.entry_target (h : f.Bordered) {t : Tie} (ht : t ∈ f.entries) :
    t.target ∈ f.graph.nodeIds ∧ t.target ≠ f.input ∧ t.target ≠ f.output :=
  have ⟨ht, hs⟩ := mem_entries.1 ht
  ⟨(h.target_mem ht).1, (h.target_mem ht).2, fun hto => h.not_entry_and_exit ht ⟨hs, hto⟩⟩

/-- What is left at the end comes from between the markers. -/
theorem Bordered.exit_source (h : f.Bordered) {t : Tie} (ht : t ∈ f.exits) :
    t.source ∈ f.graph.nodeIds ∧ t.source ≠ f.input ∧ t.source ≠ f.output :=
  have ⟨ht, hto⟩ := mem_exits.1 ht
  ⟨(h.source_mem ht).1, fun hs => h.not_entry_and_exit ht ⟨hs, hto⟩, (h.source_mem ht).2⟩

/-- Every tie is in one of the three lists. -/
theorem Bordered.ties_perm (h : f.Bordered) : f.ties.Perm (f.within ++ (f.entries ++ f.exits)) := by
  have hrest : f.ties.filter (fun t => !decide (t.source ≠ f.input ∧ t.target ≠ f.output)) =
      f.ties.filter fun t => decide (t.source = f.input) || decide (t.target = f.output) :=
    List.filter_congr fun t _ => by
      by_cases hs : t.source = f.input <;> by_cases ht : t.target = f.output <;> simp [hs, ht]
  have hexits : f.exits = (f.ties.filter fun t => !decide (t.source = f.input)).filter
      fun t => decide (t.source = f.input) || decide (t.target = f.output) := by
    rw [List.filter_filter]
    refine List.filter_congr fun t ht => ?_
    have := h.not_entry_and_exit ht
    by_cases hs : t.source = f.input <;> by_cases hto : t.target = f.output <;> simp_all
  have hentries : f.entries = (f.ties.filter fun t => decide (t.source = f.input)).filter
      fun t => decide (t.source = f.input) || decide (t.target = f.output) := by
    rw [List.filter_filter]
    exact List.filter_congr fun t _ => by
      by_cases hs : t.source = f.input <;> simp [hs]
  refine (List.filter_append_perm
    (fun t => decide (t.source ≠ f.input ∧ t.target ≠ f.output)) f.ties).symm.trans ?_
  rw [hrest, hexits, hentries, ← List.filter_append]
  exact ((List.filter_append_perm (fun t => decide (t.source = f.input)) f.ties).filter _).symm
    |>.append_left _

/-- What lies between the markers are the ties of the inner edges. -/
theorem Bordered.within_eq (h : f.Bordered) : f.within = f.innerEdges.map tieOf := by
  refine (ties_filterEdges _ fun e he => ?_).symm
  have hs := h.source_ne_output e he
  have ht := h.target_ne_input e he
  by_cases hin : e.source = f.input <;> by_cases hout : e.target = f.output <;>
    simp [isMarker, tieOf, hs, ht, hin, hout]

/-! ## What is left at the end

The lookup takes the last of several edges for an object. With a border there are not several, and
the order of edges does not matter. -/

/-- The lookup finds the one edge to the output marker for an object. -/
theorem Bordered.at?_outputs_iff (h : f.Bordered) {o : ObjectId} {e : Edge Link} :
    Table.at? f.outputs o = some e ↔
      e ∈ f.graph.edges ∧ e.target = f.output ∧ e.data.object.id = some o :=
  Flow.at?_outputs_iff h.last

/-- The maker of an object is the source of the one tie that leaves it, with the pin. -/
theorem Bordered.maker?_eq_some_iff (h : f.Bordered) {o : ObjectId} {m : NodeId × Option String} :
    f.maker? o = some m ↔
      ∃ t ∈ f.exits, t.data.object.id = some o ∧ (t.source, t.data.sourcePin) = m := by
  rw [maker?, Option.map_eq_some_iff]
  constructor
  · rintro ⟨e, he, rfl⟩
    obtain ⟨hm, ht, ho⟩ := h.at?_outputs_iff.1 he
    exact ⟨tieOf e, mem_exits.2 ⟨mem_ties.2 ⟨e, hm, rfl⟩, ht⟩, ho, rfl⟩
  · rintro ⟨t, ht, ho, rfl⟩
    obtain ⟨ht, hout⟩ := mem_exits.1 ht
    obtain ⟨e, he, rfl⟩ := mem_ties.1 ht
    exact ⟨e, h.at?_outputs_iff.2 ⟨he, hout, ho⟩, rfl⟩

/-- What leaves an object is no marker. -/
theorem Bordered.maker_inner (h : f.Bordered) {o : ObjectId} {m : NodeId × Option String}
    (hm : f.maker? o = some m) : m.1 ∈ f.graph.nodeIds ∧ m.1 ≠ f.input ∧ m.1 ≠ f.output := by
  obtain ⟨t, ht, -, rfl⟩ := h.maker?_eq_some_iff.1 hm
  exact h.exit_source ht

/-- Each object is left by one tie just if it is left by one edge. -/
theorem last_iff (hd : (f.graph.edges.map Edge.id).Nodup) :
    (∀ e ∈ f.graph.edges, ∀ e' ∈ f.graph.edges, ∀ o, e.target = f.output →
      e'.target = f.output → e.data.object.id = some o → e'.data.object.id = some o → e = e') ↔
        ∀ o, (f.exits.filter fun t => t.data.object.id = some o).length ≤ 1 := by
  have hlength : ∀ o, (f.exits.filter fun t => t.data.object.id = some o).length =
      (f.graph.edges.filter fun e =>
        e.target = f.output ∧ e.data.object.id = some o).length := by
    intro o
    rw [exits, List.filter_filter, ← ties_filterEdges (f := f) _ fun e _ => rfl, List.length_map]
    refine congrArg List.length (List.filter_congr fun e _ => ?_)
    by_cases hout : e.target = f.output <;> by_cases ho : e.data.object.id = some o <;>
      simp [tieOf, hout, ho]
  have hnodup := List.Nodup.of_map _ hd
  simp only [hlength, length_le_one_iff (hnodup.filter _), List.mem_filter, decide_eq_true_eq]
  constructor
  · rintro h o e ⟨he, ht, ho⟩ e' ⟨he', ht', ho'⟩
    exact h e he e' he' o ht ht' ho ho'
  · intro h e he e' he' o ht ht' ho ho'
    exact h o e ⟨he, ht, ho⟩ e' ⟨he', ht', ho'⟩

end ObjectFlow.Flow
