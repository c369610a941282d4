import ObjectFlow.Proofs.Flow.Extend
import ObjectFlow.Proofs.Graph.Order

/-!
# What a graph is like that took up a later one

It has a border again (`Extended.bordered`) and no cycle (`Extended.acyclic`), it leaves what the
later graph leaves and else what the first one left (`Extended.maker?_eq`), and its ties are known
by whether they come from outside, are left at the end or lie in between (`Extended.entries_perm`,
`Extended.exits_perm`, `Extended.within_perm`). Piece by piece this gives the same for three graphs,
whichever two of them are put together first (`ties_assoc`).

That there is no cycle is shown by a rank (`laidOut`): the nodes of the first graph keep theirs,
those of the later one come behind, and the output marker last of all. For three graphs the three
kinds of ties are compared one by one. The ties from outside of the third graph are the ones that
take some work, as an object may have been left by the second graph, or by the first and not by the
second (`handed_perm`).
-/

namespace ObjectFlow.Flow

variable {f later g : Flow} {moved : Table Handle Handle} {s s' : Supply}

/-! ## Ties of a later graph

A tie from outside is handed to the maker of its object, if there is one, and to the input marker of
the first graph otherwise. -/

@[simp] theorem handed_data_id (f : Flow) (t : Tie) :
    (t.handed f).data.object.id = t.data.object.id := by
  unfold Tie.handed
  split <;> rfl

/-- An object that was left comes from where it was left. -/
theorem handed_of_made {t : Tie} {m : NodeId × Option String} (h : t.made f = some m) :
    t.handed f = ⟨m.1, t.target, { t.data with sourcePin := m.2 }⟩ := by
  rw [Tie.handed, h]

/-- An object that was not left comes from outside. -/
theorem handed_of_not_made {t : Tie} (h : t.made f = none) :
    t.handed f = ⟨f.input, t.target, { t.data with sourcePin := none }⟩ := by
  rw [Tie.handed, h]

/-- A tie comes from outside still if nothing was left that it could come from. -/
theorem Bordered.handed_source_iff (hf : f.Bordered) (t : Tie) :
    (t.handed f).source = f.input ↔ t.made f = none := by
  cases hm : t.made f with
  | none => rw [handed_of_not_made hm]; exact iff_of_true rfl rfl
  | some m =>
    obtain ⟨o, -, ho⟩ := Option.bind_eq_some_iff.1 hm
    rw [handed_of_made hm]
    exact iff_of_false (hf.maker_inner ho).2.1 (Option.some_ne_none m)

/-- Nothing is handed over by the output marker. -/
theorem Bordered.handed_source_ne_output (hf : f.Bordered) (hne : f.input ≠ f.output) (t : Tie) :
    (t.handed f).source ≠ f.output := by
  cases hm : t.made f with
  | none => rwa [handed_of_not_made hm]
  | some m =>
    obtain ⟨o, -, ho⟩ := Option.bind_eq_some_iff.1 hm
    rw [handed_of_made hm]
    exact (hf.maker_inner ho).2.2

theorem mem_kept {t : Tie} : t ∈ f.kept later ↔ t ∈ f.ties ∧ f.keeps later t = true :=
  List.mem_filter

/-- What is left at the end stays there if the later graph does not leave it. -/
theorem keeps_of_target_eq {t : Tie} (ht : t.target = f.output) :
    f.keeps later t = (t.made later).isNone := by
  simp [keeps, ht]

theorem keeps_of_target_ne {t : Tie} (ht : t.target ≠ f.output) : f.keeps later t = true := by
  simp [keeps, ht]

/-- The markers of the first graph are no nodes of the later one. -/
theorem Extendable.later_ne (hx : f.Extendable later) {n : NodeId} (hn : n ∈ later.graph.nodeIds) :
    n ≠ f.input ∧ n ≠ f.output :=
  ⟨fun heq => hx.apart.nodes _ hx.input_mem (heq ▸ hn),
    fun heq => hx.apart.nodes _ hx.output_mem (heq ▸ hn)⟩

/-- The nodes of the first graph come before those of the later one, and the output marker last. -/
def laidOut (f later : Flow) (rank rank' : NodeId → Nat) (n : NodeId) : Nat :=
  if n = f.output then f.graph.nodeIds.length + later.graph.nodeIds.length
  else if n ∈ f.graph.nodeIds then rank n
  else f.graph.nodeIds.length + rank' n

theorem laidOut_output (rank rank' : NodeId → Nat) : laidOut f later rank rank' f.output =
    f.graph.nodeIds.length + later.graph.nodeIds.length := if_pos rfl

theorem laidOut_of_mem {rank rank' : NodeId → Nat} {n : NodeId} (hn : n ∈ f.graph.nodeIds)
    (ho : n ≠ f.output) : laidOut f later rank rank' n = rank n := by
  rw [laidOut, if_neg ho, if_pos hn]

namespace Extended

/-! ## Where the ties lead

The three kinds of ties of the graph, in terms of the three kinds of the two graphs it was made
of. -/

/-- A tie was there and stays, or is one of the later graph, between its markers, from outside or
left at the end. -/
theorem tie_cases (h : f.Extended later moved s g s') {t : Tie} (ht : t ∈ g.ties) :
    t ∈ f.kept later ∨ t ∈ later.within ∨ (∃ u ∈ later.entries, u.handed f = t) ∨
      ∃ u ∈ later.exits, u.leftAt f = t := by
  have ht := h.ties_perm.subset ht
  simpa only [brought, List.mem_append, List.mem_map] using ht

variable (h : f.Extended later moved s g s') (hx : f.Extendable later)
include h hx

/-- From outside comes what came into the first graph, and what came into the later one and was not
left by the first. -/
theorem entries_perm : g.entries.Perm (f.entries ++
    (later.entries.map (Tie.handed f)).filter fun t => t.source = f.input) := by
  have hkept : (f.kept later).filter (fun t => decide (t.source = f.input)) = f.entries := by
    rw [kept, List.filter_filter]
    refine List.filter_congr fun t ht => ?_
    by_cases hs : t.source = f.input
    · have hto : t.target ≠ f.output := fun hto => hx.first.not_entry_and_exit ht ⟨hs, hto⟩
      simp [hs, keeps_of_target_ne hto]
    · simp [hs]
  have hwithin : later.within.filter (fun t => decide (t.source = f.input)) = [] :=
    List.filter_eq_nil_iff.2 fun t ht hs =>
      (hx.later_ne (hx.second.source_mem (mem_within.1 ht).1).1).1 (of_decide_eq_true hs)
  have hexits : (later.exits.map (Tie.leftAt f)).filter (fun t => decide (t.source = f.input)) =
      [] := by
    refine List.filter_eq_nil_iff.2 fun t ht hs => ?_
    obtain ⟨u, hu, rfl⟩ := List.mem_map.1 ht
    exact (hx.later_ne (hx.second.exit_source hu).1).1 (of_decide_eq_true hs)
  have hperm := h.ties_perm.filter fun t => decide (t.source = f.input)
  rw [brought, List.filter_append, List.filter_append, List.filter_append, hkept, hwithin, hexits,
    List.append_nil, List.nil_append] at hperm
  rw [entries, h.input_eq]
  exact hperm

/-- Left at the end is what the later graph leaves, and what the first one left and the later does
not. -/
theorem exits_perm : g.exits.Perm ((f.exits.filter fun t => (t.made later).isNone) ++
    later.exits.map (Tie.leftAt f)) := by
  have hkept : (f.kept later).filter (fun t => decide (t.target = f.output)) =
      f.exits.filter fun t => (t.made later).isNone := by
    rw [kept, exits, List.filter_filter, List.filter_filter]
    refine List.filter_congr fun t _ => ?_
    by_cases hto : t.target = f.output
    · simp [hto, keeps_of_target_eq hto]
    · simp [hto]
  have hwithin : later.within.filter (fun t => decide (t.target = f.output)) = [] :=
    List.filter_eq_nil_iff.2 fun t ht hto =>
      (hx.later_ne (hx.second.target_mem (mem_within.1 ht).1).1).2 (of_decide_eq_true hto)
  have hentries : (later.entries.map (Tie.handed f)).filter
      (fun t => decide (t.target = f.output)) = [] := by
    refine List.filter_eq_nil_iff.2 fun t ht hto => ?_
    obtain ⟨u, hu, rfl⟩ := List.mem_map.1 ht
    exact (hx.later_ne (hx.second.entry_target hu).1).2 (handed_target f u ▸ of_decide_eq_true hto)
  have hexits : (later.exits.map (Tie.leftAt f)).filter (fun t => decide (t.target = f.output)) =
      later.exits.map (Tie.leftAt f) := by
    refine List.filter_eq_self.2 fun t ht => decide_eq_true ?_
    obtain ⟨u, -, rfl⟩ := List.mem_map.1 ht
    rfl
  have hperm := h.ties_perm.filter fun t => decide (t.target = f.output)
  rw [brought, List.filter_append, List.filter_append, List.filter_append, hkept, hwithin, hexits,
    hentries, List.nil_append, List.nil_append] at hperm
  rw [exits, h.output_eq]
  exact hperm

/-- In between lies what lay between the markers of each, and what the first graph handed over to
the later one. -/
theorem within_perm : g.within.Perm (f.within ++ (later.within ++
    (later.entries.map (Tie.handed f)).filter fun t => t.source ≠ f.input)) := by
  have hkept : (f.kept later).filter
      (fun t => decide (t.source ≠ f.input ∧ t.target ≠ f.output)) = f.within := by
    rw [kept, List.filter_filter]
    refine List.filter_congr fun t _ => ?_
    by_cases hto : t.target = f.output
    · simp [hto]
    · simp [hto, keeps_of_target_ne hto]
  have hwithin : later.within.filter
      (fun t => decide (t.source ≠ f.input ∧ t.target ≠ f.output)) = later.within := by
    refine List.filter_eq_self.2 fun t ht => decide_eq_true ?_
    have ht := (mem_within.1 ht).1
    exact ⟨(hx.later_ne (hx.second.source_mem ht).1).1, (hx.later_ne (hx.second.target_mem ht).1).2⟩
  have hentries : (later.entries.map (Tie.handed f)).filter
      (fun t => decide (t.source ≠ f.input ∧ t.target ≠ f.output)) =
        (later.entries.map (Tie.handed f)).filter fun t => decide (t.source ≠ f.input) := by
    refine List.filter_congr fun t ht => decide_eq_decide.2 (and_iff_left ?_)
    obtain ⟨u, hu, rfl⟩ := List.mem_map.1 ht
    rw [handed_target]
    exact (hx.later_ne (hx.second.entry_target hu).1).2
  have hexits : (later.exits.map (Tie.leftAt f)).filter
      (fun t => decide (t.source ≠ f.input ∧ t.target ≠ f.output)) = [] := by
    refine List.filter_eq_nil_iff.2 fun t ht hto => ?_
    obtain ⟨u, -, rfl⟩ := List.mem_map.1 ht
    exact (of_decide_eq_true hto).2 rfl
  have hperm := h.ties_perm.filter fun t =>
    decide (t.source ≠ f.input ∧ t.target ≠ f.output)
  rw [brought, List.filter_append, List.filter_append, List.filter_append, hkept, hwithin, hexits,
    hentries, List.append_nil] at hperm
  rw [within, h.input_eq, h.output_eq]
  exact hperm

/-! ## The border

The result is taken up again or takes up another graph, so it must have all that is asked of its
parts. -/

theorem tie_target_ne_input {t : Tie} (ht : t ∈ g.ties) : t.target ≠ f.input := by
  rcases h.tie_cases ht with ht | ht | ⟨u, hu, rfl⟩ | ⟨u, -, rfl⟩
  · exact (hx.first.target_mem (mem_kept.1 ht).1).2
  · exact (hx.later_ne (hx.second.target_mem (mem_within.1 ht).1).1).1
  · rw [handed_target]
    exact (hx.later_ne (hx.second.entry_target hu).1).1
  · exact hx.input_ne_output.symm

theorem tie_source_ne_output {t : Tie} (ht : t ∈ g.ties) : t.source ≠ f.output := by
  rcases h.tie_cases ht with ht | ht | ⟨u, hu, rfl⟩ | ⟨u, hu, rfl⟩
  · exact (hx.first.source_mem (mem_kept.1 ht).1).2
  · exact (hx.later_ne (hx.second.source_mem (mem_within.1 ht).1).1).2
  · exact hx.first.handed_source_ne_output hx.input_ne_output u
  · exact (hx.later_ne (hx.second.exit_source hu).1).2

theorem tie_not_across {t : Tie} (ht : t ∈ g.ties) :
    ¬ (t.source = f.input ∧ t.target = f.output) := by
  rcases h.tie_cases ht with ht | ht | ⟨u, hu, rfl⟩ | ⟨u, hu, rfl⟩
  · exact hx.first.not_entry_and_exit (mem_kept.1 ht).1
  · exact fun hm => (hx.later_ne (hx.second.source_mem (mem_within.1 ht).1).1).1 hm.1
  · rw [handed_target]
    exact fun hm => (hx.later_ne (hx.second.entry_target hu).1).2 hm.2
  · exact fun hm => (hx.later_ne (hx.second.exit_source hu).1).1 hm.1

/-- An object is left by the later graph alone or by the first one alone. -/
theorem length_exits_le_one (o : ObjectId) :
    (g.exits.filter fun t => decide (t.data.object.id = some o)).length ≤ 1 := by
  have hfirst := (last_iff hx.first.wellFormed.edges_nodup).1 hx.first.last o
  have hsecond := (last_iff hx.second.wellFormed.edges_nodup).1 hx.second.last o
  have hlength := ((h.exits_perm hx).filter
    fun t => decide (t.data.object.id = some o)).length_eq
  rw [List.filter_append, List.length_append, List.filter_filter, List.filter_map,
    List.length_map] at hlength
  rw [hlength]
  show _ + (later.exits.filter fun t => decide (t.data.object.id = some o)).length ≤ 1
  cases hm : later.maker? o with
  | none =>
    have hnone : later.exits.filter (fun t => decide (t.data.object.id = some o)) = [] := by
      refine List.filter_eq_nil_iff.2 fun t ht ho => ?_
      have := hx.second.maker?_eq_some_iff.2 ⟨t, ht, of_decide_eq_true ho, rfl⟩
      rw [hm] at this
      cases this
    rw [hnone, List.length_nil, Nat.add_zero]
    refine Nat.le_trans (List.Sublist.length_le ?_) hfirst
    exact List.monotone_filter_right _ fun t ht => (Bool.and_eq_true _ _ ▸ ht).1
  | some m =>
    have hnone : f.exits.filter (fun t => decide (t.data.object.id = some o) &&
        (t.made later).isNone) = [] := by
      refine List.filter_eq_nil_iff.2 fun t _ ht => ?_
      rw [Bool.and_eq_true, decide_eq_true_eq] at ht
      have hmade : t.made later = some m := by rw [Tie.made, ht.1, Option.bind_some, hm]
      rw [hmade] at ht
      cases ht.2
    rwa [hnone, List.length_nil, Nat.zero_add]

/-- The graph has a border again. -/
theorem bordered : g.Bordered := by
  have htie : ∀ e ∈ g.graph.edges, tieOf e ∈ g.ties := fun e he => mem_ties.2 ⟨e, he, rfl⟩
  refine ⟨h.wellFormed, fun e he => ?_, fun e he => ?_, fun e he => ?_,
    (last_iff h.wellFormed.edges_nodup).2 (h.length_exits_le_one hx)⟩
  · rw [h.input_eq]
    exact h.tie_target_ne_input hx (htie e he)
  · rw [h.output_eq]
    exact h.tie_source_ne_output hx (htie e he)
  · rw [h.input_eq, h.output_eq]
    exact h.tie_not_across hx (htie e he)

/-- What is left at the end was left by the later graph or else by the first one. -/
theorem maker?_eq (o : ObjectId) : g.maker? o = (later.maker? o).or (f.maker? o) := by
  have hg := h.bordered hx
  have hexits : ∀ t, t ∈ g.exits ↔
      (t ∈ f.exits ∧ t.made later = none) ∨ ∃ u ∈ later.exits, u.leftAt f = t := by
    intro t
    rw [(h.exits_perm hx).mem_iff, List.mem_append, List.mem_filter,
      Option.isNone_iff_eq_none, List.mem_map]
  refine Option.ext fun m => ?_
  rw [hg.maker?_eq_some_iff, Option.or_eq_some_iff]
  constructor
  · rintro ⟨t, ht, ho, rfl⟩
    rcases (hexits t).1 ht with ⟨ht, hm⟩ | ⟨u, hu, rfl⟩
    · rw [Tie.made, ho] at hm
      exact .inr ⟨hm, hx.first.maker?_eq_some_iff.2 ⟨t, ht, ho, rfl⟩⟩
    · exact .inl (hx.second.maker?_eq_some_iff.2 ⟨u, hu, ho, rfl⟩)
  · rintro (hm | ⟨hm, hm'⟩)
    · obtain ⟨u, hu, ho, rfl⟩ := hx.second.maker?_eq_some_iff.1 hm
      exact ⟨u.leftAt f, (hexits _).2 (.inr ⟨u, hu, rfl⟩), ho, rfl⟩
    · obtain ⟨t, ht, ho, rfl⟩ := hx.first.maker?_eq_some_iff.1 hm'
      exact ⟨t, (hexits t).2 (.inl ⟨ht, by rw [Tie.made, ho]; exact hm⟩), ho, rfl⟩

omit h in
theorem laidOut_of_mem_later {rank rank' : NodeId → Nat} {n : NodeId}
    (hn : n ∈ later.graph.nodeIds) :
    laidOut f later rank rank' n = f.graph.nodeIds.length + rank' n := by
  rw [laidOut, if_neg (hx.later_ne hn).2, if_neg fun hm => hx.apart.nodes n hm hn]

/-- Where neither of the two has a cycle there is none. -/
theorem acyclic (hfa : f.graph.Acyclic) (hla : later.graph.Acyclic) : g.graph.Acyclic := by
  obtain ⟨rank, hrank, hbound⟩ := Graph.exists_rank hx.first.wellFormed hfa
  obtain ⟨rank', hrank', hbound'⟩ := Graph.exists_rank hx.second.wellFormed hla
  have hfirst : ∀ t ∈ f.ties, rank t.source < rank t.target := by
    intro t ht
    obtain ⟨e, he, rfl⟩ := mem_ties.1 ht
    exact hrank e he
  have hsecond : ∀ t ∈ later.ties, rank' t.source < rank' t.target := by
    intro t ht
    obtain ⟨e, he, rfl⟩ := mem_ties.1 ht
    exact hrank' e he
  -- The later part is ranked behind the first, and the output behind both.
  refine Graph.acyclic_of_rank (laidOut f later rank rank') fun e he => ?_
  show laidOut f later rank rank' (tieOf e).source < laidOut f later rank rank' (tieOf e).target
  rcases h.tie_cases (mem_ties.2 ⟨e, he, rfl⟩) with ht | ht | ⟨u, hu, ht⟩ | ⟨u, hu, ht⟩
  · have ht := (mem_kept.1 ht).1
    obtain ⟨hs, hso⟩ := hx.first.source_mem ht
    have hlt := hfirst _ ht
    have hb := hbound _ hs
    rw [laidOut_of_mem hs hso]
    by_cases hto : (tieOf e).target = f.output
    · rw [hto, laidOut_output]
      omega
    · rwa [laidOut_of_mem (hx.first.target_mem ht).1 hto]
  · have ht := (mem_within.1 ht).1
    rw [laidOut_of_mem_later hx (hx.second.source_mem ht).1,
      laidOut_of_mem_later hx (hx.second.target_mem ht).1]
    exact Nat.add_lt_add_left (hsecond _ ht) _
  · have hs := handed_source hx.first hx.input_mem u
    have hb := hbound _ hs
    rw [← ht, laidOut_of_mem hs (hx.first.handed_source_ne_output hx.input_ne_output u),
      handed_target, laidOut_of_mem_later hx (hx.second.entry_target hu).1]
    omega
  · have hs := (hx.second.exit_source hu).1
    have hb := hbound' _ hs
    rw [← ht]
    show laidOut f later rank rank' u.source < laidOut f later rank rank' f.output
    rw [laidOut_output, laidOut_of_mem_later hx hs]
    omega

omit hx in
theorem mem_nodeIds {n : NodeId} (hn : n ∈ g.graph.nodeIds) :
    n ∈ f.graph.nodeIds ∨ n ∈ later.graph.nodeIds := by
  rw [Graph.nodeIds_eq_keys, h.nodes_eq, Table.keys_append, List.mem_append] at hn
  refine hn.imp_right fun hn => ?_
  obtain ⟨x, hx, rfl⟩ := List.mem_map.1 hn
  obtain ⟨y, hy, rfl⟩ := List.mem_map.1 hx
  exact (mem_keys_innerNodes.1 (List.mem_map_of_mem hy)).1

omit hx in
theorem mem_nodeIds_of_first {n : NodeId} (hn : n ∈ f.graph.nodeIds) : n ∈ g.graph.nodeIds := by
  rw [Graph.nodeIds_eq_keys, h.nodes_eq, Table.keys_append]
  exact List.mem_append_left _ hn

omit hx in
/-- The new edges have new identities. -/
theorem apart {k : Flow} (hf : f.Apart k) (hl : later.Apart k) (hk : k.graph.Before s) :
    g.Apart k := by
  refine ⟨fun n hn => ?_, fun e he e' he' => ?_⟩
  · exact (h.mem_nodeIds hn).elim (hf.nodes n) (hl.nodes n)
  · rcases h.edge_cases e he with he | he | hid
    · exact hf.edges e he e' he'
    · exact hl.edges e he e' he'
    · exact fun heq => Nat.not_lt.2 hid (heq ▸ hk.edge_lt e' he')

/-- A graph that took up a later one can take up another one. -/
theorem extendable {k : Flow} (hk : k.Bordered) (hf : f.Apart k) (hl : later.Apart k)
    (hkb : k.graph.Before s) : g.Extendable k :=
  ⟨h.bordered hx, hk, h.apart hf hl hkb, h.input_eq ▸ h.mem_nodeIds_of_first hx.input_mem,
    h.output_eq ▸ h.mem_nodeIds_of_first hx.output_mem,
    h.input_eq ▸ h.output_eq ▸ hx.input_ne_output⟩

/-- What took up a later graph can be taken up itself. -/
theorem extendable_of_first {k : Flow} (hkf : k.Extendable f) (hl : k.Apart later)
    (hkb : k.graph.Before s) : k.Extendable g :=
  ⟨hkf.first, h.bordered hx, (h.apart hkf.apart.symm hl.symm hkb).symm, hkf.input_mem,
    hkf.output_mem, hkf.input_ne_output⟩

end Extended

/-! ## Three graphs

The graphs `a`, `b` and `c` are put together in two ways, with intermediate graphs `ab` and `bc`.
All that is known of the four graphs is that each is `Extended`. -/

/-- What is changed is put behind what is not. -/
theorem map_ite_perm {α : Type} (p : α → Prop) [DecidablePred p] (j : α → α) (l : List α) :
    (l.map fun x => if p x then j x else x).Perm
      ((l.filter fun x => ¬ p x) ++ (l.filter fun x => p x).map j) := by
  induction l with
  | nil => exact List.Perm.refl _
  | cons x l ih =>
    by_cases hx : p x
    · simpa [hx] using (ih.cons (j x)).trans List.perm_middle.symm
    · simpa [hx] using ih.cons x

section Three

variable {a b c ab bc abc abc' : Flow} {m₁ m₂ m₃ m₄ : Table Handle Handle}
  {s₁ s₁' s₂ s₂' s₃ s₃' s₄ s₄' : Supply}

/--
What the third graph takes from outside it takes from the second one if that left it, and else the
second graph would take it from the first one.
-/
theorem handed_perm (hab : a.Extended b m₁ s₁ ab s₁') (hxab : a.Extendable b) (ts : List Tie) :
    (ts.map (Tie.handed ab)).Perm
      (((ts.map (Tie.handed b)).filter fun t => t.source ≠ b.input) ++
        ((ts.map (Tie.handed b)).filter fun t => t.source = b.input).map (Tie.handed a)) := by
  have hone : ∀ t : Tie, t.handed ab =
      if (t.handed b).source = b.input then (t.handed b).handed a else t.handed b := by
    intro t
    have hmade : t.made ab = (t.made b).or (t.made a) := by
      unfold Tie.made
      cases t.data.object.id with
      | none => rfl
      | some o => exact hab.maker?_eq hxab o
    have hsource := hxab.second.handed_source_iff t
    cases hm : t.made b with
    | some m =>
      rw [hm] at hmade
      rw [if_neg fun heq => Option.some_ne_none m (hm.symm.trans (hsource.1 heq)),
        handed_of_made hmade, handed_of_made hm]
    | none =>
      rw [hm, Option.none_or] at hmade
      have hagain : (t.handed b).made a = t.made a := by
        rw [Tie.made, handed_data_id, Tie.made]
      rw [if_pos (hsource.2 hm)]
      cases hma : t.made a with
      | some m =>
        rw [handed_of_made (hmade.trans hma), handed_of_made (hagain.trans hma),
          handed_of_not_made hm]
      | none =>
        rw [handed_of_not_made (hmade.trans hma), handed_of_not_made (hagain.trans hma),
          handed_of_not_made hm, hab.input_eq]
  have hmap : ts.map (Tie.handed ab) = (ts.map (Tie.handed b)).map fun t =>
      if t.source = b.input then t.handed a else t := by
    rw [List.map_map]
    exact List.map_congr_left fun t _ => hone t
  rw [hmap]
  exact map_ite_perm (fun t : Tie => t.source = b.input) (Tie.handed a) _

variable (hab : a.Extended b m₁ s₁ ab s₁') (habc : ab.Extended c m₂ s₂ abc s₂')
  (hbc : b.Extended c m₃ s₃ bc s₃') (habc' : a.Extended bc m₄ s₄ abc' s₄')
  (hxab : a.Extendable b) (hxabc : ab.Extendable c) (hxbc : b.Extendable c)
  (hxabc' : a.Extendable bc)
include hab habc hbc habc' hxab hxabc hxbc hxabc'

/-- The same is left at the end. -/
theorem exits_assoc : abc.exits.Perm abc'.exits := by
  have hfirst : (ab.exits.filter fun t => (t.made c).isNone).Perm
      ((a.exits.filter fun t => (t.made bc).isNone) ++
        (b.exits.filter fun t => (t.made c).isNone).map (Tie.leftAt a)) := by
    refine ((hab.exits_perm hxab).filter _).trans (List.Perm.of_eq ?_)
    rw [List.filter_append, List.filter_filter, List.filter_map]
    refine congrArg (· ++ _) (List.filter_congr fun t _ => ?_)
    have hmade : t.made bc = (t.made c).or (t.made b) := by
      unfold Tie.made
      cases t.data.object.id with
      | none => rfl
      | some o => exact hbc.maker?_eq hxbc o
    rw [hmade]
    cases t.made c <;> cases t.made b <;> rfl
  have hsecond : (c.exits.map (Tie.leftAt b)).map (Tie.leftAt a) = c.exits.map (Tie.leftAt ab) := by
    rw [List.map_map]
    exact List.map_congr_left fun t _ =>
      congrArg (fun n => (⟨t.source, n, t.data⟩ : Tie)) hab.output_eq.symm
  refine (habc.exits_perm hxabc).trans ((hfirst.append_right _).trans ?_)
  refine .trans ?_ (habc'.exits_perm hxabc').symm
  rw [List.append_assoc, ← hsecond, ← List.map_append]
  exact ((hbc.exits_perm hxbc).map _).symm.append_left _

/-- The same comes from outside. -/
theorem entries_assoc : abc.entries.Perm abc'.entries := by
  have hthird : ((c.entries.map (Tie.handed ab)).filter fun t => t.source = ab.input).Perm
      ((((c.entries.map (Tie.handed b)).filter fun t => t.source = b.input).map
        (Tie.handed a)).filter fun t => t.source = a.input) := by
    rw [hab.input_eq]
    refine ((handed_perm hab hxab c.entries).filter _).trans (List.Perm.of_eq ?_)
    have hnone : ((c.entries.map (Tie.handed b)).filter fun t => decide (t.source ≠ b.input)).filter
        (fun t => decide (t.source = a.input)) = [] := by
      refine List.filter_eq_nil_iff.2 fun t ht hs => ?_
      obtain ⟨u, -, rfl⟩ := List.mem_map.1 (List.mem_of_mem_filter ht)
      exact (hxab.later_ne (handed_source hxbc.first hxbc.input_mem u)).1 (of_decide_eq_true hs)
    rw [List.filter_append, hnone, List.nil_append]
  have hbc' := (((hbc.entries_perm hxbc).map (Tie.handed a)).filter
    fun t => decide (t.source = a.input)).append_left a.entries
  rw [List.map_append, List.filter_append] at hbc'
  refine (habc.entries_perm hxabc).trans (.trans ?_ (habc'.entries_perm hxabc').symm)
  refine ((hab.entries_perm hxab).append hthird).trans ?_
  rw [List.append_assoc]
  exact hbc'.symm

/-- The same lies in between. -/
theorem within_assoc : abc.within.Perm abc'.within := by
  have hthird : ((c.entries.map (Tie.handed ab)).filter fun t => t.source ≠ ab.input).Perm
      (((c.entries.map (Tie.handed b)).filter fun t => t.source ≠ b.input) ++
        ((((c.entries.map (Tie.handed b)).filter fun t => t.source = b.input).map
          (Tie.handed a)).filter fun t => t.source ≠ a.input)) := by
    rw [hab.input_eq]
    refine ((handed_perm hab hxab c.entries).filter _).trans (List.Perm.of_eq ?_)
    rw [List.filter_append]
    refine congrArg (· ++ _) (List.filter_eq_self.2 fun t ht => decide_eq_true ?_)
    obtain ⟨u, hu, rfl⟩ := List.mem_map.1 (List.mem_of_mem_filter ht)
    exact (hxab.later_ne (handed_source hxbc.first hxbc.input_mem u)).1
  have hhanded := ((hbc.entries_perm hxbc).map (Tie.handed a)).filter
    fun t => decide (t.source ≠ a.input)
  rw [List.map_append, List.filter_append] at hhanded
  have hleft := (habc.within_perm hxabc).trans
    ((hab.within_perm hxab).append (hthird.append_left c.within))
  have hright := (habc'.within_perm hxabc').trans
    (((hbc.within_perm hxbc).append hhanded).append_left a.within)
  refine hleft.trans (.trans ?_ hright.symm)
  rw [List.append_assoc, List.append_assoc, List.append_assoc, ← List.append_assoc c.within]
  exact ((List.perm_append_comm_assoc _ _ _).append_left _).append_left _

/-- The ties are the same whichever two of three graphs are put together first. -/
theorem ties_assoc : abc.ties.Perm abc'.ties := by
  refine (habc.bordered hxabc).ties_perm.trans (.trans ?_ (habc'.bordered hxabc').ties_perm.symm)
  exact (within_assoc hab habc hbc habc' hxab hxabc hxbc hxabc').append
    ((entries_assoc hab habc hbc habc' hxab hxabc hxbc hxabc').append
      (exits_assoc hab habc hbc habc' hxab hxabc hxbc hxabc'))

end Three

end ObjectFlow.Flow
