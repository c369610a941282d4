import ObjectFlow.Proofs.Flow.Extended
import ObjectFlow.Proofs.Flow.Valid

/-!
# New handles for the bodies of a later recording

All graphs of a later recording but its root get places behind those of the first one, in their
order, and every reference to a body follows it (`at?_moved`). So the two recordings together pass
their check again (`Bounded.joined`).

## Outline

1. *Places.* The root of the later recording is taken out, so the graphs behind it move up by one
   (`Handle.skipping`). This keeps the order and the difference of all others, so a body still comes
   after the graph of its call.
2. *Graphs.* A graph with new handles has the edges and the border that it had, and the bodies to
   which it refers are the places of those it referred to before (`handlesOf_rehandled`).
3. *The two together.* A graph is the common root, one of the first recording, or one of the later
   recording at its place (`joined_cases`). Each passes by itself (`passable_extended`,
   `Passable.renumbered`). That no body belongs to two calls is a statement about all graphs at
   once: the list of all bodies is, up to order, that of the first recording followed by the places
   of the later one (`bodies_joined_perm`).
-/

namespace ObjectFlow

/-- The place of a graph among the others when the root is taken out. -/
def Handle.skipping (h root : Handle) : Nat :=
  if h.index < root.index then h.index else h.index - 1

/-- Different graphs get different places. -/
theorem Handle.skipping_inj {h h' root : Handle} (hne : h ≠ root) (hne' : h' ≠ root)
    (heq : h.skipping root = h'.skipping root) : h = h' := by
  obtain ⟨i⟩ := h
  obtain ⟨j⟩ := h'
  obtain ⟨k⟩ := root
  simp only [ne_eq, Handle.mk.injEq, skipping] at *
  split at heq <;> split at heq <;> omega

/-- Graphs keep their order. -/
theorem Handle.skipping_lt {h h' root : Handle} (hne : h ≠ root) (hne' : h' ≠ root)
    (hlt : h.index < h'.index) : h.skipping root < h'.skipping root := by
  obtain ⟨i⟩ := h
  obtain ⟨j⟩ := h'
  obtain ⟨k⟩ := root
  simp only [ne_eq, Handle.mk.injEq, skipping] at *
  split <;> split <;> omega

namespace Recording

/-! ## All graphs but the root

The root may be at any place of the list. Removing the entry of its handle is removing what stands
at its index. -/

/-- Of numbered graphs the one with a number is that at its place. -/
theorem filter_handles_eq (gs : List Flow) (n k : Nat) :
    (((gs.zipIdx n).map fun g => ((⟨g.2⟩ : Handle), g.1)).filter fun g => g.1 ≠ ⟨n + k⟩) =
      ((gs.zipIdx n).map fun g => ((⟨g.2⟩ : Handle), g.1)).eraseIdx k := by
  induction gs generalizing n k with
  | nil => rfl
  | cons g gs ih =>
    rw [List.zipIdx_cons, List.map_cons]
    cases k with
    | zero =>
      rw [List.filter_cons_of_neg (by simp), List.eraseIdx_cons_zero, List.filter_eq_self]
      intro x hx
      obtain ⟨y, hy, rfl⟩ := List.mem_map.1 hx
      have hle := List.le_snd_of_mem_zipIdx hy
      refine decide_eq_true fun heq => ?_
      have := congrArg Handle.index heq
      simp only at this
      omega
    | succ k =>
      rw [List.filter_cons_of_pos (by simp), List.eraseIdx_cons_succ, ← ih (n + 1) k,
        Nat.add_right_comm, Nat.add_assoc]

variable {r later : Recording} {s : Supply}

/-- The graphs that are no root. -/
theorem others_eq (r : Recording) : (r.handles.filter fun g => g.1 ≠ r.root) =
    r.handles.eraseIdx r.root.index := by
  have := filter_handles_eq r.graphs 0 r.root.index
  rwa [Nat.zero_add] at this

theorem map_snd_handles (r : Recording) : r.handles.map Prod.snd = r.graphs := by
  rw [handles, List.map_map]
  exact List.zipIdx_map_fst 0 r.graphs

theorem map_snd_others (r : Recording) : (r.handles.filter fun g => g.1 ≠ r.root).map Prod.snd =
    r.graphs.eraseIdx r.root.index := by
  rw [others_eq, ← List.eraseIdx_map, map_snd_handles]

theorem map_fst_others (r : Recording) : (r.handles.filter fun g => g.1 ≠ r.root).map Prod.fst =
    ((List.range r.graphs.length).map Handle.mk).eraseIdx r.root.index := by
  have hfst : r.handles.map Prod.fst = (List.range r.graphs.length).map Handle.mk := by
    rw [handles, List.map_map, List.range_eq_range', ← List.zipIdx_map_snd, List.map_map]
    rfl
  rw [others_eq, ← List.eraseIdx_map, hfst]

/-- Where a graph of a later recording stands behind those of the first one. -/
def place (r later : Recording) (h : Handle) : Handle :=
  ⟨r.graphs.length + h.skipping later.root⟩

/-- Every graph of the later recording but its root has a new handle. -/
theorem at?_moved (r : Recording) {h : Handle} (hlt : h.index < later.graphs.length)
    (hne : h ≠ later.root) : Table.at? (r.moved later) h = some (r.place later h) := by
  have hinj : Function.Injective Handle.mk := fun i j heq => congrArg Handle.index heq
  unfold moved
  rw [map_fst_others]
  refine Table.at?_of_mem ?_ (List.mem_map.2 ⟨(h, h.skipping later.root), ?_, rfl⟩)
  · rw [Table.keys, List.map_map]
    show (List.map Prod.fst (List.zipIdx _)).Nodup
    rw [List.zipIdx_map_fst]
    exact (List.nodup_range.map hinj).sublist (List.eraseIdx_sublist _ _)
  · obtain ⟨i⟩ := h
    have hik : i ≠ later.root.index := fun heq => hne (congrArg Handle.mk heq)
    rw [List.mk_mem_zipIdx_iff_getElem?, List.getElem?_eraseIdx, Handle.skipping]
    dsimp only at hlt ⊢
    by_cases hlt' : i < later.root.index
    · rw [if_pos hlt', if_pos hlt', List.getElem?_map, List.getElem?_range hlt]
      rfl
    · rw [if_neg hlt', if_neg (by omega), List.getElem?_map, List.getElem?_range (by omega)]
      exact congrArg some (congrArg Handle.mk (by omega))

/-! ## Graphs with new handles

The nodes of a graph refer to bodies, and only the references change. -/

/-- The bodies that nodes refer to. -/
def handlesOf (ns : Table NodeId Flow.Node) : List Handle :=
  ns.filterMap fun n => n.2.call?.bind Flow.Call.body

/-- The bodies of a graph are those to which its nodes refer. -/
theorem bodyHandles_eq (f : Flow) : bodyHandles f = handlesOf f.graph.nodes := by
  rw [bodyHandles, bodies, Flow.calls, List.filterMap_filterMap, List.map_filterMap, handlesOf]
  refine List.filterMap_congr fun n _ => ?_
  cases n.2.call? with
  | none => rfl
  | some c => cases hb : c.body <;> simp [hb]

theorem mem_bodyHandles {f : Flow} {h : Handle} :
    h ∈ bodyHandles f ↔ ∃ b ∈ bodies f, b.2 = h := List.mem_map

theorem handlesOf_append (ns ms : Table NodeId Flow.Node) :
    handlesOf (ns ++ ms) = handlesOf ns ++ handlesOf ms := List.filterMap_append

/-- Every reference follows its body. -/
theorem handlesOf_rehandled (r : Recording) {ns : Table NodeId Flow.Node}
    (h : ∀ b ∈ handlesOf ns, b.index < later.graphs.length ∧ b ≠ later.root) :
    handlesOf (ns.map fun n => (n.1, n.2.rehandled (r.moved later))) =
      (handlesOf ns).map (r.place later) := by
  unfold handlesOf at h ⊢
  rw [List.filterMap_map, List.map_filterMap]
  refine List.filterMap_congr fun n hn => ?_
  obtain ⟨id, x⟩ := n
  cases x with
  | input => rfl
  | output => rfl
  | call c =>
    show c.body.bind _ = c.body.map _
    cases hb : c.body with
    | none => rfl
    | some b =>
      obtain ⟨hlt, hne⟩ := h b (List.mem_filterMap.2 ⟨(id, .call c), hn, hb⟩)
      rw [Option.bind_some, at?_moved r hlt hne, Option.map_some]

end Recording

namespace Flow

theorem wellFormed_renumbered {f : Flow} (h : f.graph.WellFormed) (moved : Table Handle Handle) :
    (f.renumbered moved).graph.WellFormed := by
  rw [← rehandle_nodeIds h.nodes_nodup]
  exact wellFormed_rehandle h _ moved

@[simp] theorem nodeIds_renumbered (f : Flow) (moved : Table Handle Handle) :
    (f.renumbered moved).graph.nodeIds = f.graph.nodeIds := by
  show List.map Prod.fst (List.map _ _) = _
  rw [List.map_map]
  rfl

/-- New handles leave the border. -/
theorem Bordered.renumbered {f : Flow} (h : f.Bordered) (moved : Table Handle Handle) :
    (f.renumbered moved).Bordered :=
  ⟨wellFormed_renumbered h.wellFormed moved, h.target_ne_input, h.source_ne_output, h.not_across,
    h.last⟩

end Flow

namespace Recording

open ObjectFlow.Flow

/-- A recording that passes its check and whose graphs have a border. -/
structure Bounded (r : Recording) : Prop where
  valid : r.validate = .ok ()
  bordered : ∀ f ∈ r.graphs, f.Bordered

variable {r later : Recording} {s : Supply}

theorem Bounded.checked (h : r.Bounded) : r.Checked := validate_eq_ok_iff.1 h.valid

/-- Recorded graphs have a border. -/
theorem Kept.bounded (h : r.Kept s) : r.Bounded :=
  ⟨h.validate_eq_ok, fun f hf => by
    obtain ⟨i, hi⟩ := List.getElem?_of_mem hf
    exact (h.recorded i f hi).bordered⟩

theorem Checked.passable_root (h : r.Checked) {f : Flow} (hf : r.rootGraph? = some f) :
    r.Passable r.root.index f := h.passable _ f hf

theorem Passable.body {i : Nat} {f : Flow} (h : r.Passable i f) {b : Handle}
    (hb : b ∈ bodyHandles f) : r.Nestable i b := by
  obtain ⟨x, hx, rfl⟩ := mem_bodyHandles.1 hb
  exact h.nestable x hx

/-! ## Joining

What the join does to the lists of graphs, given that the roots can be put together. -/

/-- The graphs of a later recording that become bodies behind those of the first one. -/
def taken (r later : Recording) : List Flow :=
  (later.graphs.eraseIdx later.root.index).map fun g => g.renumbered (r.moved later)

/-- Two recordings with one root. -/
def joined (r later : Recording) (root : Flow) : Recording :=
  { r with graphs := r.graphs ++ r.taken later }.set r.root root

/-- If the roots can be put together, so can the recordings. -/
theorem join_eq (hr : r.validate = .ok ()) (hl : later.Bounded) {f g root : Flow} {s' : Supply}
    (hf : r.rootGraph? = some f) (hg : later.rootGraph? = some g)
    (hroot : f.append s g (r.moved later) = .ok (root, s')) :
    r.join later s = .ok (r.joined later root, s') := by
  have hbodies : ((later.handles.filter fun g => g.1 ≠ later.root).map fun g =>
      g.2.rehandle g.2.graph.nodeIds (r.moved later)) = r.taken later := by
    rw [taken, ← map_snd_others, List.map_map]
    refine List.map_congr_left fun x hx => ?_
    have hx : x.2 ∈ later.graphs :=
      map_snd_handles later ▸ List.mem_map_of_mem (List.mem_of_mem_filter hx)
    exact rehandle_nodeIds (hl.bordered _ hx).wellFormed.nodes_nodup _
  rw [join, hr, hl.valid, Outcome.ok_bind, Outcome.ok_bind]
  dsimp only
  rw [hf, hg, hbodies]
  dsimp only
  rw [hroot]
  rfl

/-- Every body is a graph of the recording other than the root. -/
theorem Checked.body_lt (h : r.Checked) {b : Handle} (hb : b ∈ r.graphs.flatMap bodyHandles) :
    b.index < r.graphs.length ∧ b ≠ r.root := by
  obtain ⟨f, hf, hb⟩ := List.mem_flatMap.1 hb
  obtain ⟨i, hi⟩ := List.getElem?_of_mem hf
  have hn := (h.passable i f hi).body hb
  exact ⟨hn.lt, hn.ne_root⟩

theorem Checked.node_body_lt (h : r.Checked) {f : Flow} (hf : f ∈ r.graphs)
    {n : NodeId × Flow.Node} (hn : n ∈ f.graph.nodes) {b : Handle}
    (hb : n.2.call?.bind Call.body = some b) : b.index < r.graphs.length ∧ b ≠ r.root := by
  refine h.body_lt (List.mem_flatMap.2 ⟨f, hf, ?_⟩)
  rw [bodyHandles_eq]
  exact List.mem_filterMap.2 ⟨n, hn, hb⟩

@[simp] theorem length_joined (r later : Recording) (root : Flow) :
    (r.joined later root).graphs.length = r.graphs.length + (r.taken later).length := by
  simp [joined, set]

/-- All graphs of the later recording but one are taken. -/
theorem length_taken (hl : later.Checked) :
    (r.taken later).length + 1 = later.graphs.length := by
  have hlt := hl.root_lt
  rw [taken, List.length_map, List.length_eraseIdx_of_lt hlt]
  omega

/-- The root of the two together is the new one. -/
theorem rootGraph?_joined (hr : r.Checked) (root : Flow) :
    (r.joined later root).rootGraph? = some root := by
  show (List.set _ _ _)[_]? = _
  exact List.getElem?_set_self (List.length_append ▸ Nat.lt_add_right _ hr.root_lt)

/-- A graph of the two recordings together is the root, belongs to the first, or to the second. -/
theorem joined_cases {root x : Flow} {i : Nat} (hx : (r.joined later root).graphs[i]? = some x) :
    (i = r.root.index ∧ x = root) ∨ (i ≠ r.root.index ∧ r.graphs[i]? = some x) ∨
      ∃ h g, h ≠ later.root ∧ later.graph? h = some g ∧ i = (r.place later h).index ∧
        x = g.renumbered (r.moved later) := by
  change ((r.graphs ++ r.taken later).set r.root.index root)[i]? = some x at hx
  rw [List.getElem?_set] at hx
  split at hx
  · rename_i hi
    split at hx
    · exact .inl ⟨hi.symm, (Option.some.inj hx).symm⟩
    · cases hx
  · rename_i hi
    rcases Nat.lt_or_ge i r.graphs.length with hlt | hge
    · rw [List.getElem?_append_left hlt] at hx
      exact .inr (.inl ⟨Ne.symm hi, hx⟩)
    · rw [List.getElem?_append_right hge, taken, List.getElem?_map] at hx
      obtain ⟨g, hg, rfl⟩ := Option.map_eq_some_iff.1 hx
      rw [List.getElem?_eraseIdx] at hg
      refine .inr (.inr ?_)
      by_cases hlt : i - r.graphs.length < later.root.index
      · rw [if_pos hlt] at hg
        refine ⟨⟨i - r.graphs.length⟩, g, fun heq => ?_, hg, ?_, rfl⟩
        · exact absurd hlt (Nat.not_lt.2 (heq ▸ Nat.le_refl _))
        · rw [place, Handle.skipping, if_pos hlt]
          exact (Nat.add_sub_of_le hge).symm
      · rw [if_neg hlt] at hg
        refine ⟨⟨i - r.graphs.length + 1⟩, g, fun heq => ?_, hg, ?_, rfl⟩
        · exact hlt (heq ▸ Nat.lt_succ_self _)
        · rw [place, Handle.skipping, if_neg (fun h => hlt (Nat.lt_of_succ_lt h))]
          exact (Nat.add_sub_of_le hge).symm

/-! ## The two recordings together

The check is passed because each graph passes and no body occurs twice. -/

/-- Replacing one graph of a list adds the new bodies of it. -/
theorem flatMap_set_perm {gs : List Flow} {i : Nat} {x y : Flow} (hy : gs[i]? = some y)
    {F : Flow → List Handle} {hs : List Handle} (h : F x = F y ++ hs) :
    ((gs.set i x).flatMap F).Perm (gs.flatMap F ++ hs) := by
  obtain ⟨hi, rfl⟩ := List.getElem?_eq_some_iff.1 hy
  have hset : (gs.set i x).Perm (x :: gs.eraseIdx i) := by
    have := List.getElem_cons_eraseIdx_perm (l := gs.set i x) (n := i) (by simpa using hi)
    rw [List.getElem_set_self, List.eraseIdx_set_eq] at this
    exact this.symm
  refine (hset.flatMap_right F).trans (.trans ?_
    (((List.getElem_cons_eraseIdx_perm hi).flatMap_right F).append_right hs))
  rw [List.flatMap_cons, List.flatMap_cons, h, List.append_assoc, List.append_assoc]
  exact List.perm_append_comm.append_left _

/-- What the bodies of the two recordings together are. -/
theorem bodies_joined_perm (hr : r.Checked) (hl : later.Checked) {f g root : Flow}
    (hf : r.rootGraph? = some f) (hg : later.rootGraph? = some g) (hroot : root.graph.nodes =
      f.graph.nodes ++ g.innerNodes.map fun n => (n.1, n.2.rehandled (r.moved later))) :
    ((r.joined later root).graphs.flatMap bodyHandles).Perm (r.graphs.flatMap bodyHandles ++
      (((later.graphs.eraseIdx later.root.index).flatMap bodyHandles) ++
        handlesOf g.innerNodes).map (r.place later)) := by
  have hgmem : g ∈ later.graphs := List.mem_of_getElem? hg
  have hinner : ∀ b ∈ handlesOf g.innerNodes, b.index < later.graphs.length ∧ b ≠ later.root := by
    intro b hb
    refine hl.body_lt (List.mem_flatMap.2 ⟨g, hgmem, ?_⟩)
    rw [bodyHandles_eq]
    exact (List.filter_sublist.filterMap _).subset hb
  have hothers : ((r.taken later).flatMap bodyHandles) =
      ((later.graphs.eraseIdx later.root.index).flatMap bodyHandles).map (r.place later) := by
    rw [taken, List.flatMap_map, List.map_flatMap]
    refine List.flatMap_congr fun x hx => ?_
    rw [bodyHandles_eq, bodyHandles_eq]
    refine handlesOf_rehandled r fun b hb => hl.body_lt (List.mem_flatMap.2 ⟨x, ?_, ?_⟩)
    · exact List.mem_of_mem_eraseIdx hx
    · rwa [bodyHandles_eq]
  have hnew : bodyHandles root =
      bodyHandles f ++ (handlesOf g.innerNodes).map (r.place later) := by
    rw [bodyHandles_eq, hroot, handlesOf_append, handlesOf_rehandled r hinner, bodyHandles_eq]
  have hroot' : (r.graphs ++ r.taken later)[r.root.index]? = some f := by
    rw [List.getElem?_append_left hr.root_lt]
    exact hf
  refine (flatMap_set_perm hroot' hnew).trans (List.Perm.of_eq ?_)
  rw [List.flatMap_append, hothers, List.map_append, List.append_assoc]

/-- No body of the two together belongs to two calls. -/
theorem bodies_joined_nodup (hr : r.Checked) (hl : later.Checked) {f g root : Flow}
    (hf : r.rootGraph? = some f) (hg : later.rootGraph? = some g) (hroot : root.graph.nodes =
      f.graph.nodes ++ g.innerNodes.map fun n => (n.1, n.2.rehandled (r.moved later))) :
    ((r.joined later root).graphs.flatMap bodyHandles).Nodup := by
  obtain ⟨hk, rfl⟩ := List.getElem?_eq_some_iff.1 hg
  set others := (later.graphs.eraseIdx later.root.index).flatMap bodyHandles
  have hsub : (handlesOf later.graphs[later.root.index].innerNodes ++ others).Subperm
      (later.graphs.flatMap bodyHandles) := by
    refine List.Subperm.trans (List.Sublist.subperm ?_)
      ((List.getElem_cons_eraseIdx_perm hk).flatMap_right bodyHandles).subperm
    rw [List.flatMap_cons, bodyHandles_eq]
    exact (List.filter_sublist.filterMap _).append_right _
  have hd : (handlesOf later.graphs[later.root.index].innerNodes ++ others).Nodup := by
    obtain ⟨l, hperm, hl'⟩ := hsub
    exact hperm.nodup (hl.bodies_nodup.sublist hl')
  have hmem : ∀ b ∈ others ++ handlesOf later.graphs[later.root.index].innerNodes,
      b ≠ later.root := fun b hb =>
    (hl.body_lt (hsub.subset (List.perm_append_comm.subset hb))).2
  refine (bodies_joined_perm hr hl hf hg hroot).symm.nodup (List.nodup_append.2
    ⟨hr.bodies_nodup, ?_, fun b hb b' hb' heq => ?_⟩)
  · refine List.Nodup.map_on (fun b hb b' hb' heq => ?_)
      (List.perm_append_comm.nodup hd)
    refine Handle.skipping_inj (hmem b hb) (hmem b' hb') ?_
    exact Nat.add_left_cancel (congrArg Handle.index heq)
  · obtain ⟨x, -, rfl⟩ := List.mem_map.1 hb'
    have hlt := (hr.body_lt hb).1
    rw [heq, place] at hlt
    exact absurd hlt (Nat.not_lt.2 (Nat.le_add_right _ _))

/-- A body of the first recording stands where it stood. -/
theorem Nestable.joined {this : Nat} {b : Handle} (h : r.Nestable this b) (root : Flow) :
    (r.joined later root).Nestable this b :=
  ⟨h.after, length_joined r later root ▸ Nat.lt_add_right _ h.lt, h.ne_root⟩

/-- A body of the later recording stands behind all graphs of the first one. -/
theorem placed_nestable (hr : r.Checked) (hl : later.Checked) {root : Flow} {b : Handle}
    (hlt : b.index < later.graphs.length) (hne : b ≠ later.root) {this : Nat}
    (hthis : this < (r.place later b).index) :
    (r.joined later root).Nestable this (r.place later b) := by
  have hlen := length_taken (r := r) hl
  have hskip : b.skipping later.root < (r.taken later).length := by
    obtain ⟨j⟩ := b
    have hjk : j ≠ later.root.index := fun heq => hne (congrArg Handle.mk heq)
    have hk := hl.root_lt
    unfold Handle.skipping
    dsimp only at hlt ⊢
    split <;> omega
  refine ⟨hthis, length_joined r later root ▸ Nat.add_lt_add_left hskip _, fun heq => ?_⟩
  have hle : r.graphs.length ≤ (r.place later b).index := Nat.le_add_right _ _
  rw [congrArg Handle.index heq] at hle
  exact absurd hr.root_lt (Nat.not_lt.2 hle)

/-- The common root passes. -/
theorem passable_extended (hr : r.Checked) (hl : later.Checked) {f g root : Flow}
    (hf : r.rootGraph? = some f) (hg : later.rootGraph? = some g) {s s' : Supply}
    (hx : f.Extendable g) (h : f.Extended g (r.moved later) s root s') :
    (r.joined later root).Passable r.root.index root := by
  have hfp := hr.passable_root hf
  have hgp := hl.passable_root hg
  have hinner : ∀ b ∈ handlesOf g.innerNodes, later.Nestable later.root.index b := fun b hb =>
    hgp.body (by
      rw [bodyHandles_eq]
      exact (List.filter_sublist.filterMap _).subset hb)
  refine ⟨?_, ?_, ?_, fun z hz => ?_⟩
  · rw [Graph.hasNode_iff, h.input_eq]
    exact h.mem_nodeIds_of_first (Graph.hasNode_iff.1 hfp.hasInput)
  · rw [Graph.hasNode_iff, h.output_eq]
    exact h.mem_nodeIds_of_first (Graph.hasNode_iff.1 hfp.hasOutput)
  · exact (Graph.isAcyclic_iff h.wellFormed).2 (h.acyclic hx
      ((Graph.isAcyclic_iff hx.first.wellFormed).1 hfp.acyclic)
      ((Graph.isAcyclic_iff hx.second.wellFormed).1 hgp.acyclic))
  · have hmem : z.2 ∈ bodyHandles root := List.mem_map_of_mem hz
    rw [bodyHandles_eq, h.nodes_eq, handlesOf_append, handlesOf_rehandled r fun b hb =>
      ⟨(hinner b hb).lt, (hinner b hb).ne_root⟩, ← bodyHandles_eq] at hmem
    rcases List.mem_append.1 hmem with hm | hm
    · exact (hfp.body hm).joined root
    · obtain ⟨b, hb, heq⟩ := List.mem_map.1 hm
      rw [← heq]
      exact placed_nestable hr hl (hinner b hb).lt (hinner b hb).ne_root
        (Nat.lt_add_right _ hr.root_lt)

/-- A body of the later recording passes at its new place. -/
theorem Passable.renumbered (hr : r.Checked) (hl : later.Checked) {root y : Flow} {b : Handle}
    (hb : b ≠ later.root) (h : later.Passable b.index y) (hy : y.graph.WellFormed) :
    (r.joined later root).Passable (r.place later b).index (y.renumbered (r.moved later)) := by
  refine ⟨?_, ?_, ?_, fun z hz => ?_⟩
  · rw [Graph.hasNode_iff, nodeIds_renumbered]
    exact Graph.hasNode_iff.1 h.hasInput
  · rw [Graph.hasNode_iff, nodeIds_renumbered]
    exact Graph.hasNode_iff.1 h.hasOutput
  · rw [Graph.isAcyclic_iff (wellFormed_renumbered hy _)]
    exact (Graph.isAcyclic_iff hy).1 h.acyclic
  · have hbodies : bodyHandles (y.renumbered (r.moved later)) =
        (bodyHandles y).map (r.place later) := by
      rw [bodyHandles_eq, bodyHandles_eq]
      refine handlesOf_rehandled r fun c hc => ?_
      rw [← bodyHandles_eq] at hc
      exact ⟨(h.body hc).lt, (h.body hc).ne_root⟩
    have hmem : z.2 ∈ bodyHandles (y.renumbered (r.moved later)) := List.mem_map_of_mem hz
    rw [hbodies] at hmem
    obtain ⟨c, hc, heq⟩ := List.mem_map.1 hmem
    have hn := h.body hc
    rw [← heq]
    exact placed_nestable hr hl hn.lt hn.ne_root
      (Nat.add_lt_add_left (Handle.skipping_lt hb hn.ne_root hn.after) _)

/-- Two recordings together pass their check and have borders. -/
theorem Bounded.joined (hr : r.Bounded) (hl : later.Bounded) {f g root : Flow}
    (hf : r.rootGraph? = some f) (hg : later.rootGraph? = some g) {s s' : Supply}
    (hx : f.Extendable g) (h : f.Extended g (r.moved later) s root s') :
    (r.joined later root).Bounded := by
  have hrc := hr.checked
  have hlc := hl.checked
  refine ⟨validate_eq_ok_iff.2 ⟨?_, fun i x hi => ?_,
    bodies_joined_nodup hrc hlc hf hg h.nodes_eq⟩, fun x hxm => ?_⟩
  · rw [length_joined]
    exact Nat.lt_add_right _ hrc.root_lt
  · rcases joined_cases hi with ⟨rfl, rfl⟩ | ⟨-, hi⟩ | ⟨b, y, hb, hy, rfl, rfl⟩
    · exact passable_extended hrc hlc hf hg hx h
    · have hp := hrc.passable i x hi
      exact ⟨hp.hasInput, hp.hasOutput, hp.acyclic, fun b hb => (hp.nestable b hb).joined root⟩
    · exact (hlc.passable _ y hy).renumbered hrc hlc hb
        (hl.bordered y (List.mem_of_getElem? hy)).wellFormed
  · obtain ⟨i, hi⟩ := List.getElem?_of_mem hxm
    rcases joined_cases hi with ⟨-, rfl⟩ | ⟨-, hi⟩ | ⟨b, y, -, hy, -, rfl⟩
    · exact h.bordered hx
    · exact hr.bordered x (List.mem_of_getElem? hi)
    · exact (hl.bordered y (List.mem_of_getElem? hy)).renumbered _

end Recording

end ObjectFlow
