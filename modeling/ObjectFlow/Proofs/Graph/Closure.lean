import ObjectFlow.Graph.Closure
import ObjectFlow.Proofs.Graph.Order

/-!
# The closure of an acyclic graph

The closure has the same nodes, and an edge wherever a path leads (`closure_spec`).

The nodes beyond a node are computed from the end of a topological order: those beyond a node are
its successors and what is beyond these, which is known by then. `mem_beyond` follows this
recursion. What it needs of the order is that successors stand behind (`Ordered`), and nothing else.
The edges of the closure are then fresh edges between listed ends, and what is said of them is said
of the list.

`Closes` puts down what a closure is for those who use it, without saying how it was computed: any
two graphs that close the same graph link the same nodes (`Closes.linked_eq`). That is how an
incrementally maintained closure is compared with one that is computed anew.
-/

namespace ObjectFlow.Graph

variable {N E : Type}

/-! ## The nodes beyond a node

 -/

theorem keys_beyond (g : Graph N E) (order : List NodeId) :
    Table.keys (g.beyond order) = order := by
  induction order with
  | nil => rfl
  | cons id rest ih => exact congrArg (id :: ·) ih

/-- What is listed for a node of an order is what it reaches. -/
theorem mem_beyond {g : Graph N E} {order : List NodeId} (ho : g.Ordered order)
    (hd : order.Nodup) {id : NodeId} {l : List NodeId} (hl : (id, l) ∈ g.beyond order) :
    ∀ v, v ∈ l ↔ g.Reaches id v := by
  induction order generalizing id l with
  | nil => cases hl
  | cons first rest ih =>
    rw [List.nodup_cons] at hd
    rcases List.mem_cons.1 hl with heq | hl
    · -- successors come later in the order, so the list is known for each of them
      have hknown : ∀ s, g.Step first s → ∃ k, Table.at? (g.beyond rest) s = some k ∧
          ∀ v, v ∈ k ↔ g.Reaches s v := by
        intro s hs
        have hmem : s ∈ Table.keys (g.beyond rest) := by
          rw [keys_beyond]
          exact ho.1 s hs
        obtain ⟨k, hk⟩ := Table.mem_keys.1 hmem
        have hnd : (Table.keys (g.beyond rest)).Nodup := by
          rw [keys_beyond]
          exact hd.2
        exact ⟨k, Table.at?_of_mem hnd hk, ih ho.2 hd.2 hk⟩
      obtain ⟨rfl, rfl⟩ := Prod.mk.inj heq
      intro v
      rw [List.mem_eraseDups, List.mem_flatMap, reaches_iff_head]
      constructor
      · rintro ⟨s, hs, hv⟩
        rw [mem_successors] at hs
        obtain ⟨k, hk, hreach⟩ := hknown s hs
        refine ⟨s, hs, ?_⟩
        rcases List.mem_cons.1 hv with rfl | hv
        · exact .inl rfl
        · have hv : v ∈ (Table.at? (g.beyond rest) s).getD [] := hv
          rw [hk, Option.getD_some, hreach] at hv
          exact .inr hv
      · rintro ⟨s, hs, hv⟩
        obtain ⟨k, hk, hreach⟩ := hknown s hs
        refine ⟨s, mem_successors.2 hs, ?_⟩
        rcases hv with rfl | hv
        · exact List.mem_cons_self
        · refine List.mem_cons_of_mem _ ?_
          show v ∈ (Table.at? (g.beyond rest) s).getD []
          rw [hk, Option.getD_some, hreach]
          exact hv
    · exact ih ho.2 hd.2 hl

/-- The ends of the edges of a closure. -/
def pathEnds (g : Graph N E) (order : List NodeId) : List (NodeId × NodeId) :=
  (g.beyond order).flatMap fun b => b.2.map fun target => (b.1, target)

/-- Just the nodes that a path joins are listed. -/
theorem mem_pathEnds {g : Graph N E} (h : g.WellFormed) {order : List NodeId}
    (hperm : order.Perm g.nodeIds) (hord : g.Ordered order) {u v : NodeId} :
    (u, v) ∈ g.pathEnds order ↔ g.Reaches u v := by
  have hd : order.Nodup := hperm.symm.nodup h.nodes_nodup
  rw [pathEnds, List.mem_flatMap]
  constructor
  · rintro ⟨⟨id, l⟩, hl, hm⟩
    obtain ⟨w, hw, heq⟩ := List.mem_map.1 hm
    cases heq
    exact (mem_beyond hord hd hl _).1 hw
  · intro hr
    have hu : u ∈ Table.keys (g.beyond order) := by
      rw [keys_beyond]
      exact hperm.symm.subset (h.reaches_mem hr).1
    obtain ⟨l, hl⟩ := Table.mem_keys.1 hu
    exact ⟨(u, l), hl, List.mem_map.2 ⟨v, (mem_beyond hord hd hl v).2 hr, rfl⟩⟩

theorem nodup_eraseDups {α : Type} [DecidableEq α] (l : List α) : l.eraseDups.Nodup := by
  have hmap : (l.map fun a => (a, ())).map Prod.fst = l := by simp [Function.comp_def]
  have hkeys := Table.nodup_keys_ofEntries (l.map fun a => (a, ()))
  rwa [Table.keys_ofEntries, hmap] at hkeys

/-- The nodes beyond a node are listed once each. -/
theorem nodup_of_mem_beyond {g : Graph N E} {order : List NodeId} {b : NodeId × List NodeId}
    (hb : b ∈ g.beyond order) : b.2.Nodup := by
  induction order with
  | nil => cases hb
  | cons first rest ih =>
    rcases List.mem_cons.1 hb with rfl | hb
    · exact nodup_eraseDups _
    · exact ih hb

/-- No two nodes are listed twice, however many paths join them. -/
theorem nodup_pathEnds (g : Graph N E) {order : List NodeId} (hd : order.Nodup) :
    (g.pathEnds order).Nodup := by
  rw [pathEnds, List.nodup_flatMap]
  constructor
  · intro b hb
    exact (nodup_of_mem_beyond hb).map fun _ _ heq => congrArg Prod.snd heq
  · have hkeys : (Table.keys (g.beyond order)).Nodup := by
      rw [keys_beyond]
      exact hd
    refine (List.pairwise_map.1 hkeys).imp fun {b b'} hne x hx hx' => hne ?_
    obtain ⟨w, -, rfl⟩ := List.mem_map.1 hx
    obtain ⟨w', -, heq⟩ := List.mem_map.1 hx'
    exact (congrArg Prod.fst heq).symm

/-! ## Edges between given ends

Fresh edges have the identities that the supply hands out one after the other. They are distinct,
and they are told apart from all edges before them by where the supply stood. -/

/-- Every edge takes one identity. -/
theorem next_freshEdges (s : Supply) (ends : List (NodeId × NodeId)) :
    (freshEdges s ends).2.next = s.next + ends.length := by
  induction ends generalizing s with
  | nil => rfl
  | cons e ends ih =>
    show (freshEdges s.edge.2 ends).2.next = _
    rw [ih, List.length_cons]
    show s.next + 1 + _ = _
    omega

theorem ends_freshEdges (s : Supply) (ends : List (NodeId × NodeId)) :
    (freshEdges s ends).1.map (fun e => (e.source, e.target)) = ends := by
  induction ends generalizing s with
  | nil => rfl
  | cons e ends ih => exact congrArg (e :: ·) (ih s.edge.2)

/-- The identities lie between where the supply stood before and where it stands afterwards. -/
theorem mem_freshEdges {s : Supply} {ends : List (NodeId × NodeId)} {e : Edge Unit}
    (he : e ∈ (freshEdges s ends).1) :
    s.next ≤ e.id.value ∧ e.id.value < (freshEdges s ends).2.next := by
  induction ends generalizing s with
  | nil => cases he
  | cons x ends ih =>
    have hnext := next_freshEdges s (x :: ends)
    rcases List.mem_cons.1 he with rfl | he
    · rw [hnext, List.length_cons]
      exact ⟨Nat.le_refl _, Nat.lt_add_of_pos_right (Nat.succ_pos _)⟩
    · obtain ⟨hlo, hhi⟩ := ih he
      exact ⟨Nat.le_of_succ_le hlo, hhi⟩

theorem nodup_freshEdges (s : Supply) (ends : List (NodeId × NodeId)) :
    ((freshEdges s ends).1.map Edge.id).Nodup := by
  induction ends generalizing s with
  | nil => exact List.nodup_nil
  | cons x ends ih =>
    refine List.nodup_cons.2 ⟨fun hm => ?_, ih s.edge.2⟩
    obtain ⟨e, he, hid⟩ := List.mem_map.1 hm
    have hlo := (mem_freshEdges he).1
    rw [hid] at hlo
    exact Nat.lt_irrefl _ hlo

theorem exists_mem_freshEdges_iff {s : Supply} {ends : List (NodeId × NodeId)} {u v : NodeId} :
    (∃ e ∈ (freshEdges s ends).1, e.source = u ∧ e.target = v) ↔ (u, v) ∈ ends := by
  conv_rhs => rw [← ends_freshEdges s ends]
  simp

/-! ## The closure

 -/

/-- A graph with the same nodes in which edges stand for paths. -/
structure Closes (c : Graph Unit Unit) (g : Graph N E) : Prop where
  wellFormed : c.WellFormed
  nodes_iff : ∀ n, n ∈ c.nodeIds ↔ n ∈ g.nodeIds
  step_iff : ∀ u v, c.Step u v ↔ g.Reaches u v

/-- The question that the program asks a closure. -/
theorem Closes.linked_iff {c : Graph Unit Unit} {g : Graph N E} (h : c.Closes g) {u v : NodeId} :
    c.linked u v = true ↔ g.Reaches u v := Graph.linked_iff.trans (h.step_iff u v)

theorem Closes.nodeIds_perm {c : Graph Unit Unit} {g : Graph N E} (h : c.Closes g)
    (hg : g.WellFormed) : c.nodeIds.Perm g.nodeIds :=
  (List.perm_ext_iff_of_nodup h.wellFormed.nodes_nodup hg.nodes_nodup).2 h.nodes_iff

/-- Two closures of one graph join the same nodes. -/
theorem Closes.linked_eq {c c' : Graph Unit Unit} {g : Graph N E} (h : c.Closes g)
    (h' : c'.Closes g) (u v : NodeId) : c.linked u v = c'.linked u v :=
  Bool.eq_iff_iff.2 (h.linked_iff.trans h'.linked_iff.symm)

/-- The nodes of a graph alone, with fresh edges between given ends. -/
def relinked (g : Graph N E) (s : Supply) (ends : List (NodeId × NodeId)) : Graph Unit Unit :=
  { g.skeleton with edges := (freshEdges s ends).1 }

@[simp] theorem nodeIds_relinked (g : Graph N E) (s : Supply) (ends : List (NodeId × NodeId)) :
    (g.relinked s ends).nodeIds = g.nodeIds :=
  nodeIds_mapData g (fun _ _ => ()) fun _ => ()

/-- Where an order is found, the closure is the graph of its nodes with fresh edges between the ends
of paths. -/
theorem closure_eq {g : Graph N E} {order : List NodeId} (horder : g.topologicalOrder = .ok order)
    (s : Supply) : g.closure s =
      .ok (g.relinked s (g.pathEnds order), (freshEdges s (g.pathEnds order)).2) := by
  rw [closure, horder]
  rfl

/-- A graph is closed by edges between just the ends of its paths. -/
theorem closes_relinked {g : Graph N E} (h : g.WellFormed) {ends : List (NodeId × NodeId)}
    (hends : ∀ u v, (u, v) ∈ ends ↔ g.Reaches u v) (s : Supply) :
    (g.relinked s ends).Closes g := by
  have hreach : ∀ e ∈ (freshEdges s ends).1, g.Reaches e.source e.target := fun e he =>
    (hends _ _).1 (exists_mem_freshEdges_iff.1 ⟨e, he, rfl, rfl⟩)
  refine ⟨⟨?_, nodup_freshEdges s ends, fun e he => ?_, fun e he => ?_, ?_⟩, fun n => ?_,
    fun u v => exists_mem_freshEdges_iff.trans (hends u v)⟩
  · rw [nodeIds_relinked]
    exact h.nodes_nodup
  · rw [nodeIds_relinked]
    exact (h.reaches_mem (hreach e he)).1
  · rw [nodeIds_relinked]
    exact (h.reaches_mem (hreach e he)).2
  · rw [nodeIds_relinked]
    exact Seating.fits_inOrder _
  · rw [nodeIds_relinked]

/-- An acyclic graph has a closure. -/
theorem closure_spec {g : Graph N E} (h : g.WellFormed) (ha : g.Acyclic) {s : Supply}
    (hb : g.Before s) : ∃ c s', g.closure s = .ok (c, s') ∧ c.Closes g ∧ c.Before s' ∧
      s.next ≤ s'.next := by
  obtain ⟨order, horder⟩ := exists_topologicalOrder h ha
  obtain ⟨hperm, hord⟩ := topologicalOrder_spec h horder
  have hnext : s.next ≤ (freshEdges s (g.pathEnds order)).2.next := by
    rw [next_freshEdges]
    exact Nat.le_add_right _ _
  refine ⟨_, _, closure_eq horder s, closes_relinked h (fun _ _ => mem_pathEnds h hperm hord) s,
    ⟨fun n hn => ?_, fun e he => (mem_freshEdges he).2⟩, hnext⟩
  rw [nodeIds_relinked] at hn
  exact Nat.lt_of_lt_of_le (hb.node_lt n hn) hnext

end ObjectFlow.Graph
