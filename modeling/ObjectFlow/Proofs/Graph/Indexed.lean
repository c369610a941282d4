import Mathlib.Data.List.Perm.Basic
import ObjectFlow.Proofs.Graph.Slots
import ObjectFlow.Proofs.Graph.WellFormed

/-!
# A stored graph read as lists

A stored graph is coherent when its tables list just the elements that are there, each under its own
identity, and every edge has its ends. Then every question about it is answered by the lists of its
nodes and edges alone (`Coherent.node?_eq`, `Coherent.edge?_eq`, `Coherent.outEdges_eq`,
`Coherent.inEdges_eq`): the numbers do not show.

The store below the tables is any that keeps the laws of `LawfulSlots`, which say neither which
number a new element gets nor in what order the edges at a node are listed. The tables make up for
both. An identity is looked up in them to find a number, and the edges at a node are arranged by
their places in the table of edges before they are given out (`Coherent.arranged_eq`).
-/

namespace ObjectFlow.Indexed

variable {S : Type → Type → Type} [Slots S] {N E : Type}

/-- The tables and the store tell the same: every entry leads to an element of that identity, every
element has an entry, and no edge ends at a number where nothing is. -/
structure Coherent (x : Indexed S N E) : Prop where
  nodes_nodup : (Table.keys x.nodes).Nodup
  edges_nodup : (Table.keys x.edges).Nodup
  mem_nodes : ∀ {id i}, (id, i) ∈ x.nodes ↔ ∃ d, Slots.node? x.inner i = some (id, d)
  mem_edges : ∀ {id k}, (id, k) ∈ x.edges ↔ ∃ a, Slots.edge? x.inner k = some a ∧ a.weight.1 = id
  source_live : ∀ {k a}, Slots.edge? x.inner k = some a → (Slots.node? x.inner a.source).isSome
  target_live : ∀ {k a}, Slots.edge? x.inner k = some a → (Slots.node? x.inner a.target).isSome

variable {x : Indexed S N E}

/-! ## Elements under their numbers

An edge of the store names its ends by numbers. `view` is the edge with identities in their place;
by coherence it is there for every edge of the store, and different edges have different ones
(`Coherent.view_inj`). -/

/-- The name of a number is read off the table of nodes. -/
theorem Coherent.nameOf_eq_some_iff (h : x.Coherent) {i : Nat} {id : NodeId} :
    x.nameOf i = some id ↔ (id, i) ∈ x.nodes := by
  simp [nameOf, h.mem_nodes]

/-- An edge is seen when it is there and its ends have names. -/
theorem view_eq_some_iff {k : Nat} {e : Edge E} :
    x.view k = some e ↔ ∃ a, Slots.edge? x.inner k = some a ∧ a.weight = (e.id, e.data) ∧
      x.nameOf a.source = some e.source ∧ x.nameOf a.target = some e.target := by
  simp only [view, Option.bind_eq_bind, Option.bind_eq_some_iff, Option.pure_def,
    Option.some.injEq]
  constructor
  · rintro ⟨a, ha, s, hs, t, ht, rfl⟩
    exact ⟨a, ha, rfl, hs, ht⟩
  · rintro ⟨a, ha, hw, hs, ht⟩
    exact ⟨a, ha, _, hs, _, ht, by rw [hw]⟩

/-- An edge is seen as before if its entry and the names of its ends are as before. -/
theorem view_congr {N' : Type} {y : Indexed S N' E} {k : Nat}
    (he : Slots.edge? y.inner k = Slots.edge? x.inner k)
    (hn : ∀ a, Slots.edge? x.inner k = some a →
      y.nameOf a.source = x.nameOf a.source ∧ y.nameOf a.target = x.nameOf a.target) :
    y.view k = x.view k := by
  unfold view
  rw [he]
  cases ha : Slots.edge? x.inner k with
  | none => rfl
  | some a => simp [(hn a ha).1, (hn a ha).2]

theorem Coherent.exists_node (h : x.Coherent) {id : NodeId} {i : Nat} (hi : (id, i) ∈ x.nodes) :
    ∃ d, Slots.node? x.inner i = some (id, d) := h.mem_nodes.1 hi

/-- Within the table of nodes an identity and its number determine each other. -/
theorem Coherent.node_eq_iff (h : x.Coherent) {id id' : NodeId} {i i' : Nat}
    (hi : (id, i) ∈ x.nodes) (hi' : (id', i') ∈ x.nodes) : id = id' ↔ i = i' := by
  constructor
  · rintro rfl
    exact Option.some.inj ((Table.at?_of_mem h.nodes_nodup hi).symm.trans
      (Table.at?_of_mem h.nodes_nodup hi'))
  · rintro rfl
    obtain ⟨d, hd⟩ := h.exists_node hi
    obtain ⟨d', hd'⟩ := h.exists_node hi'
    exact congrArg Prod.fst (Option.some.inj (hd.symm.trans hd'))

theorem Coherent.exists_view (h : x.Coherent) {k : Nat} {a : Arc (EdgeId × E)}
    (ha : Slots.edge? x.inner k = some a) :
    ∃ e, x.view k = some e ∧ a.weight = (e.id, e.data) := by
  obtain ⟨⟨s, ds⟩, hs⟩ := Option.isSome_iff_exists.1 (h.source_live ha)
  obtain ⟨⟨t, dt⟩, ht⟩ := Option.isSome_iff_exists.1 (h.target_live ha)
  refine ⟨⟨a.weight.1, s, t, a.weight.2⟩, view_eq_some_iff.2 ⟨a, ha, rfl, ?_, ?_⟩, rfl⟩
  · simp [nameOf, hs]
  · simp [nameOf, ht]

/-- An edge is seen with the names of its ends. -/
theorem Coherent.ends_of_view (h : x.Coherent) {k : Nat} {a : Arc (EdgeId × E)} {e : Edge E}
    (ha : Slots.edge? x.inner k = some a) (he : x.view k = some e) :
    (e.source, a.source) ∈ x.nodes ∧ (e.target, a.target) ∈ x.nodes := by
  obtain ⟨a', ha', -, hs, ht⟩ := view_eq_some_iff.1 he
  obtain rfl := Option.some.inj (ha.symm.trans ha')
  exact ⟨h.nameOf_eq_some_iff.1 hs, h.nameOf_eq_some_iff.1 ht⟩

/-- What stands in the table of edges is seen. -/
theorem Coherent.view_of_mem (h : x.Coherent) {id : EdgeId} {k : Nat} (hk : (id, k) ∈ x.edges) :
    ∃ e, x.view k = some e ∧ e.id = id := by
  obtain ⟨a, ha, rfl⟩ := h.mem_edges.1 hk
  obtain ⟨e, he, hw⟩ := h.exists_view ha
  exact ⟨e, he, by rw [hw]⟩

/-- What is seen stands in the table of edges. -/
theorem Coherent.mem_edges_of_view (h : x.Coherent) {k : Nat} {e : Edge E}
    (he : x.view k = some e) : (e.id, k) ∈ x.edges := by
  obtain ⟨a, ha, hw, -⟩ := view_eq_some_iff.1 he
  exact h.mem_edges.2 ⟨a, ha, by rw [hw]⟩

/-- An edge is seen under one number only. -/
theorem Coherent.view_inj (h : x.Coherent) {k k' : Nat} {e e' : Edge E} (he : x.view k = some e)
    (he' : x.view k' = some e') (hid : e.id = e'.id) : k = k' := by
  have hk := Table.at?_of_mem h.edges_nodup (h.mem_edges_of_view he)
  have hk' := Table.at?_of_mem h.edges_nodup (h.mem_edges_of_view he')
  rw [hid] at hk
  exact Option.some.inj (hk.symm.trans hk')

/-! ## The lists

The nodes and edges in the order of the tables. These are what all theorems about stored graphs talk
about. -/

/-- Just the edges that are seen are listed. -/
theorem Coherent.mem_edgeList (h : x.Coherent) {e : Edge E} :
    e ∈ x.edgeList ↔ ∃ k, x.view k = some e := by
  rw [edgeList, List.mem_filterMap]
  constructor
  · rintro ⟨⟨id, k⟩, -, he⟩
    exact ⟨k, he⟩
  · rintro ⟨k, he⟩
    exact ⟨(e.id, k), h.mem_edges_of_view he, he⟩

theorem map_filterMap_eq {α β γ : Type} {f : α → Option β} {g : β → γ} {p : α → γ} {l : List α}
    (h : ∀ a ∈ l, ∃ b, f a = some b ∧ g b = p a) : (l.filterMap f).map g = l.map p := by
  rw [List.map_filterMap, ← List.filterMap_eq_map]
  refine List.filterMap_congr fun a ha => ?_
  obtain ⟨b, hb, hg⟩ := h a ha
  rw [hb, Option.map_some, hg]
  rfl

theorem Coherent.keys_nodeList (h : x.Coherent) : Table.keys x.nodeList = x.nodeIds := by
  refine map_filterMap_eq fun ⟨id, i⟩ hi => ?_
  obtain ⟨d, hd⟩ := h.exists_node hi
  exact ⟨(id, d), by rw [hd]; rfl, rfl⟩

theorem Coherent.ids_edgeList (h : x.Coherent) :
    x.edgeList.map Edge.id = Table.keys x.edges :=
  map_filterMap_eq fun ⟨_, _⟩ hk => h.view_of_mem hk

/-- No identity is listed twice. -/
theorem Coherent.nodup_ids_edgeList (h : x.Coherent) : (x.edgeList.map Edge.id).Nodup := by
  rw [h.ids_edgeList]
  exact h.edges_nodup

theorem Coherent.source_mem (h : x.Coherent) {e : Edge E} (he : e ∈ x.edgeList) :
    e.source ∈ Table.keys x.nodes := by
  obtain ⟨k, he⟩ := h.mem_edgeList.1 he
  obtain ⟨a, -, -, hs, -⟩ := view_eq_some_iff.1 he
  exact Table.mem_keys.2 ⟨_, h.nameOf_eq_some_iff.1 hs⟩

theorem Coherent.target_mem (h : x.Coherent) {e : Edge E} (he : e ∈ x.edgeList) :
    e.target ∈ Table.keys x.nodes := by
  obtain ⟨k, he⟩ := h.mem_edgeList.1 he
  obtain ⟨a, -, -, -, ht⟩ := view_eq_some_iff.1 he
  exact Table.mem_keys.2 ⟨_, h.nameOf_eq_some_iff.1 ht⟩

/-! ## Lookups

 -/

/-- A node is looked up in the list of nodes. -/
theorem Coherent.node?_eq (h : x.Coherent) (id : NodeId) :
    x.node? id = Table.at? x.nodeList id := by
  have key : ∀ t : Table NodeId Nat, (∀ p ∈ t, ∃ d, Slots.node? x.inner p.2 = some (p.1, d)) →
      ((Table.at? t id).bind fun i => (Slots.node? x.inner i).map Prod.snd) =
        Table.at? (t.filterMap fun n => (Slots.node? x.inner n.2).map fun slot => (n.1, slot.2))
          id := by
    intro t
    induction t with
    | nil => intro _; rfl
    | cons p t ih =>
      intro ht
      obtain ⟨id', i⟩ := p
      obtain ⟨d, hd⟩ := ht _ List.mem_cons_self
      have ih := ih fun p hp => ht p (List.mem_cons_of_mem _ hp)
      rw [List.filterMap_cons_some (b := (id', d)) (by rw [hd]; rfl), Table.at?_cons,
        Table.at?_cons, ← ih]
      split
      · simp [hd]
      · rfl
  exact key x.nodes fun p hp => h.exists_node hp

/-- An edge is looked up in the list of edges. -/
theorem Coherent.edge?_eq (h : x.Coherent) (id : EdgeId) :
    x.edge? id = x.edgeList.find? fun e => e.id = id := by
  have key : ∀ t : Table EdgeId Nat, (∀ p ∈ t, ∃ e, x.view p.2 = some e ∧ e.id = p.1) →
      (Table.at? t id).bind x.view =
        (t.filterMap fun p => x.view p.2).find? fun e => e.id = id := by
    intro t
    induction t with
    | nil => intro _; rfl
    | cons p t ih =>
      intro ht
      obtain ⟨id', k⟩ := p
      obtain ⟨e, he, hid⟩ := ht _ List.mem_cons_self
      have ih := ih fun p hp => ht p (List.mem_cons_of_mem _ hp)
      rw [List.filterMap_cons_some (f := fun p : EdgeId × Nat => x.view p.2) he, Table.at?_cons,
        List.find?_cons, ← ih, hid]
      by_cases hne : id' = id
      · simp [hne, he]
      · simp [hne]
  exact key x.edges fun p hp => h.view_of_mem hp

/-! ## The order of the edges at a node

The store lists the edges at a node in an order of its own. They are sorted by their places in the
table of edges; sorted lists with the same members are the same, so the outcome is the list of all
edges filtered by the node at the end in question. -/

/-- The place of an edge as a number; one that does not stand anywhere has the lowest. -/
def rank (x : Indexed S N E) (id : EdgeId) : Nat :=
  match x.position id with
  | none => 0
  | some p => p + 1

omit [Slots S] in
/-- The comparison that the edges are sorted by is that of their places. -/
theorem standsBy_iff {e e' : Edge E} : x.standsBy e e' = true ↔ x.rank e.id ≤ x.rank e'.id := by
  unfold standsBy rank
  cases x.position e.id <;> cases x.position e'.id <;> simp

omit [Slots S] in
theorem rank_of_getElem (hd : (Table.keys x.edges).Nodup) {p : Nat}
    (hp : p < (Table.keys x.edges).length) : x.rank (Table.keys x.edges)[p] = p + 1 := by
  have hlen : p < x.edges.length := by simpa [Table.keys] using hp
  have : x.position (Table.keys x.edges)[p] = some p := by
    refine List.findIdx?_eq_some_iff_getElem.2 ⟨hlen, by simp [Table.keys], fun j hj heq => ?_⟩
    have hj' : j < (Table.keys x.edges).length := Nat.lt_trans hj hp
    have heq : (Table.keys x.edges)[j] = (Table.keys x.edges)[p] := by
      simpa [Table.keys] using heq
    exact Nat.ne_of_lt hj ((List.Nodup.getElem_inj_iff hd).1 heq)
  simp [rank, this]

/-- The list of edges is in the order of the places. -/
theorem Coherent.pairwise_rank (h : x.Coherent) :
    x.edgeList.Pairwise fun e e' => x.rank e.id < x.rank e'.id := by
  rw [← List.pairwise_map (R := fun i j => x.rank i < x.rank j), h.ids_edgeList,
    List.pairwise_iff_getElem]
  intro p q hp hq hpq
  rw [rank_of_getElem h.edges_nodup, rank_of_getElem h.edges_nodup]
  omega

/-- Edges that satisfy a condition, in the order of insertion, whatever order they came in. -/
theorem Coherent.arranged_eq (h : x.Coherent) {numbers : List Nat} (hd : numbers.Nodup)
    {p : Edge E → Bool} (hp : ∀ k, k ∈ numbers ↔ ∃ e, x.view k = some e ∧ p e = true) :
    x.arranged numbers = x.edgeList.filter p := by
  have hsorted : (x.arranged numbers).Pairwise fun e e' => x.standsBy e e' = true := by
    refine List.pairwise_mergeSort (fun a b c => ?_) (fun a b => ?_) _
    · simp only [standsBy_iff]
      exact Nat.le_trans
    · rw [Bool.or_eq_true, standsBy_iff, standsBy_iff]
      exact Nat.le_total _ _
  have hlist : (x.edgeList.filter p).Pairwise fun e e' => x.standsBy e e' = true :=
    (h.pairwise_rank.imp fun hlt => standsBy_iff.2 (Nat.le_of_lt hlt)).sublist List.filter_sublist
  have hmem : ∀ e, e ∈ numbers.filterMap x.view ↔ e ∈ x.edgeList.filter p := by
    intro e
    rw [List.mem_filterMap, List.mem_filter, h.mem_edgeList]
    constructor
    · rintro ⟨k, hk, he⟩
      obtain ⟨e', he', hpe⟩ := (hp k).1 hk
      obtain rfl := Option.some.inj (he.symm.trans he')
      exact ⟨⟨k, he⟩, hpe⟩
    · rintro ⟨⟨k, he⟩, hpe⟩
      exact ⟨k, (hp k).2 ⟨e, he, hpe⟩, he⟩
  have hperm : (x.arranged numbers).Perm (x.edgeList.filter p) := by
    refine (List.mergeSort_perm _ _).trans ((List.perm_ext_iff_of_nodup ?_ ?_).2 hmem)
    · exact hd.filterMap fun k k' e he he' => h.view_inj he he' rfl
    · exact (List.Nodup.of_map _ h.nodup_ids_edgeList).filter _
  refine hperm.eq_of_pairwise (fun e e' he he' hle hle' => ?_) hsorted hlist
  -- edges of the same rank have the same identity, hence are the same
  have he := (List.mem_filter.1 (hperm.mem_iff.1 he)).1
  have he' := (List.mem_filter.1 he').1
  have hrank := Nat.le_antisymm (standsBy_iff.1 hle) (standsBy_iff.1 hle')
  by_contra hne
  obtain ⟨i, hi, rfl⟩ := List.getElem_of_mem he
  obtain ⟨j, hj, rfl⟩ := List.getElem_of_mem he'
  have hpw := List.pairwise_iff_getElem.1 h.pairwise_rank
  rcases Nat.lt_trichotomy i j with hij | rfl | hij
  · exact absurd hrank (Nat.ne_of_lt (hpw i j hi hj hij))
  · exact hne rfl
  · exact absurd hrank.symm (Nat.ne_of_lt (hpw j i hj hi hij))

/-- The edges on one side of a node are those that have it as their end on that side. -/
theorem Coherent.directed_eq (h : x.Coherent)
    {side : S (NodeId × N) (EdgeId × E) → Nat → List Nat} {place : Arc (EdgeId × E) → Nat}
    {name : Edge E → NodeId} (hd : ∀ i, (side x.inner i).Nodup)
    (hside : ∀ i k, k ∈ side x.inner i ↔ ∃ a, Slots.edge? x.inner k = some a ∧ place a = i)
    (hname : ∀ k a e, Slots.edge? x.inner k = some a → x.view k = some e →
      (name e, place a) ∈ x.nodes) (id : NodeId) :
    x.directed side id = x.edgeList.filter fun e => name e = id := by
  unfold directed
  cases hi : Table.at? x.nodes id with
  | none =>
    refine (List.filter_eq_nil_iff.2 fun e he heq => ?_).symm
    obtain ⟨k, he⟩ := h.mem_edgeList.1 he
    obtain ⟨a, ha, -⟩ := view_eq_some_iff.1 he
    have hmem := Table.mem_keys.2 ⟨_, hname k a e ha he⟩
    exact Table.at?_eq_none_iff.1 hi (of_decide_eq_true heq ▸ hmem)
  | some i =>
    have hi := Table.mem_of_at? hi
    refine h.arranged_eq (hd i) fun k => ?_
    rw [hside]
    constructor
    · rintro ⟨a, ha, rfl⟩
      obtain ⟨e, he, -⟩ := h.exists_view ha
      exact ⟨e, he, decide_eq_true ((h.node_eq_iff (hname k a e ha he) hi).2 rfl)⟩
    · rintro ⟨e, he, hid⟩
      obtain ⟨a, ha, -⟩ := view_eq_some_iff.1 he
      exact ⟨a, ha, (h.node_eq_iff (hname k a e ha he) hi).1 (of_decide_eq_true hid)⟩

variable [LawfulSlots S]

/-- The edges out of a node, in the order in which they were added. -/
theorem Coherent.outEdges_eq (h : x.Coherent) (id : NodeId) :
    x.outEdges id = x.edgeList.filter fun e => e.source = id :=
  h.directed_eq (LawfulSlots.nodup_outgoing _) (fun _ _ => LawfulSlots.mem_outgoing)
    (fun _ _ _ ha he => (h.ends_of_view ha he).1) id

/-- The edges into a node, in the order in which they were added. -/
theorem Coherent.inEdges_eq (h : x.Coherent) (id : NodeId) :
    x.inEdges id = x.edgeList.filter fun e => e.target = id :=
  h.directed_eq (LawfulSlots.nodup_incoming _) (fun _ _ => LawfulSlots.mem_incoming)
    (fun _ _ _ ha he => (h.ends_of_view ha he).2) id

end ObjectFlow.Indexed
