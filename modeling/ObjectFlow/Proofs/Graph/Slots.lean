import ObjectFlow.Graph.Indexed
import ObjectFlow.Proofs.Table

/-!
# What a graph library does

`LawfulSlots` says what is relied on: a new element gets a number that is free, removing a node
removes the edges at it, and all other numbers stay as they are. Nothing is said about which free
number is taken or in what order the edges at a node are listed. `Places` is a store of this kind.
It gives away the number that came free last, and lists the edges at a node from the newest to the
oldest.

Each law is about one operation and one lookup, with the arguments that make sense: an edge is added
between nodes that are there, and a node is removed that is there. Outside of that the laws leave
open what happens, and no theorem about stored graphs asks.
-/

namespace ObjectFlow

/-- The laws of a store, by what each operation does to each lookup. -/
class LawfulSlots (S : Type → Type → Type) [Slots S] : Prop where
  node?_empty {V W : Type} (i : Nat) : Slots.node? (Slots.empty : S V W) i = none
  edge?_empty {V W : Type} (k : Nat) : Slots.edge? (Slots.empty : S V W) k = none
  nodup_outgoing {V W : Type} (s : S V W) (i : Nat) : (Slots.outgoing s i).Nodup
  mem_outgoing {V W : Type} {s : S V W} {i k : Nat} :
    k ∈ Slots.outgoing s i ↔ ∃ a, Slots.edge? s k = some a ∧ a.source = i
  nodup_incoming {V W : Type} (s : S V W) (i : Nat) : (Slots.incoming s i).Nodup
  mem_incoming {V W : Type} {s : S V W} {i k : Nat} :
    k ∈ Slots.incoming s i ↔ ∃ a, Slots.edge? s k = some a ∧ a.target = i
  addNode_vacant {V W : Type} (s : S V W) (v : V) : Slots.node? s (Slots.addNode s v).1 = none
  node?_addNode {V W : Type} (s : S V W) (v : V) (j : Nat) :
    Slots.node? (Slots.addNode s v).2 j =
      if j = (Slots.addNode s v).1 then some v else Slots.node? s j
  edge?_addNode {V W : Type} (s : S V W) (v : V) (k : Nat) :
    Slots.edge? (Slots.addNode s v).2 k = Slots.edge? s k
  addEdge_vacant {V W : Type} (s : S V W) (a : Arc W) :
    (Slots.node? s a.source).isSome → (Slots.node? s a.target).isSome →
      Slots.edge? s (Slots.addEdge s a).1 = none
  edge?_addEdge {V W : Type} (s : S V W) (a : Arc W) (k : Nat) :
    (Slots.node? s a.source).isSome → (Slots.node? s a.target).isSome →
      Slots.edge? (Slots.addEdge s a).2 k =
        if k = (Slots.addEdge s a).1 then some a else Slots.edge? s k
  node?_addEdge {V W : Type} (s : S V W) (a : Arc W) (i : Nat) :
    (Slots.node? s a.source).isSome → (Slots.node? s a.target).isSome →
      Slots.node? (Slots.addEdge s a).2 i = Slots.node? s i
  node?_removeNode {V W : Type} (s : S V W) {i : Nat} (j : Nat) :
    (Slots.node? s i).isSome →
      Slots.node? (Slots.removeNode s i) j = if j = i then none else Slots.node? s j
  edge?_removeNode {V W : Type} (s : S V W) {i : Nat} (k : Nat) :
    (Slots.node? s i).isSome →
      Slots.edge? (Slots.removeNode s i) k =
        (Slots.edge? s k).filter fun a => a.source ≠ i ∧ a.target ≠ i
  edge?_removeEdge {V W : Type} (s : S V W) (k j : Nat) :
    Slots.edge? (Slots.removeEdge s k) j = if j = k then none else Slots.edge? s j
  node?_removeEdge {V W : Type} (s : S V W) (k i : Nat) :
    Slots.node? (Slots.removeEdge s k) i = Slots.node? s i
  node?_adjustNode {V W : Type} (s : S V W) (i : Nat) (f : V → V) (j : Nat) :
    Slots.node? (Slots.adjustNode s i f) j =
      if j = i then (Slots.node? s j).map f else Slots.node? s j
  edge?_adjustNode {V W : Type} (s : S V W) (i : Nat) (f : V → V) (k : Nat) :
    Slots.edge? (Slots.adjustNode s i f) k = Slots.edge? s k
  edge?_adjustEdge {V W : Type} (s : S V W) (k : Nat) (f : W → W) (j : Nat) :
    Slots.edge? (Slots.adjustEdge s k f) j =
      if j = k then (Slots.edge? s j).map fun a => { a with weight := f a.weight }
      else Slots.edge? s j
  node?_adjustEdge {V W : Type} (s : S V W) (k : Nat) (f : W → W) (i : Nat) :
    Slots.node? (Slots.adjustEdge s k f) i = Slots.node? s i

/-! ## A store of this kind

The laws can be kept: `Places` is a table of nodes and one of edges, with two stacks of numbers that
came free. It is the store that the program runs on, and the one by which a theorem about all lawful
stores is applied to a run. -/

/-- The number for a new element: the one that came free last, or else one above all others. -/
def nextNumber (vacant taken : List Nat) : Nat :=
  (vacant.find? fun i => i ∉ taken).getD (taken.foldl (fun n i => max n (i + 1)) 0)

theorem lt_foldl_max {taken : List Nat} {i n : Nat} (h : i < n ∨ i ∈ taken) :
    i < taken.foldl (fun n i => max n (i + 1)) n := by
  induction taken generalizing n with
  | nil => simpa using h
  | cons j taken ih =>
    refine ih ?_
    rcases h with h | h
    · exact .inl (Nat.lt_of_lt_of_le h (Nat.le_max_left n _))
    · rcases List.mem_cons.1 h with rfl | h
      · exact .inl (Nat.lt_of_lt_of_le (Nat.lt_succ_self i) (Nat.le_max_right n _))
      · exact .inr h

/-- The number for a new element is free, also if a stack lists numbers that are taken. -/
theorem nextNumber_not_mem (vacant taken : List Nat) : nextNumber vacant taken ∉ taken := by
  unfold nextNumber
  cases h : vacant.find? fun i => i ∉ taken with
  | some i => simpa using List.find?_some h
  | none => exact fun hm => Nat.lt_irrefl _ (lt_foldl_max (n := 0) (.inr hm))

/-- A store that gives away again the numbers that came free. -/
structure Places (V W : Type) where
  nodes : Table Nat V
  /-- The newest edge comes first. -/
  edges : Table Nat (Arc W)
  /-- Numbers that are free again, the most recent ones first. -/
  vacantNodes : List Nat
  vacantEdges : List Nat
  distinct : (edges.map Prod.fst).Nodup

namespace Places

variable {V W : Type}

def edgesWhere (s : Places V W) (p : Arc W → Bool) : List Nat :=
  (s.edges.filter fun e => p e.2).map Prod.fst

def addNode (s : Places V W) (v : V) : Nat × Places V W :=
  let i := nextNumber s.vacantNodes (s.nodes.map Prod.fst)
  (i, { s with nodes := (i, v) :: s.nodes, vacantNodes := s.vacantNodes.erase i })

def addEdge (s : Places V W) (a : Arc W) : Nat × Places V W :=
  let k := nextNumber s.vacantEdges (s.edges.map Prod.fst)
  (k, { s with
    edges := (k, a) :: s.edges
    vacantEdges := s.vacantEdges.erase k
    distinct := List.nodup_cons.2 ⟨nextNumber_not_mem _ _, s.distinct⟩ })

def removeEdge (s : Places V W) (k : Nat) : Places V W :=
  if Table.holds s.edges k then
    { s with
      edges := Table.without s.edges k
      vacantEdges := k :: s.vacantEdges
      distinct := s.distinct.sublist (List.filter_sublist.map _) }
  else s

/-- The edges out of the node go before those into it. -/
def removeNode (s : Places V W) (i : Nat) : Places V W :=
  if Table.holds s.nodes i then
    let s := (s.edgesWhere fun a => a.source = i).foldl removeEdge s
    let s := (s.edgesWhere fun a => a.target = i).foldl removeEdge s
    { s with nodes := Table.without s.nodes i, vacantNodes := i :: s.vacantNodes }
  else s

instance : Slots Places where
  empty := ⟨[], [], [], [], List.nodup_nil⟩
  node? s i := Table.at? s.nodes i
  edge? s k := Table.at? s.edges k
  outgoing s i := s.edgesWhere fun a => a.source = i
  incoming s i := s.edgesWhere fun a => a.target = i
  addNode := addNode
  addEdge := addEdge
  removeNode := removeNode
  removeEdge := removeEdge
  adjustNode s i f := { s with nodes := Table.adjust f i s.nodes }
  adjustEdge s k f :=
    { s with
      edges := Table.adjust (fun a => { a with weight := f a.weight }) k s.edges
      distinct := by rw [← Table.keys, Table.keys_adjust]; exact s.distinct }

theorem mem_edgesWhere {s : Places V W} {p : Arc W → Bool} {k : Nat} :
    k ∈ s.edgesWhere p ↔ ∃ a, Table.at? s.edges k = some a ∧ p a := by
  rw [edgesWhere, List.mem_map]
  constructor
  · rintro ⟨⟨k, a⟩, h, rfl⟩
    obtain ⟨h, hp⟩ := List.mem_filter.1 h
    exact ⟨a, Table.at?_of_mem s.distinct h, hp⟩
  · rintro ⟨a, h, hp⟩
    exact ⟨(k, a), List.mem_filter.2 ⟨Table.mem_of_at? h, hp⟩, rfl⟩

theorem nodup_edgesWhere (s : Places V W) (p : Arc W → Bool) : (s.edgesWhere p).Nodup :=
  s.distinct.sublist (List.filter_sublist.map _)

theorem at?_removeEdge (s : Places V W) (k j : Nat) :
    Table.at? (s.removeEdge k).edges j = if j = k then none else Table.at? s.edges j := by
  unfold removeEdge
  split
  · exact Table.at?_without s.edges k j
  · rename_i h
    split
    · rename_i hj
      rw [hj, Table.at?_eq_none_iff, ← Table.holds_iff]
      exact h
    · rfl

@[simp] theorem nodes_removeEdge (s : Places V W) (k : Nat) : (s.removeEdge k).nodes = s.nodes := by
  unfold removeEdge
  split <;> rfl

@[simp] theorem nodes_removeEdges (s : Places V W) (ks : List Nat) :
    (ks.foldl removeEdge s).nodes = s.nodes := by
  induction ks generalizing s with
  | nil => rfl
  | cons k ks ih => rw [List.foldl_cons, ih, nodes_removeEdge]

/-- Removing several edges takes away just those. -/
theorem at?_removeEdges (s : Places V W) (ks : List Nat) (j : Nat) :
    Table.at? (ks.foldl removeEdge s).edges j = if j ∈ ks then none else Table.at? s.edges j := by
  induction ks generalizing s with
  | nil => simp
  | cons k ks ih =>
    rw [List.foldl_cons, ih, at?_removeEdge]
    by_cases hk : j = k <;> simp [hk]

/-- Removing the edges that satisfy a condition leaves the others. -/
theorem at?_removeEdgesWhere (s : Places V W) (p : Arc W → Bool) (j : Nat) :
    Table.at? ((s.edgesWhere p).foldl removeEdge s).edges j =
      (Table.at? s.edges j).filter fun a => !p a := by
  rw [at?_removeEdges]
  cases h : Table.at? s.edges j with
  | none => simp
  | some a => by_cases hp : p a = true <;> simp [mem_edgesWhere, h, hp, Option.filter]

/-- Removing a node takes away the edges out of it and those into it. -/
theorem at?_edges_removeNode {s : Places V W} {i : Nat} (hi : (Table.at? s.nodes i).isSome)
    (k : Nat) :
    Table.at? (s.removeNode i).edges k =
      (Table.at? s.edges k).filter fun a => a.source ≠ i ∧ a.target ≠ i := by
  rw [removeNode, if_pos (by exact hi)]
  refine (at?_removeEdgesWhere _ _ k).trans ?_
  rw [at?_removeEdgesWhere, Option.filter_filter]
  congr 1
  funext a
  simp

instance : LawfulSlots Places where
  node?_empty _ := rfl
  edge?_empty _ := rfl
  nodup_outgoing s _ := s.nodup_edgesWhere _
  mem_outgoing := by simp [Slots.outgoing, Slots.edge?, mem_edgesWhere]
  nodup_incoming s _ := s.nodup_edgesWhere _
  mem_incoming := by simp [Slots.incoming, Slots.edge?, mem_edgesWhere]
  addNode_vacant s _ := Table.at?_eq_none_iff.2 (nextNumber_not_mem _ _)
  node?_addNode s v j := (Table.at?_cons _ v s.nodes j).trans (if_congr eq_comm rfl rfl)
  edge?_addNode _ _ _ := rfl
  addEdge_vacant s _ _ _ := Table.at?_eq_none_iff.2 (nextNumber_not_mem _ _)
  edge?_addEdge s a k _ _ := (Table.at?_cons _ a s.edges k).trans (if_congr eq_comm rfl rfl)
  node?_addEdge _ _ _ _ _ := rfl
  node?_removeNode s i j hi := by
    show Table.at? (s.removeNode i).nodes j = _
    rw [removeNode, if_pos (by exact hi)]
    refine (Table.at?_without _ i j).trans ?_
    rw [nodes_removeEdges, nodes_removeEdges]
    rfl
  edge?_removeNode s i k hi := at?_edges_removeNode hi k
  edge?_removeEdge := at?_removeEdge
  node?_removeEdge s k i := congrArg (Table.at? · i) (s.nodes_removeEdge k)
  node?_adjustNode s i f j := Table.at?_adjust f i j s.nodes
  edge?_adjustNode _ _ _ _ := rfl
  edge?_adjustEdge s k f j := Table.at?_adjust _ k j s.edges
  node?_adjustEdge _ _ _ _ := rfl

end Places

end ObjectFlow
