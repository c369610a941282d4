import ObjectFlow.Proofs.Graph.Closure
import ObjectFlow.Proofs.Graph.History
import ObjectFlow.Proofs.Graph.Rewire

/-!
# Closures of graphs that were built

Whatever is done to a graph, it stays well-formed (`History.wellFormed`). So whether it has a
closure depends on its cycles alone, and the closure joins just the nodes that a path joins, each
pair by one edge (`closure_exact`).

A history is a graph together with all that was done to it, so that "every graph that can be built"
is a quantifier over histories. One lemma for each command leads to `WellFormed.apply`, and the
induction over the history does the rest. A command may be refused half-way and still change the
graph; this is why putting edges back (`WellFormed.restore`) is looked at up to the edge that is
refused.
-/

namespace ObjectFlow.Graph

variable {N E : Type} {g g' : Graph N E}

/-! ## Graphs that commands build

One lemma for each command, then one for a whole history. A failure leaves the graph that the
command had made by then, which has to be well-formed too. -/

theorem WellFormed.adjustEdge (h : g.WellFormed) (id : EdgeId) (f : E → E) :
    (g.adjustEdge id f).WellFormed := by
  have hsame : ∀ e ∈ (g.adjustEdge id f).edges, ∃ e₀ ∈ g.edges, e₀.id = e.id ∧
      e₀.source = e.source ∧ e₀.target = e.target := by
    intro e he
    obtain ⟨e₀, he₀, rfl⟩ := List.mem_map.1 he
    refine ⟨e₀, he₀, ?_⟩
    split <;> exact ⟨rfl, rfl, rfl⟩
  refine ⟨h.nodes_nodup, ?_, fun e he => ?_, fun e he => ?_, h.seating_fits⟩
  · have hids : (g.adjustEdge id f).edges.map Edge.id = g.edges.map Edge.id := by
      rw [Graph.adjustEdge, List.map_map]
      refine List.map_congr_left fun e _ => ?_
      show (if e.id = id then { e with data := f e.data } else e).id = e.id
      split <;> rfl
    rw [hids]
    exact h.edges_nodup
  · obtain ⟨e₀, he₀, -, hs, -⟩ := hsame e he
    exact hs ▸ h.source_mem e₀ he₀
  · obtain ⟨e₀, he₀, -, -, ht⟩ := hsame e he
    exact ht ▸ h.target_mem e₀ he₀

theorem WellFormed.addNode (h : g.WellFormed) {id : NodeId} {x : N}
    (hok : g.addNode id x = .ok g') : g'.WellFormed := by
  obtain ⟨hid, rfl⟩ := addNode_eq_ok_iff.1 hok
  exact h.attachNode x hid

theorem WellFormed.moveEdges (h : g.WellFormed) {moved : List (Edge E)}
    (hok : g.moveEdges moved = .ok g') : g'.WellFormed :=
  Outcome.foldlM_rest (I := fun _ g => g.WellFormed)
    (fun e _ _ _ hg hstep => (hg.removeEdge e.id).addEdge hstep) h hok

/-- Edges that are put back leave a well-formed graph, also where one of them is refused. -/
theorem WellFormed.restore (h : g.WellFormed) (es : List (Edge E)) :
    match g.restore es with
    | .ok g' => g'.WellFormed
    | .error stopped => stopped.graph.WellFormed := by
  induction es generalizing g with
  | nil => exact h
  | cons e es ih =>
    rw [Graph.restore]
    cases hadd : g.addEdge e with
    | error cause => exact h
    | ok g' => exact ih (h.addEdge hadd)

/-- A command that leaves the graph alone when it fails. -/
theorem WellFormed.settle (h : g.WellFormed) {r : Except GraphError (Graph N E)}
    (hok : ∀ g', r = .ok g' → g'.WellFormed) : (g.settle r).2.WellFormed := by
  cases r with
  | error cause => exact h
  | ok g' => exact hok g' rfl

/-- A contraction that stops half-way leaves a well-formed graph too. -/
theorem WellFormed.contract (h : g.WellFormed) (members : List NodeId) (hub : NodeId) (x : N) :
    (g.apply (.contract members hub x)).2.WellFormed := by
  rw [apply, Graph.contract]
  by_cases hhub : hub ∈ g.nodeIds
  · rw [if_pos (hasNode_iff.2 hhub)]
    exact h
  · rw [if_neg (by rwa [hasNode_iff])]
    cases members.find? fun m => !g.hasNode m with
    | some m => exact h
    | none =>
      have hrest := ((h.attachNode x hhub).removeNodes members).restore (g.boundary members hub)
      show (match ((g.attachNode hub x).removeNodes members).restore (g.boundary members hub) with
        | .ok g' => (Answer.done, g')
        | .error stopped => (.refused stopped.cause, stopped.graph)).2.WellFormed
      split at hrest <;> exact hrest

/-- One command keeps a graph well-formed, whether or not it is refused. -/
theorem WellFormed.apply (h : g.WellFormed) {c : Command N E} (hc : c.Fresh g) :
    (g.apply c).2.WellFormed := by
  cases c with
  | newNode id data => exact h.attachNode data hc
  | addNode id data => exact h.settle fun _ => h.addNode
  | removeNode id => exact h.removeNode id
  | addEdge e => exact h.settle fun _ => h.addEdge
  | removeEdge id => exact h.removeEdge id
  | adjustNode id f => exact h.adjustNode id f
  | adjustEdge id f => exact h.adjustEdge id f
  | contract members hub data => exact h.contract members hub data
  | insertBefore id hub data link select =>
    refine h.settle fun g' hok => ?_
    unfold Graph.insertBefore at hok
    split at hok
    · cases hok
    · obtain ⟨g₁, h₁, hok⟩ := Outcome.bind_eq_ok_iff.1 hok
      obtain ⟨g₂, h₂, hok⟩ := Outcome.bind_eq_ok_iff.1 hok
      exact ((h.addNode h₁).moveEdges h₂).addEdge hok
  | insertAfter id hub data link select =>
    refine h.settle fun g' hok => ?_
    unfold Graph.insertAfter at hok
    split at hok
    · cases hok
    · obtain ⟨g₁, h₁, hok⟩ := Outcome.bind_eq_ok_iff.1 hok
      obtain ⟨g₂, h₂, hok⟩ := Outcome.bind_eq_ok_iff.1 hok
      exact ((h.addNode h₁).moveEdges h₂).addEdge hok
  | thin id =>
    show (g.thin id).2.WellFormed
    rw [thin_eq]
    exact h.removeEdges _

/-- Whatever was done to a graph, removals and copies included, it is well-formed. -/
theorem History.wellFormed {h : History N E} (hf : h.Fresh) : h.plain.WellFormed := by
  induction h with
  | start => exact WellFormed.empty
  | next h c ih => exact (ih hf.1).apply hf.2
  | copy h onNode onEdge ih => exact (ih hf).mapData onNode onEdge

/-! ## Graphs without an order

 -/

/-- A walk fails for a cycle only. -/
theorem walk_eq_error {pending : List Visit} {fresh left : List NodeId} {e : GraphError}
    (h : g.walk pending fresh left = .error e) : ∃ u, e = .cycle u := by
  induction pending, fresh, left using walk.induct g with
  | case1 fresh left =>
    rw [walk] at h
    cases h
  | case2 id pending fresh left ih =>
    rw [walk] at h
    exact ih h
  | case3 id pending fresh left hid targets hself =>
    rw [walk, if_pos hid, if_pos hself] at h
    cases h
    exact ⟨id, rfl⟩
  | case4 id pending fresh left hid targets hself ih =>
    rw [walk, if_pos hid, if_neg hself] at h
    exact ih h
  | case5 id pending fresh left hid ih =>
    rw [walk, if_neg hid] at h
    exact ih h

/-- The only reason to have no order is a cycle. -/
theorem topologicalOrder_eq_error {e : GraphError} (h : g.topologicalOrder = .error e) :
    ∃ u, e = .cycle u := by
  unfold topologicalOrder at h
  dsimp only at h
  cases hwalk : g.walk (g.seating.seated.map Visit.enter) g.seating.seated [] with
  | error e' =>
    rw [hwalk] at h
    cases h
    exact walk_eq_error hwalk
  | ok order =>
    rw [hwalk, Outcome.ok_bind] at h
    split at h
    · rename_i u _
      cases h
      exact ⟨u, rfl⟩
    · cases h

/-! ## One edge for every pair

The edges of a closure are made from a list of pairs of ends without repetitions, so the number of
edges between two nodes is the number of times that their pair is listed. -/

theorem length_between (g : Graph N E) (u v : NodeId) :
    (g.between u v).length = (g.edges.map fun e => (e.source, e.target)).count (u, v) := by
  rw [between, outEdges, List.filter_filter, ← List.countP_eq_length_filter, List.count,
    List.countP_map]
  refine List.countP_congr fun e _ => ?_
  simp [and_comm]

/--
A graph has no closure just if it has a cycle, of which an edge from a node to itself is one. Else
the closure has the same nodes in the same order, and one edge from a node to another just if a path
leads there, however many edges and paths there are.
-/
theorem closure_exact (h : g.WellFormed) (s : Supply) :
    ((∃ u, g.closure s = .error (.cycle u)) ↔ ∃ u, g.Reaches u u) ∧
      (g.Acyclic → ∃ c s', g.closure s = .ok (c, s') ∧ c.WellFormed ∧ c.nodeIds = g.nodeIds ∧
        ∀ u v, (g.Reaches u v → (c.between u v).length = 1) ∧
          (¬ g.Reaches u v → c.between u v = [])) := by
  refine ⟨⟨fun ⟨u, hu⟩ => ?_, fun ⟨u, hu⟩ => ?_⟩, fun ha => ?_⟩
  · by_contra hnone
    obtain ⟨order, horder⟩ := exists_topologicalOrder h fun u hu => hnone ⟨u, hu⟩
    rw [closure_eq horder] at hu
    cases hu
  · cases horder : g.topologicalOrder with
    | ok order => exact absurd hu (acyclic_of_topologicalOrder h horder u)
    | error e =>
      obtain ⟨w, rfl⟩ := topologicalOrder_eq_error horder
      exact ⟨w, by rw [closure, horder]; rfl⟩
  · obtain ⟨order, horder⟩ := exists_topologicalOrder h ha
    obtain ⟨hperm, hord⟩ := topologicalOrder_spec h horder
    have hends : ∀ u v, (u, v) ∈ g.pathEnds order ↔ g.Reaches u v := fun _ _ =>
      mem_pathEnds h hperm hord
    have hcount : ∀ u v, ((g.relinked s (g.pathEnds order)).between u v).length =
        (g.pathEnds order).count (u, v) := by
      intro u v
      rw [length_between]
      exact congrArg _ (ends_freshEdges s (g.pathEnds order))
    refine ⟨_, _, closure_eq horder s, (closes_relinked h hends s).wellFormed,
      nodeIds_relinked g s _, fun u v => ⟨fun hr => ?_, fun hr => ?_⟩⟩
    · rw [hcount]
      exact List.count_eq_one_of_mem (nodup_pathEnds g (hperm.symm.nodup h.nodes_nodup))
        ((hends u v).2 hr)
    · refine List.eq_nil_of_length_eq_zero ((hcount u v).trans ?_)
      exact List.count_eq_zero_of_not_mem fun hm => hr ((hends u v).1 hm)

/-- Two edges from the first node to the second, one to the third, and one from a node to itself. -/
def History.looped : History Unit Unit :=
  (((((((History.start.next (.addNode ⟨1⟩ ())).next (.addNode ⟨2⟩ ())).next
    (.addNode ⟨3⟩ ())).next (.addNode ⟨4⟩ ())).next (.addEdge ⟨⟨5⟩, ⟨1⟩, ⟨2⟩, ()⟩)).next
    (.addEdge ⟨⟨6⟩, ⟨1⟩, ⟨2⟩, ()⟩)).next (.addEdge ⟨⟨7⟩, ⟨2⟩, ⟨3⟩, ()⟩)).next
    (.addEdge ⟨⟨8⟩, ⟨4⟩, ⟨4⟩, ()⟩)

/-- The same with another node in the place of the last. -/
def History.unlooped : History Unit Unit :=
  (History.looped.next (.removeNode ⟨4⟩)).next (.newNode ⟨9⟩ ())

/-- A loop rules a closure out; without it parallel edges become one, and a path becomes an edge. -/
theorem closure_unlooped :
    (History.looped.plain.WellFormed ∧
      ∃ u, History.looped.plain.closure ⟨10⟩ = .error (.cycle u)) ∧
    History.unlooped.plain.WellFormed ∧
      ∃ c s', History.unlooped.plain.closure ⟨10⟩ = .ok (c, s') ∧
        c.nodeIds = [⟨1⟩, ⟨2⟩, ⟨3⟩, ⟨9⟩] ∧ (c.between ⟨1⟩ ⟨2⟩).length = 1 ∧
        (c.between ⟨1⟩ ⟨3⟩).length = 1 ∧ c.between ⟨3⟩ ⟨1⟩ = [] := by
  have hlooped : History.looped.Fresh := by
    simp [History.looped, History.Fresh, Command.Fresh]
  have hwl : History.looped.plain.WellFormed := History.wellFormed hlooped
  have hw : History.unlooped.plain.WellFormed := by
    refine History.wellFormed ⟨⟨hlooped, trivial⟩, ?_⟩
    show (⟨9⟩ : NodeId) ∉ _
    decide
  have ha : History.unlooped.plain.Acyclic := acyclic_of_rank NodeId.value (by decide)
  have h₁ : History.unlooped.plain.Step ⟨1⟩ ⟨2⟩ := linked_iff.1 (by decide)
  have h₂ : History.unlooped.plain.Step ⟨2⟩ ⟨3⟩ := linked_iff.1 (by decide)
  have h₃ := h₁.reaches.trans h₂.reaches
  have hcycle := (closure_exact hwl ⟨10⟩).1.2 ⟨⟨4⟩, Step.reaches (linked_iff.1 (by decide))⟩
  refine ⟨⟨hwl, hcycle⟩, hw, ?_⟩
  obtain ⟨c, s', hok, -, hids, hpairs⟩ := (closure_exact hw ⟨10⟩).2 ha
  exact ⟨c, s', hok, hids, (hpairs _ _).1 h₁.reaches, (hpairs _ _).1 h₃,
    (hpairs _ _).2 fun hback => ha _ (h₃.trans hback)⟩

end ObjectFlow.Graph
