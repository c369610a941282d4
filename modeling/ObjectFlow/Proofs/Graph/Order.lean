import Mathlib.Data.List.Perm.Basic
import ObjectFlow.Graph.Order
import ObjectFlow.Proofs.Graph.Path
import ObjectFlow.Proofs.Outcome

/-!
# Topological orders exist just for acyclic graphs

The depth-first walk keeps a plan: what is pending says which nodes will have been left before a
node is left itself (`Planned`). In an acyclic graph every node is therefore left after all that
follow it, so that the order passes its check; and an order that passes leaves no room for a cycle.

## Outline

The order is computed in two steps, a walk that fails only at a node with an edge to itself and a
check that looks for an edge which runs backwards.

1. `Walking` counts the nodes: those not yet met, those entered and those left make up all nodes. A
   walk that ends has left every node once (`walk_perm`), whatever the graph.
2. `Stacked` and `Planned` are invariants of the pending visits. The first says that every node
   which was entered and not left reaches all that is visited before it is left, the second that all
   its followers will have been left by then. In an acyclic graph they carry over from visit to
   visit, because a follower that is open itself would close a cycle (`walk_ordered`).
3. The check finds nothing just if every edge runs forwards (`backward?_eq_none`,
   `ordered_of_backward?_eq_none`).

Together they give `exists_topologicalOrder` for acyclic graphs, `topologicalOrder_spec` for every
order that is returned, and the converse `acyclic_of_topologicalOrder`. Which of the possible orders
is returned is said nowhere, and nothing outside this module asks for it.
-/

namespace ObjectFlow.Graph

variable {N E : Type}

/-- Whatever an edge leads to from a node of the list stands behind the node. -/
def Ordered (g : Graph N E) : List NodeId → Prop
  | [] => True
  | id :: rest => (∀ t, g.Step id t → t ∈ rest) ∧ Ordered g rest

theorem Ordered.step_mem {g : Graph N E} {l : List NodeId} (h : g.Ordered l) {u v : NodeId}
    (hu : u ∈ l) (hs : g.Step u v) : v ∈ l := by
  induction l with
  | nil => simp at hu
  | cons id rest ih =>
    rcases List.mem_cons.1 hu with rfl | hu
    · exact List.mem_cons_of_mem _ (h.1 v hs)
    · exact List.mem_cons_of_mem _ (ih h.2 hu)

/-- What is reached from a node of an ordered list is in the list. -/
theorem Ordered.reaches_mem {g : Graph N E} {l : List NodeId} (h : g.Ordered l) {u v : NodeId}
    (hu : u ∈ l) (hr : g.Reaches u v) : v ∈ l := by
  induction hr with
  | single hs => exact h.step_mem hu hs
  | tail _ hs ih => exact h.step_mem ih hs

/-- What a node reaches stands behind it. -/
theorem Ordered.mem_of_reaches {g : Graph N E} {id : NodeId} {rest : List NodeId}
    (h : g.Ordered (id :: rest)) {v : NodeId} (hr : g.Reaches id v) : v ∈ rest := by
  obtain ⟨w, hs, rfl | hr⟩ := reaches_iff_head.1 hr
  · exact h.1 w hs
  · exact h.2.reaches_mem (h.1 w hs) hr

/-- An ordered list without repetitions leaves no room for a cycle. -/
theorem Ordered.not_reaches_self {g : Graph N E} {l : List NodeId} (h : g.Ordered l)
    (hd : l.Nodup) {u : NodeId} (hu : u ∈ l) : ¬ g.Reaches u u := by
  induction l with
  | nil => simp at hu
  | cons id rest ih =>
    rw [List.nodup_cons] at hd
    rcases List.mem_cons.1 hu with rfl | hu
    · exact fun hr => hd.1 (h.mem_of_reaches hr)
    · exact ih h.2 hd.2 hu

/-- Every edge runs forwards. -/
theorem Ordered.idxOf_lt {g : Graph N E} {l : List NodeId} (h : g.Ordered l) (hd : l.Nodup)
    {u v : NodeId} (hu : u ∈ l) (hs : g.Step u v) : l.idxOf u < l.idxOf v := by
  induction l with
  | nil => cases hu
  | cons id rest ih =>
    obtain ⟨hid, hd⟩ := List.nodup_cons.1 hd
    have hne : ∀ w ∈ rest, id ≠ w := fun w hw heq => hid (heq ▸ hw)
    rcases List.mem_cons.1 hu with rfl | hu
    · have hv := h.1 v hs
      rw [List.idxOf_cons_self, List.idxOf_cons_ne _ (hne v hv)]
      exact Nat.succ_pos _
    · have hv := h.2.step_mem hu hs
      rw [List.idxOf_cons_ne _ (hne u hu), List.idxOf_cons_ne _ (hne v hv)]
      exact Nat.succ_lt_succ (ih h.2 hd hu)

/-! ## The walk

A visit enters a node or leaves it. Entering a node that was met before does nothing; otherwise its
followers are entered and then it is left. The pending visits are a stack, so that all that is put
on it by a node is done before the node is left. -/

/-- The node that a visit is about. -/
def Visit.node : Visit → NodeId
  | .enter id => id
  | .leave id => id

/-- The nodes that were entered and not left. -/
def opened : List Visit → List NodeId
  | [] => []
  | .enter _ :: pending => opened pending
  | .leave id :: pending => id :: opened pending

@[simp] theorem opened_enters (ids : List NodeId) (pending : List Visit) :
    opened (ids.map Visit.enter ++ pending) = opened pending := by
  induction ids with
  | nil => rfl
  | cons id ids ih => exact ih

/-- A node is open while its departure is pending. -/
theorem mem_opened {pending : List Visit} {id : NodeId} :
    id ∈ opened pending ↔ .leave id ∈ pending := by
  induction pending with
  | nil => simp [opened]
  | cons v pending ih => cases v <;> simp [opened, ih]

/--
Every pending departure finds all that follows its node among the nodes left by then: those left
already, and those which the visits in front of it are about.
-/
def Planned (g : Graph N E) (left : List NodeId) : List Visit → Prop
  | [] => True
  | .enter id :: pending => Planned g (id :: left) pending
  | .leave id :: pending => (∀ t, g.Step id t → t ∈ left) ∧ Planned g (id :: left) pending

/-- The more nodes are left, the better the plan. -/
theorem Planned.mono {g : Graph N E} {left left' : List NodeId} {pending : List Visit}
    (h : g.Planned left pending) (hsub : left ⊆ left') : g.Planned left' pending := by
  induction pending generalizing left left' with
  | nil => trivial
  | cons v pending ih =>
    cases v with
    | enter id => exact ih (h : g.Planned (id :: left) pending) (List.cons_subset_cons id hsub)
    | leave id => exact ⟨fun t ht => hsub (h.1 t ht), ih h.2 (List.cons_subset_cons id hsub)⟩

/-- Visits put on the stack add their nodes to those that will be left. -/
theorem Planned.enters {g : Graph N E} {left ids : List NodeId} {pending : List Visit}
    (h : g.Planned (ids.reverse ++ left) pending) :
    g.Planned left (ids.map Visit.enter ++ pending) := by
  induction ids generalizing left with
  | nil => exact h
  | cons id ids ih =>
    have h : g.Planned (ids.reverse ++ (id :: left)) pending := by simpa using h
    exact ih h

/-- Every open node reaches whatever a visit above it is about. -/
def Stacked (g : Graph N E) (pending : List Visit) : Prop :=
  pending.Pairwise fun v w => ∀ id, w = .leave id → g.Reaches id v.node

/-- What a node that is entered puts on the stack is reached from it, and so from all that are open
below. -/
theorem Stacked.enter {g : Graph N E} {id : NodeId} {pending : List Visit}
    (h : g.Stacked (.enter id :: pending)) {targets : List NodeId}
    (ht : ∀ t ∈ targets, g.Step id t) :
    g.Stacked (targets.map Visit.enter ++ .leave id :: pending) := by
  have hpending := List.pairwise_cons.1 h
  refine List.pairwise_append.2 ⟨?_, List.pairwise_cons.2 hpending, ?_⟩
  · refine List.pairwise_map.2 (List.pairwise_of_forall fun a b id' hb => ?_)
    cases hb
  · intro v hv w hw id' hid'
    obtain ⟨t, htm, rfl⟩ := List.mem_map.1 hv
    have hs := (ht t htm).reaches
    rcases List.mem_cons.1 hw with rfl | hw
    · cases hid'
      exact hs
    · exact (hpending.1 w hw id' hid').trans hs

/-- The nodes that are fresh, open or left are all nodes, and every fresh one will be entered. -/
structure Walking (all : List NodeId) (pending : List Visit) (fresh left : List NodeId) : Prop where
  perm : (fresh ++ (opened pending ++ left)).Perm all
  entered : ∀ id ∈ fresh, .enter id ∈ pending

/-- A node that is left was open. -/
theorem Walking.leave {all fresh left : List NodeId} {id : NodeId} {pending : List Visit}
    (h : Walking all (.leave id :: pending) fresh left) :
    Walking all pending fresh (id :: left) := by
  refine ⟨?_, fun id' hid' => ?_⟩
  · refine .trans ?_ h.perm
    exact List.Perm.append_left fresh List.perm_middle
  · simpa using h.entered id' hid'

/-- A node that is entered for the first time becomes open. -/
theorem Walking.enter {all fresh left : List NodeId} {id : NodeId} {pending : List Visit}
    (h : Walking all (.enter id :: pending) fresh left) (hid : id ∈ fresh) (ids : List NodeId)
    (hd : fresh.Nodup) :
    Walking all (ids.map Visit.enter ++ .leave id :: pending) (fresh.erase id) left := by
  refine ⟨?_, fun id' hid' => ?_⟩
  · rw [opened_enters]
    refine .trans ?_ h.perm
    have hp := (List.perm_cons_erase hid).symm.append_right (opened pending ++ left)
    exact List.perm_middle.trans hp
  · have hmem := (hd.mem_erase_iff).1 hid'
    have := h.entered id' hmem.2
    simp only [List.mem_cons, Visit.enter.injEq, hmem.1, false_or] at this
    simp [this]

/-- A node that was met before is passed over. -/
theorem Walking.skip {all fresh left : List NodeId} {id : NodeId} {pending : List Visit}
    (h : Walking all (.enter id :: pending) fresh left) (hid : id ∉ fresh) :
    Walking all pending fresh left := by
  refine ⟨h.perm, fun id' hid' => ?_⟩
  have := h.entered id' hid'
  simp only [List.mem_cons, Visit.enter.injEq] at this
  exact this.resolve_left fun heq => hid (heq ▸ hid')

/-- A walk that ends has left all nodes. -/
theorem walk_perm {g : Graph N E} {all fresh left order : List NodeId} {pending : List Visit}
    (hall : all.Nodup) (hw : Walking all pending fresh left)
    (h : g.walk pending fresh left = .ok order) : order.Perm all := by
  induction pending, fresh, left using walk.induct g with
  | case1 fresh left =>
    rw [walk] at h
    cases h
    have hfresh : fresh = [] := List.eq_nil_iff_forall_not_mem.2 fun id hid => by
      simpa using hw.entered id hid
    simpa [hfresh, opened] using hw.perm
  | case2 id pending fresh left ih =>
    rw [walk] at h
    exact ih hw.leave h
  | case3 id pending fresh left hid targets hself =>
    rw [walk, if_pos hid, if_pos hself] at h
    cases h
  | case4 id pending fresh left hid targets hself ih =>
    rw [walk, if_pos hid, if_neg hself] at h
    have hd : fresh.Nodup := (hw.perm.symm.nodup hall).sublist (List.sublist_append_left _ _)
    exact ih (hw.enter (by simpa using hid) targets hd) h
  | case5 id pending fresh left hid ih =>
    rw [walk, if_neg hid] at h
    exact ih (hw.skip (by simpa using hid)) h

/-- In an acyclic graph the walk ends, and every node is left after all that follow it. -/
theorem walk_ordered {g : Graph N E} (ha : g.Acyclic) {all fresh left : List NodeId}
    {pending : List Visit} (hall : all.Nodup) (hmem : ∀ u v, g.Step u v → v ∈ all)
    (hpend : ∀ v ∈ pending, v.node ∈ all) (hw : Walking all pending fresh left)
    (hs : g.Stacked pending) (hp : g.Planned left pending) (ho : g.Ordered left) :
    ∃ order, g.walk pending fresh left = .ok order ∧ g.Ordered order := by
  induction pending, fresh, left using walk.induct g with
  | case1 fresh left =>
    exact ⟨left, by rw [walk], ho⟩
  | case2 id pending fresh left ih =>
    rw [walk]
    exact ih (fun v hv => hpend v (List.mem_cons_of_mem _ hv)) hw.leave
      (List.pairwise_cons.1 hs).2 hp.2 ⟨hp.1, ho⟩
  | case3 id pending fresh left hid targets hself =>
    -- an edge from the node to itself would be a cycle
    have hself : g.Step id id := by simpa [targets, mem_outEdges, Step, and_assoc] using hself
    exact (ha id hself.reaches).elim
  | case4 id pending fresh left hid targets hself ih =>
    have htargets : ∀ t, t ∈ targets ↔ g.Step id t := by
      simp [targets, mem_outEdges, Step, and_assoc]
    have hd : fresh.Nodup := (hw.perm.symm.nodup hall).sublist (List.sublist_append_left _ _)
    rw [walk, if_pos hid, if_neg hself]
    refine ih ?_ (hw.enter (by simpa using hid) targets hd)
      (hs.enter fun t ht => (htargets t).1 ht) ?_ ho
    · intro v hv
      rcases List.mem_append.1 hv with hv | hv
      · obtain ⟨t, ht, rfl⟩ := List.mem_map.1 hv
        exact hmem id t ((htargets t).1 ht)
      · rcases List.mem_cons.1 hv with rfl | hv
        · exact hpend (.enter id) List.mem_cons_self
        · exact hpend v (List.mem_cons_of_mem _ hv)
    · refine Planned.enters
        ⟨fun t ht => ?_, Planned.mono (show g.Planned (id :: left) _ from hp) ?_⟩
      · simp [(htargets t).2 ht]
      · intro x hx
        rcases List.mem_cons.1 hx with rfl | hx
        · exact List.mem_cons_self
        · exact List.mem_cons_of_mem _ (List.mem_append_right _ hx)
  | case5 id pending fresh left hid ih =>
    rw [walk, if_neg hid]
    have hfresh : id ∉ fresh := by simpa using hid
    -- a node that is open here would lie on a cycle, so that the node was left before
    have hleft : id ∈ left := by
      have hin : id ∈ fresh ++ (opened pending ++ left) :=
        hw.perm.symm.subset (hpend (.enter id) List.mem_cons_self)
      rcases List.mem_append.1 hin with hin | hin
      · exact absurd hin hfresh
      · rcases List.mem_append.1 hin with hin | hin
        · exact absurd ((List.pairwise_cons.1 hs).1 _ (mem_opened.1 hin) id rfl) (ha id)
        · exact hin
    exact ih (fun v hv => hpend v (List.mem_cons_of_mem _ hv)) (hw.skip hfresh)
      (List.pairwise_cons.1 hs).2
      (Planned.mono (show g.Planned (id :: left) _ from hp)
        (List.cons_subset.2 ⟨hleft, List.Subset.refl _⟩)) ho

/-! ## The check

It goes through the order with the nodes that stand before the current one, and looks for an edge
into it that does not come from one of them. -/

theorem mem_cons_or_of_mem_or_cons {x id : NodeId} {earlier rest : List NodeId}
    (h : x ∈ earlier ∨ x ∈ id :: rest) : x ∈ id :: earlier ∨ x ∈ rest := by
  rcases h with h | h
  · exact .inl (List.mem_cons_of_mem _ h)
  · rcases List.mem_cons.1 h with rfl | h
    · exact .inl List.mem_cons_self
    · exact .inr h

/-- An ordered list passes. -/
theorem backward?_eq_none {g : Graph N E} {earlier rest : List NodeId} (ho : g.Ordered rest)
    (hd : rest.Nodup) (hmem : ∀ u v, g.Step u v → u ∈ earlier ∨ u ∈ rest) :
    g.backward? earlier rest = none := by
  induction rest generalizing earlier with
  | nil => rfl
  | cons id rest ih =>
    rw [List.nodup_cons] at hd
    have hin : ∀ u, g.Step u id → u ∈ earlier := by
      intro u hu
      rcases hmem u id hu with hm | hm
      · exact hm
      · rcases List.mem_cons.1 hm with rfl | hm
        · exact absurd (ho.1 u hu) hd.1
        · exact absurd (ho.2.step_mem hm hu) hd.1
    have hfind : ((g.inEdges id).find? fun e => !earlier.contains e.source) = none := by
      refine List.find?_eq_none.2 fun e he => ?_
      obtain ⟨hmem, ht⟩ := mem_inEdges.1 he
      simpa using hin _ ⟨e, hmem, rfl, ht⟩
    rw [backward?, hfind]
    exact ih ho.2 hd.2 fun u v hs => mem_cons_or_of_mem_or_cons (hmem u v hs)

/-- A list that passes is ordered. No edge may lead from behind to the nodes in front, where the
check has been already; at the start there are none. -/
theorem ordered_of_backward?_eq_none {g : Graph N E} {earlier rest : List NodeId}
    (h : g.backward? earlier rest = none) (hd : rest.Nodup) (hnew : ∀ id ∈ rest, id ∉ earlier)
    (hclosed : ∀ u v, g.Step u v → v ∈ earlier → u ∈ earlier)
    (hmem : ∀ u v, g.Step u v → v ∈ earlier ∨ v ∈ rest) : g.Ordered rest := by
  induction rest generalizing earlier with
  | nil => trivial
  | cons id rest ih =>
    rw [List.nodup_cons] at hd
    rw [backward?] at h
    split at h
    · cases h
    · rename_i hfind
      have hin : ∀ u, g.Step u id → u ∈ earlier := by
        rintro u ⟨e, he, rfl, ht⟩
        simpa using List.find?_eq_none.1 hfind e (mem_inEdges.2 ⟨he, ht⟩)
      have hid := hnew id List.mem_cons_self
      refine ⟨fun t ht => ?_,
        ih h hd.2 ?_ ?_ fun u v hs => mem_cons_or_of_mem_or_cons (hmem u v hs)⟩
      · rcases hmem id t ht with hm | hm
        · exact absurd (hclosed id t ht hm) hid
        · rcases List.mem_cons.1 hm with rfl | hm
          · exact absurd (hin t ht) hid
          · exact hm
      · intro x hx hxe
        rcases List.mem_cons.1 hxe with rfl | hxe
        · exact hd.1 hx
        · exact hnew x (List.mem_cons_of_mem _ hx) hxe
      · intro u v hs hv
        rcases List.mem_cons.1 hv with rfl | hv
        · exact List.mem_cons_of_mem _ (hin u hs)
        · exact List.mem_cons_of_mem _ (hclosed u v hs hv)

/-! ## Topological orders

 -/

theorem topologicalOrder_eq_ok_iff {g : Graph N E} {order : List NodeId} :
    g.topologicalOrder = .ok order ↔
      g.walk (g.seating.seated.map Visit.enter) g.seating.seated [] = .ok order ∧
        g.backward? [] order = none := by
  unfold topologicalOrder
  rw [Outcome.bind_eq_ok_iff]
  constructor
  · rintro ⟨l, hwalk, h⟩
    split at h
    · cases h
    · rename_i hback
      cases h
      exact ⟨hwalk, hback⟩
  · rintro ⟨hwalk, hback⟩
    exact ⟨order, hwalk, by rw [hback]⟩

theorem walking_start (ids : List NodeId) : Walking ids (ids.map Visit.enter) ids [] := by
  refine ⟨?_, fun id hid => List.mem_map_of_mem hid⟩
  have := opened_enters ids []
  rw [List.append_nil] at this
  simp [this, opened]

theorem planned_start (g : Graph N E) (ids left : List NodeId) :
    g.Planned left (ids.map Visit.enter) := by
  rw [← List.append_nil (ids.map _)]
  exact Planned.enters trivial

theorem stacked_start (g : Graph N E) (ids : List NodeId) : g.Stacked (ids.map Visit.enter) :=
  List.pairwise_map.2 (List.pairwise_of_forall fun _ _ _ h => by cases h)

/-- The order has every node once, and every edge runs forwards in it. -/
theorem topologicalOrder_spec {g : Graph N E} (h : g.WellFormed) {order : List NodeId}
    (ho : g.topologicalOrder = .ok order) : order.Perm g.nodeIds ∧ g.Ordered order := by
  obtain ⟨hwalk, hback⟩ := topologicalOrder_eq_ok_iff.1 ho
  have hseated := h.seating_fits.seated_perm
  have hperm := (walk_perm (hseated.symm.nodup h.nodes_nodup)
    (walking_start g.seating.seated) hwalk).trans hseated
  refine ⟨hperm, ordered_of_backward?_eq_none hback (hperm.symm.nodup h.nodes_nodup) (by simp)
    (by simp) fun u v hs => .inr (hperm.symm.subset (h.step_mem hs).2)⟩

/-- A graph with an order has no cycle. -/
theorem acyclic_of_topologicalOrder {g : Graph N E} (h : g.WellFormed) {order : List NodeId}
    (ho : g.topologicalOrder = .ok order) : g.Acyclic := by
  obtain ⟨hperm, hord⟩ := topologicalOrder_spec h ho
  intro u hr
  have hu := hperm.symm.subset (h.reaches_mem hr).1
  exact hord.not_reaches_self (hperm.symm.nodup h.nodes_nodup) hu hr

/-- A graph without cycles has an order. -/
theorem exists_topologicalOrder {g : Graph N E} (h : g.WellFormed) (ha : g.Acyclic) :
    ∃ order, g.topologicalOrder = .ok order := by
  have hseated := h.seating_fits.seated_perm
  have hd := hseated.symm.nodup h.nodes_nodup
  have hmem : ∀ v, v ∈ g.nodeIds → v ∈ g.seating.seated := fun v hv => hseated.symm.subset hv
  have hstart := walking_start g.seating.seated
  obtain ⟨order, hwalk, hord⟩ := walk_ordered ha hd
    (fun u v hs => hmem v (h.step_mem hs).2)
    (fun v hv => by
      obtain ⟨id, hid, rfl⟩ := List.mem_map.1 hv
      exact hid)
    hstart (stacked_start g _) (planned_start g _ []) trivial
  have hperm := walk_perm hd hstart hwalk
  refine ⟨order, topologicalOrder_eq_ok_iff.2 ⟨hwalk, ?_⟩⟩
  exact backward?_eq_none hord (hperm.symm.nodup hd)
    fun u v hs => .inr (hperm.symm.subset (hmem u (h.step_mem hs).1))

/-- The nodes of an acyclic graph can be numbered along its edges. -/
theorem exists_rank {g : Graph N E} (h : g.WellFormed) (ha : g.Acyclic) :
    ∃ rank : NodeId → Nat, (∀ e ∈ g.edges, rank e.source < rank e.target) ∧
      ∀ n ∈ g.nodeIds, rank n < g.nodeIds.length := by
  obtain ⟨order, ho⟩ := exists_topologicalOrder h ha
  obtain ⟨hperm, hord⟩ := topologicalOrder_spec h ho
  refine ⟨order.idxOf, fun e he => ?_, fun n hn => ?_⟩
  · exact hord.idxOf_lt (hperm.symm.nodup h.nodes_nodup)
      (hperm.symm.subset (h.source_mem e he)) ⟨e, he, rfl, rfl⟩
  · rw [← hperm.length_eq]
    exact List.idxOf_lt_length_of_mem (hperm.symm.subset hn)

/-- The program's test for cycles is exact. -/
theorem isAcyclic_iff {g : Graph N E} (h : g.WellFormed) : g.isAcyclic = true ↔ g.Acyclic := by
  unfold isAcyclic
  constructor
  · intro hok
    cases ho : g.topologicalOrder with
    | ok order => exact acyclic_of_topologicalOrder h ho
    | error e => rw [ho] at hok; cases hok
  · intro ha
    obtain ⟨order, ho⟩ := exists_topologicalOrder h ha
    rw [ho]

end ObjectFlow.Graph
