import Mathlib.Data.List.Permutation
import ObjectFlow.Proofs.Annotated.Collapse

/-!
# The upkeep of the closure

While actions are collapsed, the closure is not worked out anew. It is contracted along with the
graph, and then only what is missing around the new node is filled in. Nevertheless, after every
turn it joins just the nodes that a path joins (`collapse_upkeep`). No pair needs filling in from a
node to itself, because there is no second way from the first of the two actions to the other
(`Collapsing.not_linked_back`).

Two closures of one graph may have other edges, in another order and with other identities. They are
compared by their nodes and by which of these they link (`SaysAnew`). For the closure that is worked
out anew this is given by its specification, and for the one that is kept by the invariant of the
loop (`LoopState.Sound`), so the two agree at every state (`LoopState.Current`). What happens inside
of a merger, between the contraction and the next state, is told by `LoopState.FillsIn`.
-/

namespace ObjectFlow.Annotated.Draft

open ObjectFlow.Graph

/-- A closure says what one says that is worked out anew. -/
def SaysAnew (c : Graph Unit Unit) (g : Graph Node Thread) (s : Supply) : Prop :=
  ∃ c' s', g.closure s = .ok (c', s') ∧ c'.nodeIds.Perm c.nodeIds ∧
    ∀ u v, c'.linked u v = c.linked u v

namespace LoopState

/-- The closure of the state is the closure of its graph, which has no cycle. -/
structure Current (t : LoopState) : Prop where
  acyclic : t.draft.graph.Acyclic
  nodeIds_perm : t.closure.nodeIds.Perm t.draft.graph.nodeIds
  linked_iff : ∀ u v, t.closure.linked u v = true ↔ t.draft.graph.Reaches u v
  anew : SaysAnew t.closure t.draft.graph t.supply

/--
When two actions become one, nothing in the contracted closure leads to the new node and also
follows from it, just the pairs that this node joins are filled in, and then the closure says of the
contracted graph what one says that is worked out anew.
-/
def FillsIn (t : LoopState) (parent child : NodeId) : Prop :=
  let hub := t.supply.node.1
  ∃ g c₁ c₂ s₂,
    t.draft.graph.contract [parent, child] hub (.action { collapsed := true }) = .ok g ∧
    t.closure.contract [parent, child] hub () = .ok c₁ ∧
    saturate c₁ t.supply.node.2 hub = .ok (c₂, s₂) ∧
    (∀ n, c₁.linked n hub = true → c₁.linked hub n = false) ∧
    (∀ u v, c₂.linked u v = true ↔
      c₁.linked u v = true ∨ c₁.linked u hub = true ∧ c₁.linked hub v = true) ∧
    SaysAnew c₂ g s₂

end LoopState

section

variable {d : Draft} {c : Graph Unit Unit} {s : Supply} {parent child : NodeId}

/-- A true closure says what one says that is worked out anew. -/
theorem Collapsing.saysAnew (h : d.Collapsing c s) : SaysAnew c d.graph s := by
  obtain ⟨c', s', hok, hcl, -, -⟩ := closure_spec h.wellFormed h.acyclic h.before
  refine ⟨c', s', hok, ?_, hcl.linked_eq h.closes⟩
  exact (hcl.nodeIds_perm h.wellFormed).trans (h.closes.nodeIds_perm h.wellFormed).symm

/-- The closure of a sound state is current. -/
theorem LoopState.Sound.current {t : LoopState} (h : t.Sound) : t.Current :=
  ⟨h.acyclic, h.closes.nodeIds_perm h.wellFormed, fun _ _ => h.closes.linked_iff, h.saysAnew⟩

/-- What leads to the new node does not also follow from it. -/
theorem Collapsing.not_linked_back (h : d.Collapsing c s) (hm : d.Mergeable parent child)
    {c₁ : Graph Unit Unit} (hc₁ : c.contract [parent, child] s.node.1 () = .ok c₁) {n : NodeId}
    (hn : c₁.linked n s.node.1 = true) : c₁.linked s.node.1 n = false := by
  have hw := h.closes.wellFormed
  have hcc := contractible_of_closes h.closes h.closure_before (hm.contractible h.before)
  obtain rfl := Except.ok.inj (hc₁.symm.trans (contract_eq_ok hw hcc ()))
  refine Bool.eq_false_iff.2 fun hback => ?_
  rw [linked_iff] at hn hback
  by_cases hnh : n = s.node.1
  · subst hnh
    exact not_step_hub_hub hw hcc () hn
  · -- a way from one of the two over `n` to one of the two
    have hmem := ((hw.contracted hcc ()).step_mem hn).1
    have hout := (((mem_nodeIds_contracted hcc ()).1 hmem).resolve_left hnh).2
    obtain ⟨m, hm₁, hnm⟩ := (step_contracted_hub hw hcc () hout hnh).1 hn
    obtain ⟨m', hm₂, hmn⟩ := (step_hub_contracted hw hcc () hout hnh).1 hback
    rw [h.closes.step_iff] at hnm hmn
    exact hm.convex h.acyclic m' hm₂ m hm₁ n hout hmn hnm

/-- A merger fills in what is missing, and nothing else. -/
theorem Collapsing.fillsIn (h : d.Collapsing c s) (hm : d.Mergeable parent child)
    (stack : List NodeId) : LoopState.FillsIn ⟨d, c, s, stack⟩ parent child := by
  have hw := h.closes.wellFormed
  have hcc := contractible_of_closes h.closes h.closure_before (hm.contractible h.before)
  obtain ⟨c₁, c₂, s₂, hg, hc₁, hc₂, hnext, -⟩ := h.step hm
  have hback : ∀ n, c₁.linked n s.node.1 = true → c₁.linked s.node.1 n = false :=
    fun _ => h.not_linked_back hm hc₁
  refine ⟨_, c₁, c₂, s₂, hg, hc₁, hc₂, hback, fun u v => ?_, hnext.saysAnew⟩
  obtain rfl := Except.ok.inj (hc₁.symm.trans (contract_eq_ok hw hcc ()))
  obtain ⟨c', s', hok, -, -, -, -, hstep⟩ := saturate_eq_ok (hw.contracted hcc ())
    (h.closure_before.contracted [parent, child] ()) s.node.1
  obtain ⟨rfl, rfl⟩ := Prod.mk.inj (Except.ok.inj (hc₂.symm.trans hok))
  simp only [linked_iff, hstep]
  refine or_congr_right ⟨fun ⟨hu, hv, _⟩ => ⟨hu, hv⟩, fun ⟨hu, hv⟩ => ⟨hu, hv, ?_⟩⟩
  rintro rfl
  have hno := hback u (linked_iff.2 hu)
  rw [linked_iff.2 hv] at hno
  cases hno

end

/--
In every state that the loop comes to, the closure joins just the nodes that a path joins, the graph
has no cycle, both have the same nodes, and the loop goes on without an error. Whenever two actions
are to become one, filling in what is missing gives what working the closure out anew would give.
-/
theorem collapse_upkeep {d : Draft} {s : Supply} (h : d.graph.WellFormed) (ha : d.graph.Acyclic)
    (hb : d.graph.Before s) : ∃ t₀, d.start s = .ok t₀ ∧ t₀.draft = d ∧
      (∀ t, t₀.Visits t → t.Current ∧ t.rest = d.collapse s ∧ (∃ r, t.next = .ok r) ∧
        ∀ parent child, t.draft.partner? t.closure parent = some child →
          t.FillsIn parent child) ∧
      ∃ t, t₀.Visits t ∧ t.stack = [] ∧ d.collapse s = .ok (t.draft, t.supply) := by
  obtain ⟨t₀, hstart, hdraft, hsound, -⟩ := start_spec h ha hb
  have hcollapse : d.collapse s = t₀.rest := by
    rw [collapse_eq, hstart]
    rfl
  refine ⟨t₀, hstart, hdraft, fun t hv => ?_, ?_⟩
  · obtain ⟨ht, -, -⟩ := hsound.visits hv
    refine ⟨ht.current, hv.rest_eq.trans hcollapse.symm, ?_, fun parent child hp =>
      Collapsing.fillsIn ht (mergeable_of_partner? ht.closes hp) t.stack⟩
    rcases ht.next with ⟨-, hnone⟩ | ⟨t', hturn, -⟩
    · exact ⟨_, hnone⟩
    · exact ⟨_, hturn⟩
  · obtain ⟨t, hv, hempty, hrest⟩ := hsound.ends
    exact ⟨t, hv, hempty, hcollapse.trans hrest⟩

/--
The second and the third call have no note and become one, through which the first call then leads
to the last.
-/
def crossing : Draft :=
  let plain : Node := .action {}
  let noted : Node := .action { note := some ⟨"", "", ""⟩ }
  let g : Graph Node Thread := {}
  let g := ((g.attachNode ⟨0⟩ plain).attachNode ⟨1⟩ plain).attachNode ⟨2⟩ plain
  let g := g.attachNode ⟨3⟩ noted
  { graph := g.withEdges [⟨⟨4⟩, ⟨0⟩, ⟨2⟩, ⟨⟨"a"⟩, none⟩⟩, ⟨⟨5⟩, ⟨1⟩, ⟨2⟩, ⟨⟨"b"⟩, none⟩⟩,
      ⟨⟨6⟩, ⟨1⟩, ⟨3⟩, ⟨⟨"c"⟩, none⟩⟩]
    markers := [⟨0⟩] }

/-- The first action is linked to the last one in the end, and was not at the start. -/
theorem collapse_upkeep_crossing : crossing.graph.WellFormed ∧ crossing.graph.Acyclic ∧
    crossing.graph.Before ⟨7⟩ ∧ ∃ t₀ t, crossing.start ⟨7⟩ = .ok t₀ ∧ t₀.Visits t ∧
      crossing.collapse ⟨7⟩ = .ok (t.draft, t.supply) ∧ t.Current ∧
      t₀.closure.linked ⟨0⟩ ⟨3⟩ = false ∧ t.closure.linked ⟨0⟩ ⟨3⟩ = true := by
  have hw : crossing.graph.WellFormed := by
    refine (((((WellFormed.empty.attachNode _ ?_).attachNode _ ?_).attachNode _ ?_).attachNode _
      ?_).withEdges ?_ ?_ ?_ ?_)
    all_goals decide
  have ha : crossing.graph.Acyclic := acyclic_of_rank NodeId.value (by decide)
  have hb : crossing.graph.Before ⟨7⟩ := ⟨by decide, by decide⟩
  obtain ⟨t₀, hstart, -, hall, t, hv, -, hcollapse⟩ := collapse_upkeep hw ha hb
  have hcurrent := (hall t hv).1
  refine ⟨hw, ha, hb, t₀, t, hstart, hv, hcollapse, hcurrent, ?_, ?_⟩
  · have hlinked : (crossing.start ⟨7⟩).toOption.map (fun t => t.closure.linked ⟨0⟩ ⟨3⟩) =
        some false := by cbv
    rw [hstart] at hlinked
    exact Option.some.inj hlinked
  · -- both edges at the new node, which is the first after those of the closure
    have hlinked : (crossing.collapse ⟨7⟩).toOption.map (fun r =>
        (r.1.graph.linked ⟨0⟩ ⟨10⟩, r.1.graph.linked ⟨10⟩ ⟨3⟩)) = some (true, true) := by cbv
    rw [hcollapse] at hlinked
    obtain ⟨hinto, hout⟩ := Prod.mk.inj (Option.some.inj hlinked)
    exact (hcurrent.linked_iff _ _).2
      ((linked_iff.1 hinto).reaches.trans (linked_iff.1 hout).reaches)

end ObjectFlow.Annotated.Draft
