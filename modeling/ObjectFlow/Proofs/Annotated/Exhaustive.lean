import ObjectFlow.Proofs.Annotated.Collapse

/-!
# Collapsing leaves nothing to collapse

An action that is no longer on the stack cannot become one with any that follows it, and a later
merger does not change this (`settled_invariant`): the second way from the one to the other, or the
two actions with notes that would be connected, are still there afterwards. So when the stack is
empty, no two neighbouring actions are left that could be made one (`collapse_exhaustive`).

## Outline

The invariant of the loop is `Settled`: whatever is not on the stack is not `Mergeable` with a
successor. It holds at the start, when all nodes are on the stack, and it is what is claimed when
the stack is empty. A round of the loop does one of two things.

1. The first action of the stack has no partner and is passed over. By
   `not_mergeable_of_partner?_eq_none` it is settled now.
2. It has a partner, and the two are contracted into a new node, which is pushed on the stack. Here
   it must be shown that no pair `y`, `x` of other nodes has become mergeable. The contrapositive is
   proved: if `y` and `x` are mergeable afterwards, they were so before. * If `x` is an old node,
   the pair itself was mergeable (`Collapsing.mergeable_of_merged`). A detour from `y` to `x` before
   the merger is a detour afterwards, over the new node if it led over one of the two. * If `x` is
   the new node, `y` was mergeable with one of the two nodes that went into it
   (`Collapsing.mergeable_of_merged_hub`): with the parent if an edge leads there, else with the
   child. Without the first choice, the way over the parent would be a detour to the child. * In
   both cases the condition on actions with notes goes back as well (`Collapsing.connected_merged`),
   because a merger keeps what actions with notes reach of each other (`Keeps.reaches_iff`).
-/

namespace ObjectFlow.Annotated.Draft

open ObjectFlow.Graph

/-- Whatever is not on the stack cannot become one with an action that follows it. -/
def Settled (d : Draft) (stack : List NodeId) : Prop :=
  ∀ y, y ∉ stack → ∀ x, ¬ d.Mergeable y x

section

variable {d : Draft} {c : Graph Unit Unit} {s : Supply} {parent child : NodeId}

/-- What can be collapsed after a merger, other than the new node, could be collapsed before and is
neither of the two. -/
theorem isCollapsible_merged (hb : d.graph.Before s) (hm : d.Mergeable parent child) {n : NodeId}
    (hn : n ≠ s.node.1)
    (h : (d.merged parent child s.node.1).isCollapsible n = true) :
    n ∉ [parent, child] ∧ d.isCollapsible n = true := by
  obtain ⟨hmark, x, hx, hplain⟩ := isCollapsible_iff.1 h
  have hmem := (mem_nodeIds_contracted (hm.contractible hb) _).1 (mem_nodeIds_of_node? hx)
  have hout := (hmem.resolve_left hn).2
  exact ⟨hout, isCollapsible_iff.2 ⟨hmark, x, (node?_contracted _ hout hn).symm.trans hx, hplain⟩⟩

/-- What would be connected by a merger before is still to be connected afterwards. -/
theorem Collapsing.connected_merged (h : d.Collapsing c s) (hm : d.Mergeable parent child)
    {y x m : NodeId} (hm' : (d.merged parent child s.node.1).Mergeable y x)
    (hy : y ∉ [parent, child]) (hyh : y ≠ s.node.1)
    (hx : ∀ a, a ∉ [parent, child] → d.graph.Reaches a m →
      (d.merged parent child s.node.1).graph.Reaches a x)
    (a b : NodeId) (ha : isNotedNode d.graph a = true) (hb : isNotedNode d.graph b = true)
    (ham : d.graph.Reaches a m) (hyb : d.graph.Reaches y b) : d.graph.Reaches a b := by
  have hcon := hm.contractible h.before
  obtain ⟨-, -, -, -, -, -, -, hkeeps⟩ := h.step hm
  have hnoted : ∀ n, isNotedNode d.graph n = true →
      isNotedNode (d.merged parent child s.node.1).graph n = true := by
    intro n hn
    obtain ⟨z, hz, hz'⟩ := isNotedNode_iff.1 hn
    exact isNotedNode_iff.2 ⟨z, hkeeps.node?_eq n z hz (isCollapsible_of_isNotedNode hn), hz'⟩
  have hout : ∀ n, isNotedNode d.graph n = true → n ∉ [parent, child] ∧ n ≠ s.node.1 := by
    intro n hn
    obtain ⟨z, hz, -⟩ := isNotedNode_iff.1 hn
    exact ⟨hm.not_mem (isCollapsible_of_isNotedNode hn),
      fun heq => hcon.hub_new (heq ▸ mem_nodeIds_of_node? hz)⟩
  have hyb' : (d.merged parent child s.node.1).graph.Reaches y b :=
    (reaches_contracted h.wellFormed hcon _ hy hyh (hout b hb).1 (hout b hb).2).2 (.inl hyb)
  exact (hkeeps.reaches_iff a b ha hb).1
    (hm'.connected a b (hnoted a ha) (hnoted b hb) (hx a (hout a ha).1 ham) hyb')

/-- Two actions that can become one after a merger elsewhere could have done so before. -/
theorem Collapsing.mergeable_of_merged (h : d.Collapsing c s) (hm : d.Mergeable parent child)
    {y x : NodeId} (hm' : (d.merged parent child s.node.1).Mergeable y x) (hyh : y ≠ s.node.1)
    (hxh : x ≠ s.node.1) : d.Mergeable y x := by
  have hcon := hm.contractible h.before
  obtain ⟨hy, hyc⟩ := isCollapsible_merged h.before hm hyh hm'.parent_collapsible
  obtain ⟨hx, hxc⟩ := isCollapsible_merged h.before hm hxh hm'.child_collapsible
  refine ⟨hm'.ne, hyc, hxc, (step_contracted_outer h.wellFormed hcon _ hy hyh hx hxh).1 hm'.step,
    fun n hyn hnx hr => ?_, h.connected_merged hm hm' hy hyh fun a ha hr => ?_⟩
  · -- a second way leads over the new node afterwards if it led over one of the two
    refine hm'.no_detour (image [parent, child] s.node.1 n) ?_ (fun heq => ?_)
      (hr.contracted_of_not_mem_right h.wellFormed hcon _ hx)
    · exact (step_contracted h.wellFormed hcon _).2
        ⟨y, n, hyn, fun hmem => hy hmem.1, image_of_not_mem hy, rfl⟩
    · exact hnx (eq_of_image heq hxh).2
  · have hr' := hr.contracted_of_not_mem h.wellFormed hcon (.action { collapsed := true }) ha
    rwa [image_of_not_mem hx] at hr'

/-- What can become one with the new node could have become one with one of the two before. -/
theorem Collapsing.mergeable_of_merged_hub (h : d.Collapsing c s)
    (hm : d.Mergeable parent child) {y : NodeId}
    (hm' : (d.merged parent child s.node.1).Mergeable y s.node.1) :
    d.Mergeable y parent ∨ d.Mergeable y child := by
  have hcon := hm.contractible h.before
  have hyh : y ≠ s.node.1 := hm'.ne.symm
  obtain ⟨hy, hyc⟩ := isCollapsible_merged h.before hm hyh hm'.parent_collapsible
  have hy' := hy
  rw [List.mem_cons, List.mem_singleton, not_or] at hy'
  -- a second way to one of the two, over neither of them, is one to the new node
  have hdetour : ∀ m ∈ [parent, child], ∀ n, d.graph.Step y n → n ∉ [parent, child] →
      ¬ d.graph.Reaches n m := by
    intro m hmem n hyn hn hr
    have hnh : n ≠ s.node.1 := fun heq =>
      hcon.hub_new (heq ▸ (h.wellFormed.step_mem hyn).2)
    exact hm'.no_detour n ((step_contracted_outer h.wellFormed hcon _ hy hyh hn hnh).2 hyn) hnh
      ((reaches_contracted_hub h.wellFormed hcon _ hn hnh).2 ⟨m, hmem, hr⟩)
  have hconn : ∀ m ∈ [parent, child], ∀ a b, isNotedNode d.graph a = true →
      isNotedNode d.graph b = true → d.graph.Reaches a m → d.graph.Reaches y b →
      d.graph.Reaches a b := fun m hmem =>
    h.connected_merged hm hm' hy hyh fun a ha hr => by
      have hr' := hr.contracted_of_not_mem h.wellFormed hcon (.action { collapsed := true }) ha
      rwa [image_of_mem hmem] at hr'
  by_cases hyp : d.graph.Step y parent
  · refine .inl ⟨Ne.symm hy'.1, hyc, hm.parent_collapsible, hyp, fun n hyn hnp hr => ?_,
      hconn parent (by simp)⟩
    have hnc : n ≠ child := by
      rintro rfl
      exact h.acyclic _ (hm.step.reaches.trans hr)
    exact hdetour parent (by simp) n hyn (by simp [hnp, hnc]) hr
  · obtain ⟨m, hmem, hym⟩ :=
      (step_contracted_hub h.wellFormed hcon _ hy hyh).1 hm'.step
    rw [List.mem_cons, List.mem_singleton] at hmem
    rcases hmem with rfl | rfl
    · exact absurd hym hyp
    · refine .inr ⟨Ne.symm hy'.2, hyc, hm.child_collapsible, hym, fun n hyn hnc hr => ?_,
        hconn m (by simp)⟩
      have hnp : n ≠ parent := by
        rintro rfl
        exact hyp hyn
      exact hdetour m (by simp) n hyn (by simp [hnp, hnc]) hr

end

/--
Passing over an action settles it. A merger puts only the new node on the stack, and what was
settled stays so.
-/
theorem settled_invariant : Invariant Settled where
  pass := by
    intro d c s parent stack h hnone hset y hy x hm
    by_cases hyp : y = parent
    · subst hyp
      exact not_mergeable_of_partner?_eq_none h.closes hnone x hm
    · exact hset y (by simp [hyp, hy]) x hm
  merge := by
    intro d c s parent child stack h hm hset y hy x hm'
    rw [List.mem_cons, not_or] at hy
    obtain ⟨hout, -⟩ := isCollapsible_merged h.before hm hy.1 hm'.parent_collapsible
    rw [List.mem_cons, not_or] at hout
    have hold := hset y (by simp [hout.1, hy.2])
    by_cases hxh : x = s.node.1
    · subst hxh
      exact (h.mergeable_of_merged_hub hm hm').elim (hold parent) (hold child)
    · exact hold x (h.mergeable_of_merged hm hm' hy.1 hxh)

/-- Nothing is settled, and nothing has to be, while all actions are on the stack. -/
theorem settled_start {d : Draft} {stack : List NodeId} (h : ∀ n ∈ d.graph.nodeIds, n ∈ stack) :
    Settled d stack := by
  intro y hy x hm
  obtain ⟨-, z, hz, -⟩ := isCollapsible_iff.1 hm.parent_collapsible
  exact hy (h y (mem_nodeIds_of_node? hz))

/-- When collapsing is over, no two neighbours are left that could be made one. -/
theorem collapse_settled {d : Draft} {s : Supply} (h : d.graph.WellFormed)
    (ha : d.graph.Acyclic) (hb : d.graph.Before s) :
    ∃ d' s', d.collapse s = .ok (d', s') ∧ d'.graph.WellFormed ∧ d'.graph.Acyclic ∧
      d'.graph.Before s' ∧ d.Keeps d' ∧ ∀ y x, ¬ d'.Mergeable y x := by
  obtain ⟨d', s', hok, hw, ha', hb', hkeeps, hset⟩ :=
    collapse_invariant settled_invariant h ha hb fun _ hall => settled_start hall
  exact ⟨d', s', hok, hw, ha', hb', hkeeps, fun y => hset y (by simp)⟩

/--
Collapsing ends with an acyclic graph in which, by its own closure, no two neighbours that may be
collapsed are safe to be made one: there is a second way from the one to the other, or two actions
with notes would be connected that are not.
-/
theorem collapse_exhaustive {d : Draft} {s : Supply} (h : d.graph.WellFormed)
    (ha : d.graph.Acyclic) (hb : d.graph.Before s) :
    ∃ d' s' c s'', d.collapse s = .ok (d', s') ∧ d'.graph.Acyclic ∧
      d'.graph.closure s' = .ok (c, s'') ∧
      (∀ u v, c.linked u v = true ↔ d'.graph.Reaches u v) ∧
      ∀ parent child, d'.graph.Step parent child → d'.isCollapsible parent = true →
        d'.isCollapsible child = true → isSafe d'.graph c parent child = false ∧
        ((∃ n, d'.graph.Step parent n ∧ n ≠ child ∧ d'.graph.Reaches n child) ∨
          ∃ a b, isNotedNode d'.graph a = true ∧ isNotedNode d'.graph b = true ∧
            d'.graph.Reaches a child ∧ d'.graph.Reaches parent b ∧ ¬ d'.graph.Reaches a b) := by
  obtain ⟨d', s', hok, hw, ha', hb', -, hsettled⟩ := collapse_settled h ha hb
  obtain ⟨c, s'', hc, hcl, -, -⟩ := closure_spec hw ha' hb'
  refine ⟨d', s', c, s'', hok, ha', hc, fun u v => hcl.linked_iff, fun p x hs hp hx => ?_⟩
  have hunsafe : ¬ isSafe d'.graph c p x = true := fun hsafe => by
    refine hsettled p x ((mergeable_iff hcl).2 ⟨?_, hp, hx, hs, hsafe⟩)
    rintro rfl
    exact ha' _ hs.reaches
  refine ⟨Bool.eq_false_iff.2 hunsafe, ?_⟩
  rw [isSafe_iff hcl, not_and_or] at hunsafe
  push Not at hunsafe
  exact hunsafe.imp (fun ⟨n, hpn, hne, hr⟩ => ⟨n, hpn, hne, hr⟩)
    fun ⟨a, b, ha, hb, hax, hpb, hno⟩ => ⟨a, b, ha, hb, hax, hpb, hno⟩

/--
Four calls without a note: the first two become one, and then nothing may be made one with the
last, to which there are two ways.
-/
def detour : Draft :=
  let plain : Node := .action {}
  let noted : Node := .action { note := some ⟨"", "", ""⟩ }
  let g : Graph Node Thread := {}
  let g := ((g.attachNode ⟨0⟩ plain).attachNode ⟨1⟩ plain).attachNode ⟨2⟩ noted
  let g := g.attachNode ⟨3⟩ plain
  { graph := g.withEdges [⟨⟨4⟩, ⟨0⟩, ⟨1⟩, ⟨⟨"a"⟩, none⟩⟩, ⟨⟨5⟩, ⟨1⟩, ⟨2⟩, ⟨⟨"b"⟩, none⟩⟩,
      ⟨⟨6⟩, ⟨2⟩, ⟨3⟩, ⟨⟨"c"⟩, none⟩⟩, ⟨⟨7⟩, ⟨1⟩, ⟨3⟩, ⟨⟨"d"⟩, none⟩⟩]
    markers := [] }

/-- The assumptions hold of the four calls. -/
theorem collapse_detour : ∃ d' s' c s'', detour.collapse ⟨8⟩ = .ok (d', s') ∧
    d'.graph.Acyclic ∧ d'.graph.closure s' = .ok (c, s'') ∧
    ∀ parent child, d'.graph.Step parent child → d'.isCollapsible parent = true →
      d'.isCollapsible child = true → isSafe d'.graph c parent child = false := by
  have hw : detour.graph.WellFormed := by
    refine (((((WellFormed.empty.attachNode _ ?_).attachNode _ ?_).attachNode _ ?_).attachNode _
      ?_).withEdges ?_ ?_ ?_ ?_)
    all_goals decide
  have ha : detour.graph.Acyclic := acyclic_of_rank NodeId.value (by decide)
  obtain ⟨d', s', c, s'', hok, hacyclic, hc, -, hpairs⟩ :=
    collapse_exhaustive hw ha (s := ⟨8⟩) ⟨by decide, by decide⟩
  exact ⟨d', s', c, s'', hok, hacyclic, hc, fun p x hs hp hx => (hpairs p x hs hp hx).1⟩

end ObjectFlow.Annotated.Draft
