import ObjectFlow.Proofs.Semantic.Fold
import ObjectFlow.Proofs.Semantic.Shape

/-!
# Where mergers end

In layered graphs a merger ends and loses no relation (`mergeInto_loses_nothing`). If furthermore
what is the same object, and what fills one aspect of one action, has one form, both passes that
merge entities under actions end (`mergers_end`). Neither holds of all graphs: in a list of objects
of which one is merged with the next, a relation to the third is lost (`mergeInto_loses_relation`),
and in a list that leads back into itself mergers go on for ever (`mergeInto_endless`).

Two conditions are asked of a graph, for two reasons. That it is layered bounds how deep mergers lie
inside each other: each further merger is one level down. That it is orderly (`Orderly`) makes sure
that the next merger of the pass is again one of nodes of one form. Both are kept by a merger, since
the result is the graph with nodes of one form identified (`Folds`). So the loops need one
invariant, `Ready`, and one step lemma each.

For the counterexample the argument runs the other way round. Two nodes that lead to themselves
under one aspect call for their own merger before anything has been forwarded, and all that was
changed until then is what a copy of the edges adds (`Turning.arrived`). The call finds the same
situation one level deeper, and no depth is enough (`merge_turning`).
-/

namespace ObjectFlow.Semantic

open ObjectFlow.Graph

variable {κ : Type} {form : NodeId → κ} {level : κ → Nat} {g : SemanticGraph} {s : Supply}
  {o : Ontology} {depth : Nat}

/-- Nothing went anywhere yet. -/
theorem Merging.Standing.start (hwf : g.WellFormed) (hb : g.Before s) :
    Merging.Standing { graph := g, supply := s } fun n => n :=
  ⟨hwf, hb, fun _ => rfl, fun _ _ => rfl⟩

/-- A merger that may go as deep as the level of its nodes ends with the graph folded. -/
theorem mergeInto_yields (hwf : g.WellFormed) (hb : g.Before s) (hl : Layered form level g)
    {src dest : NodeId} (hsrc : src ∈ g.nodeIds) (hdest : dest ∈ g.nodeIds)
    (hform : form dest = form src) (hdepth : level (form src) < depth) :
    (mergeInto o depth g s src dest).Yields fun r => r.1.WellFormed ∧ r.1.Before r.2 ∧
      ∃ rep, rep src = rep dest ∧ Folds form g r.1 rep := by
  refine (Merging.merge_unites o form level depth _ src dest _ (.start hwf hb) hl hsrc hdest hform
    hdepth).bind fun m ⟨ρ, hu⟩ =>
      Course.yields_pure ⟨hu.standing.wellFormed, hu.standing.before, ρ, ?_, hu.folds⟩
  have hmem : dest ∈ m.graph.nodeIds := hu.meets ▸ hu.folds.survives src hsrc
  rw [hu.meets, hu.folds.fixed dest hmem]

/-- In a layered graph a merger of two nodes of one form succeeds and loses no relation. -/
theorem mergeInto_loses_nothing (o : Ontology) (form : NodeId → κ) (level : κ → Nat)
    {g : SemanticGraph} {s : Supply} {depth : Nat} (hwf : g.WellFormed) (hb : g.Before s)
    (hl : Layered form level g) {src dest : NodeId} (hsrc : src ∈ g.nodeIds)
    (hdest : dest ∈ g.nodeIds) (hform : form dest = form src) (hdepth : level (form src) < depth) :
    ∃ r rep, (mergeInto o depth g s src dest).run = some (.ok r) ∧ rep src = rep dest ∧
      Folds form g r.1 rep := by
  obtain ⟨r, hr, -, -, rep, hmeet, hfolds⟩ :=
    mergeInto_yields (o := o) hwf hb hl hsrc hdest hform hdepth
  exact ⟨r, rep, hr, hmeet, hfolds⟩

/-- Entities, each of which has others under one aspect. -/
def entities (ids : List Nat) (edges : List (Nat × Nat)) : SemanticGraph where
  nodes := ids.map fun n => (⟨n⟩, { type := "entity", root := .entity })
  edges := edges.zipIdx.map fun e => ⟨⟨e.2⟩, ⟨e.1.1⟩, ⟨e.1.2⟩, ⟨some "next", none⟩⟩
  seating := .inOrder (ids.map NodeId.mk)

/-- Two entities are merged that have each another one under the same aspect, which are merged as
well. -/
theorem mergeInto_loses_nothing_pairs :
    Layered (fun n => n.value / 10) id (entities [10, 11, 0, 1] [(10, 0), (11, 1)]) ∧
      ∃ r rep, (mergeInto Ontology.roots 2 (entities [10, 11, 0, 1] [(10, 0), (11, 1)]) ⟨20⟩ ⟨10⟩ ⟨11⟩).run =
        some (.ok r) ∧ rep ⟨10⟩ = rep ⟨11⟩ ∧
          Folds (fun n => n.value / 10) (entities [10, 11, 0, 1] [(10, 0), (11, 1)]) r.1 rep := by
  have hl : Layered (fun n => n.value / 10) id (entities [10, 11, 0, 1] [(10, 0), (11, 1)]) := by
    refine ⟨by decide, fun e he f hf n _ _ _ _ a _ _ => ?_⟩
    simp [entities] at he hf
    rcases he with rfl | rfl <;> rcases hf with rfl | rfl <;> simp
  exact ⟨hl, mergeInto_loses_nothing Ontology.roots _ id
    ⟨by decide, by decide, by decide, by decide, Seating.fits_inOrder _⟩ ⟨by decide, by decide⟩ hl
    (by decide) (by decide) (by decide) (by decide)⟩

/--
Four entities that lead to each other without a cycle: the first leads to the second, and both the
second and the fourth lead to the third.
-/
def forked : SemanticGraph := entities [1, 2, 3, 4] [(1, 2), (2, 3), (4, 3)]

/-- When the second entity is merged with the first, both the second and the third are gone, and
with them all edges. -/
theorem mergeInto_forked (o : Ontology) (depth : Nat) :
    ∃ r, (mergeInto o (depth + 2) forked ⟨10⟩ ⟨2⟩ ⟨1⟩).run = some (.ok r) ∧ r.1.nodeIds = [⟨1⟩, ⟨4⟩] ∧
      r.1.edges = [] := ⟨_, rfl, rfl, rfl⟩

/-- When the second entity is merged with the first, the relation of the fourth one is lost. -/
theorem mergeInto_loses_relation :
    forked.WellFormed ∧ forked.Before ⟨10⟩ ∧ (∀ n ∈ forked.nodes, n.2.isEntity = true) ∧
      (∀ e ∈ forked.edges, (e.source, e.target) ∈ [(⟨1⟩, ⟨2⟩), (⟨2⟩, ⟨3⟩), (⟨4⟩, ⟨3⟩)]) ∧
      ∀ o depth, ∃ r, (mergeInto o (depth + 2) forked ⟨10⟩ ⟨2⟩ ⟨1⟩).run = some (.ok r) ∧
        ∀ rep, rep ⟨2⟩ = rep ⟨1⟩ → ¬Folds (fun _ => ()) forked r.1 rep := by
  refine ⟨⟨by decide, by decide, by decide, by decide, Seating.fits_inOrder _⟩,
    ⟨by decide, by decide⟩,
    by decide, by decide, fun o depth => ?_⟩
  obtain ⟨r, hr, hnodes, hedges⟩ := mergeInto_forked o depth
  refine ⟨r, hr, fun rep hmeet hfolds => ?_⟩
  have hkept : ∀ e ∈ forked.edges, rep e.source = rep e.target := by
    intro e he
    by_contra hne
    obtain ⟨e', he', -⟩ := hfolds.carried e he hne
    rw [hedges] at he'
    cases he'
  have h₁ : rep ⟨1⟩ = ⟨1⟩ := hfolds.fixed _ (by rw [hnodes]; decide)
  have h₄ : rep ⟨4⟩ = ⟨4⟩ := hfolds.fixed _ (by rw [hnodes]; decide)
  have h₂₃ := hkept ⟨⟨1⟩, ⟨2⟩, ⟨3⟩, ⟨some "next", none⟩⟩ (by decide)
  have h₄₃ := hkept ⟨⟨2⟩, ⟨4⟩, ⟨3⟩, ⟨some "next", none⟩⟩ (by decide)
  simp only [hmeet, h₁] at h₂₃
  simp only [h₄, ← h₂₃] at h₄₃
  cases h₄₃

/-! ## The two passes

In the first pass an input is merged with the output under the same aspect, in the second one an
entity without an aspect with another one that is the same object. Either way the edge of the one is
taken out first. -/

/--
Both the graph is layered, and one form have what is one object and what one action has under one
aspect, be it as an input or as an output.
-/
structure Orderly (form : NodeId → κ) (level : κ → Nat) (g : SemanticGraph) : Prop where
  layered : Layered form level g
  aspects : ∀ e ∈ g.edges, ∀ f ∈ g.edges, form e.source = form f.source → ∀ a,
    e.data.aspect = some a → f.data.aspect = some a → form e.target = form f.target
  objects : ∀ n x m y id, g.node? n = some x → g.node? m = some y → x.id = some id →
    y.id = some id → form n = form m

/-- Where nodes of one form are identified, the order stays. -/
theorem Orderly.fold {g' : SemanticGraph} {rep : NodeId → NodeId} (h : Orderly form level g)
    (hwf : g.WellFormed) (hwf' : g'.WellFormed) (hf : Folds form g g' rep) :
    Orderly form level g' := by
  have hmirror := hf.mirrors hwf.source_mem hwf.target_mem
  refine ⟨h.layered.mirror hwf' (fun n hn => hf.mem hn) hmirror, ?_, ?_⟩
  · intro e' he' f' hf' hs a ha ha'
    obtain ⟨e, he, hes, het, hed⟩ := hmirror e' he'
    obtain ⟨k, hk, hks, hkt, hkd⟩ := hmirror f' hf'
    rw [het, hkt]
    exact h.aspects e he k hk (hes ▸ hks ▸ hs) a (hed ▸ ha) (hkd ▸ ha')
  · intro n x' m y' id hx' hy' hx hy
    obtain ⟨x, hnx, hxx'⟩ := hf.node n x' hx'
    obtain ⟨y, hmy, hyy'⟩ := hf.node m y' hy'
    rw [hxx'] at hx
    rw [hyy'] at hy
    exact h.objects n x m y id hnx hmy hx hy

/-- An edge less asks for less. -/
theorem Orderly.removeEdge (h : Orderly form level g) (id : EdgeId) :
    Orderly form level (g.removeEdge id) where
  layered := ⟨fun e he => h.layered.lower e (mem_edges_removeEdge.1 he).1,
    fun e he f hf => h.layered.aspect e (mem_edges_removeEdge.1 he).1 f
      (mem_edges_removeEdge.1 hf).1⟩
  aspects e he f hf := h.aspects e (mem_edges_removeEdge.1 he).1 f (mem_edges_removeEdge.1 hf).1
  objects := h.objects

/-- A graph in which mergers end if they may go so deep, and a supply of new identities for it. -/
structure Ready (form : NodeId → κ) (level : κ → Nat) (depth : Nat) (r : SemanticGraph × Supply) :
    Prop where
  wellFormed : r.1.WellFormed
  before : r.1.Before r.2
  orderly : Orderly form level r.1
  level_lt : ∀ n ∈ r.1.nodeIds, level (form n) < depth

/-- One merger of two nodes of one form, with an edge taken out before, leaves the graph ready for
the next. -/
theorem Ready.mergeInto {r : SemanticGraph × Supply} (h : Ready form level depth r) (id : EdgeId)
    {src dest : NodeId} (hsrc : src ∈ r.1.nodeIds) (hdest : dest ∈ r.1.nodeIds)
    (hform : form dest = form src) :
    (mergeInto o depth (r.1.removeEdge id) r.2 src dest).Yields (Ready form level depth) := by
  have hwf := h.wellFormed.removeEdge id
  have horderly := h.orderly.removeEdge id
  refine (mergeInto_yields hwf (h.before.removeEdge id) horderly.layered hsrc hdest hform
    (h.level_lt src hsrc)).imp fun r' ⟨hwf', hb', rep, _, hf⟩ => ?_
  exact ⟨hwf', hb', horderly.fold hwf hwf' hf, fun n hn => h.level_lt n (hf.mem hn)⟩

/-- A loop ends if every step does, given what is known of all that is still to be done. -/
theorem Ready.foldlM {α : Type} {P : α → Prop}
    {f : SemanticGraph × Supply → α → Course (SemanticGraph × Supply)}
    (hf : ∀ r, Ready form level depth r → ∀ a, P a → (f r a).Yields (Ready form level depth))
    {as : List α} (has : ∀ a ∈ as, P a) {r : SemanticGraph × Supply}
    (hr : Ready form level depth r) : (as.foldlM f r).Yields (Ready form level depth) :=
  (Course.Yields.foldlM (I := fun rest r => (∀ a ∈ rest, P a) ∧ Ready form level depth r)
    (fun a _ r ⟨hrest, hr⟩ => (hf r hr a (hrest a List.mem_cons_self)).imp fun _ hr' =>
      ⟨fun b hb => hrest b (List.mem_cons_of_mem _ hb), hr'⟩) ⟨has, hr⟩).imp fun _ h => h.2

/-- What fills an aspect of an action is at the end of an edge from there. -/
theorem exists_edge_of_filled {action : NodeId} {side : Side} {i : String × Edge Link}
    (hi : i ∈ filled g action side) :
    i.2 ∈ g.edges ∧ i.2.source = action ∧ i.2.data.aspect = some i.1 := by
  obtain ⟨e, he, heq⟩ := List.mem_filterMap.1 (Table.mem_ofEntries hi)
  split at heq
  · obtain ⟨a, ha, rfl⟩ := Option.map_eq_some_iff.1 heq
    exact ⟨(mem_outEdges.1 he).1, (mem_outEdges.1 he).2, ha⟩
  · cases heq

/-- An input and the output under the same aspect have one form, so they may be merged. -/
theorem Ready.mergeFilled {r : SemanticGraph × Supply} (h : Ready form level depth r)
    {outputs : Table String (Edge Link)} {i : String × Edge Link}
    (hi : ∀ output, Table.at? outputs i.1 = some output → form output.target = form i.2.target) :
    (mergeFilled o depth outputs r.1 r.2 i.1 i.2).Yields (Ready form level depth) := by
  unfold Semantic.mergeFilled
  split
  · exact Course.yields_pure h
  split
  · exact Course.yields_pure h
  · rename_i output hat hcond
    simp only [Bool.or_eq_true, not_or, Bool.not_eq_true', Bool.not_eq_false, hasNode_iff] at hcond
    exact h.mergeInto _ hcond.1.1.2 hcond.1.2 (hi output hat)

/-- All inputs of one action may be merged with its outputs. -/
theorem Ready.mergeFilledOf {r : SemanticGraph × Supply} (h : Ready form level depth r)
    (action : NodeId) : (mergeFilledOf o depth r.1 r.2 action).Yields (Ready form level depth) := by
  refine Ready.foldlM (P := fun i => ∀ output, Table.at? (filled r.1 action .output) i.1 =
    some output → form output.target = form i.2.target) (fun r' h' i hi => h'.mergeFilled hi)
    (fun i hi output hat => ?_) h
  -- the inputs and outputs are those of the graph in which the pass came to the action
  obtain ⟨he, hes, hea⟩ := exists_edge_of_filled hi
  obtain ⟨hk, hks, hka⟩ := exists_edge_of_filled (Table.mem_of_at? hat)
  exact h.orderly.aspects output hk i.2 he (by rw [hks, hes]) i.1 hka hea

/-- What is found as the same object carries the same identity. -/
theorem sameObject?_id {action entity found : NodeId} {side : Side}
    (h : sameObject? g action entity side = some found) :
    ∃ x y id, g.node? entity = some x ∧ g.node? found = some y ∧ x.id = some id ∧
      y.id = some id := by
  obtain ⟨x, hx, h⟩ := Option.bind_eq_some_iff.1 h
  obtain ⟨id, hid, h⟩ := Option.bind_eq_some_iff.1 h
  obtain ⟨n, k, hstop⟩ := exists_visit_of_found h
  split at hstop
  · rename_i hsame
    obtain rfl := Verdict.stop.inj hstop
    obtain ⟨y, hy, hyid⟩ := (Option.any_eq_true _ _).1 (Bool.and_eq_true_iff.1 hsame).2
    exact ⟨x, y, id, hx, hy, hid, eq_of_beq hyid⟩
  · cases hstop

/-- The same object has one form, so it may be merged. -/
theorem Ready.mergeStranger {r : SemanticGraph × Supply} (h : Ready form level depth r)
    (action : NodeId) (e : Edge Link) :
    (mergeStranger o depth action r.1 r.2 e).Yields (Ready form level depth) := by
  unfold Semantic.mergeStranger
  split
  · exact Course.yields_pure h
  split
  · exact Course.yields_pure h
  split
  · exact Course.yields_pure h
  · rename_i found hfound
    obtain ⟨x, y, id, hx, hy, hxid, hyid⟩ := sameObject?_id hfound
    exact h.mergeInto _ (mem_nodeIds_of_node? hx) (mem_nodeIds_of_node? hy)
      (h.orderly.objects _ y _ x id hy hx hyid hxid)

/-- In an orderly graph both passes end, if mergers may go as deep as the levels are high. -/
theorem mergers_end (o : Ontology) (form : NodeId → κ) (level : κ → Nat) {depth : Nat}
    {g : SemanticGraph} {s : Supply} (h : Ready form level depth (g, s)) :
    (mergeDuplicates o depth g s).Yields (Ready form level depth) ∧
      (mergeStrangers o depth g s).Yields (Ready form level depth) := by
  constructor
  · exact Ready.foldlM (P := fun _ => True) (fun r hr action _ => hr.mergeFilledOf action)
      (fun _ _ => trivial) h
  · refine Ready.foldlM (P := fun _ => True) (fun r hr action _ => ?_) (fun _ _ => trivial) h
    exact Ready.foldlM (P := fun _ => True) (fun r hr e _ => hr.mergeStranger action e)
      (fun _ _ => trivial) hr

/-- An action that takes a list and returns it, where each of the two has an element. -/
def returned : SemanticGraph where
  nodes := [(⟨20⟩, { type := "action", root := .action }),
    (⟨10⟩, { type := "entity", root := .entity, id := some ⟨"list"⟩ }),
    (⟨11⟩, { type := "entity", root := .entity, id := some ⟨"list"⟩ }),
    (⟨0⟩, { type := "entity", root := .entity }), (⟨1⟩, { type := "entity", root := .entity })]
  edges := [⟨⟨0⟩, ⟨20⟩, ⟨10⟩, ⟨some "list", some .input⟩⟩,
    ⟨⟨1⟩, ⟨20⟩, ⟨11⟩, ⟨some "list", some .output⟩⟩, ⟨⟨2⟩, ⟨10⟩, ⟨0⟩, ⟨some "next", none⟩⟩,
    ⟨⟨3⟩, ⟨11⟩, ⟨1⟩, ⟨some "next", none⟩⟩]
  seating := .inOrder [⟨20⟩, ⟨10⟩, ⟨11⟩, ⟨0⟩, ⟨1⟩]

/-- Both passes end on the list that is returned. -/
theorem mergers_end_returned :
    Ready (fun n => n.value / 10) id 3 (returned, ⟨30⟩) ∧
      (mergeDuplicates Ontology.roots 3 returned ⟨30⟩).Yields
        (Ready (fun n => n.value / 10) id 3) ∧
      (mergeStrangers Ontology.roots 3 returned ⟨30⟩).Yields
        (Ready (fun n => n.value / 10) id 3) := by
  have hwf : returned.WellFormed :=
    ⟨by decide, by decide, by decide, by decide, Seating.fits_inOrder _⟩
  have hforms : ∀ e ∈ returned.edges, ∀ f ∈ returned.edges,
      e.source.value / 10 = f.source.value / 10 → e.data.aspect = f.data.aspect →
        e.target.value / 10 = f.target.value / 10 := by decide
  have hroles : ∀ e ∈ returned.edges, ∀ f ∈ returned.edges, ∀ n ∈ returned.nodeIds, n ≠ e.source →
      n.value / 10 = e.source.value / 10 → f.source.value / 10 = e.source.value / 10 →
        e.data.aspect = f.data.aspect → e.data.role = f.data.role := by decide
  have hobjects : ∀ p ∈ returned.nodes, ∀ q ∈ returned.nodes, p.2.id.isSome = true →
      p.2.id = q.2.id → p.1.value / 10 = q.1.value / 10 := by decide
  have hready : Ready (fun n => n.value / 10) id 3 (returned, ⟨30⟩) :=
    ⟨hwf, ⟨by decide, by decide⟩, ⟨⟨by decide, fun e he f hf n hn hne hform hfs a ha ha' =>
        ⟨hforms e he f hf hfs.symm (ha.trans ha'.symm),
          hroles e he f hf n hn hne hform hfs (ha.trans ha'.symm)⟩⟩,
      fun e he f hf hs a ha ha' => hforms e he f hf hs (ha.trans ha'.symm),
      fun n x m y id hn hm hx hy => hobjects (n, x) (hwf.node?_eq_some_iff.1 hn) (m, y)
        (hwf.node?_eq_some_iff.1 hm) (by simp [hx]) (hx.trans hy.symm)⟩, by decide⟩
  exact ⟨hready, mergers_end Ontology.roots _ id hready⟩

/-! ## Mergers that go on for ever

The first edge that leaves the source leads to the source itself, under an aspect that the
destination has too. So the source has to be merged with the destination before it can be merged
with it. -/

/-- Two nodes, each of which leads to itself, and of which the first may lead to the second. -/
structure Turning (m : Merging) (src dest : NodeId) (a : String) : Prop where
  standing : m.Standing fun n => n
  src_mem : src ∈ m.graph.nodeIds
  dest_mem : dest ∈ m.graph.nodeIds
  src_loop : Carries m.graph (fun n => n) src src ⟨some a, none⟩
  dest_loop : Carries m.graph (fun n => n) dest dest ⟨some a, none⟩
  only : ∀ e ∈ m.graph.edges, e.data.aspect = some a ∧
    (e.source = src ∨ e.source = dest ∧ e.target = dest) ∧ (e.target = src ∨ e.target = dest)

/-- Under its aspect the destination has itself. -/
theorem Turning.aspect {m : Merging} {src dest : NodeId} {a : String} (h : Turning m src dest a)
    (hne : src ≠ dest) : Table.at? (Merging.aspectTargets m.graph dest) a = some dest := by
  have hentry : ∀ {a' t}, (a', t) ∈ ((m.graph.outEdges dest).filterMap fun e =>
      e.data.aspect.map fun a => (a, e.target)) → t = dest := by
    intro a' t ht
    obtain ⟨e, he, heq⟩ := List.mem_filterMap.1 ht
    obtain ⟨he, hs⟩ := mem_outEdges.1 he
    obtain ⟨_, -, hpair⟩ := Option.map_eq_some_iff.1 heq
    obtain ⟨-, rfl⟩ := Prod.mk.inj hpair
    exact ((h.only e he).2.1.resolve_left fun hsrc => hne (hsrc.symm.trans hs)).2
  refine (Table.at?_ofEntries_iff fun _ t t' ht ht' => (hentry ht).trans (hentry ht').symm).2 ?_
  obtain ⟨e, he, hs, ht, hd⟩ := h.dest_loop
  exact List.mem_filterMap.2 ⟨e, mem_outEdges.2 ⟨he, hs⟩, by rw [hd, ht]; rfl⟩

/-- Types do not matter for where edges lead. -/
theorem Turning.joinTypes {m : Merging} {src dest : NodeId} {a : String} (h : Turning m src dest a)
    (o : Ontology) (srcNode destNode : Node) :
    Turning (m.joinTypes o srcNode destNode dest) src dest a :=
  ⟨h.standing.joinTypes srcNode destNode dest, by simpa [Merging.joinTypes] using h.src_mem,
    by simpa [Merging.joinTypes] using h.dest_mem, h.src_loop, h.dest_loop, h.only⟩

/-- Nothing changes when what leads to the source leads to the destination as well. -/
theorem Turning.arrived {m m' : Merging} {src dest : NodeId} {a : String} (h : Turning m src dest a)
    (hm' : m'.Standing fun n => n) (hnodes : m'.graph.nodes = m.graph.nodes)
    (hedges : m.graph.edges ⊆ m'.graph.edges)
    (hfolds : Folds (fun n => n) (m.graph.withEdges (arrivals m.graph src dest)) m'.graph
      fun n => n) : Turning m' src dest a := by
  have hids : m'.graph.nodeIds = m.graph.nodeIds := by rw [nodeIds, hnodes, nodeIds]
  refine ⟨hm', hids ▸ h.src_mem, hids ▸ h.dest_mem, ?_, ?_, fun f hf => ?_⟩
  · obtain ⟨e, he, hends⟩ := h.src_loop
    exact ⟨e, hedges he, hends⟩
  · obtain ⟨e, he, hends⟩ := h.dest_loop
    exact ⟨e, hedges he, hends⟩
  · obtain ⟨e, he, hs, ht, hd⟩ := hfolds.origin f hf
    rw [hs, ht, hd]
    rcases List.mem_append.1 he with he | he
    · exact h.only e he
    · obtain ⟨k, hk, rfl⟩ := List.mem_map.1 he
      rw [List.mem_filter, mem_inEdges, decide_eq_true_iff] at hk
      obtain ⟨ha, hks, -⟩ := h.only k hk.1.1
      exact ⟨ha, .inl (hks.resolve_right fun hkd => hk.2 hkd.1), .inr rfl⟩

/-- What leaves the source for elsewhere than the destination goes to the source itself. -/
theorem Turning.exists_first {m : Merging} {src dest : NodeId} {a : String}
    (h : Turning m src dest a) (hne : src ≠ dest) :
    ∃ e rest, (m.graph.outEdges src).filter (fun e => e.target ≠ dest) = e :: rest ∧
      e.target = src ∧ e.data.aspect = some a := by
  obtain ⟨e, rest, hes⟩ : ∃ e rest, (m.graph.outEdges src).filter (fun e => e.target ≠ dest) =
      e :: rest := by
    obtain ⟨e, he, hs, ht, -⟩ := h.src_loop
    refine List.exists_cons_of_ne_nil (List.ne_nil_of_mem (a := e) ?_)
    rw [List.mem_filter, mem_outEdges, decide_eq_true_iff, ht]
    exact ⟨⟨he, hs⟩, hne⟩
  have he : e ∈ (m.graph.outEdges src).filter fun e => e.target ≠ dest :=
    hes ▸ List.mem_cons_self
  rw [List.mem_filter, mem_outEdges, decide_eq_true_iff] at he
  obtain ⟨ha, -, htarget⟩ := h.only e he.1.1
  exact ⟨e, rest, hes, htarget.resolve_right he.2, ha⟩

/-- However deep mergers may go, this one goes deeper. -/
theorem merge_turning (o : Ontology) {src dest : NodeId} {a : String} (hne : src ≠ dest)
    (depth : Nat) {m : Merging} (h : Turning m src dest a) :
    (Merging.merge o depth src dest m).run = none := by
  induction depth generalizing m with
  | zero => rfl
  | succ depth ih =>
    rw [Merging.merge_succ]
    refine (h.standing.resolve src).bind_eq_none fun src' hsrc' =>
      (h.standing.resolve dest).bind_eq_none fun dest' hdest' => ?_
    subst hsrc' hdest'
    rw [if_neg hne]
    obtain ⟨srcNode, hsrcNode⟩ : ∃ x, m.graph.node? src' = some x :=
      Option.ne_none_iff_exists'.1 fun hnone => node?_eq_none_iff.1 hnone h.src_mem
    obtain ⟨destNode, hdestNode⟩ : ∃ x, m.graph.node? dest' = some x :=
      Option.ne_none_iff_exists'.1 fun hnone => node?_eq_none_iff.1 hnone h.dest_mem
    rw [hsrcNode, hdestNode]
    dsimp only
    have h₀ := h.joinTypes o srcNode destNode
    generalize m.joinTypes o srcNode destNode dest' = m₀ at h₀
    refine Course.Yields.bind_eq_none (h₀.standing.arrive (fun n => n) h₀.dest_mem
      fun e he => h₀.standing.wellFormed.source_mem e
        (mem_inEdges.1 (List.mem_of_mem_filter he)).1) fun m₁ ⟨hm₁, hnodes, hedges, hfolds⟩ => ?_
    have h₁ : Turning m₁ src' dest' a := h₀.arrived hm₁ hnodes hedges hfolds
    -- the first edge that goes over asks for the same merger again
    obtain ⟨e, rest, hes, htarget, ha⟩ := h₁.exists_first hne
    refine Course.run_bind_eq_none ?_
    rw [hes, List.foldlM_cons]
    refine Course.run_bind_eq_none ((h₁.standing.resolve e.target).bind_eq_none fun target ht => ?_)
    subst ht
    rw [htarget, if_neg (by simp [hne, hasNode_iff.2 h₁.src_mem]), ha]
    simp only [Option.bind_some, h₁.aspect hne]
    exact ih h₁

/-- Two entities, each of which is the next of itself. -/
def turning : SemanticGraph := entities [0, 1] [(0, 0), (1, 1)]

/-- However deep mergers may go, two entities that lead to themselves are never merged. -/
theorem mergeInto_endless :
    turning.WellFormed ∧ turning.Before ⟨2⟩ ∧ (∀ n ∈ turning.nodes, n.2.isEntity = true) ∧
      ∀ o depth, (mergeInto o depth turning ⟨2⟩ ⟨0⟩ ⟨1⟩).run = none := by
  have hwf : turning.WellFormed :=
    ⟨by decide, by decide, by decide, by decide, Seating.fits_inOrder _⟩
  have hb : turning.Before ⟨2⟩ := ⟨by decide, by decide⟩
  refine ⟨hwf, hb, by decide, fun o depth => Course.run_bind_eq_none ?_⟩
  exact merge_turning o (a := "next") (by decide) depth ⟨.start hwf hb, by decide, by decide,
    ⟨⟨⟨0⟩, ⟨0⟩, ⟨0⟩, ⟨some "next", none⟩⟩, by decide, rfl, rfl, rfl⟩,
    ⟨⟨⟨1⟩, ⟨1⟩, ⟨1⟩, ⟨some "next", none⟩⟩, by decide, rfl, rfl, rfl⟩, by decide⟩

end ObjectFlow.Semantic
