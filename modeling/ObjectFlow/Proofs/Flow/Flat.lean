import ObjectFlow.Proofs.Flow.Arguments
import ObjectFlow.Proofs.Flow.Associate

/-!
# Flat graphs

A recording that passes its check can be flattened, whether or not it was recorded, if its graphs
have nothing in common and a border, and no marker is a call. The result has the calls without
bodies and the edges between them, has no cycle, and leaves no object at its end more than once
(`flatten_total`).

## Outline

The two inductions are those over an arena: one body after the other in one graph, and one graph
after the other. So a property has to be found for each of the two.

1. For a graph with bodies in the places of some calls this is `Filled`. It tells the nodes exactly,
   and keeps those edges that no replacement can touch: the edges of the graph between nodes that
   are not replaced, and the inner edges of the bodies. One replacement keeps it (`Filled.append`).
2. For a graph with all its bodies it is `FlatIn`, which speaks of the graphs within at any depth. A
   graph that is filled with flat bodies is flat (`FlatIn.of_filled`); here the calls of a body must
   be shown to lie between its markers, which is what `Marked` is for.

Nothing is said about where the edges at replaced calls lead, as the order in which calls are
replaced decides this for a graph that was not recorded. For recorded graphs see
`Kept.flatten_arguments`.
-/

namespace ObjectFlow

namespace Flow

/-! ## One graph

The bodies that are put in are flat themselves and share nothing with the graph. -/

/-- The graph has bodies in the places of some of its calls. -/
structure Filled (g : Flow) (body : Handle → Flow) (done : List (NodeId × Handle)) (f : Flow) :
    Prop where
  fenced : f.Fenced
  sole : f.Sole
  acyclic : f.graph.Acyclic
  input_eq : f.input = g.input
  output_eq : f.output = g.output
  mem_nodes_iff : ∀ n, n ∈ f.graph.nodes ↔ n ∈ g.graph.nodes ∧ n.1 ∉ Table.keys done ∨
    ∃ b ∈ done, n ∈ (body b.2).innerNodes
  mem_edges : ∀ e ∈ g.graph.edges, e.source ∉ Table.keys done → e.target ∉ Table.keys done →
    e ∈ f.graph.edges
  mem_edges_of_body : ∀ b ∈ done, ∀ e ∈ (body b.2).innerEdges, e ∈ f.graph.edges

/-- A flat body, as it may stand in the place of a call of the graph. -/
structure Fills (g b : Flow) : Prop where
  fenced : b.Fenced
  sole : b.Sole
  acyclic : b.graph.Acyclic
  apart : g.Apart b

variable {g f f' : Flow} {body : Handle → Flow} {done : List (NodeId × Handle)}
  {s s' : Supply}

/-- Without bodies the graph is as it was. -/
theorem filled_nil (hg : g.Fenced) (hs : g.Sole) (ha : g.graph.Acyclic) (body : Handle → Flow) :
    Filled g body [] g :=
  ⟨hg, hs, ha, rfl, rfl, fun n => by simp, fun e he _ _ => he, nofun⟩

/-- One more body takes its place. -/
theorem Filled.append (h : Filled g body done f) {b : NodeId × Handle}
    (hb : g.Fills (body b.2)) (hdone : ∀ b ∈ done, g.Fills (body b.2))
    (hmem : b.1 ∈ g.graph.nodeIds) (hi : b.1 ≠ g.input) (ho : b.1 ≠ g.output)
    (hap : f.Apart (body b.2)) (hins : f.Inserted (body b.2) b.1 s f' s') :
    Filled g body (done ++ [b]) f' := by
  -- no node of a body has the identity of the call
  have hother : ∀ b' : NodeId × Handle, g.Fills (body b'.2) →
      ∀ n ∈ (body b'.2).graph.nodeIds, n ≠ b.1 :=
    fun b' hb' n hn heq => hb'.apart.nodes _ hmem (heq ▸ hn)
  have hkeys : ∀ n, n ∉ Table.keys (done ++ [b]) ↔ n ∉ Table.keys done ∧ n ≠ b.1 := by
    intro n
    rw [Table.keys_append, List.mem_append, not_or]
    simp
  refine ⟨hins.fenced h.fenced hb.fenced hap (h.input_eq ▸ hi) (h.output_eq ▸ ho),
    hins.sole h.sole hb.sole hb.fenced hap h.fenced.output_mem,
    hins.acyclic h.fenced hb.fenced hap h.acyclic hb.acyclic, hins.input_eq.trans h.input_eq,
    hins.output_eq.trans h.output_eq, fun n => ?_, fun e he hs ht => ?_, fun b' hb' e he => ?_⟩
  · rw [hins.mem_nodes_iff, h.mem_nodes_iff, hkeys]
    constructor
    · rintro ⟨(⟨hn, hfree⟩ | ⟨b', hb', hn⟩) | hn, hne⟩
      · exact .inl ⟨hn, hfree, hne⟩
      · exact .inr ⟨b', List.mem_append_left _ hb', hn⟩
      · exact .inr ⟨b, List.mem_append_right _ (List.mem_singleton_self b), hn⟩
    · rintro (⟨hn, hfree, hne⟩ | ⟨b', hb', hn⟩)
      · exact ⟨.inl (.inl ⟨hn, hfree⟩), hne⟩
      · have hid : n.1 ∈ (body b'.2).graph.nodeIds :=
          List.mem_map_of_mem (List.mem_of_mem_filter hn)
        rcases List.mem_append.1 hb' with hb' | hb'
        · exact ⟨.inl (.inr ⟨b', hb', hn⟩), hother b' (hdone b' hb') _ hid⟩
        · obtain rfl := List.mem_singleton.1 hb'
          exact ⟨.inr hn, hother b' hb _ hid⟩
  · obtain ⟨hs, hsne⟩ := (hkeys _).1 hs
    obtain ⟨ht, htne⟩ := (hkeys _).1 ht
    exact hins.mem_edges_of_first (h.mem_edges e he hs ht) hsne htne
  · rcases List.mem_append.1 hb' with hb' | hb'
    · have hwf := (hdone b' hb').fenced.wellFormed
      have hmem := (mem_innerEdges_iff.1 he).1
      exact hins.mem_edges_of_first (h.mem_edges_of_body b' hb' e he)
        (hother b' (hdone b' hb') _ (hwf.source_mem e hmem))
        (hother b' (hdone b' hb') _ (hwf.target_mem e hmem))
    · obtain rfl := List.mem_singleton.1 hb'
      exact hins.mem_edges_of_body hb.fenced.wellFormed (hb.apart.nodes _ hmem) he

/-- One replacement after the other fills the graph. -/
theorem filled_persists (hg : g.graph.WellFormed)
    (hm : ∀ b ∈ Recording.bodies g, b.1 ≠ g.input ∧ b.1 ≠ g.output)
    (hbody : ∀ b ∈ Recording.bodies g, g.Fills (body b.2)) :
    Persists body fun rest f =>
      ∃ done, Recording.bodies g = done ++ rest ∧ Filled g body done f := by
  have hmem : ∀ {b done rest}, Recording.bodies g = done ++ b :: rest → b ∈ Recording.bodies g :=
    fun heq => heq ▸ List.mem_append_right _ List.mem_cons_self
  refine ⟨?_, ?_, ?_⟩
  · rintro rest f ⟨done, -, h⟩
    exact h.fenced
  · rintro b rest f ⟨done, heq, h⟩
    obtain ⟨n, hn, hid⟩ := List.mem_map.1 (Recording.mem_nodeIds_of_mem_bodies (hmem heq))
    have hnew : b.1 ∉ Table.keys done := by
      have hd := Recording.nodup_keys_bodies hg
      rw [heq, Table.keys_append, Table.keys_cons, List.nodup_append] at hd
      exact fun hk => hd.2.2 _ hk _ List.mem_cons_self rfl
    exact hid ▸ List.mem_map_of_mem ((h.mem_nodes_iff n).2 (.inl ⟨hn, hid.symm ▸ hnew⟩))
  · rintro b rest f f' s s' ⟨done, heq, h⟩ hap hins
    have hb := hmem heq
    refine ⟨done ++ [b], by rw [heq, List.append_assoc]; rfl, ?_⟩
    exact h.append (hbody b hb) (fun b' hb' => hbody b' (heq ▸ List.mem_append_left _ hb'))
      (Recording.mem_nodeIds_of_mem_bodies hb) (hm b hb).1 (hm b hb).2 hap hins

/-! ## What is left at the end

That each object is left once can be said by counting edges or by comparing two of them. Counting
goes through a replacement, comparing is what is stated. -/

/-- Each object is left once if no two edges leave it. -/
theorem sole_iff (hd : (f.graph.edges.map Edge.id).Nodup) : f.Sole ↔
    ∀ e ∈ f.graph.edges, ∀ e' ∈ f.graph.edges, ∀ o, e.target = f.output → e'.target = f.output →
      e.data.object.id = some o → e'.data.object.id = some o → e = e' := by
  have hnd : f.graph.edges.Nodup := List.Nodup.of_map _ hd
  constructor
  · intro h e he e' he' o ht ht' ho ho'
    exact (countP_le_one_iff hnd).1 (h o) e he e' he' (decide_eq_true ⟨ht, ho⟩)
      (decide_eq_true ⟨ht', ho'⟩)
  · intro h o
    refine (countP_le_one_iff hnd).2 fun e he e' he' hl hl' => ?_
    obtain ⟨ht, ho⟩ := of_decide_eq_true hl
    obtain ⟨ht', ho'⟩ := of_decide_eq_true hl'
    exact h e he e' he' o ht ht' ho ho'

/-- A graph with a border and both of its markers is fenced. -/
theorem Bordered.fenced (h : f.Bordered) (hin : f.input ∈ f.graph.nodeIds)
    (hout : f.output ∈ f.graph.nodeIds) : f.Fenced :=
  ⟨h.wellFormed, hin, hout, h.target_ne_input, h.not_across,
    fun e he hs => absurd hs (h.source_ne_output e he)⟩

end Flow

namespace Recording

/-! ## All graphs

The markers of a body are dropped when it is put in, so a call that is one of them would be lost.
Those of the outermost graph stay, and a call without a body may stand there. -/

/-- No marker is a call, save that a marker of the outermost graph may be one without a body. -/
def Marked (r : Recording) : Prop :=
  ∀ h g, r.graph? h = some g → ∀ c ∈ g.calls, c.1 = g.input ∨ c.1 = g.output →
    h = r.root ∧ c.2.body = none

/-- The graph is another one with all bodies in the places of their calls, at any depth. -/
structure FlatIn (r : Recording) (h : Handle) (f : Flow) : Prop where
  fenced : f.Fenced
  sole : f.Sole
  acyclic : f.graph.Acyclic
  markers : ∀ g, r.graph? h = some g → f.input = g.input ∧ f.output = g.output
  mem_calls_iff : ∀ n c, (n, c) ∈ f.calls ↔
    c.body = none ∧ ∃ j g, r.Within h j ∧ r.graph? j = some g ∧ (n, c) ∈ g.calls
  mem_edges : ∀ j g, r.Within h j → r.graph? j = some g → ∀ e ∈ g.graph.edges,
    (∃ c, (e.source, c) ∈ g.calls ∧ c.body = none) →
    (∃ c, (e.target, c) ∈ g.calls ∧ c.body = none) → e ∈ f.graph.edges

variable {r : Recording} {s : Supply}

/-- A call is no marker of a body. -/
theorem Arena.isMarker_eq_false (ha : r.Arena) (hm : r.Marked) {b j : Handle} {g k : Flow}
    (hne : b ≠ r.root) (hg : r.graph? b = some g) (hk : r.graph? j = some k)
    {c : NodeId × Flow.Call} (hc : c ∈ k.calls) : g.isMarker c.1 = false := by
  have hpass := ha.checked.passable b.index g hg
  have hmem := Flow.mem_nodeIds_of_mem_calls hc
  have hfree : ∀ n ∈ g.graph.nodeIds, n = g.input ∨ n = g.output → n ≠ c.1 := by
    rintro n hn hmark rfl
    obtain ⟨rfl, rfl⟩ := ha.home hg hk hn hmem
    exact hne (hm b g hg c hc hmark).1
  exact Flow.isMarker_eq_false_iff.2
    ⟨(hfree _ (Graph.hasNode_iff.1 hpass.hasInput) (.inl rfl)).symm,
      (hfree _ (Graph.hasNode_iff.1 hpass.hasOutput) (.inr rfl)).symm⟩

section

variable {h : Handle} {g f : Flow} {body : Handle → Flow} (ha : r.Arena) (hm : r.Marked)
  (hg : r.graph? h = some g) (hbody : ∀ b ∈ bodies g, r.FlatIn b.2 (body b.2))
include ha hm hg hbody

/-- The calls of a body that have none themselves lie between its markers. -/
theorem mem_innerNodes_iff {b : NodeId × Handle} (hb : b ∈ bodies g) {n : NodeId} {c : Flow.Call} :
    (n, .call c) ∈ (body b.2).innerNodes ↔
      c.body = none ∧ ∃ j k, r.Within b.2 j ∧ r.graph? j = some k ∧ (n, c) ∈ k.calls := by
  obtain ⟨-, k', hk'⟩ := ha.exists_body hg hb
  have hne := ((ha.checked.passable h.index g hg).nestable b hb).ne_root
  rw [Flow.innerNodes, List.mem_filter, ← Flow.mem_calls, (hbody b hb).mem_calls_iff]
  refine and_iff_left_of_imp ?_
  rintro ⟨-, j, k, -, hk, hc⟩
  obtain ⟨hin, hout⟩ := (hbody b hb).markers k' hk'
  have := ha.isMarker_eq_false hm hne hk' hk hc
  rw [Flow.isMarker, ← hin, ← hout] at this
  simpa [Flow.isMarker] using this

/-- A graph with flat bodies in the places of all its calls that have one is flat. -/
theorem FlatIn.of_filled (hf : Flow.Filled g body (bodies g) f) : r.FlatIn h f := by
  have hwf := ha.wellFormed h g hg
  refine ⟨hf.fenced, hf.sole, hf.acyclic, fun g' hg' => ?_, fun n c => ?_,
    fun j k hw hk e he hs ht => ?_⟩
  · obtain rfl := Option.some.inj (hg.symm.trans hg')
    exact ⟨hf.input_eq, hf.output_eq⟩
  · rw [Flow.mem_calls, hf.mem_nodes_iff, ← Flow.mem_calls]
    constructor
    · rintro (⟨hc, hfree⟩ | ⟨b, hb, hc⟩)
      · exact ⟨(not_mem_keys_bodies hwf hc).1 hfree, h, g, .refl, hg, hc⟩
      · obtain ⟨hnone, j, k, hw, hk, hc⟩ := (mem_innerNodes_iff ha hm hg hbody hb).1 hc
        exact ⟨hnone, j, k, (within_iff hg).2 (.inr ⟨b, hb, hw⟩), hk, hc⟩
    · rintro ⟨hnone, j, k, hw, hk, hc⟩
      rcases (within_iff hg).1 hw with rfl | ⟨b, hb, hw⟩
      · obtain rfl := Option.some.inj (hg.symm.trans hk)
        exact .inl ⟨hc, (not_mem_keys_bodies hwf hc).2 hnone⟩
      · exact .inr ⟨b, hb, (mem_innerNodes_iff ha hm hg hbody hb).2 ⟨hnone, j, k, hw, hk, hc⟩⟩
  · rcases (within_iff hg).1 hw with rfl | ⟨b, hb, hw⟩
    · obtain rfl := Option.some.inj (hg.symm.trans hk)
      obtain ⟨c, hc, hnone⟩ := hs
      obtain ⟨c', hc', hnone'⟩ := ht
      exact hf.mem_edges e he ((not_mem_keys_bodies hwf hc).2 hnone)
        ((not_mem_keys_bodies hwf hc').2 hnone')
    · have hflat := hbody b hb
      have hinner : ∀ n, (∃ c, (n, c) ∈ k.calls ∧ c.body = none) →
          n ≠ (body b.2).input ∧ n ≠ (body b.2).output := by
        rintro n ⟨c, hc, hnone⟩
        have hmem := (mem_innerNodes_iff ha hm hg hbody hb).2 ⟨hnone, j, k, hw, hk, hc⟩
        have hkey := Flow.mem_keys_innerNodes.1 (Table.mem_keys.2 ⟨_, hmem⟩)
        exact hkey.2
      exact hf.mem_edges_of_body b hb e (Flow.mem_innerEdges_iff.2
        ⟨hflat.mem_edges j k hw hk e he hs ht, hinner _ hs, hinner _ ht⟩)

end

/-- Flatness goes over from bodies to graphs. -/
theorem Bounded.nests_flatIn (hr : r.Bounded) (ha : r.Arena) (hm : r.Marked) :
    r.Nests r.FlatIn := by
  refine ⟨fun h f hf => hf.fenced, fun h g body hg hbody hself => ?_⟩
  have hpass := ha.checked.passable h.index g hg
  have hb := hr.bordered g (List.mem_of_getElem? hg)
  have hfenced :=
    hb.fenced (Graph.hasNode_iff.1 hpass.hasInput) (Graph.hasNode_iff.1 hpass.hasOutput)
  have hfills : ∀ b ∈ bodies g, g.Fills (body b.2) := fun b hb =>
    ⟨(hbody b hb).fenced, (hbody b hb).sole, (hbody b hb).acyclic, hself b hb⟩
  refine ⟨_, Flow.filled_persists hb.wellFormed (fun b hb => ?_) hfills, ⟨[], rfl,
    Flow.filled_nil hfenced ((Flow.sole_iff hb.wellFormed.edges_nodup).2 hb.last)
      ((Graph.isAcyclic_iff hb.wellFormed).1 hpass.acyclic) body⟩, ?_⟩
  · obtain ⟨c, hc, hsome⟩ := Flow.mem_bodies.1 hb
    have hnot : ¬ (b.1 = g.input ∨ b.1 = g.output) := fun hmark => by
      have hnone := (hm h g hg _ hc hmark).2
      cases hnone.symm.trans hsome
    exact not_or.1 hnot
  · rintro f ⟨done, heq, hf⟩
    rw [List.append_nil] at heq
    subst heq
    exact .of_filled ha hm hg hbody hf

/--
A recording that passes its check can be flattened if its graphs have nothing in common and a
border, and no marker is a call. What comes out has no cycle and no bodies, its calls are those
without bodies, and the edges between such calls of one graph are still there. Each object is left
at the end by one edge at most.
-/
theorem flatten_total (hr : r.Bounded)
    (hap : ∀ h h' g g', r.graph? h = some g → r.graph? h' = some g' → h ≠ h' → g.Apart g')
    (hm : r.Marked) (hs : ∀ g ∈ r.graphs, g.graph.Before s) :
    ∃ f s', r.flatten s = .ok (f, s') ∧ f.graph.WellFormed ∧ f.graph.isAcyclic = true ∧
      (∀ g, r.rootGraph? = some g → f.input = g.input ∧ f.output = g.output) ∧
      bodies f = [] ∧
      (∀ n c, (n, c) ∈ f.calls ↔ c.body = none ∧
        ∃ h g, r.Within r.root h ∧ r.graph? h = some g ∧ (n, c) ∈ g.calls) ∧
      (∀ h g, r.Within r.root h → r.graph? h = some g → ∀ e ∈ g.graph.edges,
        (∃ c, (e.source, c) ∈ g.calls ∧ c.body = none) →
        (∃ c, (e.target, c) ∈ g.calls ∧ c.body = none) → e ∈ f.graph.edges) ∧
      ∀ e ∈ f.graph.edges, ∀ e' ∈ f.graph.edges, ∀ o, e.target = f.output →
        e'.target = f.output → e.data.object.id = some o → e'.data.object.id = some o → e = e' := by
  have ha : r.Arena :=
    ⟨hr.checked, fun h g hg => (hr.bordered g (List.mem_of_getElem? hg)).wellFormed, hap⟩
  obtain ⟨f, s', hok, hf⟩ := (hr.nests_flatIn ha hm).flatten_spec ha fun h g hg =>
    hs g (List.mem_of_getElem? hg)
  have hwf := hf.fenced.wellFormed
  refine ⟨f, s', hok, hwf, (Graph.isAcyclic_iff hwf).2 hf.acyclic, hf.markers, ?_,
    hf.mem_calls_iff, hf.mem_edges, (Flow.sole_iff hwf.edges_nodup).1 hf.sole⟩
  refine List.eq_nil_iff_forall_not_mem.2 fun b hb => ?_
  obtain ⟨c, hc, hsome⟩ := Flow.mem_bodies.1 hb
  cases ((hf.mem_calls_iff _ _).1 hc).1.symm.trans hsome

/-- The markers of recorded graphs are no calls. -/
theorem Kept.marked (hr : r.Kept s) : r.Marked := by
  intro h g hg c hc hmark
  have hrec := hr.recorded_of hg
  have hkey : c.1 ∈ Table.keys g.calls := Table.mem_keys.2 ⟨c.2, hc⟩
  rcases hmark with heq | heq
  · exact absurd (heq ▸ hkey) hrec.input_not_mem
  · exact absurd (heq ▸ hkey) hrec.output_not_mem

end Recording

namespace Recorder

/-- The assumptions hold of what was recorded of the calls. -/
theorem flatten_total_relayed :
    let t := tapeOf (relayed (passing "inner" true []))
    ∃ f s', t.recording.flatten t.supply = .ok (f, s') ∧ f.graph.isAcyclic = true ∧
      Recording.bodies f = [] ∧ (∃ c, (⟨6⟩, c) ∈ f.calls) ∧ ∃ c, (⟨10⟩, c) ∈ f.calls := by
  obtain ⟨g, hg, ⟨⟨n, c⟩, hc, rfl, hb⟩, hm⟩ :
      ∃ g ∈ (tapeOf (relayed (passing "inner" true []))).recording.graph? ⟨0⟩,
        (∃ c ∈ g.calls, c.1 = ⟨10⟩ ∧ c.2.body = none) ∧
          (⟨4⟩, ⟨1⟩) ∈ Recording.bodies g := by
    decide +kernel
  obtain ⟨k, hk, ⟨z, d⟩, hd, rfl, hb'⟩ :
      ∃ k ∈ (tapeOf (relayed (passing "inner" true []))).recording.graph? ⟨1⟩,
        ∃ c ∈ k.calls, c.1 = ⟨6⟩ ∧ c.2.body = none := by
    decide +kernel
  have hroot : (tapeOf (relayed (passing "inner" true []))).recording.root = ⟨0⟩ := by
    decide +kernel
  have hkept := (valid_absorb (valid_start Annotator.silent () {} ⟨0⟩)
    (relayed (passing "inner" true []))).kept
  obtain ⟨f, s', hok, -, hacyclic, -, hbodies, hcalls, -⟩ := Recording.flatten_total hkept.bounded
    hkept.arena.apart hkept.marked fun g hg => by
      obtain ⟨i, hi⟩ := List.getElem?_of_mem hg
      exact hkept.before i g hi
  simp only [tapeOf] at hg hk hroot hcalls hok ⊢
  exact ⟨f, s', hok, hacyclic, hbodies,
    ⟨d, (hcalls _ _).2 ⟨hb', ⟨1⟩, k, hroot ▸ .single ⟨g, hg, ⟨4⟩, hm⟩, hk, hd⟩⟩,
    ⟨c, (hcalls _ _).2 ⟨hb, ⟨0⟩, g, hroot ▸ .refl, hg, hc⟩⟩⟩

end Recorder

/-! ## A call as a marker

The check of a recording looks for the markers among the nodes, whatever these are. So it passes a
body whose input marker is a call, and flattening then drops that call. -/

namespace Recording

/-- A call whose body is the other graph. -/
def outer : Flow :=
  ⟨{ nodes := [(⟨0⟩, .input), (⟨1⟩, .output), (⟨2⟩, .call ⟨"m", "f", [], none, none, some ⟨1⟩⟩)]
     seating := .inOrder [⟨0⟩, ⟨1⟩, ⟨2⟩] }, ⟨0⟩, ⟨1⟩⟩

/-- A graph whose input marker is a call. -/
def masked : Flow :=
  ⟨{ nodes := [(⟨3⟩, .call ⟨"m", "g", [], none, none, none⟩), (⟨4⟩, .output)]
     seating := .inOrder [⟨3⟩, ⟨4⟩] }, ⟨3⟩, ⟨4⟩⟩

/-- The recording passes its check. -/
theorem bounded_masked : (⟨[outer, masked], ⟨0⟩⟩ : Recording).Bounded := by
  have hnil : outer.graph.edges = [] ∧ masked.graph.edges = [] := ⟨rfl, rfl⟩
  have hwf : outer.graph.WellFormed ∧ masked.graph.WellFormed :=
    ⟨⟨by decide, by decide, by simp [hnil], by simp [hnil], Seating.fits_inOrder _⟩,
      ⟨by decide, by decide, by simp [hnil], by simp [hnil], Seating.fits_inOrder _⟩⟩
  have hacyclic : outer.graph.isAcyclic = true ∧ masked.graph.isAcyclic = true :=
    ⟨(Graph.isAcyclic_iff hwf.1).2 (Graph.acyclic_of_rank NodeId.value (by simp [hnil])),
      (Graph.isAcyclic_iff hwf.2).2 (Graph.acyclic_of_rank NodeId.value (by simp [hnil]))⟩
  have hborder : outer.Bordered ∧ masked.Bordered :=
    ⟨⟨hwf.1, by simp [hnil], by simp [hnil], by simp [hnil], by simp [hnil]⟩,
      ⟨hwf.2, by simp [hnil], by simp [hnil], by simp [hnil], by simp [hnil]⟩⟩
  have hbodies : bodies masked = [] := by decide
  refine ⟨validate_eq_ok_iff.2 ⟨Nat.two_pos, fun i g hg => ?_, by decide⟩,
    List.forall_mem_cons.2 ⟨hborder.1, List.forall_mem_singleton.2 hborder.2⟩⟩
  match i with
  | 0 =>
    obtain rfl := Option.some.inj hg
    refine ⟨rfl, rfl, hacyclic.1, fun b hb => ?_⟩
    obtain rfl : b = (⟨2⟩, ⟨1⟩) := List.mem_singleton.1 hb
    exact ⟨by decide, by decide, by decide⟩
  | 1 =>
    obtain rfl := Option.some.inj hg
    exact ⟨rfl, rfl, hacyclic.2, by simp [hbodies]⟩

/-- A call that is the marker of a body is lost. -/
theorem flatten_loses_marker :
    let r : Recording := ⟨[outer, masked], ⟨0⟩⟩
    r.Bounded ∧ outer.Apart masked ∧ (∀ g ∈ r.graphs, g.graph.Before ⟨5⟩) ∧
      ∃ f s', r.flatten ⟨5⟩ = .ok (f, s') ∧ ∃ h g c, r.Within r.root h ∧ r.graph? h = some g ∧
        (⟨3⟩, c) ∈ g.calls ∧ c.body = none ∧ ⟨3⟩ ∉ f.graph.nodeIds := by
  refine ⟨bounded_masked, ⟨by decide, by decide⟩, ?_, ?_⟩
  · simp only [List.forall_mem_cons, List.not_mem_nil, false_imp_iff, implies_true, and_true]
    exact ⟨⟨by decide, by decide⟩, ⟨by decide, by decide⟩⟩
  · refine ⟨_, _, by rw [flatten, bounded_masked.valid, Outcome.ok_bind]; rfl, ⟨1⟩, masked, _,
      .single ⟨outer, rfl, ⟨2⟩, by decide⟩, rfl, List.mem_cons_self, rfl, ?_⟩
    decide

end Recording

end ObjectFlow
