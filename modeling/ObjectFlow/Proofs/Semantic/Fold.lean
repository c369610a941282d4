import ObjectFlow.Proofs.Graph.WellFormed
import ObjectFlow.Proofs.Semantic.Course

/-!
# Mergers that lose nothing

Nodes that are merged have one form, and so has what they lead to under one aspect. Where the forms
can be put on levels such that every edge leads to a lower one (`Layered`), a merger only touches
what is lower than the nodes that it merges. So it ends, and afterwards the graph is the image of
the former one under the map that sends a merged node to where it went (`merge_unites`).

## Outline

A merger of `src` into `dest` adds to `dest` what arrives at `src`, then hands over what leaves
`src`, edge by edge, and then removes `src`. An edge whose aspect `dest` has as well is not handed
over: its target is merged with the target that is there. This is where a merger contains others.

1. *Images.* `Folds form g g' ρ` says that `g'` is the image of `g` under `ρ`. Such maps compose
   (`Folds.trans`), and each elementary change is one: a change of a type, an edge on both sides, an
   edge whose image is there already, a node that goes on both sides. `Layered` goes over from a
   graph to its images (`Layered.mirror`), since it only speaks of the forms of the ends of edges.
2. *One node for another.* If the edges of `src` have all been added to `dest`, then removing `src`
   is an image under `supplanting src dest` (`Layered.supplant`). Edges between the two would be
   lost, but there are none, because both are on one level.
3. *Between mergers.* The state carries a table of where nodes went. `Standing m rep` says that
   following the table ends for every node, at `rep` of it, within as many steps as the table has
   entries. A merger prolongs all ways to `src` by one step and adds one entry (`follow_put`).
4. *The loop over the edges that leave.* `Transferring` is its invariant: the graph is an image of
   the one in which the edges handed over so far leave `dest`, and only nodes lower than `src` went
   anywhere. `dest` has the level of `src`, so the mergers inside the loop never move it, nor `src`
   (`eq_of_low`).
5. *Induction on the depth.* `Unites form level limit` says that mergers on levels below `limit` end
   as `Unified` states. If it holds of the mergers inside, it holds one level higher of a merger
   that may contain them (`advance_unites`).
-/

namespace ObjectFlow.Semantic

open ObjectFlow.Graph

variable {κ : Type} {form : NodeId → κ} {level : κ → Nat} {g g' : SemanticGraph} {o : Ontology}
  {ρ : NodeId → NodeId}

/--
Every edge leads to a lower level. Where several nodes have one form, edges of one aspect that leave
such nodes lead to nodes of one form, and have one role.
-/
structure Layered (form : NodeId → κ) (level : κ → Nat) (g : SemanticGraph) : Prop where
  lower : ∀ e ∈ g.edges, level (form e.target) < level (form e.source)
  aspect : ∀ e ∈ g.edges, ∀ f ∈ g.edges, ∀ n ∈ g.nodeIds, n ≠ e.source →
    form n = form e.source → form f.source = form e.source → ∀ a, e.data.aspect = some a →
      f.data.aspect = some a → form e.target = form f.target ∧ e.data.role = f.data.role

/-- By the forms of its ends an edge of the one graph is an edge of the other. -/
def Mirrors (form : NodeId → κ) (g g' : SemanticGraph) : Prop :=
  ∀ e' ∈ g'.edges, ∃ e ∈ g.edges, form e'.source = form e.source ∧
    form e'.target = form e.target ∧ e'.data = e.data

/-- Levels and aspects are those of the forms, so a graph that mirrors another one is as layered. -/
theorem Layered.mirror (h : Layered form level g) (hwf : g'.WellFormed)
    (hsub : ∀ n ∈ g'.nodeIds, n ∈ g.nodeIds) (hm : Mirrors form g g') :
    Layered form level g' := by
  refine ⟨fun e' he' => ?_, fun e' he' f' hf' n hn hne hform hfs a ha ha' => ?_⟩
  · obtain ⟨e, he, hs, ht, -⟩ := hm e' he'
    rw [hs, ht]
    exact h.lower e he
  · obtain ⟨e, he, hs, ht, hd⟩ := hm e' he'
    obtain ⟨f, hf, hfs', hft', hfd⟩ := hm f' hf'
    -- one of the two nodes of that form is another one than the source of the mirrored edge
    obtain ⟨k, hk, hke, hkf⟩ : ∃ k ∈ g.nodeIds, k ≠ e.source ∧ form k = form e.source := by
      by_cases hns : n = e.source
      · exact ⟨e'.source, hsub _ (hwf.source_mem e' he'), fun heq => hne (hns.trans heq.symm), hs⟩
      · exact ⟨n, hsub n hn, hns, hform.trans hs⟩
    rw [ht, hft', hd, hfd]
    exact h.aspect e he f hf k hk hke hkf (hfs' ▸ hs ▸ hfs) a (hd ▸ ha) (hfd ▸ ha')

/-- Mirrors of mirrors are mirrors. -/
theorem Mirrors.trans {g'' : SemanticGraph} (h : Mirrors form g g') (h' : Mirrors form g' g'') :
    Mirrors form g g'' := by
  intro e'' he''
  obtain ⟨e', he', hs', ht', hd'⟩ := h' e'' he''
  obtain ⟨e, he, hs, ht, hd⟩ := h e' he'
  exact ⟨e, he, hs'.trans hs, ht'.trans ht, hd'.trans hd⟩

/-- Edges may be added between the forms of the ends of others. -/
theorem Mirrors.withEdges {es : List (Edge Link)} (hes : ∀ f ∈ es, ∃ e ∈ g.edges,
    form f.source = form e.source ∧ form f.target = form e.target ∧ f.data = e.data) :
    Mirrors form g (g.withEdges es) := by
  intro f hf
  rcases List.mem_append.1 hf with hf | hf
  · exact ⟨f, hf, rfl, rfl, rfl⟩
  · exact hes f hf

/-- An edge that arrives at another node instead. -/
def arriving (dest : NodeId) (e : Edge Link) : Edge Link := { e with target := dest }

/-- An edge that leaves another node instead. -/
def leaving (dest : NodeId) (e : Edge Link) : Edge Link := { e with source := dest }

/-! ## Graphs that are images of others

The map says where each node went. It is the identity on the nodes that are still there, so images
can be taken one after the other, and an edge between nodes that became one is the only thing that
may go without an image. -/

/-- The map that puts one node in the place of another one. -/
def supplanting (src dest : NodeId) (n : NodeId) : NodeId := if n = src then dest else n

@[simp] theorem supplanting_self (src dest : NodeId) : supplanting src dest src = dest := if_pos rfl

/-- Every other node stays where it is. -/
theorem supplanting_of_ne {src dest n : NodeId} (hn : n ≠ src) : supplanting src dest n = n :=
  if_neg hn

/-- Nothing goes to the node that is replaced. -/
theorem supplanting_ne {src dest : NodeId} (hne : src ≠ dest) (n : NodeId) :
    supplanting src dest n ≠ src := by
  unfold supplanting
  split
  · exact hne.symm
  · assumption

/-- An edge of a graph leads from where a node went to where another one went. -/
def Carries (g : SemanticGraph) (ρ : NodeId → NodeId) (source target : NodeId) (l : Link) : Prop :=
  ∃ e ∈ g.edges, e.source = ρ source ∧ e.target = ρ target ∧ e.data = l

/--
A graph is the image of another one under a map of its nodes, which leaves those that are still
there where they are. Nodes keep all but their types, and relations are lost only within what
becomes one node.
-/
structure Folds (form : NodeId → κ) (g g' : SemanticGraph) (ρ : NodeId → NodeId) : Prop where
  survives : ∀ n ∈ g.nodeIds, ρ n ∈ g'.nodeIds
  fixed : ∀ n ∈ g'.nodeIds, ρ n = n
  form_eq : ∀ n ∈ g.nodeIds, form (ρ n) = form n
  node : ∀ n x', g'.node? n = some x' → ∃ x, g.node? n = some x ∧ x' = { x with type := x'.type }
  carried : ∀ e ∈ g.edges, ρ e.source ≠ ρ e.target → Carries g' ρ e.source e.target e.data
  origin : ∀ e' ∈ g'.edges, ∃ e ∈ g.edges,
    e'.source = ρ e.source ∧ e'.target = ρ e.target ∧ e'.data = e.data

namespace Folds

/-- An image has no node that was not there. -/
theorem mem (h : Folds form g g' ρ) {n : NodeId} (hn : n ∈ g'.nodeIds) : n ∈ g.nodeIds := by
  cases hx : g'.node? n with
  | none => exact absurd hn (node?_eq_none_iff.1 hx)
  | some x' =>
    obtain ⟨x, hx, -⟩ := h.node n x' hx
    exact mem_nodeIds_of_node? hx

/-- An image mirrors the graph, as no node changes its form. -/
theorem mirrors (h : Folds form g g' ρ) (hs : ∀ e ∈ g.edges, e.source ∈ g.nodeIds)
    (ht : ∀ e ∈ g.edges, e.target ∈ g.nodeIds) : Mirrors form g g' := by
  intro e' he'
  obtain ⟨e, he, hes, het, hd⟩ := h.origin e' he'
  exact ⟨e, he, by rw [hes, h.form_eq _ (hs e he)], by rw [het, h.form_eq _ (ht e he)], hd⟩

/-- Images of images are images, under the one map after the other. -/
theorem trans (h : Folds form g g' ρ) {g'' : SemanticGraph} {ρ' : NodeId → NodeId}
    (h' : Folds form g' g'' ρ') : Folds form g g'' (ρ' ∘ ρ) where
  survives n hn := h'.survives _ (h.survives n hn)
  fixed n hn := by rw [Function.comp_apply, h.fixed n (h'.mem hn), h'.fixed n hn]
  form_eq n hn := (h'.form_eq _ (h.survives n hn)).trans (h.form_eq n hn)
  node n x'' hx'' := by
    obtain ⟨x', hx', heq'⟩ := h'.node n x'' hx''
    obtain ⟨x, hx, heq⟩ := h.node n x' hx'
    exact ⟨x, hx, by rw [heq', heq]⟩
  carried e he hne := by
    obtain ⟨e', he', hs, ht, hd⟩ := h.carried e he fun heq => hne (congrArg ρ' heq)
    obtain ⟨e'', he'', hs', ht', hd'⟩ := h'.carried e' he' (by rwa [hs, ht])
    exact ⟨e'', he'', by rw [hs', hs]; rfl, by rw [ht', ht]; rfl, hd'.trans hd⟩
  origin e'' he'' := by
    obtain ⟨e', he', hs', ht', hd'⟩ := h'.origin e'' he''
    obtain ⟨e, he, hs, ht, hd⟩ := h.origin e' he'
    exact ⟨e, he, by rw [hs', hs]; rfl, by rw [ht', ht]; rfl, hd'.trans hd⟩

/-- A graph is its own image. -/
theorem refl (g : SemanticGraph) : Folds form g g id where
  survives _ hn := hn
  fixed _ _ := rfl
  form_eq _ _ := rfl
  node _ x hx := ⟨x, hx, rfl⟩
  carried e he _ := ⟨e, he, rfl, rfl, rfl⟩
  origin e he := ⟨e, he, rfl, rfl, rfl⟩

/-- A node may change its type. -/
theorem retype (g : SemanticGraph) (id : NodeId) (type : String) :
    Folds form g (g.adjustNode id fun n => { n with type := type }) (fun n => n) where
  survives _ hn := by rwa [nodeIds_adjustNode]
  fixed _ _ := rfl
  form_eq _ _ := rfl
  node n x' hx' := by
    rw [node?_adjustNode] at hx'
    split at hx'
    · obtain ⟨x, hx, rfl⟩ := Option.map_eq_some_iff.1 hx'
      exact ⟨x, hx, rfl⟩
    · exact ⟨x', hx', rfl⟩
  carried e he _ := ⟨e, he, rfl, rfl, rfl⟩
  origin e he := ⟨e, he, rfl, rfl, rfl⟩

/-- A further edge of which there is an image already. -/
theorem already (h : Folds form g g' ρ) {e : Edge Link}
    (he : Carries g' ρ e.source e.target e.data) : Folds form (g.withEdges [e]) g' ρ where
  survives := h.survives
  fixed := h.fixed
  form_eq := h.form_eq
  node := h.node
  carried f hf hne := by
    rcases List.mem_append.1 hf with hf | hf
    · exact h.carried f hf hne
    · exact List.mem_singleton.1 hf ▸ he
  origin e' he' := by
    obtain ⟨f, hf, heq⟩ := h.origin e' he'
    exact ⟨f, List.mem_append_left _ hf, heq⟩

/-- A further edge and its image. -/
theorem withEdges (h : Folds form g g' ρ) {e e' : Edge Link} (hs : e'.source = ρ e.source)
    (ht : e'.target = ρ e.target) (hd : e'.data = e.data) :
    Folds form (g.withEdges [e]) (g'.withEdges [e']) ρ where
  survives := h.survives
  fixed := h.fixed
  form_eq := h.form_eq
  node := h.node
  carried f hf hne := by
    rcases List.mem_append.1 hf with hf | hf
    · obtain ⟨f', hf', heq⟩ := h.carried f hf hne
      exact ⟨f', List.mem_append_left _ hf', heq⟩
    · obtain rfl := List.mem_singleton.1 hf
      exact ⟨e', List.mem_append_right _ (List.mem_singleton_self _), hs, ht, hd⟩
  origin f' hf' := by
    rcases List.mem_append.1 hf' with hf' | hf'
    · obtain ⟨f, hf, heq⟩ := h.origin f' hf'
      exact ⟨f, List.mem_append_left _ hf, heq⟩
    · obtain rfl := List.mem_singleton.1 hf'
      exact ⟨e, List.mem_append_right _ (List.mem_singleton_self _), hs, ht, hd⟩

/-- What is the image of some node alone can go from both graphs. -/
theorem removeNode (h : Folds form g g' ρ) (hwf' : g'.WellFormed) {id : NodeId}
    (hid : id ∈ g.nodeIds) (halone : ∀ n, ρ n = id ↔ n = id) :
    Folds form (g.removeNode id) (g'.removeNode id) ρ where
  survives n hn := by
    rw [nodeIds_removeNode, List.mem_filter, decide_eq_true_iff] at hn ⊢
    exact ⟨h.survives n hn.1, fun heq => hn.2 ((halone n).1 heq)⟩
  fixed n hn := by
    rw [nodeIds_removeNode] at hn
    exact h.fixed n (List.mem_of_mem_filter hn)
  form_eq n hn := by
    rw [nodeIds_removeNode] at hn
    exact h.form_eq n (List.mem_of_mem_filter hn)
  node n x' hx' := by
    have hne : n ≠ id := by
      have hn := mem_nodeIds_of_node? hx'
      rw [nodeIds_removeNode, List.mem_filter, decide_eq_true_iff] at hn
      exact hn.2
    rw [node?_removeNode_of_ne _ hne] at hx' ⊢
    exact h.node n x' hx'
  carried e he hne := by
    obtain ⟨he, hs, ht⟩ := (mem_edges_removeNode_of_mem hid).1 he
    obtain ⟨e', he', hs', ht', hd⟩ := h.carried e he hne
    refine ⟨e', (mem_edges_removeNode hwf').2 ⟨he', ?_, ?_⟩, hs', ht', hd⟩
    · rwa [hs', Ne, halone]
    · rwa [ht', Ne, halone]
  origin e' he' := by
    obtain ⟨he', hs', ht'⟩ := (mem_edges_removeNode hwf').1 he'
    obtain ⟨e, he, hs, ht, hd⟩ := h.origin e' he'
    refine ⟨e, (mem_edges_removeNode_of_mem hid).2 ⟨he, ?_, ?_⟩, hs, ht, hd⟩
    · rwa [hs, Ne, halone] at hs'
    · rwa [ht, Ne, halone] at ht'

end Folds

/-! ## Edges that change one end

Layered graphs have no edge between nodes of one form, and so none between the two that are merged.
The edges that arrive at the one and those that leave it are led to the other, each with its other
end where it was. -/

/-- The ends of an edge are on different levels, and so of different forms. -/
theorem Layered.ne (h : Layered form level g) {e : Edge Link} (he : e ∈ g.edges) :
    form e.source ≠ form e.target :=
  fun heq => Nat.lt_irrefl _ (heq ▸ h.lower e he)

/-- The edges that arrive at a node from elsewhere than another one, led to that one. -/
def arrivals (g : SemanticGraph) (src dest : NodeId) : List (Edge Link) :=
  ((g.inEdges src).filter fun e => e.source ≠ dest).map (arriving dest)

/-- The edges that leave a node to elsewhere than another one, led from that one. -/
def departures (g : SemanticGraph) (src dest : NodeId) : List (Edge Link) :=
  ((g.outEdges src).filter fun e => e.target ≠ dest).map (leaving dest)

/-- An edge that arrives at the one node has its counterpart at the other. -/
theorem arriving_mem_arrivals {src dest : NodeId} {e : Edge Link} (he : e ∈ g.edges)
    (ht : e.target = src) (hs : e.source ≠ dest) : arriving dest e ∈ arrivals g src dest := by
  refine List.mem_map_of_mem ?_
  rw [List.mem_filter, mem_inEdges, decide_eq_true_iff]
  exact ⟨⟨he, ht⟩, hs⟩

/-- What was led to the other node arrived at the one. -/
theorem exists_of_mem_arrivals {src dest : NodeId} {f : Edge Link} (hf : f ∈ arrivals g src dest) :
    ∃ e ∈ g.edges, e.target = src ∧ arriving dest e = f := by
  obtain ⟨e, he, heq⟩ := List.mem_map.1 hf
  obtain ⟨he, ht⟩ := mem_inEdges.1 (List.mem_of_mem_filter he)
  exact ⟨e, he, ht, heq⟩

/-- An edge that leaves the one node has its counterpart at the other. -/
theorem leaving_mem_departures {src dest : NodeId} {e : Edge Link} (he : e ∈ g.edges)
    (hs : e.source = src) (ht : e.target ≠ dest) : leaving dest e ∈ departures g src dest := by
  refine List.mem_map_of_mem ?_
  rw [List.mem_filter, mem_outEdges, decide_eq_true_iff]
  exact ⟨⟨he, hs⟩, ht⟩

/-- What was led from the other node left the one. -/
theorem exists_of_mem_departures {src dest : NodeId} {f : Edge Link}
    (hf : f ∈ departures g src dest) : ∃ e ∈ g.edges, e.source = src ∧ leaving dest e = f := by
  obtain ⟨e, he, heq⟩ := List.mem_map.1 hf
  obtain ⟨he, hs⟩ := mem_outEdges.1 (List.mem_of_mem_filter he)
  exact ⟨e, he, hs, heq⟩

namespace Layered

variable {src dest : NodeId} (h : Layered form level g)
include h

/-- Edges that arrive at another node of the same form as before change no level. -/
theorem arrived (hwf : g.WellFormed) (hwf' : g'.WellFormed) (hdest : dest ∈ g.nodeIds)
    (hform : form dest = form src) (hsub : ∀ n ∈ g'.nodeIds, n ∈ g.nodeIds)
    (hin : Folds form (g.withEdges (arrivals g src dest)) g' fun n => n) :
    Layered form level g' := by
  refine h.mirror hwf' hsub ((Mirrors.withEdges fun f hf => ?_).trans
    (hin.mirrors (forall_mem_withEdges.2 ⟨hwf.source_mem, fun f hf => ?_⟩)
      (forall_mem_withEdges.2 ⟨hwf.target_mem, fun f hf => ?_⟩)))
  all_goals obtain ⟨e, he, ht, rfl⟩ := exists_of_mem_arrivals hf
  · exact ⟨e, he, rfl, ht ▸ hform, rfl⟩
  · exact hwf.source_mem e he
  · exact hdest

/-- Every edge is still there between the nodes that its ends went to. -/
theorem supplant_carried (hsrc : src ∈ g'.nodeIds) (hne : src ≠ dest) (hform : form dest = form src)
    (hin : Folds form (g.withEdges (arrivals g src dest)) g' fun n => n) {e : Edge Link}
    (he : e ∈ g.edges) :
    Carries ((g'.withEdges (departures g' src dest)).removeNode src) (supplanting src dest)
      e.source e.target e.data := by
  have hloop := h.ne he
  have hmem : src ∈ (g'.withEdges (departures g' src dest)).nodeIds := hsrc
  have hremains : ∀ k ∈ (g'.withEdges (departures g' src dest)).edges,
      k.source = supplanting src dest e.source → k.target = supplanting src dest e.target →
      k.data = e.data → Carries _ _ _ _ _ :=
    fun k hk hs ht hd => ⟨k, (mem_edges_removeNode_of_mem hmem).2
      ⟨hk, hs ▸ supplanting_ne hne _, ht ▸ supplanting_ne hne _⟩, hs, ht, hd⟩
  obtain ⟨f, hf, hfs, hft, hfd⟩ := hin.carried e (List.mem_append_left _ he)
    fun heq => hloop (congrArg form heq)
  by_cases hs : e.source = src
  · have ht : e.target ≠ src := fun heq => hloop (by rw [hs, heq])
    have htd : e.target ≠ dest := fun heq => hloop (by rw [hs, heq, hform])
    have hleft := leaving_mem_departures hf (hfs.trans hs) fun heq => htd (hft.symm.trans heq)
    exact hremains (leaving dest f) (List.mem_append_right _ hleft)
      (by rw [hs, supplanting_self]; rfl) (hft.trans (supplanting_of_ne ht).symm) hfd
  by_cases ht : e.target = src
  · have hsd : e.source ≠ dest := fun heq => hloop (by rw [ht, heq, hform])
    obtain ⟨k, hk, hks, hkt, hkd⟩ := hin.carried (arriving dest e)
      (List.mem_append_right _ (arriving_mem_arrivals he ht hsd)) hsd
    exact hremains k (List.mem_append_left _ hk) (hks.trans (supplanting_of_ne hs).symm)
      (by rw [hkt, ht, supplanting_self]; rfl) hkd
  · exact hremains f (List.mem_append_left _ hf) (hfs.trans (supplanting_of_ne hs).symm)
      (hft.trans (supplanting_of_ne ht).symm) hfd

/-- Every edge that is there now comes from one between the nodes that went to its ends. -/
theorem supplant_origin (hsrc : src ∈ g'.nodeIds)
    (hin : Folds form (g.withEdges (arrivals g src dest)) g' fun n => n) {f : Edge Link}
    (hf : f ∈ ((g'.withEdges (departures g' src dest)).removeNode src).edges) :
    ∃ e ∈ g.edges, f.source = supplanting src dest e.source ∧
      f.target = supplanting src dest e.target ∧ f.data = e.data := by
  have hmem : src ∈ (g'.withEdges (departures g' src dest)).nodeIds := hsrc
  obtain ⟨hf, hs, ht⟩ := (mem_edges_removeNode_of_mem hmem).1 hf
  rcases List.mem_append.1 hf with hf | hf
  · obtain ⟨e, he, hes, het, hd⟩ := hin.origin f hf
    rcases List.mem_append.1 he with he | he
    · exact ⟨e, he, by rw [hes, supplanting_of_ne (hes ▸ hs)],
        by rw [het, supplanting_of_ne (het ▸ ht)], hd⟩
    · obtain ⟨k, hk, htarget, rfl⟩ := exists_of_mem_arrivals he
      exact ⟨k, hk, by rw [hes]; exact (supplanting_of_ne (hes ▸ hs)).symm,
        by rw [het, htarget, supplanting_self]; rfl, hd⟩
  · obtain ⟨k, hk, hsource, rfl⟩ := exists_of_mem_departures hf
    obtain ⟨e, he, hes, het, hd⟩ := hin.origin k hk
    rcases List.mem_append.1 he with he | he
    · refine ⟨e, he, ?_, ?_, hd⟩
      · rw [← hes, hsource, supplanting_self]
        rfl
      · rw [supplanting_of_ne (het ▸ ht), ← het]
        rfl
    · -- an edge that arrived at the other node does not leave the one that goes
      obtain ⟨e₀, he₀, htarget, rfl⟩ := exists_of_mem_arrivals he
      refine absurd (congrArg form ?_) (h.ne he₀)
      rw [htarget, ← hsource, hes]
      rfl

/--
When its edges have been added to another node of its form, a node may go, and its image is the
other one.
-/
theorem supplant (hsrc : src ∈ g.nodeIds) (hdest : dest ∈ g.nodeIds) (hne : src ≠ dest)
    (hform : form dest = form src) (hnodes : g'.nodes = g.nodes)
    (hin : Folds form (g.withEdges (arrivals g src dest)) g' fun n => n) :
    Folds form g ((g'.withEdges (departures g' src dest)).removeNode src)
      (supplanting src dest) := by
  have hids : g'.nodeIds = g.nodeIds := by rw [nodeIds, hnodes, nodeIds]
  have hsrc' : src ∈ g'.nodeIds := hids ▸ hsrc
  refine ⟨fun n hn => ?_, fun n hn => ?_, fun n _ => ?_, fun n x hx => ?_,
    fun e he _ => h.supplant_carried hsrc' hne hform hin he,
    fun f hf => h.supplant_origin hsrc' hin hf⟩
  · rw [nodeIds_removeNode, List.mem_filter, nodeIds_withEdges, hids, decide_eq_true_iff]
    refine ⟨?_, supplanting_ne hne n⟩
    unfold supplanting
    split
    · exact hdest
    · exact hn
  · rw [nodeIds_removeNode, List.mem_filter, decide_eq_true_iff] at hn
    exact supplanting_of_ne hn.2
  · unfold supplanting
    split
    · rename_i heq
      rw [heq, hform]
    · rfl
  · have hn := mem_nodeIds_of_node? hx
    rw [nodeIds_removeNode, List.mem_filter, decide_eq_true_iff] at hn
    rw [node?_removeNode_of_ne _ hn.2, node?_withEdges, node?, hnodes] at hx
    exact ⟨x, hx, rfl⟩

end Layered

namespace Merging

variable {m m' : Merging} {rep : NodeId → NodeId}

/-! ## Graphs between two mergers

The table of where nodes went grows by one entry with each merger that is over. Its entries never
form a circle here, because a node is entered when it is removed and never before: what it went to
was in the graph, and had no entry. -/

/-- With one more entry, a way that ended at the new key takes one more step, and every other way is
as long as before. -/
theorem follow_put {t : Table NodeId NodeId} {src dest : NodeId} (hsrc : Table.at? t src = none)
    (hdest : Table.at? t dest = none) (hne : src ≠ dest) {steps : Nat} {n r : NodeId}
    (h : follow t steps n = some r) :
    follow (Table.put t src dest) (steps + 1) n = some (if r = src then dest else r) := by
  have hend : Table.at? (Table.put t src dest) dest = none := by
    rw [Table.at?_put_of_ne _ _ hne.symm, hdest]
  have hstay : ∀ steps n, Table.at? t n = none → r = n →
      follow (Table.put t src dest) (steps + 1) n = some (if r = src then dest else r) := by
    rintro steps n hat rfl
    by_cases hr : r = src
    · rw [if_pos hr, follow_succ (by rw [hr]; exact Table.at?_put_self t src dest),
        follow_of_none hend]
    · rw [if_neg hr, follow_of_none (by rw [Table.at?_put_of_ne _ _ hr, hat])]
  induction steps generalizing n with
  | zero =>
    cases hat : Table.at? t n with
    | some next => cases (follow_zero hat).symm.trans h
    | none => exact hstay 0 n hat (Option.some.inj (h.symm.trans (follow_of_none hat)))
  | succ steps ih =>
    cases hat : Table.at? t n with
    | some next =>
      have hn : n ≠ src := fun heq => by rw [heq, hsrc] at hat; cases hat
      rw [follow_succ hat] at h
      rw [follow_succ (by rw [Table.at?_put_of_ne _ _ hn, hat]), ih h]
    | none => exact hstay _ n hat (Option.some.inj (h.symm.trans (follow_of_none hat)))

/-- Every node can be followed to where it went, and no node that is there went anywhere. -/
structure Standing (m : Merging) (rep : NodeId → NodeId) : Prop where
  wellFormed : m.graph.WellFormed
  before : m.graph.Before m.supply
  follow_eq : ∀ n, follow m.forwarded m.forwarded.length n = some (rep n)
  stays : ∀ n ∈ m.graph.nodeIds, Table.at? m.forwarded n = none

namespace Standing

variable (h : m.Standing rep)
include h

/-- A node that is there stands for itself. -/
theorem rep_eq {n : NodeId} (hn : n ∈ m.graph.nodeIds) : rep n = n :=
  Option.some.inj ((h.follow_eq n).symm.trans (follow_of_none (h.stays n hn)))

/-- A node resolves to what stands for it. -/
theorem resolve (n : NodeId) : (m.resolve n).Yields fun id => id = rep n :=
  yields_resolve (h.follow_eq n) rfl

/-- A change of a type moves no node. -/
theorem joinTypes (src dest : Node) (id : NodeId) : (m.joinTypes o src dest id).Standing rep := by
  refine ⟨h.wellFormed.adjustNode _ _, h.before.adjustNode _ _, h.follow_eq, fun n hn => ?_⟩
  exact h.stays n (by rwa [Merging.joinTypes, nodeIds_adjustNode] at hn)

/-- An edge between nodes that are there is added. -/
theorem addEdge {source target : NodeId} (hs : source ∈ m.graph.nodeIds)
    (ht : target ∈ m.graph.nodeIds) (l : Link) :
    (m.addEdge source target l).Yields fun m' => m'.Standing rep ∧
      ∃ id, m'.graph = m.graph.withEdges [⟨id, source, target, l⟩] := by
  have hok : m.graph.addEdge ⟨m.supply.edge.1, source, target, l⟩ =
      .ok (m.graph.withEdges [⟨m.supply.edge.1, source, target, l⟩]) :=
    addEdge_eq_ok h.before.next_not_mem_edges hs ht
  refine Course.Yields.bind (Course.yields_ofExcept hok rfl) fun g hg => ?_
  subst hg
  refine Course.yields_pure ⟨⟨h.wellFormed.addEdge hok, ?_, h.follow_eq, h.stays⟩, _, rfl⟩
  exact h.before.withEdges (Nat.le_succ _) (List.forall_mem_singleton.2 (Nat.lt_succ_self _))

/-- A node that goes is entered in the table, and what stood for it is replaced. -/
theorem retire {src dest : NodeId} (hsrc : src ∈ m.graph.nodeIds)
    (hdest : dest ∈ m.graph.nodeIds) (hne : src ≠ dest) :
    (m.retire src dest).Standing fun n => if rep n = src then dest else rep n := by
  have hkey : src ∉ Table.keys m.forwarded := Table.at?_eq_none_iff.1 (h.stays src hsrc)
  have hlen : (Table.put m.forwarded src dest).length = m.forwarded.length + 1 := by
    have := congrArg List.length (Table.keys_put m.forwarded src dest)
    rw [if_neg hkey, List.length_append, Table.keys, Table.keys, List.length_map,
      List.length_map] at this
    exact this
  refine ⟨h.wellFormed.removeNode src, h.before.removeNode src, fun n => ?_, fun n hn => ?_⟩
  · show Merging.follow (Table.put m.forwarded src dest) _ n = _
    rw [Merging.retire, hlen]
    exact follow_put (h.stays src hsrc) (h.stays dest hdest) hne (h.follow_eq n)
  · rw [Merging.retire, nodeIds_removeNode, List.mem_filter] at hn
    rw [Merging.retire, Table.at?_put_of_ne _ _ (of_decide_eq_true hn.2), h.stays n hn.1]

variable (form) in
/-- Edges that are added between nodes of the graph are there. -/
theorem arrive {dest : NodeId} (hdest : dest ∈ m.graph.nodeIds) {es : List (Edge Link)}
    (hes : ∀ e ∈ es, e.source ∈ m.graph.nodeIds) :
    (es.foldlM (fun (m : Merging) e => m.addEdge e.source dest e.data) m).Yields fun m' =>
      m'.Standing rep ∧ m'.graph.nodes = m.graph.nodes ∧ m.graph.edges ⊆ m'.graph.edges ∧
        Folds form (m.graph.withEdges (es.map (arriving dest))) m'.graph fun n => n := by
  have hloop := Course.Yields.foldlM (l := es) (b := m)
    (f := fun (m : Merging) e => m.addEdge e.source dest e.data)
    (I := fun rest m' => ∃ done, done ++ rest = es ∧ m'.Standing rep ∧
      m'.graph.nodes = m.graph.nodes ∧ m.graph.edges ⊆ m'.graph.edges ∧
        Folds form (m.graph.withEdges (done.map (arriving dest))) m'.graph fun n => n)
    (fun e rest m' ⟨done, hdone, hstanding, hnodes, hedges, hfolds⟩ => by
      have he : e ∈ es := hdone ▸ List.mem_append_right _ List.mem_cons_self
      refine (hstanding.addEdge (hfolds.survives _ (hes e he)) (hfolds.survives _ hdest) e.data).imp
        fun m'' ⟨hstanding', id, hid⟩ =>
          ⟨done ++ [e], by simp [hdone], hstanding', by rw [hid, nodes_withEdges, hnodes],
            fun f hf => by rw [hid]; exact List.mem_append_left _ (hedges hf), ?_⟩
      rw [hid, List.map_append, ← withEdges_withEdges]
      exact hfolds.withEdges rfl rfl rfl)
    ⟨[], rfl, h, rfl, List.Subset.refl _,
      by rw [List.map_nil, withEdges_nil]; exact Folds.refl _⟩
  refine hloop.imp fun m' ⟨done, hdone, hm'⟩ => ?_
  rw [← hdone, List.append_nil]
  exact hm'

end Standing

/-! ## What a merger comes to

From here on a merger is a step that may contain others. These are given as a parameter `further` of
which nothing is known but that they unite what is lower, so that the depth of recursion appears in
the last theorem only. -/

/--
A merger is over: the graph is the image of the former one, the merged node is where it should be,
and else only nodes on lower levels went anywhere.
-/
structure Unified (form : NodeId → κ) (level : κ → Nat) (m m' : Merging) (rep ρ : NodeId → NodeId)
    (src dest : NodeId) : Prop where
  standing : m'.Standing (ρ ∘ rep)
  folds : Folds form m.graph m'.graph ρ
  meets : ρ src = dest
  low : ∀ n, ρ n ≠ n → n ∈ m.graph.nodeIds ∧ (n = src ∨ level (form n) < level (form src))

/-- Mergers of nodes of one form below some level come to an end. -/
def Unites (form : NodeId → κ) (level : κ → Nat) (limit : Nat)
    (further : NodeId → NodeId → Merging → Course Merging) : Prop :=
  ∀ rep src dest m, Standing m rep → Layered form level m.graph → rep src ∈ m.graph.nodeIds →
    rep dest ∈ m.graph.nodeIds → form (rep dest) = form (rep src) →
    level (form (rep src)) < limit →
      (further src dest m).Yields fun m' => ∃ ρ, Unified form level m m' rep ρ (rep src) (rep dest)

/-- Some edges of a node have been handed over to another one. -/
structure Transferring (form : NodeId → κ) (level : κ → Nat) (m₁ : Merging) (rep : NodeId → NodeId)
    (src dest : NodeId) (done : List (Edge Link)) (ρ : NodeId → NodeId) (m : Merging) : Prop where
  standing : m.Standing (ρ ∘ rep)
  folds : Folds form (m₁.graph.withEdges (done.map (leaving dest))) m.graph ρ
  low : ∀ n, ρ n ≠ n → n ∈ m₁.graph.nodeIds ∧ level (form n) < level (form src)

theorem exists_edge_of_aspectTargets {id target : NodeId} {a : String}
    (h : Table.at? (aspectTargets g id) a = some target) :
    ∃ e ∈ g.edges, e.source = id ∧ e.data.aspect = some a ∧ e.target = target := by
  obtain ⟨e, he, heq⟩ := List.mem_filterMap.1 (Table.mem_ofEntries (Table.mem_of_at? h))
  obtain ⟨a', ha', heq⟩ := Option.map_eq_some_iff.1 heq
  obtain ⟨rfl, rfl⟩ := Prod.mk.inj heq
  exact ⟨e, (mem_outEdges.1 he).1, (mem_outEdges.1 he).2, ha', rfl⟩

/-- What has the form of the merged nodes went nowhere, where only lower nodes did. -/
theorem eq_of_low {src n : NodeId} {p : NodeId → Prop}
    (hlow : ∀ n, ρ n ≠ n → p n ∧ level (form n) < level (form src)) (hn : form n = form src) :
    ρ n = n := by
  by_contra hmoved
  exact Nat.lt_irrefl _ (hn ▸ (hlow n hmoved).2)

section Transfer

variable {m₁ : Merging} {src dest : NodeId} {done : List (Edge Link)} {limit : Nat}
  {further : NodeId → NodeId → Merging → Course Merging}

namespace Transferring

variable (h : Transferring form level m₁ rep src dest done ρ m)
include h

/-- The graph stays layered while edges are handed over, so that the mergers inside are covered. -/
theorem layered (hwf : m₁.graph.WellFormed) (hl : Layered form level m₁.graph)
    (hdest : dest ∈ m₁.graph.nodeIds) (hform : form dest = form src)
    (hdone : ∀ e ∈ done, e ∈ m₁.graph.outEdges src) : Layered form level m.graph := by
  have hmirror : Mirrors form m₁.graph (m₁.graph.withEdges (done.map (leaving dest))) := by
    refine Mirrors.withEdges fun f hf => ?_
    obtain ⟨e, he, rfl⟩ := List.mem_map.1 hf
    obtain ⟨he, hs⟩ := mem_outEdges.1 (hdone e he)
    exact ⟨e, he, hs ▸ hform, rfl, rfl⟩
  refine hl.mirror h.standing.wellFormed (fun n hn => h.folds.mem hn)
    (hmirror.trans (h.folds.mirrors (fun f hf => ?_) fun f hf => ?_))
  · rcases List.mem_append.1 hf with hf | hf
    · exact hwf.source_mem f hf
    · obtain ⟨e, -, rfl⟩ := List.mem_map.1 hf
      exact hdest
  · rcases List.mem_append.1 hf with hf | hf
    · exact hwf.target_mem f hf
    · obtain ⟨e, he, rfl⟩ := List.mem_map.1 hf
      exact hwf.target_mem e (mem_outEdges.1 (hdone e he)).1

/--
The target of an edge is merged with that of an edge of the other node. That one then stands for
the edge, which is not moved.
-/
theorem merged (hdest : form dest = form src) {e f : Edge Link} (hf : f ∈ m₁.graph.edges)
    (het : e.target ∈ m₁.graph.nodeIds) (hft : f.target ∈ m₁.graph.nodeIds) (hfs : f.source = dest)
    (hsame : form e.target = form f.target) (hdata : f.data = e.data)
    (hlower : level (form e.target) < level (form src)) {ρ' : NodeId → NodeId} {m' : Merging}
    (hu : Unified form level m m' (ρ ∘ rep) ρ' (ρ e.target) (ρ f.target)) :
    Transferring form level m₁ rep src dest (done ++ [e]) (ρ' ∘ ρ) m' := by
  have hformt : form (ρ e.target) = form e.target := h.folds.form_eq _ het
  have hlow : ∀ n, (ρ' ∘ ρ) n ≠ n → n ∈ m₁.graph.nodeIds ∧ level (form n) < level (form src) := by
    intro n hn
    by_cases hρ : ρ n = n
    · rw [Function.comp_apply, hρ] at hn
      obtain ⟨hmem', hcase⟩ := hu.low n hn
      refine ⟨h.folds.mem hmem', ?_⟩
      rcases hcase with rfl | hlt
      · rwa [hformt]
      · rw [hformt] at hlt
        exact Nat.lt_trans hlt hlower
    · exact h.low n hρ
  have hfixed : (ρ' ∘ ρ) dest = dest := eq_of_low hlow hdest
  have hstays : ρ' (ρ f.target) = ρ f.target :=
    hu.folds.fixed _ (hu.meets ▸ hu.folds.survives _ (h.folds.survives _ het))
  have hfolds := h.folds.trans hu.folds
  obtain ⟨f', hf', hs, ht, hd⟩ := hfolds.carried f (List.mem_append_left _ hf) (by
    rw [hfs, hfixed, Function.comp_apply, hstays]
    intro heq
    have := congrArg form heq
    rw [h.folds.form_eq _ hft, ← hsame, hdest] at this
    rw [this] at hlower
    exact Nat.lt_irrefl _ hlower)
  refine ⟨hu.standing, ?_, hlow⟩
  rw [List.map_append, ← withEdges_withEdges]
  refine hfolds.already ⟨f', hf', by rw [hs, hfs]; rfl, ?_, hd.trans hdata⟩
  rw [ht, Function.comp_apply, hstays, ← hu.meets]
  rfl

/-- One more edge is handed over, or its target is merged. -/
theorem step (hwf : m₁.graph.WellFormed) (hl : Layered form level m₁.graph)
    (hrep : ∀ n ∈ m₁.graph.nodeIds, rep n = n) (hdest : dest ∈ m₁.graph.nodeIds)
    (hne : src ≠ dest) (hform : form dest = form src) (hlimit : level (form src) ≤ limit)
    (hfurther : Unites form level limit further)
    (hdone : ∀ e ∈ done, e ∈ m₁.graph.outEdges src) {e : Edge Link}
    (he : e ∈ m₁.graph.outEdges src) :
    (transfer further dest (aspectTargets m₁.graph dest) m e).Yields fun m' =>
      ∃ ρ', Transferring form level m₁ rep src dest (done ++ [e]) ρ' m' := by
  obtain ⟨hedge, hsource⟩ := mem_outEdges.1 he
  have htarget := hwf.target_mem e hedge
  have hlower : level (form e.target) < level (form src) := hsource ▸ hl.lower e hedge
  have hmem : ρ e.target ∈ m.graph.nodeIds := h.folds.survives _ htarget
  have hformt : form (ρ e.target) = form e.target := h.folds.form_eq _ htarget
  have hfixed : ρ dest = dest := eq_of_low h.low hform
  have hnet : ρ e.target ≠ dest := by
    intro heq
    rw [← hformt, heq, hform] at hlower
    exact Nat.lt_irrefl _ hlower
  refine (h.standing.resolve e.target).bind fun target htarget' => ?_
  obtain rfl : target = ρ e.target := by rw [htarget', Function.comp_apply, hrep _ htarget]
  rw [if_neg (by simp [hnet, hasNode_iff.2 hmem])]
  split
  · -- the other node has an edge of this aspect, and the two targets become one
    rename_i existing hat
    obtain ⟨a, ha, hat⟩ := Option.bind_eq_some_iff.1 hat
    obtain ⟨f, hf, hfs, hfa, rfl⟩ := exists_edge_of_aspectTargets hat
    obtain ⟨hsame, hrole⟩ := hl.aspect e hedge f hf dest hdest (hsource ▸ hne.symm)
      (hsource ▸ hform) (by rw [hfs, hsource, hform]) a ha hfa
    have hdata : f.data = e.data := by
      rw [← show (⟨some a, f.data.role⟩ : Link) = f.data from hfa ▸ rfl, ← hrole, ← ha]
    have hft := hwf.target_mem f hf
    have hunite := hfurther (ρ ∘ rep) (ρ e.target) f.target m h.standing
      (h.layered hwf hl hdest hform hdone)
    rw [h.standing.rep_eq hmem, show (ρ ∘ rep) f.target = ρ f.target from
      congrArg ρ (hrep _ hft)] at hunite
    refine (hunite hmem (h.folds.survives _ hft)
      (by rw [h.folds.form_eq _ hft, hformt, hsame])
      (by rw [hformt]; exact Nat.lt_of_lt_of_le hlower hlimit)).imp fun m' ⟨ρ', hu⟩ => ?_
    exact ⟨ρ' ∘ ρ, h.merged hform hf htarget hft hfs hsame hdata hlower hu⟩
  · have hdest' : dest ∈ m.graph.nodeIds := hfixed ▸ h.folds.survives dest hdest
    refine (h.standing.addEdge hdest' hmem e.data).imp fun m' ⟨hstanding, id, hid⟩ => ?_
    refine ⟨ρ, hstanding, ?_, h.low⟩
    rw [hid, List.map_append, ← withEdges_withEdges]
    exact h.folds.withEdges hfixed.symm rfl rfl

/-- No other node became the one that is merged. -/
theorem eq_src_iff (n : NodeId) : ρ n = src ↔ n = src := by
  refine ⟨fun heq => ?_, fun heq => heq ▸ eq_of_low (n := src) h.low rfl⟩
  by_contra hn
  have hlow := h.low n fun hsame => hn (hsame.symm.trans heq)
  rw [← h.folds.form_eq n hlow.1, heq] at hlow
  exact Nat.lt_irrefl _ hlow.2

/-- When all its edges have been handed over, the node goes. -/
theorem retire (hsrc : src ∈ m₁.graph.nodeIds) (hdest : dest ∈ m₁.graph.nodeIds)
    (hne : src ≠ dest) (hform : form dest = form src) :
    (m.retire src dest).Standing ((ρ ∘ supplanting src dest) ∘ rep) ∧
      Folds form ((m₁.graph.withEdges (done.map (leaving dest))).removeNode src)
        (m.retire src dest).graph ρ := by
  have hdestfix : ρ dest = dest := eq_of_low h.low hform
  have hsrcfix : ρ src = src := eq_of_low (n := src) h.low rfl
  have hsrc' : src ∈ m.graph.nodeIds := hsrcfix ▸ h.folds.survives src hsrc
  have hdest' : dest ∈ m.graph.nodeIds := hdestfix ▸ h.folds.survives dest hdest
  have hrep : (ρ ∘ supplanting src dest) ∘ rep =
      fun n => if (ρ ∘ rep) n = src then dest else (ρ ∘ rep) n := by
    funext n
    simp only [Function.comp_apply, supplanting, h.eq_src_iff]
    split
    · exact hdestfix
    · rfl
  exact ⟨hrep ▸ h.standing.retire hsrc' hdest' hne,
    h.folds.removeNode h.standing.wellFormed hsrc h.eq_src_iff⟩

end Transferring

/-- All edges are handed over. -/
theorem transfer_yields (hm : m₁.Standing rep) (hl : Layered form level m₁.graph)
    (hdest : dest ∈ m₁.graph.nodeIds) (hne : src ≠ dest) (hform : form dest = form src)
    (hlimit : level (form src) ≤ limit) (hfurther : Unites form level limit further)
    {es : List (Edge Link)} (hes : ∀ e ∈ es, e ∈ m₁.graph.outEdges src) :
    (es.foldlM (transfer further dest (aspectTargets m₁.graph dest)) m₁).Yields fun m =>
      ∃ ρ, Transferring form level m₁ rep src dest es ρ m := by
  have hloop := Course.Yields.foldlM (l := es) (b := m₁)
    (f := transfer further dest (aspectTargets m₁.graph dest))
    (I := fun rest m => ∃ done ρ, done ++ rest = es ∧
      Transferring form level m₁ rep src dest done ρ m)
    (fun e rest m ⟨done, ρ, hdone, ht⟩ => by
      have he : e ∈ m₁.graph.outEdges src :=
        hes e (hdone ▸ List.mem_append_right _ List.mem_cons_self)
      refine (ht.step hm.wellFormed hl (fun n hn => hm.rep_eq hn) hdest hne hform hlimit hfurther
        (fun f hf => hes f (hdone ▸ List.mem_append_left _ hf)) he).imp fun m' ⟨ρ', ht'⟩ => ?_
      exact ⟨done ++ [e], ρ', by simp [hdone], ht'⟩)
    ⟨[], fun n => n, rfl, hm, by rw [List.map_nil, withEdges_nil]; exact Folds.refl _,
      fun n hn => absurd rfl hn⟩
  refine hloop.imp fun m ⟨done, ρ, hdone, ht⟩ => ⟨ρ, ?_⟩
  rw [← hdone, List.append_nil]
  exact ht

end Transfer

/-- A merger one level above those that it contains ends if they do. -/
theorem advance_unites {limit : Nat} {further : NodeId → NodeId → Merging → Course Merging}
    (hfurther : Unites form level limit further) :
    Unites form level (limit + 1) (advance o further) := by
  intro rep src dest m hm hl hsrc hdest hform hlimit
  refine (hm.resolve src).bind fun src' hsrc' => (hm.resolve dest).bind fun dest' hdest' => ?_
  subst hsrc' hdest'
  generalize rep src = src, rep dest = dest at *
  split
  · rename_i heq
    exact Course.yields_pure ⟨fun n => n, hm, Folds.refl _, heq, fun n hn => absurd rfl hn⟩
  rename_i hne
  obtain ⟨srcNode, hsrcNode⟩ : ∃ x, m.graph.node? src = some x :=
    Option.ne_none_iff_exists'.1 fun hnone => node?_eq_none_iff.1 hnone hsrc
  obtain ⟨destNode, hdestNode⟩ : ∃ x, m.graph.node? dest = some x :=
    Option.ne_none_iff_exists'.1 fun hnone => node?_eq_none_iff.1 hnone hdest
  rw [hsrcNode, hdestNode]
  dsimp only
  have hm₀ := hm.joinTypes (o := o) srcNode destNode dest
  have hfolds₀ : Folds form m.graph (m.joinTypes o srcNode destNode dest).graph fun n => n :=
    Folds.retype m.graph dest _
  generalize m.joinTypes o srcNode destNode dest = m₀ at hm₀ hfolds₀
  have hl₀ : Layered form level m₀.graph := hl.mirror hm₀.wellFormed (fun n hn => hfolds₀.mem hn)
    (hfolds₀.mirrors hm.wellFormed.source_mem hm.wellFormed.target_mem)
  have hsrc₀ := hfolds₀.survives src hsrc
  have hdest₀ := hfolds₀.survives dest hdest
  -- what arrived at the one node arrives at the other one
  refine Course.Yields.bind (hm₀.arrive form hdest₀ fun e he =>
    hm₀.wellFormed.source_mem e (mem_inEdges.1 (List.mem_of_mem_filter he)).1)
    fun m₁ harrived => ?_
  obtain ⟨hm₁, hnodes, -, hfolds₁⟩ := harrived
  have hids : m₁.graph.nodeIds = m₀.graph.nodeIds := by rw [nodeIds, hnodes, nodeIds]
  have hl₁ : Layered form level m₁.graph :=
    hl₀.arrived hm₀.wellFormed hm₁.wellFormed hdest₀ hform (fun n hn => hids ▸ hn) hfolds₁
  -- what left the one node leaves the other one, or its target is merged
  refine Course.Yields.bind (transfer_yields hm₁ hl₁ (hids ▸ hdest₀) hne hform
    (Nat.lt_succ_iff.1 hlimit) hfurther fun e he => List.mem_of_mem_filter he)
    fun m₂ htransferred => ?_
  obtain ⟨ρ, ht⟩ := htransferred
  obtain ⟨hstanding, hfolds⟩ := ht.retire (hids ▸ hsrc₀) (hids ▸ hdest₀) hne hform
  refine Course.yields_pure ⟨ρ ∘ supplanting src dest, hstanding, ?_, ?_, fun n hn => ?_⟩
  · exact hfolds₀.trans ((hl₀.supplant hsrc₀ hdest₀ hne hform hnodes hfolds₁).trans hfolds)
  · rw [Function.comp_apply, supplanting_self, eq_of_low ht.low hform]
  · by_cases hsame : n = src
    · exact ⟨hsame ▸ hsrc, .inl hsame⟩
    · rw [Function.comp_apply, supplanting_of_ne hsame] at hn
      obtain ⟨hmem, hlt⟩ := ht.low n hn
      exact ⟨hfolds₀.mem (hids ▸ hmem), .inr hlt⟩

/-- Mergers of nodes of one form end, if they may go as deep as the level of that form is high. -/
theorem merge_unites (o : Ontology) (form : NodeId → κ) (level : κ → Nat) (depth : Nat) :
    Unites form level depth (merge o depth) := by
  induction depth with
  | zero => exact fun _ _ _ _ _ _ _ _ _ hlimit => absurd hlimit (Nat.not_lt_zero _)
  | succ depth ih => exact advance_unites ih

end Merging

end ObjectFlow.Semantic
