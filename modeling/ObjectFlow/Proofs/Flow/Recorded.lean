import ObjectFlow.Proofs.Flow.Framed
import ObjectFlow.Proofs.Flow.Page
import ObjectFlow.Proofs.Graph.Path

/-!
# Recorded graphs

The calls of a recorded graph stand in the order in which they began, and every edge leads to a
later call or to the output marker, where each object has one edge. A page knows these edges by
their objects (`Page.Sound`). Whatever is recorded keeps this up (`Page.Follows`).

## Outline

`Recorded` is what a graph keeps at any time. Its fields are of two kinds. Some are what is to be
proved of recorded graphs: the frame, the order, that an object is left once. The others are what is
needed to prove these again after the next step: that every edge has an object, and which edges have
a pin at their source. `Sound` adds that the table of producers and the edges to the output marker
tell the same.

`Follows` says what one step may do to a page, seen from outside: markers stay, and new nodes and
edges take their identities from the supply. It is transitive, so it is proved of each step and then
holds of an event. Beside it each step tells what it does to the bodies and to the calls that are
pending, which is all that a tape has to know of its pages.
-/

namespace ObjectFlow

namespace Flow

/-- What the graph of every scope is like, at any time while events are recorded. -/
structure Recorded (f : Flow) : Prop extends Framed f where
  ordered : f.graph.nodeIds.Pairwise fun a b => a.value < b.value
  ascending : ∀ e ∈ f.graph.edges, e.target = f.output ∨ e.source.value < e.target.value
  identified : ∀ e ∈ f.graph.edges, ∃ o, e.data.object.id = some o
  unpinned : ∀ e ∈ f.graph.edges, e.source = f.input → e.data.sourcePin = none
  pinned : ∀ e ∈ f.graph.edges, e.target = f.output → ∃ pin, e.data.sourcePin = some pin
  last : ∀ e ∈ f.graph.edges, ∀ e' ∈ f.graph.edges, e.target = f.output → e'.target = f.output →
    e.data.object.id = e'.data.object.id → e = e'
  agreed : ∀ e ∈ f.graph.edges, ∀ e' ∈ f.graph.edges, e.target = e'.target →
    e.data.object.id = e'.data.object.id → e.source = e'.source

/-- A call that has begun and has produced nothing yet. -/
def Pending (f : Flow) (n : NodeId) : Prop :=
  n ∈ Table.keys f.calls ∧ ∀ e ∈ f.graph.edges, e.source ≠ n

/-- A recorded graph has no cycle: only the output marker comes before its sources. -/
theorem Recorded.acyclic {f : Flow} {s : Supply} (h : f.Recorded) (hb : f.graph.Before s) :
    f.graph.Acyclic := by
  refine Graph.acyclic_of_rank (fun n => if n = f.output then s.next else n.value) fun e he => ?_
  have hs := h.source_ne_output e he
  have hlt := hb.node_lt _ (h.wellFormed.source_mem e he)
  rcases h.ascending e he with ht | ht
  · simpa [hs, ht] using hlt
  · by_cases hto : e.target = f.output
    · simpa [hs, hto] using hlt
    · simpa [hs, hto] using ht

/-- A call with a new identity may be attached. -/
theorem Recorded.attachNode {f : Flow} (h : f.Recorded) {id : NodeId}
    (hid : ∀ n ∈ f.graph.nodeIds, n.value < id.value) (c : Call) :
    ({ f with graph := f.graph.attachNode id (.call c) } : Flow).Recorded := by
  have hnew : id ∉ f.graph.nodeIds := fun hm => Nat.lt_irrefl _ (hid id hm)
  refine ⟨h.toFramed.attachNode hnew c, ?_, h.ascending, h.identified, h.unpinned, h.pinned,
    h.last, h.agreed⟩
  rw [Graph.nodeIds_attachNode, List.pairwise_append]
  refine ⟨h.ordered, List.pairwise_singleton _ _, fun a ha b hb => ?_⟩
  obtain rfl := List.mem_singleton.1 hb
  exact hid a ha

/-- Edges may be removed. -/
theorem Recorded.filterEdges {f : Flow} (h : f.Recorded) (p : Edge Link → Bool) :
    ({ f with graph := { f.graph with edges := f.graph.edges.filter p } } : Flow).Recorded := by
  have hsub : ∀ e ∈ f.graph.edges.filter p, e ∈ f.graph.edges := fun e => List.mem_of_mem_filter
  exact ⟨h.toFramed.filterEdges p, h.ordered, fun e he => h.ascending e (hsub e he),
    fun e he => h.identified e (hsub e he), fun e he => h.unpinned e (hsub e he),
    fun e he => h.pinned e (hsub e he),
    fun e he e' he' => h.last e (hsub e he) e' (hsub e' he'),
    fun e he e' he' => h.agreed e (hsub e he) e' (hsub e' he')⟩

/-- Calls may change. -/
theorem Recorded.adjustCall {f : Flow} (h : f.Recorded) (id : NodeId) (g : Call → Call) :
    (f.adjustCall id g).Recorded :=
  ⟨h.toFramed.adjustCall id g, (Graph.nodeIds_adjustNode f.graph id _).symm ▸ h.ordered,
    h.ascending, h.identified, h.unpinned, h.pinned, h.last, h.agreed⟩

/-- Calls may be removed. -/
theorem Recorded.removeNode {f : Flow} (h : f.Recorded) {id : NodeId}
    (hid : id ∈ Table.keys f.calls) :
    ({ f with graph := f.graph.removeNode id } : Flow).Recorded := by
  have hsub : ∀ e ∈ (f.graph.removeNode id).edges, e ∈ f.graph.edges := fun e he =>
    ((Graph.mem_edges_removeNode h.wellFormed).1 he).1
  refine ⟨h.toFramed.removeNode hid, ?_, fun e he => h.ascending e (hsub e he),
    fun e he => h.identified e (hsub e he), fun e he => h.unpinned e (hsub e he),
    fun e he => h.pinned e (hsub e he),
    fun e he e' he' => h.last e (hsub e he) e' (hsub e' he'),
    fun e he e' he' => h.agreed e (hsub e he) e' (hsub e' he')⟩
  rw [Graph.nodeIds_removeNode]
  exact h.ordered.filter _

/-- New edges that lead to a later call which has none yet. -/
theorem Recorded.withEdges {f : Flow} (h : f.Recorded) {es : List (Edge Link)}
    (hd : (es.map Edge.id).Nodup) (hnew : ∀ e ∈ es, e.id ∉ f.graph.edges.map Edge.id)
    (hs : ∀ e ∈ es, e.source = f.input ∧ e.data.sourcePin = none ∨
      e.source ∈ Table.keys f.calls)
    (ht : ∀ e ∈ es, e.target ∈ Table.keys f.calls)
    (ha : ∀ e ∈ es, e.source.value < e.target.value)
    (ho : ∀ e ∈ es, ∃ o, e.data.object.id = some o)
    (hfree : ∀ e ∈ es, ∀ e' ∈ f.graph.edges, e'.target ≠ e.target)
    (hg : ∀ e ∈ es, ∀ e' ∈ es, e.target = e'.target → e.data.object.id = e'.data.object.id →
      e.source = e'.source) :
    ({ f with graph := f.graph.withEdges es } : Flow).Recorded := by
  have hto : ∀ e ∈ es, e.target ≠ f.output := fun e he heq => h.output_not_mem (heq ▸ ht e he)
  have hsi : ∀ e ∈ es, e.source = f.input → e.data.sourcePin = none := fun e he heq =>
    (hs e he).elim And.right fun hs => absurd (heq ▸ hs) h.input_not_mem
  have hold : ∀ e ∈ (f.graph.withEdges es).edges, e.target = f.output → e ∈ f.graph.edges := by
    intro e he heq
    rcases List.mem_append.1 he with he | he
    · exact he
    · exact absurd heq (hto e he)
  refine ⟨h.toFramed.withEdges hd hnew (fun e he => (hs e he).imp_left And.left)
    (fun e he => .inr (ht e he)) (fun e he hx => hto e he hx.2), h.ordered,
    Graph.forall_mem_withEdges.2 ⟨h.ascending, fun e he => .inr (ha e he)⟩,
    Graph.forall_mem_withEdges.2 ⟨h.identified, ho⟩, Graph.forall_mem_withEdges.2 ⟨h.unpinned, hsi⟩,
    Graph.forall_mem_withEdges.2 ⟨h.pinned, fun e he heq => absurd heq (hto e he)⟩, ?_, ?_⟩
  · intro e he e' he' hte hte'
    exact h.last e (hold e he hte) e' (hold e' he' hte') hte hte'
  · intro e he e' he' ht heq
    rcases List.mem_append.1 he with he | he <;> rcases List.mem_append.1 he' with he' | he'
    · exact h.agreed e he e' he' ht heq
    · exact absurd ht (hfree e' he' e he)
    · exact absurd ht.symm (hfree e he e' he')
    · exact hg e he e' he' ht heq

/-- One more edge to the output marker, for an object that has none. -/
theorem Recorded.withExit {f : Flow} (h : f.Recorded) {e : Edge Link} {o : ObjectId} {pin : String}
    (hnew : e.id ∉ f.graph.edges.map Edge.id) (hs : e.source ∈ Table.keys f.calls)
    (ht : e.target = f.output) (ho : e.data.object.id = some o) (hp : e.data.sourcePin = some pin)
    (hfree : ∀ e' ∈ f.graph.edges, e'.target = f.output → e'.data.object.id ≠ some o) :
    ({ f with graph := f.graph.withEdges [e] } : Flow).Recorded := by
  have hsi : e.source ≠ f.input := fun heq => h.input_not_mem (heq ▸ hs)
  have hone : ∀ p : Edge Link → Prop, p e → ∀ e' ∈ [e], p e' := fun _ => List.forall_mem_singleton.2
  have hall : ∀ p : Edge Link → Prop, (∀ e' ∈ f.graph.edges, p e') → p e →
      ∀ e' ∈ (f.graph.withEdges [e]).edges, p e' :=
    fun p hp he => Graph.forall_mem_withEdges.2 ⟨hp, hone p he⟩
  refine ⟨h.toFramed.withEdges (List.nodup_singleton _) (hone _ hnew) (hone _ (.inr hs))
    (hone _ (.inl ht)) (hone _ fun hx => hsi hx.1), h.ordered, hall _ h.ascending (.inl ht),
    hall _ h.identified ⟨o, ho⟩, hall _ h.unpinned fun heq => absurd heq hsi,
    hall _ h.pinned fun _ => ⟨pin, hp⟩, ?_, ?_⟩
  · intro e₁ he₁ e₂ he₂ ht₁ ht₂ heq
    rcases List.mem_append.1 he₁ with hm₁ | hm₁ <;> rcases List.mem_append.1 he₂ with hm₂ | hm₂
    · exact h.last e₁ hm₁ e₂ hm₂ ht₁ ht₂ heq
    · rw [List.mem_singleton.1 hm₂, ho] at heq
      exact absurd heq (hfree e₁ hm₁ ht₁)
    · rw [List.mem_singleton.1 hm₁, ho] at heq
      exact absurd heq.symm (hfree e₂ hm₂ ht₂)
    · exact (List.mem_singleton.1 hm₁).trans (List.mem_singleton.1 hm₂).symm
  · intro e₁ he₁ e₂ he₂ hte heq
    rcases List.mem_append.1 he₁ with hm₁ | hm₁ <;> rcases List.mem_append.1 he₂ with hm₂ | hm₂
    · exact h.agreed e₁ hm₁ e₂ hm₂ hte heq
    · obtain rfl := List.mem_singleton.1 hm₂
      exact absurd (heq.trans ho) (hfree e₁ hm₁ (hte.trans ht))
    · obtain rfl := List.mem_singleton.1 hm₁
      exact absurd (heq.symm.trans ho) (hfree e₂ hm₂ (hte.symm.trans ht))
    · rw [List.mem_singleton.1 hm₁, List.mem_singleton.1 hm₂]

/-- Two markers are a recorded graph. -/
theorem recorded_empty (s : Supply) : (Flow.empty s).1.Recorded := by
  refine ⟨framed_empty s, ?_, ?_, ?_, ?_, ?_, ?_, ?_⟩ <;>
    simp [Flow.empty, Graph.attachNode, Graph.nodeIds, Supply.node]

theorem before_empty (s : Supply) : (Flow.empty s).1.graph.Before (Flow.empty s).2 := by
  constructor
  · intro n hn
    have hn : n ∈ [(⟨s.next⟩ : NodeId), ⟨s.next + 1⟩] := hn
    rcases List.mem_cons.1 hn with rfl | hn
    · exact Nat.lt_add_of_pos_right Nat.two_pos
    · rw [List.mem_singleton.1 hn]
      exact Nat.lt_succ_self _
  · intro e he
    cases he

theorem next_le_of_mem_empty (s : Supply) :
    ∀ n ∈ (Flow.empty s).1.graph.nodeIds, s.next ≤ n.value := by
  simp [Flow.empty, Graph.attachNode, Graph.nodeIds, Supply.node]

/-! ## Bodies

The bodies of a graph are listed by its calls, so they change with these. -/

/-- A call is listed with its body. -/
theorem mem_bodies {f : Flow} {n : NodeId} {h : Handle} :
    (n, h) ∈ Recording.bodies f ↔ ∃ c, (n, c) ∈ f.calls ∧ c.body = some h := by
  simp only [Recording.bodies, List.mem_filterMap, Option.map_eq_some_iff, Prod.exists,
    Prod.mk.injEq]
  constructor
  · rintro ⟨m, c, hc, h', hb, rfl, rfl⟩
    exact ⟨c, hc, hb⟩
  · rintro ⟨c, hc, hb⟩
    exact ⟨n, c, hc, h, hb, rfl, rfl⟩

theorem bodies_attachNode (f : Flow) (id : NodeId) (c : Call) :
    Recording.bodies ({ f with graph := f.graph.attachNode id (.call c) } : Flow) =
      Recording.bodies f ++ (c.body.map fun h => (id, h)).toList := by
  rw [Recording.bodies, calls_attachNode, List.filterMap_append, Recording.bodies]
  cases hc : c.body <;> simp [hc]

/-- Changing calls in other respects leaves the bodies. -/
theorem Framed.bodies_adjustCall {f : Flow} (h : f.Framed) (id : NodeId) {g : Call → Call}
    (hg : ∀ c, (g c).body = c.body) :
    Recording.bodies (f.adjustCall id g) = Recording.bodies f := by
  rw [Recording.bodies, h.calls_adjustCall, Recording.bodies]
  induction f.calls with
  | nil => rfl
  | cons c cs ih =>
    rw [Table.adjust]
    split
    · simp [List.filterMap_cons, hg]
    · rw [List.filterMap_cons, List.filterMap_cons, ih]

theorem Framed.mem_bodies_removeNode {f : Flow} (h : f.Framed) {id : NodeId}
    (hid : id ∈ Table.keys f.calls) {b : NodeId × Handle}
    (hb : b ∈ Recording.bodies ({ f with graph := f.graph.removeNode id } : Flow)) :
    b ∈ Recording.bodies f := by
  obtain ⟨c, hc, hbody⟩ := mem_bodies.1 hb
  rw [h.calls_removeNode hid] at hc
  exact mem_bodies.2 ⟨c, List.mem_of_mem_filter hc, hbody⟩

end Flow

namespace Page

/-- The page knows the edges to the output marker by their objects. -/
structure Sound (p : Page) : Prop where
  recorded : p.flow.Recorded
  producers_iff : ∀ o q, Table.at? p.producers o = some q ↔
    ∃ e ∈ p.flow.graph.edges, e.id = q.edge ∧ e.source = q.node ∧ e.target = p.flow.output ∧
      e.data.object.id = some o ∧ e.data.sourcePin = some q.pin

/--
What becomes of a page when something is recorded on it: all that is new has new identities.
-/
structure Follows (p p' : Page) (s s' : Supply) : Prop where
  sound : p'.Sound
  before : p'.flow.graph.Before s'
  next_le : s.next ≤ s'.next
  input_eq : p'.flow.input = p.flow.input
  output_eq : p'.flow.output = p.flow.output
  node_new : ∀ n ∈ p'.flow.graph.nodeIds, n ∈ p.flow.graph.nodeIds ∨ s.next ≤ n.value
  edge_new : ∀ e ∈ p'.flow.graph.edges, e ∈ p.flow.graph.edges ∨ s.next ≤ e.id.value

/-- A page that follows one that follows follows. -/
theorem Follows.trans {p p' p'' : Page} {s s' s'' : Supply} (h : p.Follows p' s s')
    (h' : p'.Follows p'' s' s'') : p.Follows p'' s s'' := by
  refine ⟨h'.sound, h'.before, Nat.le_trans h.next_le h'.next_le, h'.input_eq.trans h.input_eq,
    h'.output_eq.trans h.output_eq, fun n hn => ?_, fun e he => ?_⟩
  · rcases h'.node_new n hn with hn | hn
    · exact h.node_new n hn
    · exact .inr (Nat.le_trans h.next_le hn)
  · rcases h'.edge_new e he with he | he
    · exact h.edge_new e he
    · exact .inr (Nat.le_trans h.next_le he)

/-- A producer is a call, and an edge leaves it. -/
theorem Sound.producer_call {p : Page} (h : p.Sound) {o : ObjectId} {q : Producer}
    (hq : Table.at? p.producers o = some q) :
    q.node ∈ Table.keys p.flow.calls ∧ ∃ e ∈ p.flow.graph.edges, e.source = q.node := by
  obtain ⟨e, he, -, hs, ht, -, hp⟩ := (h.producers_iff o q).1 hq
  rcases h.recorded.source_cases he with hin | hc
  · rw [h.recorded.unpinned e he hin] at hp
    cases hp
  · exact ⟨hs ▸ hc, e, he, hs⟩

/-- The producers are nodes of the graph. -/
theorem Sound.rooted {p : Page} (h : p.Sound) : p.Rooted :=
  ⟨h.recorded.input_mem, fun _ _ hq =>
    h.recorded.mem_of_call (h.producer_call hq).1⟩

/-- An object comes from outside, or from a call that has produced something. -/
theorem Sound.origin_cases {p : Page} (h : p.Sound) {c : Invocation} {a : Flow.Arrival}
    {source : NodeId} {pin : Option String} (ho : p.origin? c a = some (source, pin)) :
    source = p.flow.input ∧ pin = none ∨
      source ∈ Table.keys p.flow.calls ∧ ∃ e ∈ p.flow.graph.edges, e.source = source := by
  unfold origin? at ho
  split at ho
  · rename_i q hq
    cases ho
    exact .inr (h.producer_call hq)
  · split at ho
    · cases ho
    · cases ho
      exact .inl ⟨rfl, rfl⟩

/-! ## A call begins

The new call has the greatest identity, so all edges to it ascend. They come from calls that have
produced something already, hence not from a call that is still open. -/

/-- Where an object comes from does not depend on the argument that it is part of. -/
theorem origin_agrees {p : Page} {c : Invocation} {a a' : Flow.Arrival} {n n' : NodeId}
    {pin pin' : Option String} (heq : a.object = a'.object) (h : p.origin? c a = some (n, pin))
    (h' : p.origin? c a' = some (n', pin')) : n = n' := by
  unfold origin? at h h'
  rw [heq] at h
  cases hq : Table.at? p.producers a'.object with
  | some q =>
    rw [hq] at h h'
    cases h
    cases h'
    rfl
  | none =>
    simp only [hq, Option.ite_none_left_eq_some, Option.some.injEq, Prod.mk.injEq] at h h'
    exact h.2.1.symm.trans h'.2.1

section Enter

variable {p : Page} {s : Supply} (h : p.Sound)
include h

/-- An arriving object has an identity, and comes from outside or from another call. -/
theorem Sound.arrivalEdge_spec {c : Invocation} {n : NodeId} {as : List Flow.Arrival}
    (has : ∀ a ∈ as, a.reference.id = some a.object) {e : Edge Flow.Link}
    (he : e ∈ (p.arrivalEdges c n s as).1) :
    e.target = n ∧ s.next ≤ e.id.value ∧ (∃ o, e.data.object.id = some o) ∧
      (e.source = p.flow.input ∧ e.data.sourcePin = none ∨
        e.source ∈ Table.keys p.flow.calls) := by
  obtain ⟨hid, ht, a, ha, ho, hr, -⟩ := mem_arrivalEdges he
  exact ⟨ht, hid.1, ⟨a.object, hr ▸ has a ha⟩, (h.origin_cases ho).imp_right And.left⟩

/-- The page with a call that begins is sound, since the call has a node of its own. -/
theorem Sound.recorded_enter (hb : p.flow.graph.Before s) (c : Invocation) {e : Flow.Entrance}
    (body : Option Handle) (he : ∀ a ∈ e.arrivals, a.reference.id = some a.object) :
    (p.enter c e body s).1.flow.Recorded := by
  have hnode : ∀ n ∈ p.flow.graph.nodeIds, n.value < s.node.1.value := hb.node_lt
  have hb₁ : (p.flow.graph.attachNode s.node.1 (.call (opening c e body))).Before s.node.2 :=
    hb.attachNode _
  have hcalls := Flow.calls_attachNode p.flow s.node.1 (opening c e body)
  have hspec := fun e' (he' : e' ∈ (p.arrivalEdges c s.node.1 s.node.2 e.arrivals).1) =>
    h.arrivalEdge_spec he he'
  refine (h.recorded.attachNode hnode (opening c e body)).withEdges
    (p.nodup_arrivalEdges c s.node.1 s.node.2 e.arrivals) (fun e' he' hm => ?_)
    (fun e' he' => ?_) (fun e' he' => ?_) (fun e' he' => ?_)
    (fun e' he' => (hspec e' he').2.2.1) (fun e' he' e₀ he₀ heq => ?_)
    (fun e₁ he₁ e₂ he₂ _ heq => ?_)
  · obtain ⟨e₀, he₀, hid⟩ := List.mem_map.1 hm
    have hlt := hb₁.edge_lt e₀ he₀
    rw [hid] at hlt
    exact Nat.lt_irrefl _ (Nat.lt_of_lt_of_le hlt (hspec e' he').2.1)
  · rw [hcalls, Table.keys_append, List.mem_append]
    exact (hspec e' he').2.2.2.imp_right .inl
  · rw [hcalls, (hspec e' he').1]
    simp
  · rw [(hspec e' he').1]
    exact hnode _ (h.recorded.mem_nodeIds_iff.2 ((hspec e' he').2.2.2.imp And.left .inr))
  · have hlt := hnode _ (h.recorded.wellFormed.target_mem e₀ he₀)
    rw [heq, (hspec e' he').1] at hlt
    exact Nat.lt_irrefl _ hlt
  · obtain ⟨-, -, a₁, ha₁, ho₁, hr₁, -⟩ := mem_arrivalEdges he₁
    obtain ⟨-, -, a₂, ha₂, ho₂, hr₂, -⟩ := mem_arrivalEdges he₂
    rw [hr₁, hr₂, he a₁ ha₁, he a₂ ha₂] at heq
    exact origin_agrees (Option.some.inj heq) ho₁ ho₂

/-- A page with a call that begins follows. -/
theorem Sound.enter_follows (hb : p.flow.graph.Before s) (c : Invocation) {e : Flow.Entrance}
    (body : Option Handle) (he : ∀ a ∈ e.arrivals, a.reference.id = some a.object) :
    p.Follows (p.enter c e body s).1 s (p.enter c e body s).2 := by
  have hb₁ : (p.flow.graph.attachNode s.node.1 (.call (opening c e body))).Before s.node.2 :=
    hb.attachNode _
  have hle := p.next_le_arrivalEdges c s.node.1 s.node.2 e.arrivals
  refine ⟨⟨h.recorded_enter hb c body he, fun o q => ?_⟩,
    hb₁.withEdges hle fun e' he' => (mem_arrivalEdges he').1.2,
    Nat.le_trans (Nat.le_succ _) hle, rfl, rfl, fun n hn => ?_, fun e' he' => ?_⟩
  · refine (h.producers_iff o q).trans ⟨?_, ?_⟩
    · rintro ⟨e', he', hx⟩
      exact ⟨e', List.mem_append_left _ he', hx⟩
    · rintro ⟨e', he', hx⟩
      rcases List.mem_append.1 he' with he' | he'
      · exact ⟨e', he', hx⟩
      · -- an arriving object enters a call and not the output marker
        have hlt : p.flow.output.value < s.node.1.value := hb.node_lt _ h.recorded.output_mem
        have ht : e'.target = p.flow.output := hx.2.2.1
        rw [← ht, (h.arrivalEdge_spec he he').1] at hlt
        exact absurd hlt (Nat.lt_irrefl _)
  · have hn : n ∈ p.flow.graph.nodeIds ++ [s.node.1] :=
      Graph.nodeIds_attachNode p.flow.graph s.node.1 _ ▸ hn
    rcases List.mem_append.1 hn with hn | hn
    · exact .inl hn
    · exact .inr (List.mem_singleton.1 hn ▸ Nat.le_refl _)
  · rcases List.mem_append.1 he' with he' | he'
    · exact .inl he'
    · exact .inr (Nat.le_trans (Nat.le_succ _) (h.arrivalEdge_spec he he').2.1)

end Enter

/-- The call that begins comes behind the others. -/
theorem calls_enter (p : Page) (c : Invocation) (e : Flow.Entrance) (body : Option Handle)
    (s : Supply) :
    (p.enter c e body s).1.flow.calls = p.flow.calls ++ [(s.node.1, opening c e body)] :=
  Flow.calls_attachNode p.flow s.node.1 (opening c e body)

/-- The body of the call that begins comes behind the others. -/
theorem bodies_enter (p : Page) (c : Invocation) (e : Flow.Entrance) (body : Option Handle)
    (s : Supply) :
    Recording.bodies (p.enter c e body s).1.flow =
      Recording.bodies p.flow ++ (body.map fun h => (s.node.1, h)).toList :=
  Flow.bodies_attachNode p.flow s.node.1 (opening c e body)

/-- A call that begins has produced nothing. -/
theorem Sound.pending_enter {p : Page} {s : Supply} (h : p.Sound) (hb : p.flow.graph.Before s)
    (c : Invocation) (e : Flow.Entrance) (body : Option Handle) :
    (p.enter c e body s).1.flow.Pending s.node.1 := by
  have hnode : s.node.1 ∉ p.flow.graph.nodeIds := hb.next_not_mem_nodes
  refine ⟨by simp [calls_enter], fun e' he' hs => ?_⟩
  rcases List.mem_append.1 he' with he' | he'
  · exact hnode (hs ▸ h.recorded.wellFormed.source_mem e' he')
  · obtain ⟨-, -, a, -, ho, -⟩ := mem_arrivalEdges he'
    exact hnode (hs ▸ h.rooted.origin_mem ho)

/-- What is pending produces nothing when another call begins. -/
theorem Sound.pending_enter_of_pending {p : Page} (h : p.Sound) {n : NodeId}
    (hn : p.flow.Pending n) (c : Invocation) (e : Flow.Entrance) (body : Option Handle)
    (s : Supply) : (p.enter c e body s).1.flow.Pending n := by
  refine ⟨by simp [calls_enter, hn.1], fun e' he' hs => ?_⟩
  rcases List.mem_append.1 he' with he' | he'
  · exact hn.2 e' he' hs
  · obtain ⟨-, -, a, -, ho, -⟩ := mem_arrivalEdges he'
    rcases h.origin_cases ho with ⟨hin, -⟩ | ⟨-, e₀, he₀, hs₀⟩
    · exact h.recorded.input_not_mem (hin ▸ hs ▸ hn.1)
    · exact hn.2 e₀ he₀ (hs₀.trans hs)

/-! ## A call ends

Producing an object takes the former edge of the object away first. That there is one at most, and
the table has its identity, is in the invariant. -/

/-- A page stays sound when calls change. -/
theorem Sound.adjustCall {p : Page} (h : p.Sound) (n : NodeId) (f : Flow.Call → Flow.Call) :
    (p.adjustCall n f).Sound :=
  ⟨h.recorded.adjustCall n f, h.producers_iff⟩

theorem Sound.adjustCall_follows {p : Page} {s : Supply} (h : p.Sound)
    (hb : p.flow.graph.Before s) (n : NodeId) (f : Flow.Call → Flow.Call) :
    p.Follows (p.adjustCall n f) s s :=
  ⟨h.adjustCall n f, hb.adjustNode n _, Nat.le_refl _, rfl, rfl,
    fun _ hm => .inl (nodeIds_adjustCall p n f ▸ hm), fun _ he => .inl he⟩

/-- A call stays pending when calls change. -/
theorem Sound.pending_adjustCall {p : Page} (h : p.Sound) {m : NodeId} (hm : p.flow.Pending m)
    (n : NodeId) (f : Flow.Call → Flow.Call) : (p.adjustCall n f).flow.Pending m := by
  refine ⟨?_, hm.2⟩
  have hcalls : (p.adjustCall n f).flow.calls = Table.adjust f n p.flow.calls :=
    h.recorded.calls_adjustCall n f
  rw [hcalls, Table.keys_adjust]
  exact hm.1

/-- The edges to the output marker that do not carry an object stay when it is released. -/
theorem Sound.mem_released_iff {p : Page} (h : p.Sound) {o : ObjectId} {e : Edge Flow.Link} :
    e ∈ (p.released o).edges ↔
      e ∈ p.flow.graph.edges ∧ ¬ (e.target = p.flow.output ∧ e.data.object.id = some o) := by
  unfold released
  split
  · rename_i q hq
    obtain ⟨e₀, he₀, hid, -, ht, ho, -⟩ := (h.producers_iff o q).1 hq
    rw [Graph.mem_edges_removeEdge]
    refine and_congr_right fun he => not_congr ⟨fun heq => ?_, fun hx => ?_⟩
    · obtain rfl := h.recorded.wellFormed.edge_ext he he₀ (heq.trans hid.symm)
      exact ⟨ht, ho⟩
    · exact (h.recorded.last e he e₀ he₀ hx.1 ht (hx.2.trans ho.symm)) ▸ hid
  · rename_i hq
    refine ⟨fun he => ⟨he, fun hx => ?_⟩, And.left⟩
    obtain ⟨pin, hp⟩ := h.recorded.pinned e he hx.1
    have := (h.producers_iff o ⟨e.source, pin, e.id⟩).2 ⟨e, he, rfl, rfl, hx.1, hx.2, hp⟩
    rw [hq] at this
    cases this

/-- Without the former edge of an object the graph is recorded. -/
theorem recorded_released {p : Page} (h : p.Sound) (o : ObjectId) :
    ({ p.flow with graph := p.released o } : Flow).Recorded := by
  unfold released
  split
  · exact h.recorded.filterEdges _
  · exact h.recorded

/-- A page is sound when a call has become the producer of an object. -/
theorem Sound.claim {p : Page} {s : Supply} (h : p.Sound) (hb : p.flow.graph.Before s)
    {n : NodeId} (hn : n ∈ Table.keys p.flow.calls) {q : Flow.Production}
    (hq : q.reference.id = some q.object) : (p.claim n s.edge.1 q).Sound := by
  have hcalls : ({ p.flow with graph := p.released q.object } : Flow).calls = p.flow.calls := by
    unfold Flow.calls
    rw [nodes_released]
  have hnew : s.edge.1 ∉ (p.released q.object).edges.map Edge.id :=
    (before_released hb q.object).next_not_mem_edges
  refine ⟨(recorded_released h q.object).withExit hnew (hcalls ▸ hn) rfl hq rfl
    fun e he ht ho => (h.mem_released_iff.1 he).2 ⟨ht, ho⟩, fun o r => ?_⟩
  show Table.at? (Table.put p.producers q.object ⟨n, q.pin, s.edge.1⟩) o = some r ↔ _
  rw [Table.at?_put]
  -- The object has its new edge only, and all others have what they had.
  by_cases ho : o = q.object
  · subst ho
    rw [if_pos rfl]
    constructor
    · rintro heq
      cases heq
      exact ⟨_, List.mem_append_right _ (List.mem_singleton_self _), rfl, rfl, rfl, hq, rfl⟩
    · rintro ⟨e, he, hid, hs, ht, hobj, hp⟩
      rcases List.mem_append.1 he with he | he
      · exact absurd ⟨ht, hobj⟩ (h.mem_released_iff.1 he).2
      · obtain rfl := List.mem_singleton.1 he
        obtain ⟨node, pin, edge⟩ := r
        cases hid
        cases hs
        cases hp
        rfl
  · rw [if_neg ho, h.producers_iff]
    constructor
    · rintro ⟨e, he, hid, hs, ht, hobj, hp⟩
      refine ⟨e, List.mem_append_left _ (h.mem_released_iff.2 ⟨he, fun hx => ?_⟩), hid, hs, ht,
        hobj, hp⟩
      exact ho (Option.some.inj (hobj.symm.trans hx.2))
    · rintro ⟨e, he, hid, hs, ht, hobj, hp⟩
      rcases List.mem_append.1 he with he | he
      · exact ⟨e, (h.mem_released_iff.1 he).1, hid, hs, ht, hobj, hp⟩
      · obtain rfl := List.mem_singleton.1 he
        exact absurd (Option.some.inj (hobj.symm.trans hq)) ho

theorem calls_claim (p : Page) (n : NodeId) (edge : EdgeId) (q : Flow.Production) :
    (p.claim n edge q).flow.calls = p.flow.calls := by
  show List.filterMap _ (p.released q.object).nodes = _
  rw [nodes_released]
  rfl

/-- A page with an object that came out follows. -/
theorem Sound.produce_follows {p : Page} {s : Supply} (h : p.Sound) (hb : p.flow.graph.Before s)
    {n : NodeId} (hn : n ∈ Table.keys p.flow.calls) {q : Flow.Production}
    (hq : q.reference.id = some q.object) :
    p.Follows (p.produce n s.edge.1 q) s s.edge.2 := by
  refine ⟨(h.claim hb hn hq).adjustCall n _, before_produce hb n q, Nat.le_succ _, rfl, rfl,
    fun m hm => .inl (nodeIds_produce p n s.edge.1 q ▸ hm), fun e he => ?_⟩
  rcases List.mem_append.1 he with he | he
  · exact .inl (h.mem_released_iff.1 he).1
  · exact .inr (List.mem_singleton.1 he ▸ Nat.le_refl _)

/-- An object that comes out changes the slots that its call notes. -/
theorem Sound.calls_produce {p : Page} {s : Supply} (h : p.Sound) (hb : p.flow.graph.Before s)
    {n : NodeId} (hn : n ∈ Table.keys p.flow.calls) {q : Flow.Production}
    (hq : q.reference.id = some q.object) :
    (p.produce n s.edge.1 q).flow.calls = Table.adjust (noteSlots q) n p.flow.calls := by
  rw [← p.calls_claim n s.edge.1 q]
  exact (h.claim hb hn hq).recorded.calls_adjustCall n _

theorem noteSlots_body (q : Flow.Production) (c : Flow.Call) : (noteSlots q c).body = c.body := by
  unfold noteSlots
  split <;> rfl

theorem Sound.mem_keys_produce {p : Page} {s : Supply} (h : p.Sound)
    (hb : p.flow.graph.Before s) {n : NodeId} (hn : n ∈ Table.keys p.flow.calls)
    {q : Flow.Production} (hq : q.reference.id = some q.object) (m : NodeId) :
    m ∈ Table.keys (p.produce n s.edge.1 q).flow.calls ↔ m ∈ Table.keys p.flow.calls := by
  rw [h.calls_produce hb hn hq, Table.keys_adjust]

/-- What comes out of a call leaves all others pending. -/
theorem Sound.pending_produce {p : Page} {s : Supply} (h : p.Sound) (hb : p.flow.graph.Before s)
    {n m : NodeId} (hn : n ∈ Table.keys p.flow.calls) {q : Flow.Production}
    (hq : q.reference.id = some q.object) (hm : p.flow.Pending m) (hne : m ≠ n) :
    (p.produce n s.edge.1 q).flow.Pending m := by
  refine ⟨(h.mem_keys_produce hb hn hq m).2 hm.1, fun e he => ?_⟩
  rcases List.mem_append.1 he with he | he
  · exact hm.2 e (h.mem_released_iff.1 he).1
  · obtain rfl := List.mem_singleton.1 he
    exact Ne.symm hne

/-- What comes out of a call leaves the bodies. -/
theorem Sound.bodies_produce {p : Page} {s : Supply} (h : p.Sound) (hb : p.flow.graph.Before s)
    {n : NodeId} (hn : n ∈ Table.keys p.flow.calls) {q : Flow.Production}
    (hq : q.reference.id = some q.object) :
    Recording.bodies (p.produce n s.edge.1 q).flow = Recording.bodies p.flow := by
  have hclaim : Recording.bodies (p.claim n s.edge.1 q).flow = Recording.bodies p.flow := by
    rw [Recording.bodies, calls_claim, Recording.bodies]
  exact ((h.claim hb hn hq).recorded.bodies_adjustCall n (noteSlots_body q)).trans hclaim

/-- What the productions of one call do to a page, with its bodies and its other pending calls. -/
theorem Sound.produceAll_follows {p : Page} {s : Supply} (h : p.Sound)
    (hb : p.flow.graph.Before s) {n : NodeId} (hn : n ∈ Table.keys p.flow.calls)
    {qs : List Flow.Production} (hq : ∀ q ∈ qs, q.reference.id = some q.object) :
    p.Follows (p.produceAll n s qs).1 s (p.produceAll n s qs).2 ∧
      Recording.bodies (p.produceAll n s qs).1.flow = Recording.bodies p.flow ∧
      ∀ m, p.flow.Pending m → m ≠ n → (p.produceAll n s qs).1.flow.Pending m := by
  induction qs generalizing p s with
  | nil =>
    exact ⟨⟨h, hb, Nat.le_refl _, rfl, rfl, fun _ hm => .inl hm, fun _ he => .inl he⟩, rfl,
      fun _ hm _ => hm⟩
  | cons q qs ih =>
    have hq₁ := hq q List.mem_cons_self
    have hstep := h.produce_follows hb hn hq₁
    obtain ⟨hall, hbodies, hpend⟩ := ih hstep.sound hstep.before
      ((h.mem_keys_produce hb hn hq₁ n).2 hn) fun q hm => hq q (List.mem_cons_of_mem _ hm)
    exact ⟨hstep.trans hall, hbodies.trans (h.bodies_produce hb hn hq₁),
      fun m hm hne => hpend m (h.pending_produce hb hn hq₁ hm hne) hne⟩

/-- A page with a call that has ended follows, has the same bodies and leaves other calls pending.
-/
theorem Sound.finish_follows {p : Page} {s : Supply} (h : p.Sound) (hb : p.flow.graph.Before s)
    {n : NodeId} (hn : n ∈ Table.keys p.flow.calls) {d : Flow.Departure}
    (hd : ∀ q ∈ d.productions, q.reference.id = some q.object) :
    p.Follows (p.finish n s d).1 s (p.finish n s d).2 ∧
      Recording.bodies (p.finish n s d).1.flow = Recording.bodies p.flow ∧
      ∀ m, p.flow.Pending m → m ≠ n → (p.finish n s d).1.flow.Pending m := by
  have hpins := h.adjustCall_follows hb n fun c => { c with pins := Table.putAll c.pins d.pins }
  have hn' : n ∈ Table.keys (p.adjustCall n fun c =>
      { c with pins := Table.putAll c.pins d.pins }).flow.calls := by
    have hcalls := h.recorded.calls_adjustCall n fun c =>
      { c with pins := Table.putAll c.pins d.pins }
    exact (congrArg (n ∈ Table.keys ·) hcalls).mpr (by rwa [Table.keys_adjust])
  obtain ⟨hall, hbodies, hpend⟩ := hpins.sound.produceAll_follows hpins.before hn' hd
  refine ⟨hpins.trans hall, hbodies.trans ?_, fun m hm hne =>
    hpend m (h.pending_adjustCall hm n _) hne⟩
  exact h.recorded.bodies_adjustCall n fun _ => rfl

/-! ## A call is taken back

Only calls without edges from them are taken back. Other edges at the call lead into it, and they
belong to no producer. -/

/-- A pending call is no producer, so that the page need not forget anything with it. -/
theorem Sound.drop_follows {p : Page} {s : Supply} (h : p.Sound) (hb : p.flow.graph.Before s)
    {n : NodeId} (hn : p.flow.Pending n) :
    p.Follows (p.withGraph (p.flow.graph.removeNode n)) s s := by
  have hmem : ∀ e, e ∈ (p.flow.graph.removeNode n).edges ↔
      e ∈ p.flow.graph.edges ∧ e.source ≠ n ∧ e.target ≠ n := fun e =>
    Graph.mem_edges_removeNode h.recorded.wellFormed
  refine ⟨⟨h.recorded.removeNode hn.1, fun o q => (h.producers_iff o q).trans ⟨?_, ?_⟩⟩,
    hb.removeNode n, Nat.le_refl _, rfl, rfl, fun m hm => .inl ?_,
    fun e he => .inl ((hmem e).1 he).1⟩
  · rintro ⟨e, he, hid, hs, ht, hx⟩
    refine ⟨e, (hmem e).2 ⟨he, hn.2 e he, fun htn => ?_⟩, hid, hs, ht, hx⟩
    exact h.recorded.output_not_mem (ht ▸ htn ▸ hn.1)
  · rintro ⟨e, he, hx⟩
    exact ⟨e, ((hmem e).1 he).1, hx⟩
  · have hm : m ∈ p.flow.graph.nodeIds.filter (· ≠ n) :=
      Graph.nodeIds_removeNode p.flow.graph n ▸ hm
    exact List.mem_of_mem_filter hm

/-- A call that is taken back leaves the others pending. -/
theorem Sound.pending_drop {p : Page} (h : p.Sound) {n m : NodeId} (hn : p.flow.Pending n)
    (hm : p.flow.Pending m) (hne : m ≠ n) :
    (p.withGraph (p.flow.graph.removeNode n)).flow.Pending m := by
  refine ⟨?_, fun e he => hm.2 e ((Graph.mem_edges_removeNode h.recorded.wellFormed).1 he).1⟩
  have hcalls := h.recorded.calls_removeNode hn.1
  refine (congrArg (m ∈ Table.keys ·) hcalls).mpr ?_
  rw [Table.keys_without, List.mem_filter]
  exact ⟨hm.1, by simpa using hne⟩

end Page

end ObjectFlow
