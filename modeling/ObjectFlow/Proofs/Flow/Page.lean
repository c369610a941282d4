import ObjectFlow.Flow.Tape
import ObjectFlow.Proofs.Graph.WellFormed
import ObjectFlow.Proofs.Outcome

/-!
# Pages of a tape

A page is the graph of a scope together with what the scope knows about producers. Everything that
is recorded goes on the page of the innermost scope, and what is written there is a function of the
page, the supply and the event alone (`enter_eq_ok`, `leave_eq_ok`, `drop_eq_ok`).

## Outline

The recorder changes a tape step by step: it looks up the graph of the innermost scope, changes it,
stores it, changes the producers, and may fail at each lookup. To prove something about an event
this way one would have to go through all of the tape at every step. Here a step is shown to be, on
any tape that has a page, one write of a new page (`Tape.write`). Writes after each other are one
write (`write_write`), so an event is one write too, of a page that is given by plain functions
(`Page.enter`, `Page.finish`) which cannot fail. All invariants are then proved of pages, and lifted
to tapes once.

That no step fails takes little: the producers are nodes of the graph (`Page.Rooted`), identities in
the graph are older than the supply, and the call that ends is there.
-/

namespace ObjectFlow

structure Page where
  flow : Flow
  producers : Table ObjectId Producer := []

namespace Page

/-- The page with another graph. -/
def withGraph (p : Page) (g : Graph Flow.Node Flow.Link) : Page :=
  { p with flow := { p.flow with graph := g } }

/-- The node and pin that an arriving object comes from; a newborn receiver comes from nowhere. -/
def origin? (p : Page) (c : Invocation) (a : Flow.Arrival) : Option (NodeId × Option String) :=
  match Table.at? p.producers a.object with
  | some q => some (q.node, some q.pin)
  | none => if Tape.isNewborn c a.argument then none else some (p.flow.input, none)

/-- The edges by which objects arrive at a node. -/
def arrivalEdges (p : Page) (c : Invocation) (node : NodeId) :
    Supply → List Flow.Arrival → List (Edge Flow.Link) × Supply
  | s, [] => ([], s)
  | s, a :: rest =>
    match p.origin? c a with
    | none => arrivalEdges p c node s rest
    | some (source, pin) =>
      let (id, s) := s.edge
      let (es, s) := arrivalEdges p c node s rest
      (⟨id, source, node, ⟨a.reference, pin, some a.argument⟩⟩ :: es, s)

/-- Arrivals are drawn one after the other. -/
theorem arrivalEdges_cons (p : Page) (c : Invocation) (node : NodeId) (s : Supply)
    (a : Flow.Arrival) (as : List Flow.Arrival) :
    p.arrivalEdges c node s (a :: as) =
      ((p.arrivalEdges c node s [a]).1 ++
          (p.arrivalEdges c node (p.arrivalEdges c node s [a]).2 as).1,
        (p.arrivalEdges c node (p.arrivalEdges c node s [a]).2 as).2) := by
  simp only [arrivalEdges]
  cases p.origin? c a <;> rfl

/-- Where an object comes from does not depend on the graph. -/
theorem arrivalEdges_withGraph (p : Page) (g : Graph Flow.Node Flow.Link) (c : Invocation)
    (node : NodeId) (s : Supply) (as : List Flow.Arrival) :
    (p.withGraph g).arrivalEdges c node s as = p.arrivalEdges c node s as := by
  induction as generalizing s with
  | nil => rfl
  | cons a as ih =>
    simp only [arrivalEdges, ih]
    rfl

/-- New edges take identities from the supply. -/
theorem next_le_arrivalEdges (p : Page) (c : Invocation) (node : NodeId) (s : Supply)
    (as : List Flow.Arrival) : s.next ≤ (p.arrivalEdges c node s as).2.next := by
  induction as generalizing s with
  | nil => exact Nat.le_refl _
  | cons a as ih =>
    simp only [arrivalEdges]
    cases p.origin? c a with
    | none => exact ih s
    | some o => exact Nat.le_trans (Nat.le_succ _) (ih _)

/-- Every new edge leads an object from its origin to the node. -/
theorem mem_arrivalEdges {p : Page} {c : Invocation} {node : NodeId} {s : Supply}
    {as : List Flow.Arrival} {e : Edge Flow.Link} (he : e ∈ (p.arrivalEdges c node s as).1) :
    (s.next ≤ e.id.value ∧ e.id.value < (p.arrivalEdges c node s as).2.next) ∧ e.target = node ∧
      ∃ a ∈ as, p.origin? c a = some (e.source, e.data.sourcePin) ∧
        e.data.object = a.reference ∧ e.data.targetPin = some a.argument := by
  induction as generalizing s with
  | nil => simp [arrivalEdges] at he
  | cons a as ih =>
    simp only [arrivalEdges] at he ⊢
    cases ho : p.origin? c a with
    | none =>
      rw [ho] at he
      obtain ⟨hid, ht, a', ha', h⟩ := ih he
      exact ⟨hid, ht, a', List.mem_cons_of_mem _ ha', h⟩
    | some o =>
      rw [ho] at he
      rcases List.mem_cons.1 he with rfl | he
      · have := p.next_le_arrivalEdges c node s.edge.2 as
        exact ⟨⟨Nat.le_refl _, this⟩, rfl, a, List.mem_cons_self, ho, rfl, rfl⟩
      · obtain ⟨⟨hlo, hhi⟩, ht, a', ha', h⟩ := ih he
        exact ⟨⟨Nat.le_of_succ_le hlo, hhi⟩, ht, a', List.mem_cons_of_mem _ ha', h⟩

/-- New edges have distinct identities. -/
theorem nodup_arrivalEdges (p : Page) (c : Invocation) (node : NodeId) (s : Supply)
    (as : List Flow.Arrival) : ((p.arrivalEdges c node s as).1.map Edge.id).Nodup := by
  induction as generalizing s with
  | nil => exact List.nodup_nil
  | cons a as ih =>
    simp only [arrivalEdges]
    cases p.origin? c a with
    | none => exact ih s
    | some o =>
      refine List.nodup_cons.2 ⟨fun hm => ?_, ih _⟩
      obtain ⟨e, he, hid⟩ := List.mem_map.1 hm
      have := (mem_arrivalEdges he).1.1
      rw [hid] at this
      exact Nat.lt_irrefl _ this

/-- The input marker and all producers are nodes of the graph. -/
structure Rooted (p : Page) : Prop where
  input_mem : p.flow.input ∈ p.flow.graph.nodeIds
  producer_mem : ∀ o q, Table.at? p.producers o = some q → q.node ∈ p.flow.graph.nodeIds

theorem Rooted.attachNode {p : Page} (h : p.Rooted) (id : NodeId) (x : Flow.Node) :
    (p.withGraph (p.flow.graph.attachNode id x)).Rooted := by
  refine ⟨?_, fun o q hq => ?_⟩
  · exact Graph.nodeIds_attachNode _ id x ▸ List.mem_append_left _ h.input_mem
  · exact Graph.nodeIds_attachNode _ id x ▸ List.mem_append_left _ (h.producer_mem o q hq)

/-- Objects come from nodes of the graph. -/
theorem Rooted.origin_mem {p : Page} (h : p.Rooted) {c : Invocation} {a : Flow.Arrival}
    {source : NodeId} {pin : Option String} (ho : p.origin? c a = some (source, pin)) :
    source ∈ p.flow.graph.nodeIds := by
  unfold origin? at ho
  split at ho
  · rename_i q hq
    cases ho
    exact h.producer_mem _ _ hq
  · split at ho
    · cases ho
    · cases ho
      exact h.input_mem

/-- A call as it begins. -/
def opening (c : Invocation) (e : Flow.Entrance) (body : Option Handle) : Flow.Call :=
  ⟨c.function.module, c.function.qualifiedName, e.pins, none, e.note, body⟩

/-- The page on which a call has begun. -/
def enter (p : Page) (c : Invocation) (e : Flow.Entrance) (body : Option Handle) (s : Supply) :
    Page × Supply :=
  let (node, s) := s.node
  let (es, s) := p.arrivalEdges c node s e.arrivals
  (p.withGraph ((p.flow.graph.attachNode node (.call (opening c e body))).withEdges es), s)

/-- Changes the call at a node. -/
def adjustCall (p : Page) (node : NodeId) (f : Flow.Call → Flow.Call) : Page :=
  { p with flow := p.flow.adjustCall node f }

/-- The graph without the edge from the last producer of an object. -/
def released (p : Page) (o : ObjectId) : Graph Flow.Node Flow.Link :=
  match Table.at? p.producers o with
  | some old => p.flow.graph.removeEdge old.edge
  | none => p.flow.graph

/-- No node goes with the former edge. -/
theorem nodes_released (p : Page) (o : ObjectId) :
    (p.released o).nodes = p.flow.graph.nodes := by
  unfold released
  split <;> rfl

/-- The page on which a call has become the producer of an object. -/
def claim (p : Page) (node : NodeId) (edge : EdgeId) (q : Flow.Production) : Page where
  flow := { p.flow with
    graph := (p.released q.object).withEdges
      [⟨edge, node, p.flow.output, ⟨q.reference, some q.pin, none⟩⟩] }
  producers := Table.put p.producers q.object ⟨node, q.pin, edge⟩

/-- Notes the slots of a produced object at the pin that it came out of. -/
def noteSlots (q : Flow.Production) (c : Flow.Call) : Flow.Call :=
  match q.slots with
  | none => c
  | some slots =>
    { c with pins := Table.adjust (fun pin => { pin with slots := slots }) q.pin c.pins }

/-- The page after a call has produced an object. -/
def produce (p : Page) (node : NodeId) (edge : EdgeId) (q : Flow.Production) : Page :=
  (p.claim node edge q).adjustCall node (noteSlots q)

/-- The page after a call has produced objects one after the other. -/
def produceAll (p : Page) (node : NodeId) (s : Supply) : List Flow.Production → Page × Supply
  | [] => (p, s)
  | q :: rest => produceAll (p.produce node s.edge.1 q) node s.edge.2 rest

/-- The page on which a call has ended. -/
def finish (p : Page) (node : NodeId) (s : Supply) (d : Flow.Departure) : Page × Supply :=
  (p.adjustCall node fun c => { c with pins := Table.putAll c.pins d.pins }).produceAll node s
    d.productions

theorem adjustCall_id (p : Page) (node : NodeId) : p.adjustCall node (fun c => c) = p := by
  have hmap : Flow.Node.mapCall (fun c => c) = id := by
    funext x
    cases x <;> rfl
  unfold adjustCall Flow.adjustCall Graph.adjustNode
  rw [hmap, Table.adjust_id]

theorem nodeIds_adjustCall (p : Page) (node : NodeId) (f : Flow.Call → Flow.Call) :
    (p.adjustCall node f).flow.graph.nodeIds = p.flow.graph.nodeIds :=
  Graph.nodeIds_adjustNode _ _ _

theorem nodeIds_produce (p : Page) (node : NodeId) (edge : EdgeId) (q : Flow.Production) :
    (p.produce node edge q).flow.graph.nodeIds = p.flow.graph.nodeIds :=
  (nodeIds_adjustCall _ _ _).trans (congrArg Table.keys (p.nodes_released q.object))

/-- What stands at a node stays a call when it is changed as one. -/
theorem exists_call_adjustCall {p : Page} {n : NodeId}
    (h : ∃ call, p.flow.graph.node? n = some (.call call)) (node : NodeId)
    (f : Flow.Call → Flow.Call) :
    ∃ call, (p.adjustCall node f).flow.graph.node? n = some (.call call) := by
  obtain ⟨call, h⟩ := h
  have hn := Graph.node?_adjustNode p.flow.graph node (Flow.Node.mapCall f) n
  rw [h] at hn
  split at hn
  · exact ⟨f call, hn⟩
  · exact ⟨call, hn⟩

theorem exists_call_produce {p : Page} {n : NodeId}
    (h : ∃ call, p.flow.graph.node? n = some (.call call)) (node : NodeId) (edge : EdgeId)
    (q : Flow.Production) :
    ∃ call, (p.produce node edge q).flow.graph.node? n = some (.call call) := by
  refine exists_call_adjustCall ?_ node _
  obtain ⟨call, h⟩ := h
  exact ⟨call, (congrArg (Table.at? · n) (p.nodes_released q.object)).trans h⟩

theorem before_released {p : Page} {s : Supply} (hb : p.flow.graph.Before s) (o : ObjectId) :
    (p.released o).Before s := by
  unfold released
  split
  · exact hb.removeEdge _
  · exact hb

/-- The new edge has an identity from the supply. -/
theorem before_produce {p : Page} {s : Supply} (hb : p.flow.graph.Before s) (node : NodeId)
    (q : Flow.Production) : (p.produce node s.edge.1 q).flow.graph.Before s.edge.2 := by
  refine ((before_released hb q.object).withEdges (Nat.le_succ _) ?_).adjustNode node _
  rintro e he
  obtain rfl := List.mem_singleton.1 he
  exact Nat.lt_succ_self _

end Page

namespace Tape

/-! ## The innermost scope

The innermost scope is that of the first frame of the stack that has one. Changing it leaves all
other frames, so what the stack says about calls stays. -/

/-- The innermost scope that a stack of calls has opened above the outermost one. -/
def innermost (root : Scope) (stack : List Frame) : Scope := (stack.findSome? Frame.scope).getD root

theorem scope_eq_innermost (t : Tape) : t.scope = innermost t.root t.stack := rfl

/-- No scope of the stack is changed just if there is none. -/
theorem adjustInnermost_eq_none_iff {f : Scope → Scope} {stack : List Frame} :
    adjustInnermost f stack = none ↔ stack.findSome? Frame.scope = none := by
  induction stack with
  | nil => simp [adjustInnermost]
  | cons frame rest ih =>
    rw [adjustInnermost, List.findSome?_cons]
    cases frame.scope with
    | some s => simp
    | none => simpa using ih

/-- The calls inside the innermost scope stay as they are, and so do those around it. -/
theorem adjustInnermost_append {f : Scope → Scope} {inner : List Frame}
    (hinner : ∀ x ∈ inner, x.scope = none) {frame : Frame} {s : Scope}
    (hs : frame.scope = some s) (outer : List Frame) :
    adjustInnermost f (inner ++ frame :: outer) =
      some (inner ++ { frame with scope := some (f s) } :: outer) := by
  induction inner with
  | nil => simp [adjustInnermost, hs]
  | cons x inner ih =>
    obtain ⟨hx, hinner⟩ := List.forall_mem_cons.1 hinner
    simp [adjustInnermost, hx, ih hinner]

/-- A change splits the stack at the frame of the innermost scope. -/
theorem adjustInnermost_eq_some {f : Scope → Scope} {stack stack' : List Frame}
    (h : adjustInnermost f stack = some stack') :
    ∃ inner frame s outer, stack = inner ++ frame :: outer ∧ (∀ x ∈ inner, x.scope = none) ∧
      frame.scope = some s ∧ stack' = inner ++ { frame with scope := some (f s) } :: outer := by
  cases hs : stack.findSome? Frame.scope with
  | none => rw [adjustInnermost_eq_none_iff.2 hs] at h; cases h
  | some s =>
    obtain ⟨inner, frame, outer, rfl, hframe, hinner⟩ := List.findSome?_eq_some_iff.1 hs
    rw [adjustInnermost_append hinner hframe] at h
    exact ⟨inner, frame, s, outer, rfl, hinner, hframe, (Option.some.inj h).symm⟩

/-- The innermost scope is the one that was changed. -/
theorem findSome?_adjustInnermost {f : Scope → Scope} {stack stack' : List Frame}
    (h : adjustInnermost f stack = some stack') :
    stack'.findSome? Frame.scope = (stack.findSome? Frame.scope).map f := by
  obtain ⟨inner, frame, s, outer, rfl, hinner, hs, rfl⟩ := adjustInnermost_eq_some h
  have hnone := List.findSome?_eq_none_iff.2 hinner
  simp [List.findSome?_append, hnone, hs]

/-- Two changes are one. -/
theorem adjustInnermost_adjustInnermost {f g : Scope → Scope} {stack stack' : List Frame}
    (h : adjustInnermost f stack = some stack') :
    adjustInnermost g stack' = adjustInnermost (fun s => g (f s)) stack := by
  obtain ⟨inner, frame, s, outer, rfl, hinner, hs, rfl⟩ := adjustInnermost_eq_some h
  rw [adjustInnermost_append hinner rfl, adjustInnermost_append hinner hs]

/-- A change that leaves the innermost scope as it is changes nothing. -/
theorem adjustInnermost_eq_self {f : Scope → Scope} {stack : List Frame} {s : Scope}
    (h : stack.findSome? Frame.scope = some s) (hf : f s = s) :
    adjustInnermost f stack = some stack := by
  obtain ⟨inner, frame, outer, rfl, hs, hinner⟩ := List.findSome?_eq_some_iff.1 h
  rw [adjustInnermost_append hinner hs, hf, ← hs]

/-! ## Writing on the page of the innermost scope

A write replaces the graph and the producers of the innermost scope, and the supply. -/

/-- The page of the innermost scope. -/
def page? (t : Tape) : Option Page :=
  (t.recording.graph? t.scope.graph).map fun f => ⟨f, t.scope.producers⟩

/-- Puts another page in the place of that of the innermost scope. -/
def write (t : Tape) (p : Page) (s : Supply) : Tape :=
  ({ t with supply := s }.setFlow p.flow).adjustScope fun sc => { sc with producers := p.producers }

/-- The innermost scope is the one that was changed. -/
theorem scope_adjustScope (t : Tape) (f : Scope → Scope) : (t.adjustScope f).scope = f t.scope := by
  unfold adjustScope
  split
  · rename_i stack h
    rw [scope_eq_innermost, scope_eq_innermost, innermost, findSome?_adjustInnermost h]
    cases hs : t.stack.findSome? Frame.scope with
    | some s => simp [innermost, hs]
    | none => rw [adjustInnermost_eq_none_iff.2 hs] at h; cases h
  · rename_i h
    rw [adjustInnermost_eq_none_iff] at h
    simp [scope_eq_innermost, innermost, h]

theorem adjustScope_eq_self {t : Tape} {f : Scope → Scope} (h : f t.scope = t.scope) :
    t.adjustScope f = t := by
  unfold adjustScope
  cases hs : t.stack.findSome? Frame.scope with
  | some s =>
    rw [scope_eq_innermost, innermost, hs] at h
    rw [adjustInnermost_eq_self hs h]
  | none =>
    rw [scope_eq_innermost, innermost, hs] at h
    rw [adjustInnermost_eq_none_iff.2 hs]
    simp only [Option.getD_none] at h
    simp [h]

theorem adjustScope_adjustScope (t : Tape) (f g : Scope → Scope) :
    (t.adjustScope f).adjustScope g = t.adjustScope fun s => g (f s) := by
  cases hs : t.stack.findSome? Frame.scope with
  | some s =>
    cases h : adjustInnermost f t.stack with
    | none => rw [adjustInnermost_eq_none_iff, hs] at h; cases h
    | some stack =>
      cases h' : adjustInnermost (fun s => g (f s)) t.stack with
      | none => rw [adjustInnermost_eq_none_iff, hs] at h'; cases h'
      | some stack' => simp [adjustScope, h, h', adjustInnermost_adjustInnermost h]
  | none =>
    have h : ∀ f : Scope → Scope, adjustInnermost f t.stack = none := fun f =>
      adjustInnermost_eq_none_iff.2 hs
    simp [adjustScope, h]

@[simp] theorem recording_adjustScope (t : Tape) (f : Scope → Scope) :
    (t.adjustScope f).recording = t.recording := by
  unfold adjustScope
  split <;> rfl

@[simp] theorem supply_adjustScope (t : Tape) (f : Scope → Scope) :
    (t.adjustScope f).supply = t.supply := by
  unfold adjustScope
  split <;> rfl

theorem adjustScope_setFlow {t : Tape} {f : Scope → Scope} (hf : ∀ s, (f s).graph = s.graph)
    (flow : Flow) (s : Supply) :
    { t.adjustScope f with supply := s }.setFlow flow =
      ({ t with supply := s }.setFlow flow).adjustScope f := by
  have hs : (t.adjustScope f).scope.graph = t.scope.graph := by rw [scope_adjustScope, hf]
  unfold setFlow
  change { t.adjustScope f with
      supply := s
      recording := (t.adjustScope f).recording.set (t.adjustScope f).scope.graph flow } = _
  rw [hs, recording_adjustScope]
  unfold adjustScope
  dsimp only
  cases adjustInnermost f t.stack <;> rfl

@[simp] theorem supply_write (t : Tape) (p : Page) (s : Supply) : (t.write p s).supply = s := by
  rw [write, supply_adjustScope]
  rfl

@[simp] theorem recording_write (t : Tape) (p : Page) (s : Supply) :
    (t.write p s).recording = t.recording.set t.scope.graph p.flow := by
  rw [write, recording_adjustScope]
  rfl

theorem scope_write (t : Tape) (p : Page) (s : Supply) :
    (t.write p s).scope = { t.scope with producers := p.producers } := by
  rw [write, scope_adjustScope]
  rfl

/-- Of two writes the later counts. -/
theorem write_write (t : Tape) (p p' : Page) (s s' : Supply) :
    (t.write p s).write p' s' = t.write p' s' := by
  have hset : ({ ({ t with supply := s }.setFlow p.flow) with supply := s' }.setFlow p'.flow) =
      { t with supply := s' }.setFlow p'.flow := by
    simp [setFlow, Recording.set, scope]
  have hmove := adjustScope_setFlow (t := { t with supply := s }.setFlow p.flow)
    (f := fun sc => { sc with producers := p.producers }) (fun _ => rfl) p'.flow s'
  rw [hset] at hmove
  have := congrArg (fun t : Tape => t.adjustScope fun sc => { sc with producers := p'.producers })
    hmove
  exact this.trans (adjustScope_adjustScope _ _ _)

theorem page?_eq_some_iff {t : Tape} {p : Page} :
    t.page? = some p ↔
      t.recording.graph? t.scope.graph = some p.flow ∧ t.scope.producers = p.producers := by
  obtain ⟨flow, producers⟩ := p
  simp [page?]

/-- What was written is what is on the page. -/
theorem page?_write {t : Tape} {p₀ : Page} (h : t.page? = some p₀) (p : Page) (s : Supply) :
    (t.write p s).page? = some p := by
  have hlt : t.scope.graph.index < t.recording.graphs.length :=
    (List.getElem?_eq_some_iff.1 (page?_eq_some_iff.1 h).1).1
  rw [page?_eq_some_iff, scope_write, recording_write]
  exact ⟨List.getElem?_set_self hlt, rfl⟩

/-- Writing what is there changes nothing. -/
theorem write_self {t : Tape} {p : Page} (h : t.page? = some p) : t.write p t.supply = t := by
  obtain ⟨hf, hp⟩ := page?_eq_some_iff.1 h
  have hset : t.setFlow p.flow = t := by
    obtain ⟨hlt, hat⟩ := List.getElem?_eq_some_iff.1 hf
    unfold setFlow Recording.set
    rw [← hat, List.set_getElem_self]
  have hw : t.write p t.supply = t.adjustScope fun sc => { sc with producers := p.producers } := by
    rw [write]
    exact congrArg (fun t : Tape => t.adjustScope _) hset
  rw [hw]
  exact adjustScope_eq_self (by rw [← hp])

theorem flow_eq_ok {t : Tape} {p : Page} (h : t.page? = some p) : t.flow = .ok p.flow := by
  rw [flow, (page?_eq_some_iff.1 h).1]

theorem setFlow_eq_write {t : Tape} {p : Page} (h : t.page? = some p) (flow : Flow) (s : Supply) :
    { t with supply := s }.setFlow flow = t.write ⟨flow, p.producers⟩ s := by
  rw [write, adjustScope_eq_self]
  rw [← (page?_eq_some_iff.1 h).2]
  rfl

/-! ## Recording on a page

Every step of the recorder is a write on the page, where there is one. The lemmas follow the
definitions from the smallest step up to a whole event. -/

/-- Changing a call succeeds where there is one. -/
theorem adjustCall_eq_ok {t : Tape} {p : Page} (h : t.page? = some p) {node : NodeId}
    {call : Flow.Call} (hn : p.flow.graph.node? node = some (.call call))
    (f : Flow.Call → Flow.Call) :
    t.adjustCall node f = .ok (t.write (p.adjustCall node f) t.supply) := by
  rw [adjustCall, flow_eq_ok h, Outcome.ok_bind, hn]
  exact congrArg Except.ok (setFlow_eq_write h _ t.supply)

/-- Taking back a call succeeds. -/
theorem drop_eq_ok {t : Tape} {p : Page} (h : t.page? = some p) (node : NodeId) :
    t.drop node = .ok (t.write (p.withGraph (p.flow.graph.removeNode node)) t.supply) := by
  rw [drop, flow_eq_ok h, Outcome.ok_bind]
  exact congrArg Except.ok (setFlow_eq_write h _ t.supply)

/-- Adding an edge between nodes of the page succeeds. -/
theorem addEdge_eq_ok {t : Tape} {p : Page} (h : t.page? = some p)
    (hb : p.flow.graph.Before t.supply) {source target : NodeId}
    (hs : source ∈ p.flow.graph.nodeIds) (ht : target ∈ p.flow.graph.nodeIds) (link : Flow.Link) :
    t.addEdge source target link =
      .ok (t.supply.edge.1, t.write
        (p.withGraph (p.flow.graph.withEdges [⟨t.supply.edge.1, source, target, link⟩]))
        t.supply.edge.2) := by
  have hnew : t.supply.edge.1 ∉ p.flow.graph.edges.map Edge.id := hb.next_not_mem_edges
  rw [addEdge, flow_eq_ok h, Outcome.ok_bind]
  dsimp only
  rw [Graph.addEdge_eq_ok hnew hs ht, Outcome.mapError_ok, Outcome.ok_bind]
  exact congrArg (fun t => Except.ok (_, t)) (setFlow_eq_write h _ _)

/-- An object arrives at a node of the page. -/
theorem arrive_eq_ok {t : Tape} {p : Page} (h : t.page? = some p) (hr : p.Rooted)
    (hb : p.flow.graph.Before t.supply) (c : Invocation) {node : NodeId}
    (hn : node ∈ p.flow.graph.nodeIds) (a : Flow.Arrival) :
    arrive c node t a = .ok (t.write
      (p.withGraph (p.flow.graph.withEdges (p.arrivalEdges c node t.supply [a]).1))
      (p.arrivalEdges c node t.supply [a]).2) := by
  rw [arrive, (page?_eq_some_iff.1 h).2]
  cases hq : Table.at? p.producers a.object with
  | some q =>
    simp only [Page.arrivalEdges, Page.origin?, hq]
    rw [addEdge_eq_ok h hb (hr.producer_mem _ _ hq) hn]
    rfl
  | none =>
    by_cases hnew : isNewborn c a.argument = true
    · simp only [Page.arrivalEdges, Page.origin?, hq, hnew, if_true, Graph.withEdges_nil]
      exact congrArg Except.ok (write_self h).symm
    · simp only [Page.arrivalEdges, Page.origin?, hq, hnew]
      rw [flow_eq_ok h]
      simp only [Outcome.ok_bind]
      rw [addEdge_eq_ok h hb hr.input_mem hn]
      rfl

/-- Objects arrive at a node of the page one after the other. -/
theorem arriveAll_eq_ok {t : Tape} {p : Page} (h : t.page? = some p) (hr : p.Rooted)
    (hb : p.flow.graph.Before t.supply) (c : Invocation) {node : NodeId}
    (hn : node ∈ p.flow.graph.nodeIds) (as : List Flow.Arrival) :
    as.foldlM (arrive c node) t = .ok (t.write
      (p.withGraph (p.flow.graph.withEdges (p.arrivalEdges c node t.supply as).1))
      (p.arrivalEdges c node t.supply as).2) := by
  induction as generalizing t p with
  | nil =>
    simp only [Page.arrivalEdges, Graph.withEdges_nil]
    exact congrArg Except.ok (write_self h).symm
  | cons a as ih =>
    rw [List.foldlM_cons, arrive_eq_ok h hr hb c hn a, Outcome.ok_bind]
    have hb' : (p.flow.graph.withEdges (p.arrivalEdges c node t.supply [a]).1).Before
        (p.arrivalEdges c node t.supply [a]).2 :=
      hb.withEdges (p.next_le_arrivalEdges c node t.supply [a]) fun e he =>
        (Page.mem_arrivalEdges he).1.2
    have ih := ih
      (page?_write h
        (p.withGraph (p.flow.graph.withEdges (p.arrivalEdges c node t.supply [a]).1)) _)
      ⟨hr.input_mem, hr.producer_mem⟩ (by rw [supply_write]; exact hb') hn
    rw [ih, write_write, supply_write, Page.arrivalEdges_withGraph,
      Page.arrivalEdges_cons p c node t.supply a as]
    simp only [Page.withGraph, Graph.withEdges_withEdges]

/-- A new graph for a body leaves the page of the innermost scope. -/
theorem page?_openBody {t : Tape} {p : Page} (h : t.page? = some p) (c : Invocation) :
    (t.openBody c).2.page? = some p := by
  obtain ⟨hf, hp⟩ := page?_eq_some_iff.1 h
  unfold openBody
  split
  · exact h
  · refine page?_eq_some_iff.2 ⟨?_, hp⟩
    exact (List.getElem?_append_left (List.getElem?_eq_some_iff.1 hf).1).trans hf

theorem next_le_openBody (t : Tape) (c : Invocation) :
    t.supply.next ≤ (t.openBody c).2.supply.next := by
  unfold openBody
  split
  · exact Nat.le_refl _
  · exact Nat.le_add_right _ 2

/-- The stack with a call that has begun at a node. -/
def stacked (t : Tape) (c : Invocation) (node : NodeId) (body : Option Handle) : Tape :=
  { t with stack := ⟨c, node, body.map fun h => ⟨h, []⟩⟩ :: t.stack }

/-- The tape on which a call has begun, given the page of its innermost scope. -/
def entered (t : Tape) (p : Page) (c : Invocation) (e : Flow.Entrance) : Tape :=
  let (body, t) := t.openBody c
  let (p, s) := p.enter c e body t.supply
  (t.write p s).stacked c t.supply.node.1 body

/-- A call begins on the page. -/
theorem enter_eq_ok {t : Tape} {p : Page} (h : t.page? = some p) (hr : p.Rooted)
    (hb : p.flow.graph.Before t.supply) (c : Invocation) (e : Flow.Entrance) :
    t.enter c e = .ok (t.entered p c e) := by
  rw [entered]
  have h₁ := page?_openBody h c
  have hb₁ := hb.mono (next_le_openBody t c)
  rw [enter]
  generalize t.openBody c = o at h₁ hb₁
  obtain ⟨body, t₁⟩ := o
  dsimp only at h₁ hb₁ ⊢
  have hnew : t₁.supply.node.1 ∉ p.flow.graph.nodeIds := hb₁.next_not_mem_nodes
  rw [flow_eq_ok h₁, Outcome.ok_bind, Graph.addNode_eq_ok _ hnew, Outcome.mapError_ok,
    Outcome.ok_bind, setFlow_eq_write h₁]
  have hmem : t₁.supply.node.1 ∈
      (p.flow.graph.attachNode t₁.supply.node.1 (.call (Page.opening c e body))).nodeIds := by simp
  have hall := arriveAll_eq_ok
    (page?_write h₁ (p.withGraph (p.flow.graph.attachNode t₁.supply.node.1
      (.call (Page.opening c e body)))) t₁.supply.node.2)
    (hr.attachNode _ _) (by rw [supply_write]; exact hb₁.attachNode _) c hmem e.arrivals
  refine (congrArg (· >>= _) hall).trans ?_
  rw [Outcome.ok_bind, write_write, supply_write, Page.arrivalEdges_withGraph]
  rfl

theorem adjustScope_write (t : Tape) (p : Page) (s : Supply)
    (k : Table ObjectId Producer → Table ObjectId Producer) :
    ((t.write p s).adjustScope fun sc => { sc with producers := k sc.producers }) =
      t.write { p with producers := k p.producers } s :=
  adjustScope_adjustScope _ _ _

/-- The edge from the last producer of an object is taken away, where there is one. -/
theorem release_eq_write {t : Tape} {p : Page} (h : t.page? = some p) (o : ObjectId) :
    (Table.at? p.producers o).elim t
        (fun old => t.setFlow { p.flow with graph := p.flow.graph.removeEdge old.edge }) =
      t.write (p.withGraph (p.released o)) t.supply := by
  rw [Page.released]
  cases Table.at? p.producers o with
  | none => exact (write_self h).symm
  | some old => exact setFlow_eq_write h _ t.supply

/-- Noting slots succeeds where there is a call. -/
theorem noteSlots_eq_ok {t : Tape} {p : Page} (h : t.page? = some p) {node : NodeId}
    {call : Flow.Call} (hn : p.flow.graph.node? node = some (.call call)) (q : Flow.Production) :
    (match q.slots with
      | none => pure t
      | some slots => t.adjustCall node fun c =>
          { c with pins := Table.adjust (fun pin => { pin with slots := slots }) q.pin c.pins }) =
      .ok (t.write (p.adjustCall node (Page.noteSlots q)) t.supply) := by
  unfold Page.noteSlots
  cases q.slots with
  | none =>
    simp only [Page.adjustCall_id]
    exact congrArg Except.ok (write_self h).symm
  | some slots => exact adjustCall_eq_ok h hn _

/-- An object comes out of a call on the page. -/
theorem produce_eq_ok {t : Tape} {p : Page} (h : t.page? = some p)
    (hb : p.flow.graph.Before t.supply) {node : NodeId} {call : Flow.Call}
    (hn : p.flow.graph.node? node = some (.call call))
    (ho : p.flow.output ∈ p.flow.graph.nodeIds) (q : Flow.Production) :
    t.produce node q =
      .ok (t.write (p.produce node t.supply.edge.1 q) t.supply.edge.2) := by
  have hids : (p.released q.object).nodeIds = p.flow.graph.nodeIds :=
    congrArg Table.keys (p.nodes_released q.object)
  have hadd := addEdge_eq_ok (page?_write h (p.withGraph (p.released q.object)) t.supply)
    (by rw [supply_write]; exact Page.before_released hb q.object)
    (hids.symm ▸ Graph.mem_nodeIds_of_node? hn : node ∈ (p.released q.object).nodeIds)
    (hids.symm ▸ ho : p.flow.output ∈ (p.released q.object).nodeIds) ⟨q.reference, some q.pin, none⟩
  rw [write_write, supply_write, ← release_eq_write h] at hadd
  have hn' : (p.claim node t.supply.edge.1 q).flow.graph.node? node = some (.call call) :=
    (congrArg (Table.at? · node) (p.nodes_released q.object)).trans hn
  have hcap := noteSlots_eq_ok
    (page?_write h (p.claim node t.supply.edge.1 q) t.supply.edge.2) hn' q
  rw [write_write, supply_write] at hcap
  have hput : _ = t.write (p.claim node t.supply.edge.1 q) t.supply.edge.2 := adjustScope_write t
    (p.withGraph ((p.released q.object).withEdges
      [⟨t.supply.edge.1, node, p.flow.output, ⟨q.reference, some q.pin, none⟩⟩])) t.supply.edge.2
    fun ps => Table.put ps q.object ⟨node, q.pin, t.supply.edge.1⟩
  rw [← hput] at hcap
  rw [produce, flow_eq_ok h, Outcome.ok_bind, (page?_eq_some_iff.1 h).2]
  dsimp only
  cases hq : Table.at? p.producers q.object with
  | none =>
    rw [hq] at hadd
    refine (congrArg (· >>= _) hadd).trans ?_
    exact hcap
  | some old =>
    rw [hq] at hadd
    refine (congrArg (· >>= _) hadd).trans ?_
    exact hcap

/-- Objects come out of a call on the page one after the other. -/
theorem produceAll_eq_ok {t : Tape} {p : Page} (h : t.page? = some p)
    (hb : p.flow.graph.Before t.supply) {node : NodeId}
    (hn : ∃ call, p.flow.graph.node? node = some (.call call))
    (ho : p.flow.output ∈ p.flow.graph.nodeIds) (qs : List Flow.Production) :
    qs.foldlM (produce node) t =
      .ok (t.write (p.produceAll node t.supply qs).1 (p.produceAll node t.supply qs).2) := by
  induction qs generalizing t p with
  | nil => exact congrArg Except.ok (write_self h).symm
  | cons q qs ih =>
    obtain ⟨call, hcall⟩ := hn
    have ih := ih (page?_write h (p.produce node t.supply.edge.1 q) t.supply.edge.2)
      (by rw [supply_write]; exact Page.before_produce hb node q)
      (Page.exists_call_produce ⟨call, hcall⟩ node t.supply.edge.1 q)
      (Page.nodeIds_produce p node t.supply.edge.1 q ▸ ho)
    rw [write_write, supply_write] at ih
    rw [List.foldlM_cons, produce_eq_ok h hb hcall ho q]
    exact ih

/-- A call ends on the page. -/
theorem leave_eq_ok {t : Tape} {p : Page} (h : t.page? = some p)
    (hb : p.flow.graph.Before t.supply) {node : NodeId}
    (hn : ∃ call, p.flow.graph.node? node = some (.call call))
    (ho : p.flow.output ∈ p.flow.graph.nodeIds) (d : Flow.Departure) :
    t.leave node d = .ok (t.write (p.finish node t.supply d).1 (p.finish node t.supply d).2) := by
  obtain ⟨call, hcall⟩ := hn
  have hall := produceAll_eq_ok
    (page?_write h (p.adjustCall node fun c => { c with pins := Table.putAll c.pins d.pins })
      t.supply)
    (by rw [supply_write]; exact hb.adjustNode node _)
    (Page.exists_call_adjustCall ⟨call, hcall⟩ node _)
    (Page.nodeIds_adjustCall p node _ ▸ ho) d.productions
  rw [write_write, supply_write] at hall
  rw [leave, adjustCall_eq_ok h hcall]
  exact hall

end Tape

end ObjectFlow
