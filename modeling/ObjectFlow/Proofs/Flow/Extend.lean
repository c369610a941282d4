import ObjectFlow.Flow.Join
import ObjectFlow.Proofs.Flow.Bordered

/-!
# A graph behind another one

A graph takes up what lies between the markers of a later one. What comes into that from outside
comes from where the first graph left it, if it did, and what the later graph leaves at the end
takes the place of what the first one left (`append_spec`).

## Outline

Appending has four stages, each with its result: the inner nodes and edges of the later graph are
grafted, the bodies of its calls get new handles (`takenUp`), what comes from outside is connected
(`Extendable.connect_takenUp`), and what is left at the end supersedes what was left before
(`supersede_spec`). The first two change no edge of the first graph. The third only adds edges. The
last removes and adds by turns, one object after the other; for it one shows that all removals could
have been done first (`withoutEdges_stale_cons`).

What comes out is stated as `Extended`: nodes as a list, edges as ties up to order. It does not tell
identities of edges other than that new ones come from the supply. This is enough for everything
later on, as nothing but the supply depends on them.
-/

namespace ObjectFlow

namespace Flow

/-! ## New handles

Giving new handles to the calls at some nodes changes one node after the other. As no node occurs
twice, this is the same as changing all at once (`rehandle_eq`). -/

/-- The call with the new handle of its body. -/
def Call.rehandled (moved : Table Handle Handle) (c : Call) : Call :=
  { c with body := c.body.bind (Table.at? moved) }

/-- The node with the new handle of its body. -/
def Node.rehandled (moved : Table Handle Handle) : Node → Node := Node.mapCall (Call.rehandled moved)

theorem rehandle_cons (f : Flow) (id : NodeId) (ids : List NodeId) (moved : Table Handle Handle) :
    f.rehandle (id :: ids) moved = (f.adjustCall id (Call.rehandled moved)).rehandle ids moved :=
  rfl

@[simp] theorem input_rehandle (f : Flow) (ids : List NodeId) (moved : Table Handle Handle) :
    (f.rehandle ids moved).input = f.input := by
  induction ids generalizing f with
  | nil => rfl
  | cons id ids ih => exact ih (f.adjustCall id (Call.rehandled moved))

@[simp] theorem output_rehandle (f : Flow) (ids : List NodeId) (moved : Table Handle Handle) :
    (f.rehandle ids moved).output = f.output := by
  induction ids generalizing f with
  | nil => rfl
  | cons id ids ih => exact ih (f.adjustCall id (Call.rehandled moved))

@[simp] theorem edges_rehandle (f : Flow) (ids : List NodeId) (moved : Table Handle Handle) :
    (f.rehandle ids moved).graph.edges = f.graph.edges := by
  induction ids generalizing f with
  | nil => rfl
  | cons id ids ih => exact ih (f.adjustCall id (Call.rehandled moved))

@[simp] theorem nodeIds_rehandle (f : Flow) (ids : List NodeId) (moved : Table Handle Handle) :
    (f.rehandle ids moved).graph.nodeIds = f.graph.nodeIds := by
  induction ids generalizing f with
  | nil => rfl
  | cons id ids ih =>
    exact (ih (f.adjustCall id (Call.rehandled moved))).trans (Graph.nodeIds_adjustNode _ _ _)

theorem wellFormed_rehandle {f : Flow} (h : f.graph.WellFormed) (ids : List NodeId)
    (moved : Table Handle Handle) : (f.rehandle ids moved).graph.WellFormed := by
  induction ids generalizing f with
  | nil => exact h
  | cons id ids ih => exact ih (f := f.adjustCall id (Call.rehandled moved)) (h.adjustNode id _)

theorem before_rehandle {f : Flow} {s : Supply} (h : f.graph.Before s) (ids : List NodeId)
    (moved : Table Handle Handle) : (f.rehandle ids moved).graph.Before s := by
  induction ids generalizing f with
  | nil => exact h
  | cons id ids ih => exact ih (f := f.adjustCall id (Call.rehandled moved)) (h.adjustNode id _)

/-- The graph with other nodes. -/
def withNodes (f : Flow) (ns : Table NodeId Node) : Flow :=
  { f with graph := { f.graph with nodes := ns } }

/-- Each of the nodes gets its new handle once. -/
theorem rehandle_eq {f : Flow} (hf : f.graph.nodeIds.Nodup) {ids : List NodeId} (hd : ids.Nodup)
    (moved : Table Handle Handle) : f.rehandle ids moved =
      f.withNodes (f.graph.nodes.map fun n =>
        if n.1 ∈ ids then (n.1, n.2.rehandled moved) else n) := by
  induction ids generalizing f with
  | nil => simp [rehandle, withNodes]
  | cons id ids ih =>
    obtain ⟨hid, hd⟩ := List.nodup_cons.1 hd
    have hnodes : (f.adjustCall id (Call.rehandled moved)).graph.nodes = f.graph.nodes.map fun n =>
        if n.1 = id then (n.1, n.2.rehandled moved) else n := Table.adjust_eq_map _ id hf
    have hkeys : (f.adjustCall id (Call.rehandled moved)).graph.nodeIds.Nodup := by
      rw [adjustCall, Graph.nodeIds_adjustNode]
      exact hf
    rw [rehandle_cons, ih hkeys hd, hnodes, List.map_map]
    show f.withNodes _ = _
    refine congrArg _ (List.map_congr_left fun n _ => ?_)
    by_cases hn : n.1 = id
    · simp [hn, hid]
    · simp [hn]

/-- A graph all of whose calls have new handles. -/
def renumbered (f : Flow) (moved : Table Handle Handle) : Flow :=
  f.withNodes (f.graph.nodes.map fun n => (n.1, n.2.rehandled moved))

/-- If all nodes are given, all calls have new handles. -/
theorem rehandle_nodeIds {f : Flow} (hf : f.graph.nodeIds.Nodup) (moved : Table Handle Handle) :
    f.rehandle f.graph.nodeIds moved = f.renumbered moved := by
  rw [rehandle_eq hf hf]
  refine congrArg _ (List.map_congr_left fun n hn => if_pos ?_)
  exact List.mem_map_of_mem hn

/-! ## What is left at the end

Which edges are to be replaced is looked up in a table that is made once, from the first graph, and
not from the graph in hand. -/

/-- The edges to be replaced. -/
def stale (outputs : Table ObjectId (Edge Link)) (es : List (Edge Link)) : List EdgeId :=
  es.filterMap fun e => (e.data.object.id.bind (Table.at? outputs)).map Edge.id

theorem stale_cons (outputs : Table ObjectId (Edge Link)) (e : Edge Link) (es : List (Edge Link)) :
    stale outputs (e :: es) = stale outputs [e] ++ stale outputs es :=
  List.filterMap_append (l := [e])

/-- An edge is replaced if it is found under the object of a new one. -/
theorem mem_stale {outputs : Table ObjectId (Edge Link)} {es : List (Edge Link)} {id : EdgeId} :
    id ∈ stale outputs es ↔ ∃ e ∈ es, ∃ o, e.data.object.id = some o ∧
      ∃ e', Table.at? outputs o = some e' ∧ e'.id = id := by
  simp only [stale, List.mem_filterMap, Option.map_eq_some_iff, Option.bind_eq_some_iff]
  constructor
  · rintro ⟨e, he, e', ⟨o, ho, he'⟩, rfl⟩
    exact ⟨e, he, o, ho, e', he', rfl⟩
  · rintro ⟨e, he, o, ho, e', he', rfl⟩
    exact ⟨e, he, e', ⟨o, ho, he'⟩, rfl⟩

/-- The graph without the edges of some identities. -/
def withoutEdges (f : Flow) (ids : List EdgeId) : Flow :=
  { f with graph := { f.graph with edges := f.graph.edges.filter fun e => e.id ∉ ids } }

@[simp] theorem withoutEdges_nil (f : Flow) : f.withoutEdges [] = f := by
  simp [withoutEdges]

theorem withoutEdges_singleton (f : Flow) (id : EdgeId) :
    (f.withoutEdges [id]).graph = f.graph.removeEdge id := by
  simp [withoutEdges, Graph.removeEdge]

/-- Before an edge to the output marker is added, the one for its object goes, if there is one. -/
theorem supersede_cons (f : Flow) (s : Supply) (outputs : Table ObjectId (Edge Link))
    (e : Edge Link) (es : List (Edge Link)) :
    f.supersede s outputs (e :: es) =
      (f.withoutEdges (stale outputs [e])).graph.addEdge ⟨s.edge.1, e.source, f.output, e.data⟩ >>=
        fun g => ({ f with graph := g } : Flow).supersede s.edge.2 outputs es := by
  rw [supersede]
  cases hm : e.data.object.id.bind (Table.at? outputs) with
  | none =>
    have hstale : stale outputs [e] = [] := by
      rw [stale, List.filterMap_cons, hm]
      rfl
    rw [hstale, withoutEdges_nil]
  | some old =>
    have hstale : stale outputs [e] = [old.id] := by
      rw [stale, List.filterMap_cons, hm]
      rfl
    rw [hstale, withoutEdges_singleton]

/-- A new edge stays when more edges are replaced. -/
theorem withoutEdges_stale_cons (f : Flow) (outputs : Table ObjectId (Edge Link)) (e : Edge Link)
    (es : List (Edge Link)) {x : Edge Link} (hx : x.id ∉ stale outputs es)
    (new : List (Edge Link)) :
    (({ f with graph := (f.withoutEdges (stale outputs [e])).graph.withEdges [x] } :
        Flow).withoutEdges (stale outputs es)).graph.withEdges new =
      (f.withoutEdges (stale outputs (e :: es))).graph.withEdges (x :: new) := by
  refine congrArg (fun l => ({ f.graph with edges := l } : Graph Node Link)) ?_
  show List.filter _ ((f.graph.edges.filter _) ++ [x]) ++ new = List.filter _ _ ++ x :: new
  rw [List.filter_append, List.filter_filter, stale_cons outputs e es,
    List.filter_eq_self.2 fun y hy => decide_eq_true (List.mem_singleton.1 hy ▸ hx),
    List.append_assoc]
  refine congrArg (· ++ _) (List.filter_congr fun y _ => ?_)
  simp [List.mem_append, not_or, and_comm]

/-- The edges that are replaced go, and one new edge for each of those given comes, in their order.
-/
theorem supersede_spec {f : Flow} {s : Supply} (hf : f.graph.WellFormed) (hb : f.graph.Before s)
    (hout : f.output ∈ f.graph.nodeIds) {outputs : Table ObjectId (Edge Link)}
    (hold : ∀ o e, Table.at? outputs o = some e → e.id.value < s.next) {es : List (Edge Link)}
    (hs : ∀ e ∈ es, e.source ∈ f.graph.nodeIds) :
    ∃ new s', f.supersede s outputs es = .ok ({ f with
        graph := (f.withoutEdges (stale outputs es)).graph.withEdges new }, s') ∧
      new.map tieOf = (es.map fun e => ⟨e.source, f.output, e.data⟩) ∧
      (∀ e ∈ new, s.next ≤ e.id.value) ∧ s.next ≤ s'.next ∧
      ((f.withoutEdges (stale outputs es)).graph.withEdges new).WellFormed ∧
      ((f.withoutEdges (stale outputs es)).graph.withEdges new).Before s' := by
  induction es generalizing f s with
  | nil =>
    have hnone : (f.withoutEdges (stale outputs [])).graph.withEdges [] = f.graph := by
      rw [Graph.withEdges_nil]
      exact congrArg Flow.graph (withoutEdges_nil f)
    exact ⟨[], s, by rw [supersede, hnone], rfl, fun e he => (nomatch he), Nat.le_refl _,
      hnone ▸ hf, hnone ▸ hb⟩
  | cons e es ih =>
    have he := hs e List.mem_cons_self
    set g := f.withoutEdges (stale outputs [e])
    set x : Edge Link := ⟨s.edge.1, e.source, f.output, e.data⟩
    have hgb : g.graph.Before s :=
      ⟨hb.node_lt, fun x hx => hb.edge_lt x (List.mem_of_mem_filter hx)⟩
    have hadd : g.graph.addEdge x = .ok (g.graph.withEdges [x]) :=
      Graph.addEdge_eq_ok hgb.next_not_mem_edges he hout
    have hb' : (g.graph.withEdges [x]).Before s.edge.2 :=
      hgb.withEdges (Nat.le_succ _) (List.forall_mem_singleton.2 (Nat.lt_succ_self _))
    obtain ⟨new, s', hok, hmap, hid, hle, hwf, hbef⟩ :=
      ih (f := { f with graph := g.graph.withEdges [x] }) ((hf.filterEdges _).addEdge hadd) hb' hout
        (fun o y hy => Nat.lt_succ_of_lt (hold o y hy)) fun y hy => hs y (List.mem_cons_of_mem _ hy)
    have hkept : x.id ∉ stale outputs es := by
      rintro hm
      obtain ⟨-, -, o, -, y, hy, hid⟩ := mem_stale.1 hm
      exact Nat.ne_of_lt (hold o y hy) (congrArg EdgeId.value hid)
    rw [withoutEdges_stale_cons f outputs e es hkept new] at hok hwf hbef
    refine ⟨x :: new, s', ?_, ?_, fun y hy => ?_, Nat.le_trans (Nat.le_succ _) hle, hwf, hbef⟩
    · rw [supersede_cons, hadd]
      exact hok
    · rw [List.map_cons, hmap]
      rfl
    · rcases List.mem_cons.1 hy with rfl | hy
      · exact Nat.le_refl _
      · exact Nat.le_trans (Nat.le_succ _) (hid y hy)

/-! ## Taking up a later graph

The ties of the result are those of the first graph that stay, and those of the later one where they
lead now. -/

/-- Where the object of a tie was left. -/
def Tie.made (f : Flow) (t : Tie) : Option (NodeId × Option String) :=
  t.data.object.id.bind f.maker?

/-- What came into a later graph from outside comes from where it was left, if it was. -/
def Tie.handed (f : Flow) (t : Tie) : Tie :=
  match t.made f with
  | some m => ⟨m.1, t.target, { t.data with sourcePin := m.2 }⟩
  | none => ⟨f.input, t.target, { t.data with sourcePin := none }⟩

/-- What a later graph left at the end is left there still. -/
def Tie.leftAt (f : Flow) (t : Tie) : Tie := ⟨t.source, f.output, t.data⟩

/-- Whether a later graph does not leave what the tie leaves. -/
def keeps (f later : Flow) (t : Tie) : Bool := !(t.target = f.output && (t.made later).isSome)

/-- The ties that stay when a later graph is taken up. -/
def kept (f later : Flow) : List Tie := f.ties.filter (f.keeps later)

/-- The ties of a later graph where they lead now. -/
def brought (f later : Flow) : List Tie :=
  later.within ++ (later.entries.map (Tie.handed f) ++ later.exits.map (Tie.leftAt f))

/-- A graph with two markers can take up a later one with which it shares no node and no edge. -/
structure Extendable (f later : Flow) : Prop where
  first : f.Bordered
  second : later.Bordered
  apart : f.Apart later
  input_mem : f.input ∈ f.graph.nodeIds
  output_mem : f.output ∈ f.graph.nodeIds
  input_ne_output : f.input ≠ f.output

/-- What becomes of a graph that takes up a later one. -/
structure Extended (f later : Flow) (moved : Table Handle Handle) (s : Supply) (g : Flow)
    (s' : Supply) : Prop where
  wellFormed : g.graph.WellFormed
  before : g.graph.Before s'
  next_le : s.next ≤ s'.next
  input_eq : g.input = f.input
  output_eq : g.output = f.output
  nodes_eq : g.graph.nodes =
    f.graph.nodes ++ later.innerNodes.map fun n => (n.1, n.2.rehandled moved)
  edge_cases : ∀ e ∈ g.graph.edges,
    e ∈ f.graph.edges ∨ e ∈ later.graph.edges ∨ s.next ≤ e.id.value
  ties_perm : g.ties.Perm (f.kept later ++ f.brought later)

theorem handed_target (f : Flow) (t : Tie) : (t.handed f).target = t.target := by
  unfold Tie.handed
  split <;> rfl

/-- What is handed over are the ties from outside, each from where its object was left. -/
theorem handover_eq {f g : Flow} (hin : g.input = f.input) (later : Flow) :
    (g.handover f.outputs later).map (fun l => (⟨l.1, l.2.1, l.2.2⟩ : Tie)) =
      later.entries.map (Tie.handed f) := by
  have hentries : later.entries = (later.graph.outEdges later.input).map tieOf :=
    (ties_filterEdges (f := later) (fun t => t.source = later.input) fun _ _ => rfl).symm
  rw [hentries, handover, List.map_map, List.map_map]
  refine List.map_congr_left fun e _ => ?_
  have hmade : (tieOf e).made f =
      (e.data.object.id.bind (Table.at? f.outputs)).map fun p => (p.source, p.data.sourcePin) :=
    (Option.map_bind ..).symm
  rw [Function.comp_apply, Function.comp_apply, Tie.handed, hmade]
  cases e.data.object.id.bind (Table.at? f.outputs) with
  | none => exact congrArg (fun n => (⟨n, e.target, { e.data with sourcePin := none }⟩ : Tie)) hin
  | some p => rfl

section Append

variable {f later : Flow} {s : Supply}

/-- What is handed over comes from a node of the first graph. -/
theorem handed_source (hf : f.Bordered) (hin : f.input ∈ f.graph.nodeIds) (t : Tie) :
    (t.handed f).source ∈ f.graph.nodeIds := by
  unfold Tie.handed
  split
  · rename_i m hm
    obtain ⟨o, -, hm⟩ := Option.bind_eq_some_iff.1 hm
    exact (hf.maker_inner hm).1
  · exact hin

/-- The edges that are replaced are those whose object is left by the later graph as well. -/
theorem mem_stale_iff (hf : f.Bordered) (hl : later.Bordered) {e : Edge Link}
    (he : e ∈ f.graph.edges) : e.id ∈ stale f.outputs (later.graph.inEdges later.output) ↔
      f.keeps later (tieOf e) = false := by
  have hkeeps : f.keeps later (tieOf e) = false ↔ e.target = f.output ∧
      ∃ m o, e.data.object.id = some o ∧ later.maker? o = some m := by
    rw [keeps, Bool.not_eq_false', Bool.and_eq_true, decide_eq_true_eq, Tie.made,
      Option.isSome_iff_exists]
    simp only [Option.bind_eq_some_iff]
    rfl
  rw [hkeeps, mem_stale]
  constructor
  · rintro ⟨u, hu, o, ho, e', he', hid⟩
    obtain ⟨hm, hout, ho'⟩ := hf.at?_outputs_iff.1 he'
    obtain rfl := hf.wellFormed.edge_ext hm he hid
    obtain ⟨hu, ht⟩ := Graph.mem_inEdges.1 hu
    exact ⟨hout, _, o, ho', hl.maker?_eq_some_iff.2
      ⟨tieOf u, mem_exits.2 ⟨mem_ties.2 ⟨u, hu, rfl⟩, ht⟩, ho, rfl⟩⟩
  · rintro ⟨hout, m, o, ho, hm⟩
    obtain ⟨t, ht, hto, -⟩ := hl.maker?_eq_some_iff.1 hm
    obtain ⟨ht, htarget⟩ := mem_exits.1 ht
    obtain ⟨u, hu, rfl⟩ := mem_ties.1 ht
    exact ⟨u, Graph.mem_inEdges.2 ⟨hu, htarget⟩, o, hto, e,
      hf.at?_outputs_iff.2 ⟨he, hout, ho⟩, rfl⟩

/-- Only edges of the first graph are replaced. -/
theorem mem_edges_of_stale (hf : f.Bordered) {es : List (Edge Link)} {id : EdgeId}
    (h : id ∈ stale f.outputs es) : ∃ e ∈ f.graph.edges, e.id = id := by
  obtain ⟨-, -, o, -, e, he, hid⟩ := mem_stale.1 h
  exact ⟨e, (hf.at?_outputs_iff.1 he).1, hid⟩

/-- When the edges to be replaced are gone, the ties that stay are there. -/
theorem ties_withoutEdges (hf : f.Bordered) (hl : later.Bordered) :
    (f.withoutEdges (stale f.outputs (later.graph.inEdges later.output))).ties = f.kept later := by
  refine ties_filterEdges _ fun e he => ?_
  have := mem_stale_iff hf hl he
  cases hk : f.keeps later (tieOf e) with
  | false => exact decide_eq_false (not_not.2 (this.2 hk))
  | true => exact decide_eq_true fun hm => by simp [this.1 hm] at hk

/-- The graph with the calls of a later one, whose bodies have new handles. -/
def takenUp (f later : Flow) (moved : Table Handle Handle) : Flow :=
  (f.grafted later).rehandle (later.calls.map Prod.fst) moved

/-- The calls that are taken up have new handles; the nodes that were there stay as they are. -/
theorem nodes_takenUp (hf : f.graph.WellFormed) (hl : later.graph.WellFormed)
    (hap : f.Apart later) (moved : Table Handle Handle) :
    (f.takenUp later moved).graph.nodes =
      f.graph.nodes ++ later.innerNodes.map fun n => (n.1, n.2.rehandled moved) := by
  have hcalls : (later.calls.map Prod.fst).Sublist later.graph.nodeIds :=
    later.keys_calls_sublist
  rw [takenUp, rehandle_eq (graft_spec hf hl hap).2.nodes_nodup (hl.nodes_nodup.sublist hcalls)]
  show (f.grafted later).graph.nodes.map _ = _
  rw [nodes_grafted, List.map_append]
  congr 1
  · refine (List.map_congr_left fun n hn => if_neg fun hm => ?_).trans (List.map_id _)
    exact hap.nodes n.1 (List.mem_map_of_mem hn) (hcalls.subset hm)
  · refine List.map_congr_left fun n hn => ?_
    split
    · rfl
    · rename_i hm
      obtain ⟨id, x⟩ := n
      cases x with
      | input => rfl
      | output => rfl
      | call c =>
        exact absurd (List.mem_map.2 ⟨(id, c), List.mem_filterMap.2
          ⟨(id, .call c), List.mem_of_mem_filter hn, rfl⟩, rfl⟩) hm

theorem input_takenUp (f later : Flow) (moved : Table Handle Handle) :
    (f.takenUp later moved).input = f.input := input_rehandle _ _ _

theorem output_takenUp (f later : Flow) (moved : Table Handle Handle) :
    (f.takenUp later moved).output = f.output := output_rehandle _ _ _

theorem edges_takenUp (f later : Flow) (moved : Table Handle Handle) :
    (f.takenUp later moved).graph.edges = f.graph.edges ++ later.innerEdges := by
  rw [takenUp, edges_rehandle, edges_grafted]

theorem mem_nodeIds_takenUp {moved : Table Handle Handle} {n : NodeId} :
    n ∈ (f.takenUp later moved).graph.nodeIds ↔
      n ∈ f.graph.nodeIds ∨ n ∈ later.graph.nodeIds ∧ n ≠ later.input ∧ n ≠ later.output := by
  rw [takenUp, nodeIds_rehandle, nodeIds_grafted, List.mem_append, mem_keys_innerNodes]

namespace Extendable

variable (hx : f.Extendable later) (moved : Table Handle Handle)
include hx

/-- What came into the later graph from outside comes from where the first one left it. -/
theorem connect_takenUp (hb : f.graph.Before s) (hlb : later.graph.Before s) :
    ∃ es s', (f.takenUp later moved).connect s ((f.takenUp later moved).handover f.outputs later) =
        .ok ({ f.takenUp later moved with
          graph := (f.takenUp later moved).graph.withEdges es }, s') ∧
      es.map tieOf = later.entries.map (Tie.handed f) ∧ (∀ e ∈ es, s.next ≤ e.id.value) ∧
      s.next ≤ s'.next ∧ ((f.takenUp later moved).graph.withEdges es).WellFormed ∧
      ((f.takenUp later moved).graph.withEdges es).Before s' := by
  have hhandover := handover_eq (input_takenUp f later moved) later
  have hlink : ∀ l ∈ (f.takenUp later moved).handover f.outputs later, ∃ t ∈ later.entries,
      (⟨l.1, l.2.1, l.2.2⟩ : Tie) = t.handed f := by
    intro l hm
    have := List.mem_map_of_mem (f := fun l => (⟨l.1, l.2.1, l.2.2⟩ : Tie)) hm
    rw [hhandover] at this
    obtain ⟨t, ht, heq⟩ := List.mem_map.1 this
    exact ⟨t, ht, heq.symm⟩
  have hgrafted := (graft_spec hx.first.wellFormed hx.second.wellFormed hx.apart).2
  obtain ⟨es, s', hok, hmap, hrest⟩ := connect_eq_ok (wellFormed_rehandle hgrafted _ moved)
    (before_rehandle (before_grafted hb hlb) _ moved)
    ((f.takenUp later moved).handover f.outputs later)
    (fun l hm => by
      obtain ⟨t, -, heq⟩ := hlink l hm
      have hs : l.1 = (t.handed f).source := congrArg Tie.source heq
      exact mem_nodeIds_takenUp.2 (.inl (hs ▸ handed_source hx.first hx.input_mem t)))
    (fun l hm => by
      obtain ⟨t, ht, heq⟩ := hlink l hm
      have htarget : l.2.1 = t.target := (congrArg Tie.target heq).trans (handed_target f t)
      exact mem_nodeIds_takenUp.2 (.inr (htarget ▸ hx.second.entry_target ht)))
  refine ⟨es, s', hok, ?_, hrest⟩
  rw [← hhandover, ← hmap, List.map_map]
  rfl

/-- Only edges that were there before are replaced. -/
theorem edges_withoutEdges (hb : f.graph.Before s) {es : List (Edge Link)}
    (hes : ∀ e ∈ es, s.next ≤ e.id.value) (ls : List (Edge Link)) :
    (({ f.takenUp later moved with graph := (f.takenUp later moved).graph.withEdges es } :
        Flow).withoutEdges (stale f.outputs ls)).graph.edges =
      (f.withoutEdges (stale f.outputs ls)).graph.edges ++ (later.innerEdges ++ es) := by
  have hinner : later.innerEdges.filter (fun e => e.id ∉ stale f.outputs ls) =
      later.innerEdges := by
    refine List.filter_eq_self.2 fun e he => decide_eq_true fun hm => ?_
    obtain ⟨e', he', hid⟩ := mem_edges_of_stale hx.first hm
    exact hx.apart.edges e' he' e (mem_innerEdges_iff.1 he).1 hid
  have hnew : es.filter (fun e => e.id ∉ stale f.outputs ls) = es := by
    refine List.filter_eq_self.2 fun e he => decide_eq_true fun hm => ?_
    obtain ⟨e', he', hid⟩ := mem_edges_of_stale hx.first hm
    exact absurd (hb.edge_lt e' he') (Nat.not_lt.2 (hid ▸ hes e he))
  show List.filter _ ((f.takenUp later moved).graph.edges ++ es) = _
  rw [edges_takenUp, List.filter_append, List.filter_append, hinner, hnew, List.append_assoc]
  rfl

end Extendable

/-- A graph takes up a later one with which it has nothing in common. -/
theorem append_spec (hx : f.Extendable later) (hb : f.graph.Before s) (hlb : later.graph.Before s)
    (moved : Table Handle Handle) :
    ∃ g s', f.append s later moved = .ok (g, s') ∧ f.Extended later moved s g s' := by
  have ⟨hf, hl, hap, hin, hout, _⟩ := hx
  have hadopt := (graft_spec hf.wellFormed hl.wellFormed hap).1
  obtain ⟨es, s₂, hok₂, hties, hid₂, hle₂, hwf₂, hb₂⟩ := hx.connect_takenUp moved hb hlb
  set f₂ : Flow := { f.takenUp later moved with
    graph := (f.takenUp later moved).graph.withEdges es }
  set olds := stale f.outputs (later.graph.inEdges later.output)
  have hsource : ∀ e ∈ later.graph.inEdges later.output, e.source ∈ f₂.graph.nodeIds := by
    intro e he
    obtain ⟨he, ht⟩ := Graph.mem_inEdges.1 he
    exact mem_nodeIds_takenUp.2 (.inr (hl.exit_source (mem_exits.2 ⟨mem_ties.2 ⟨e, he, rfl⟩, ht⟩)))
  obtain ⟨new, s₃, hok₃, hmap₃, hid₃, hle₃, hwf₃, hb₃⟩ := supersede_spec (f := f₂) hwf₂ hb₂
    (mem_nodeIds_takenUp.2 (.inl (output_takenUp f later moved ▸ hout)))
    (fun o e he => Nat.lt_of_lt_of_le (hb.edge_lt e (hf.at?_outputs_iff.1 he).1) hle₂) hsource
  have hedges : (f₂.withoutEdges olds).graph.edges =
      (f.withoutEdges olds).graph.edges ++ (later.innerEdges ++ es) :=
    hx.edges_withoutEdges moved hb hid₂ _
  refine ⟨{ f₂ with graph := (f₂.withoutEdges olds).graph.withEdges new }, s₃, ?_,
    hwf₃, hb₃, Nat.le_trans hle₂ hle₃, input_takenUp f later moved, output_takenUp f later moved,
    nodes_takenUp hf.wellFormed hl.wellFormed hap moved, fun e he => ?_, ?_⟩
  · rw [append, hadopt, Outcome.ok_bind]
    exact (congrArg (· >>= _) hok₂).trans hok₃
  · rcases List.mem_append.1 he with he | he
    · rw [hedges] at he
      rcases List.mem_append.1 he with he | he
      · exact .inl (List.mem_of_mem_filter he)
      rcases List.mem_append.1 he with he | he
      · exact .inr (.inl (mem_innerEdges_iff.1 he).1)
      · exact .inr (.inr (hid₂ e he))
    · exact .inr (.inr (Nat.le_trans hle₂ (hid₃ e he)))
  · have hexits : new.map tieOf = later.exits.map (Tie.leftAt f) := by
      have hleft : later.exits = (later.graph.inEdges later.output).map tieOf :=
        (ties_filterEdges (f := later) (fun t => t.target = later.output) fun _ _ => rfl).symm
      rw [hmap₃, hleft, List.map_map]
      exact List.map_congr_left fun e _ =>
        congrArg (fun n => (⟨e.source, n, e.data⟩ : Tie)) (output_takenUp f later moved)
    show (((f₂.withoutEdges olds).graph.edges ++ new).map tieOf).Perm _
    rw [hedges, List.map_append, List.map_append, List.map_append, hties, hexits, brought,
      hl.within_eq, ← ties_withoutEdges hf hl, List.append_assoc, List.append_assoc]
    exact List.Perm.refl _

end Append

end Flow

end ObjectFlow
