import ObjectFlow.Proofs.Flow.Recorder

/-!
# Objects come from their last writers

The history of a recorder tells which calls have begun and ended in which scope. From it alone one
can say how the calls of a graph and its output marker are wired: every object comes from the call
and the pin that gave it out last before (`absorb_wired`).

## Outline

The history is a list of happenings, each with its scope and with the node of the call. It is read
off the events by the recorder's own steps, and the writes of a scope are read off the history
(`writesIn`). Nothing in it refers to edges, so it can serve as the specification of the edges.

1. *Graphs.* `Flow.Told` says of one graph that each of its calls has begun at some place of the
   history, that the edges into it are the wires told by the writes before that place (`Wire.into`),
   and that the edges to the output marker are the last writes of all (`Flow.Exits`).
2. *Pages.* The table of producers of a page holds the last write of every object
   (`Sound.lastWrite_eq`). Hence a call that begins is wired as told (`Sound.told_enter`), and an
   object that comes out takes the place of its former exit, while no edge into a call changes
   (`Sound.exits_produce`, `Sound.inEdges_produce`).
3. *Tapes.* One event happens in one scope, and a graph stays told when something happens elsewhere
   (`Told.elsewhere`). Nodes of calls are never used twice, so the place at which a call began is
   the only one.
4. *Runs.* Every event keeps the tape told by the history so far (`told_push`), and by induction
   every run does (`told_absorb`).
-/

namespace ObjectFlow

open ObjectFlow.Graph

/-! ## Histories

An event has at most one happening. None belongs to a return that is refused, and none to one by
which a method was got, because its call is taken back. -/

/-- An object comes out of a call by a pin. -/
structure Write where
  object : ObjectId
  node : NodeId
  pin : String

/-- The last time that an object came out of a call. -/
def lastWrite (ws : List Write) (o : ObjectId) : Option Write :=
  (ws.filter fun w => w.object = o).getLast?

/-- A call begins in a scope or ends there, with the note on its function. -/
inductive Happening where
  | began (scope : Handle) (node : NodeId) (c : Invocation)
  | ended (scope : Handle) (node : NodeId) (r : Completion) (note : Option Note)

namespace Happening

/-- The graph in which the call stands. -/
def scope : Happening → Handle
  | began h _ _ => h
  | ended h _ _ _ => h

/-- The node of a call that begins. -/
def beginner? : Happening → Option NodeId
  | began _ n _ => some n
  | ended _ _ _ _ => none

/-- What comes out in a scope. -/
def writes (h : Handle) : Happening → List Write
  | began _ _ _ => []
  | ended scope node r note =>
    if scope = h then (Flow.produced r note).map fun p => ⟨p.2.id, node, p.1⟩ else []

end Happening

/-- All that came out of calls in a scope. -/
def writesIn (h : Handle) (past : List Happening) : List Write :=
  past.flatMap (Happening.writes h)

namespace Recorder

variable {σ : Type}

/--
What happens by an event: a call begins or ends, unless the return is refused or got a method.
-/
def happening? (r : Recorder σ) : Event → Option Happening
  | .call c =>
    (r.push (.call c)).2.tape.stack.head?.map fun frame => .began r.tape.scope.graph frame.node c
  | .ret x =>
    match r.tape.stack with
    | [] => none
    | frame :: rest =>
      if frame.event.fullName = x.call.fullName ∧ isMethodLookup x = false then
        some (.ended ({ r.tape with stack := rest } : Tape).scope.graph frame.node x
          (r.annotator.function x.call.function r.state).1)
      else none

/-- All that happens by some events. -/
def history (r : Recorder σ) : List Event → List Happening
  | [] => []
  | e :: rest => (r.happening? e).toList ++ (r.push e).2.history rest

end Recorder

/-! ## Wires

A wire is an edge without its identity and without the profile of its object: the ends, the pins and
the object. -/

/-- A reference, by the ends where it leaves and enters and by its object. -/
structure Wire where
  source : NodeId
  sourcePin : Option String
  targetPin : Option String
  object : Option ObjectId

namespace Wire

/-- What an edge is as a wire. -/
def ofEdge (e : Edge Flow.Link) : Wire :=
  ⟨e.source, e.data.sourcePin, e.data.targetPin, e.data.object.id⟩

/--
An object that goes into a call with an argument comes from its last writer, or else from outside; a
newborn receiver that nothing wrote does not come in.
-/
def into? (input : NodeId) (ws : List Write) (c : Invocation) (argument : String) (o : ObjectId) :
    Option Wire :=
  match lastWrite ws o with
  | some w => some ⟨w.node, some w.pin, some argument, some o⟩
  | none => if Tape.isNewborn c argument then none else some ⟨input, none, some argument, some o⟩

/-- How the objects are wired that the arguments of a call are or hold. -/
def into (settings : Settings) (input : NodeId) (ws : List Write) (c : Invocation) : List Wire :=
  c.arguments.flatMap fun e =>
    (Flow.referred settings.trackHidden e.2).filterMap (into? input ws c e.1)

/-- How an object is left at the end of a scope. -/
def exit (w : Write) : Wire := ⟨w.node, some w.pin, none, some w.object⟩

end Wire

/-- The edges to the output marker are the last writes of all objects. -/
def Flow.Exits (ws : List Write) (f : Flow) : Prop :=
  ∀ x, x ∈ (f.graph.inEdges f.output).map Wire.ofEdge ↔
    ∃ o w, lastWrite ws o = some w ∧ x = .exit w

/-- The calls of a graph have begun in its scope, and are wired as the history before them tells. -/
structure Flow.Told (settings : Settings) (h : Handle) (past : List Happening) (f : Flow) :
    Prop where
  calls : ∀ n ∈ Table.keys f.calls, ∃ before c after, past = before ++ .began h n c :: after ∧
    (f.graph.inEdges n).map Wire.ofEdge = Wire.into settings f.input (writesIn h before) c
  exits : f.Exits (writesIn h past)

/-! ## Last writes

Of several writes of one object the last counts. -/

/-- A further write is the last one of its object. -/
theorem lastWrite_concat (ws : List Write) (w : Write) (o : ObjectId) :
    lastWrite (ws ++ [w]) o = if w.object = o then some w else lastWrite ws o := by
  rw [lastWrite, List.filter_append]
  split
  · rename_i h
    rw [List.filter_cons_of_pos (by simpa using h), List.filter_nil, List.getLast?_concat]
  · rename_i h
    rw [List.filter_cons_of_neg (by simpa using h), List.filter_nil, List.append_nil, lastWrite]

theorem object_of_lastWrite {ws : List Write} {o : ObjectId} {w : Write}
    (h : lastWrite ws o = some w) : w.object = o :=
  of_decide_eq_true (List.mem_filter.1 (List.mem_of_getLast? h)).2

/-- Writes are told one happening after the other. -/
theorem writesIn_append (h : Handle) (past more : List Happening) :
    writesIn h (past ++ more) = writesIn h past ++ writesIn h more := List.flatMap_append

/-- Nothing comes out in a scope in which nothing happens. -/
theorem writesIn_of_scope {h : Handle} {past : List Happening} (hs : ∀ x ∈ past, x.scope ≠ h) :
    writesIn h past = [] := by
  refine List.flatMap_eq_nil_iff.2 fun x hx => ?_
  cases x with
  | began => rfl
  | ended => exact if_neg (hs _ hx)

namespace Flow

variable {settings : Settings} {h : Handle} {past : List Happening} {f f' : Flow}

/-- A graph without calls is told by any history that leaves it out. -/
theorem told_empty (s : Supply) (hs : ∀ x ∈ past, x.scope ≠ h) :
    (Flow.empty s).1.Told settings h past := by
  refine ⟨fun n hn => (by cases hn), fun x => ?_⟩
  rw [writesIn_of_scope hs]
  constructor
  · intro hx
    cases hx
  · rintro ⟨o, w, hw, -⟩
    cases hw

/-- A graph stays told when its calls are wired as before and what comes out leaves it. -/
theorem Told.grow (ht : f.Told settings h past) (more : List Happening) (hin : f'.input = f.input)
    (hsub : ∀ n ∈ Table.keys f'.calls, n ∈ Table.keys f.calls)
    (hedges : ∀ n ∈ Table.keys f'.calls, f'.graph.inEdges n = f.graph.inEdges n)
    (hexits : f'.Exits (writesIn h (past ++ more))) : f'.Told settings h (past ++ more) := by
  refine ⟨fun n hn => ?_, hexits⟩
  obtain ⟨before, c, after, rfl, hw⟩ := ht.calls n (hsub n hn)
  exact ⟨before, c, after ++ more, by simp, by rw [hedges n hn, hin, hw]⟩

/-- A graph stays told when something happens in other scopes. -/
theorem Told.elsewhere (ht : f.Told settings h past) {more : List Happening}
    (hs : ∀ x ∈ more, x.scope ≠ h) : f.Told settings h (past ++ more) := by
  refine ht.grow more rfl (fun _ hn => hn) (fun _ _ => rfl) ?_
  rw [writesIn_append, writesIn_of_scope hs, List.append_nil]
  exact ht.exits

end Flow

namespace Page

open ObjectFlow.Flow

variable {p : Page} {ws : List Write} {s : Supply}

/-- The page knows of every object its last write. -/
theorem Sound.lastWrite_eq (h : p.Sound) (hx : p.flow.Exits ws) (o : ObjectId) :
    lastWrite ws o = (Table.at? p.producers o).map fun q => ⟨o, q.node, q.pin⟩ := by
  cases hw : lastWrite ws o with
  | some w =>
    obtain ⟨e, he, hwire⟩ := List.mem_map.1 ((hx _).2 ⟨o, w, hw, rfl⟩)
    obtain ⟨he, ht⟩ := Graph.mem_inEdges.1 he
    obtain ⟨object, node, pin⟩ := w
    obtain rfl : object = o := object_of_lastWrite hw
    simp only [Wire.ofEdge, Wire.exit, Wire.mk.injEq] at hwire
    obtain ⟨hs, hp, -, ho⟩ := hwire
    rw [(h.producers_iff object ⟨node, pin, e.id⟩).2 ⟨e, he, rfl, hs, ht, ho, hp⟩]
    rfl
  | none =>
    cases hq : Table.at? p.producers o with
    | none => rfl
    | some q =>
      obtain ⟨e, he, -, -, ht, ho, -⟩ := (h.producers_iff o q).1 hq
      obtain ⟨o', w, hw', hwire⟩ :=
        (hx _).1 (List.mem_map_of_mem (Graph.mem_inEdges.2 ⟨he, ht⟩))
      simp only [Wire.ofEdge, Wire.exit, Wire.mk.injEq] at hwire
      obtain ⟨-, -, -, ho'⟩ := hwire
      obtain rfl : o = o' := by
        rw [← object_of_lastWrite hw']
        exact Option.some.inj (ho.symm.trans ho')
      rw [hw] at hw'
      cases hw'

/-! ## A call begins

The edges into the new call are made from the table of producers, which is compared with the writes
object by object. -/

/-- Arriving objects are wired by the last writes. -/
theorem Sound.wires_arrivalEdges (h : p.Sound) (hx : p.flow.Exits ws) (c : Invocation)
    (node : NodeId) (s : Supply) {as : List Arrival} (ha : ∀ a ∈ as, a.reference.id = some a.object) :
    (p.arrivalEdges c node s as).1.map Wire.ofEdge =
      as.filterMap fun a => Wire.into? p.flow.input ws c a.argument a.object := by
  induction as generalizing s with
  | nil => rfl
  | cons a as ih =>
    have ih := fun s => ih s fun a' ha' => ha a' (List.mem_cons_of_mem _ ha')
    have hid := ha a List.mem_cons_self
    rw [arrivalEdges, List.filterMap_cons, Wire.into?, h.lastWrite_eq hx, origin?]
    cases Table.at? p.producers a.object with
    | some q =>
      dsimp only [Option.map_some]
      rw [List.map_cons, ih, Wire.ofEdge, hid]
    | none =>
      dsimp only [Option.map_none]
      by_cases hnew : Tape.isNewborn c a.argument = true
      · rw [if_pos hnew, if_pos hnew]
        exact ih s
      · rw [if_neg hnew, if_neg hnew]
        dsimp only
        rw [List.map_cons, ih, Wire.ofEdge, hid]

variable {σ : Type} {a : Annotator σ} {settings : Settings} {state : σ} {h : Handle}
  {past : List Happening}

/-- What goes into a call is wired as the writes tell. -/
theorem Sound.wires_entrance (hp : p.Sound) (hx : p.flow.Exits ws) (c : Invocation)
    (node : NodeId) (s : Supply) :
    (p.arrivalEdges c node s (entrance a settings c state).1.arrivals).1.map Wire.ofEdge =
      Wire.into settings p.flow.input ws c := by
  rw [hp.wires_arrivalEdges hx c node s (entrance_identified a settings c state)]
  have hfun : (fun x : Arrival => Wire.into? p.flow.input ws c x.argument x.object) =
      (fun x : String × ObjectId => Wire.into? p.flow.input ws c x.1 x.2) ∘
        fun x => (x.argument, x.object) := rfl
  rw [hfun, ← List.filterMap_map, map_entrance_arrivals, map_arriving, List.filterMap_flatMap]
  simp only [List.filterMap_map]
  rfl

variable (a state) in
/-- A call that begins has its wires told by what happened before. -/
theorem Sound.told_enter (hp : p.Sound) (hb : p.flow.graph.Before s)
    (ht : p.flow.Told settings h past) (c : Invocation) (body : Option Handle) :
    (p.enter c (entrance a settings c state).1 body s).1.flow.Told settings h
      (past ++ [.began h s.node.1 c]) := by
  set es := (p.arrivalEdges c s.node.1 s.node.2 (entrance a settings c state).1.arrivals).1
    with hes
  have hnew : s.node.1 ∉ p.flow.graph.nodeIds := hb.next_not_mem_nodes
  have hto : ∀ e ∈ es, e.target = s.node.1 := fun e he => (mem_arrivalEdges he).2.1
  have hin : ∀ n, (p.enter c (entrance a settings c state).1 body s).1.flow.graph.inEdges n =
      p.flow.graph.inEdges n ++ es.filter fun e => e.target = n := fun n => List.filter_append _ _
  -- All new edges end at the new node, so the others have the same edges into them.
  have hold : ∀ n ∈ p.flow.graph.nodeIds,
      (p.enter c (entrance a settings c state).1 body s).1.flow.graph.inEdges n =
        p.flow.graph.inEdges n := by
    intro n hn
    rw [hin, List.filter_eq_nil_iff.2 fun e he => ?_, List.append_nil]
    rw [hto e he, decide_eq_true_eq]
    exact fun heq => hnew (heq ▸ hn)
  have hwrites : writesIn h (past ++ [.began h s.node.1 c]) = writesIn h past := by
    rw [writesIn_append]
    exact List.append_nil _
  refine ⟨fun n hn => ?_, ?_⟩
  · rw [calls_enter, Table.keys_append, List.mem_append] at hn
    rcases hn with hn | hn
    · obtain ⟨before, c', after, rfl, hw⟩ := ht.calls n hn
      refine ⟨before, c', after ++ [.began h s.node.1 c], by simp, ?_⟩
      rw [hold n (p.flow.keys_calls_sublist.subset hn)]
      exact hw
    · obtain rfl : n = s.node.1 := List.mem_singleton.1 hn
      refine ⟨past, c, [], rfl, ?_⟩
      have hnone : p.flow.graph.inEdges s.node.1 = [] := List.filter_eq_nil_iff.2 fun e he heq =>
        hnew ((of_decide_eq_true heq) ▸ hp.recorded.wellFormed.target_mem e he)
      have hall : es.filter (fun e => e.target = s.node.1) = es :=
        List.filter_eq_self.2 fun e he => decide_eq_true (hto e he)
      rw [hin, hnone, hall, List.nil_append]
      exact hp.wires_entrance ht.exits c _ _
  · rw [hwrites]
    intro x
    rw [show (p.enter c (entrance a settings c state).1 body s).1.flow.output = p.flow.output
      from rfl, hold _ hp.recorded.output_mem]
    exact ht.exits x

/-! ## A call ends

What comes out of a call takes the exit of its object over. No edge into a call is touched, so the
wires of the calls that are there stay as they were told. -/

/-- An object that comes out loses its former exit and gets a new one. -/
theorem edges_produce (p : Page) (n : NodeId) (s : Supply) (q : Production) :
    (p.produce n s.edge.1 q).flow.graph.edges = (p.released q.object).edges ++
      [⟨s.edge.1, n, p.flow.output, ⟨q.reference, some q.pin, none⟩⟩] := rfl

/-- The edges into calls stay when an object comes out of one. -/
theorem Sound.inEdges_produce (hp : p.Sound) (s : Supply) (n : NodeId) (q : Production)
    {m : NodeId} (hm : m ≠ p.flow.output) :
    (p.produce n s.edge.1 q).flow.graph.inEdges m = p.flow.graph.inEdges m := by
  rw [Graph.inEdges, edges_produce, List.filter_append,
    List.filter_cons_of_neg (by simpa using Ne.symm hm), List.filter_nil, List.append_nil]
  unfold released
  split
  · rename_i old hold
    obtain ⟨e₀, he₀, hid, -, ht₀, -⟩ := (hp.producers_iff _ _).1 hold
    show (p.flow.graph.edges.filter _).filter _ = _
    rw [List.filter_filter]
    refine List.filter_congr fun e he => ?_
    have hkeep : e.target = m → e.id ≠ old.edge := by
      rintro rfl heq
      obtain rfl := hp.recorded.wellFormed.edge_ext he he₀ (heq.trans hid.symm)
      exact hm ht₀
    by_cases ht : e.target = m
    · simp [ht, hkeep ht]
    · simp [ht]
  · rfl

/-- What is left at the end is what was, but for the object, and the object as it came out last. -/
theorem Sound.mem_wires_produce (hp : p.Sound) (s : Supply) {n : NodeId} {q : Production}
    (hq : q.reference.id = some q.object) (x : Wire) :
    x ∈ ((p.produce n s.edge.1 q).flow.graph.inEdges p.flow.output).map Wire.ofEdge ↔
      (x ∈ (p.flow.graph.inEdges p.flow.output).map Wire.ofEdge ∧ x.object ≠ some q.object) ∨
        x = .exit ⟨q.object, n, q.pin⟩ := by
  simp only [List.mem_map, Graph.mem_inEdges, edges_produce, List.mem_append, hp.mem_released_iff,
    List.mem_singleton]
  constructor
  · rintro ⟨e, ⟨⟨he, hne⟩ | rfl, ht⟩, rfl⟩
    · exact .inl ⟨⟨e, ⟨he, ht⟩, rfl⟩, fun ho => hne ⟨ht, ho⟩⟩
    · exact .inr (by simp [Wire.ofEdge, Wire.exit, hq])
  · rintro (⟨⟨e, ⟨he, ht⟩, rfl⟩, hne⟩ | rfl)
    · exact ⟨e, ⟨.inl ⟨he, fun hx => hne hx.2⟩, ht⟩, rfl⟩
    · exact ⟨_, ⟨.inr rfl, rfl⟩, by simp [Wire.ofEdge, Wire.exit, hq]⟩

/-- The exit of an object that comes out takes the place of the last. -/
theorem Sound.exits_produce (hp : p.Sound) (s : Supply) (hx : p.flow.Exits ws)
    {n : NodeId} {q : Production} (hq : q.reference.id = some q.object) :
    (p.produce n s.edge.1 q).flow.Exits (ws ++ [⟨q.object, n, q.pin⟩]) := by
  intro x
  refine (hp.mem_wires_produce s hq x).trans ?_
  rw [hx x]
  constructor
  · rintro (⟨⟨o, w, hw, rfl⟩, hne⟩ | rfl)
    · have ho := object_of_lastWrite hw
      refine ⟨o, w, ?_, rfl⟩
      rw [lastWrite_concat, if_neg fun heq => hne ?_]
      · exact hw
      · exact congrArg some (ho.trans heq.symm)
    · exact ⟨q.object, _, by rw [lastWrite_concat, if_pos rfl], rfl⟩
  · rintro ⟨o, w, hw, rfl⟩
    rw [lastWrite_concat] at hw
    split at hw
    · exact .inr (congrArg Wire.exit (Option.some.inj hw).symm)
    · rename_i hne
      refine .inl ⟨⟨o, w, hw, rfl⟩, fun heq => hne ?_⟩
      exact (Option.some.inj heq).symm.trans (object_of_lastWrite hw)

/-- All objects that come out of a call have their exits there, in the order in which they came out.
-/
theorem Sound.exits_produceAll (hp : p.Sound) (hb : p.flow.graph.Before s) (hx : p.flow.Exits ws)
    {n : NodeId} (hn : n ∈ Table.keys p.flow.calls) {qs : List Production}
    (hq : ∀ q ∈ qs, q.reference.id = some q.object) :
    (p.produceAll n s qs).1.flow.Exits (ws ++ qs.map fun q => ⟨q.object, n, q.pin⟩) ∧
      Table.keys (p.produceAll n s qs).1.flow.calls = Table.keys p.flow.calls ∧
      ∀ m ≠ p.flow.output, (p.produceAll n s qs).1.flow.graph.inEdges m =
        p.flow.graph.inEdges m := by
  induction qs generalizing p s ws with
  | nil => exact ⟨(List.append_nil ws).symm ▸ hx, rfl, fun _ _ => rfl⟩
  | cons q qs ih =>
    have hq₁ := hq q List.mem_cons_self
    have hstep := hp.produce_follows hb hn hq₁
    have hx₁ := hp.exits_produce s hx (n := n) hq₁
    have hkeys : Table.keys (p.produce n s.edge.1 q).flow.calls = Table.keys p.flow.calls := by
      rw [hp.calls_produce hb hn hq₁, Table.keys_adjust]
    obtain ⟨hall, hkeys', hin⟩ := ih hstep.sound hstep.before hx₁ (hkeys ▸ hn)
      fun q' hq' => hq q' (List.mem_cons_of_mem _ hq')
    refine ⟨?_, hkeys'.trans hkeys, fun m hm => (hin m hm).trans (hp.inEdges_produce s n q hm)⟩
    rw [List.map_cons, List.append_cons]
    exact hall

/-- A pending call leaves nothing behind when it is taken back. -/
theorem Sound.inEdges_removeNode (hp : p.Sound) {n m : NodeId} (hn : p.flow.Pending n)
    (hm : m ≠ n) : (p.flow.graph.removeNode n).inEdges m = p.flow.graph.inEdges m := by
  have hmem : n ∈ p.flow.graph.nodeIds := hp.recorded.mem_of_call hn.1
  rw [Graph.removeNode, if_pos (Graph.hasNode_iff.2 hmem)]
  show (p.flow.graph.edges.filter _).filter _ = _
  rw [List.filter_filter]
  refine List.filter_congr fun e he => ?_
  by_cases ht : e.target = m
  · simp [ht, hm, hn.2 e he]
  · simp [ht]

/-- What has happened when a call ends. -/
def endings (h : Handle) (n : NodeId) (e : Completion) (note : Option Note) : List Happening :=
  if Recorder.isMethodLookup e then [] else [.ended h n e note]

/-- A call that ends keeps the graph told, whether it stays or is taken back. -/
theorem Sound.told_conclude (hp : p.Sound) (hb : p.flow.graph.Before s)
    (ht : p.flow.Told settings h past) {n : NodeId} (hn : p.flow.Pending n) (e : Completion) :
    (p.conclude n s e (departure a settings e state).1).1.flow.Told settings h
      (past ++ endings h n e (a.function e.call.function state).1) := by
  unfold conclude endings
  split
  · -- a lookup of a method goes with all of its edges, and wrote nothing
    have hcalls := hp.recorded.calls_removeNode hn.1
    have hsub : ∀ m ∈ Table.keys (p.withGraph (p.flow.graph.removeNode n)).flow.calls,
        m ∈ Table.keys p.flow.calls ∧ m ≠ n := by
      intro m hm
      have hm := (congrArg (m ∈ Table.keys ·) hcalls).mp hm
      rw [Table.keys_without, List.mem_filter] at hm
      exact ⟨hm.1, by simpa using hm.2⟩
    have hout : p.flow.output ≠ n := fun heq => hp.recorded.output_not_mem (heq ▸ hn.1)
    refine ht.grow [] rfl (fun m hm => (hsub m hm).1)
      (fun m hm => hp.inEdges_removeNode hn (hsub m hm).2) fun x => ?_
    rw [List.append_nil]
    refine Iff.trans (Iff.of_eq ?_) (ht.exits x)
    exact congrArg (fun es : List (Edge Link) => x ∈ es.map Wire.ofEdge)
      (hp.inEdges_removeNode hn hout)
  · set d := (departure a settings e state).1 with hd
    set p₁ := (p.adjustCall n (nameSlot e)).adjustCall n
      (fun c => { c with pins := Table.putAll c.pins d.pins }) with hp₁
    have hsound : p₁.Sound := (hp.adjustCall n _).adjustCall n _
    have hkeys : Table.keys p₁.flow.calls = Table.keys p.flow.calls := by
      have h₁ := (hp.adjustCall n (nameSlot e)).recorded.calls_adjustCall n
        (fun c => { c with pins := Table.putAll c.pins d.pins })
      have h₂ := hp.recorded.calls_adjustCall n (nameSlot e)
      refine (congrArg Table.keys h₁).trans ?_
      rw [Table.keys_adjust]
      exact (congrArg Table.keys h₂).trans (Table.keys_adjust _ _ _)
    have hb₁ : p₁.flow.graph.Before s := (hb.adjustNode n _).adjustNode n _
    have hn₁ : n ∈ Table.keys p₁.flow.calls := hkeys ▸ hn.1
    have hq : ∀ q ∈ d.productions, q.reference.id = some q.object :=
      departure_identified a settings e state
    obtain ⟨hexits, hkeys', hin⟩ := hsound.exits_produceAll hb₁ ht.exits hn₁ hq
    -- What is produced is just what the call wrote, in the same order.
    have hwrites : (d.productions.map fun q => (⟨q.object, n, q.pin⟩ : Write)) =
        writesIn h [.ended h n e (a.function e.call.function state).1] := by
      have hmap := congrArg (List.map fun x : ObjectId × String => (⟨x.1, n, x.2⟩ : Write))
        (map_departure_productions a settings e state)
      rw [List.map_map, List.map_map] at hmap
      rw [writesIn, List.flatMap_singleton, Happening.writes, if_pos rfl]
      exact hmap
    refine ht.grow _ (hsound.produceAll_follows hb₁ hn₁ hq).1.input_eq
      (fun m hm => hkeys ▸ hkeys' ▸ hm) (fun m hm => ?_) ?_
    · exact hin m fun heq => hsound.recorded.output_not_mem (heq ▸ hkeys' ▸ hm)
    · rw [writesIn_append, ← hwrites]
      exact hexits

end Page

namespace Tape

/-- All graphs of a recording are told, and every call has begun just once. -/
structure Told (settings : Settings) (past : List Happening) (t : Tape) : Prop where
  flows : ∀ h f, t.recording.graph? h = some f → f.Told settings h past
  scope_lt : ∀ x ∈ past, x.scope.index < t.recording.graphs.length
  node_lt : ∀ n ∈ past.filterMap Happening.beginner?, n.value < t.supply.next
  nodes_nodup : (past.filterMap Happening.beginner?).Nodup

variable {settings : Settings} {past : List Happening} {t : Tape}

theorem told_empty (s : Supply) : (Tape.empty s).Told settings [] := by
  refine ⟨fun h f hf => ?_, by simp, by simp, List.nodup_nil⟩
  obtain rfl : f = (Flow.empty s).1 :=
    List.mem_singleton.1 (List.mem_of_getElem? (hf : [(Flow.empty s).1][h.index]? = some f))
  exact Flow.told_empty s (by simp)

/-- Something happens on the page of the innermost scope. -/
theorem Told.write (ht : t.Told settings past) {p p' : Page} (hp : t.page? = some p) {s' : Supply}
    (hs : t.supply.next ≤ s'.next) {more : List Happening}
    (hscope : ∀ x ∈ more, x.scope = t.scope.graph)
    (hflow : p'.flow.Told settings t.scope.graph (past ++ more))
    (hnodes : ∀ n ∈ more.filterMap Happening.beginner?,
      t.supply.next ≤ n.value ∧ n.value < s'.next)
    (hnodup : (more.filterMap Happening.beginner?).Nodup) :
    (t.write p' s').Told settings (past ++ more) := by
  have hlt : t.scope.graph.index < t.recording.graphs.length :=
    (List.getElem?_eq_some_iff.1 (page?_eq_some_iff.1 hp).1).1
  refine ⟨fun h f hf => ?_, fun x hx => ?_, fun n hn => ?_, ?_⟩
  · rw [recording_write] at hf
    by_cases hh : h = t.scope.graph
    · subst hh
      obtain rfl : p'.flow = f :=
        Option.some.inj ((List.getElem?_set_self hlt).symm.trans hf)
      exact hflow
    · have hne : t.scope.graph.index ≠ h.index := fun hi => hh (by
        cases h
        exact (congrArg Handle.mk hi).symm)
      exact (ht.flows h f ((List.getElem?_set_ne hne).symm.trans hf)).elsewhere
        fun x hx heq => hh (heq.symm.trans (hscope x hx))
  · have hlen : (t.write p' s').recording.graphs.length = t.recording.graphs.length := by
      rw [recording_write]
      exact List.length_set
    rw [hlen]
    rcases List.mem_append.1 hx with hx | hx
    · exact ht.scope_lt x hx
    · rw [hscope x hx]
      exact hlt
  · rw [supply_write]
    rw [List.filterMap_append, List.mem_append] at hn
    rcases hn with hn | hn
    · exact Nat.lt_of_lt_of_le (ht.node_lt n hn) hs
    · exact (hnodes n hn).2
  · rw [List.filterMap_append, List.nodup_append']
    refine ⟨ht.nodes_nodup, hnodup, List.disjoint_left.2 fun n hn hn' => ?_⟩
    exact Nat.lt_irrefl _ (Nat.lt_of_lt_of_le (ht.node_lt n hn) (hnodes n hn').1)

/-- Nothing has happened yet in the scope of a body. -/
theorem Told.openBody (ht : t.Told settings past) (c : Invocation) :
    (t.openBody c).2.Told settings past := by
  unfold Tape.openBody
  split
  · exact ht
  · have hlen : (t.recording.push (Flow.empty t.supply).1).2.graphs.length =
        t.recording.graphs.length + 1 := List.length_append
    refine ⟨fun h f hf => ?_, fun x hx => ?_, fun n hn => ?_, ht.nodes_nodup⟩
    · change (t.recording.graphs ++ [(Flow.empty t.supply).1])[h.index]? = some f at hf
      rw [List.getElem?_append] at hf
      split at hf
      · exact ht.flows h f hf
      · rename_i hge
        have hf : f = (Flow.empty t.supply).1 := List.mem_singleton.1 (List.mem_of_getElem? hf)
        rw [hf]
        exact Flow.told_empty t.supply fun x hx heq => hge (heq ▸ ht.scope_lt x hx)
    · exact Nat.lt_of_lt_of_le (ht.scope_lt x hx) (hlen ▸ Nat.le_succ _)
    · exact Nat.lt_of_lt_of_le (ht.node_lt n hn) (Nat.le_add_right _ 2)

variable {σ : Type} {a : Annotator σ} {state : σ}

theorem scope_openBody (t : Tape) (c : Invocation) : (t.openBody c).2.scope = t.scope := by
  unfold openBody
  split <;> rfl

/-- A call that is recorded keeps the tape told. -/
theorem Told.entered (ht : t.Told settings past) (hv : t.Valid) {p : Page} (hp : t.page? = some p)
    (c : Invocation) : (t.entered p c (Flow.entrance a settings c state).1).Told settings
      (past ++ [.began t.scope.graph (t.openBody c).2.supply.node.1 c]) := by
  have ht₁ := ht.openBody c
  have hv₁ := hv.openBody c
  have hp₁ := page?_openBody hp c
  rw [← scope_openBody t c]
  unfold Tape.entered
  generalize t.openBody c = o at ht₁ hv₁ hp₁
  obtain ⟨body, t₁⟩ := o
  dsimp only at ht₁ hv₁ hp₁ ⊢
  obtain ⟨hsound, hb⟩ := hv₁.sound hp₁
  have hfollows := hsound.enter_follows hb c body (Flow.entrance_identified a settings c state)
  have hflow := hsound.told_enter a state hb (ht₁.flows _ _ (page?_eq_some_iff.1 hp₁).1) c body
  have hwritten := ht₁.write hp₁ hfollows.next_le (fun x hx => by rw [List.mem_singleton.1 hx]; rfl)
    hflow (fun n hn => ?_) (List.nodup_singleton _)
  · exact ⟨hwritten.flows, hwritten.scope_lt, hwritten.node_lt, hwritten.nodes_nodup⟩
  · obtain rfl : n = t₁.supply.node.1 := List.mem_singleton.1 hn
    exact ⟨Nat.le_refl _, hfollows.before.node_lt _
      (hfollows.sound.recorded.mem_of_call (hsound.pending_enter hb c _ body).1)⟩

variable (a state) in
/-- A call that is ended keeps the tape told. -/
theorem Told.concluded (ht : t.Told settings past) (hv : t.Valid) {p : Page}
    (hp : t.page? = some p) {n : NodeId} (hn : p.flow.Pending n) (e : Completion) :
    (t.write (p.conclude n t.supply e (Flow.departure a settings e state).1).1
      (p.conclude n t.supply e (Flow.departure a settings e state).1).2).Told settings
      (past ++ Page.endings t.scope.graph n e (a.function e.call.function state).1) := by
  obtain ⟨hsound, hb⟩ := hv.sound hp
  have hfollows :=
    (hsound.conclude_follows hb hn e (Flow.departure_identified a settings e state)).1
  have hnone : (Page.endings t.scope.graph n e (a.function e.call.function state).1).filterMap
      Happening.beginner? = [] := by
    unfold Page.endings
    split <;> rfl
  refine ht.write hp hfollows.next_le (fun x hx => ?_)
    (hsound.told_conclude hb (ht.flows _ _ (page?_eq_some_iff.1 hp).1) hn e)
    (fun m hm => by rw [hnone] at hm; cases hm) (hnone ▸ List.nodup_nil)
  unfold Page.endings at hx
  split at hx
  · cases hx
  · rw [List.mem_singleton.1 hx]
    rfl

end Tape

namespace Recorder

variable {σ : Type} {r : Recorder σ} {past : List Happening}

theorem settings_settle (r : Recorder σ) (x : Except FlowError Tape) :
    (r.settle x).2.settings = r.settings ∧ (r.settle x).2.annotator = r.annotator := by
  cases x <;> exact ⟨rfl, rfl⟩

/-- No event changes the settings or the annotator. -/
theorem settings_push (r : Recorder σ) (e : Event) :
    (r.push e).2.settings = r.settings ∧ (r.push e).2.annotator = r.annotator := by
  cases e with
  | call c => exact settings_settle _ _
  | ret x =>
    unfold push
    dsimp only
    split
    · exact ⟨rfl, rfl⟩
    · unfold finish
      split
      · exact settings_settle _ _
      · dsimp only
        split
        · exact ⟨rfl, rfl⟩
        · exact settings_settle _ _

/-- A call begins at the node that it gets. -/
theorem happening?_call (hv : r.tape.Valid) {p : Page} (hp : r.tape.page? = some p)
    (c : Invocation) : r.happening? (.call c) =
      some (.began r.tape.scope.graph (r.tape.openBody c).2.supply.node.1 c) := by
  rw [happening?, push, begin_eq hv hp c]
  rfl

/-- Any event keeps the tape told, with what happened by it. -/
theorem told_push (hv : r.tape.Valid) (ht : r.tape.Told r.settings past) (e : Event) :
    (r.push e).2.tape.Told r.settings (past ++ (r.happening? e).toList) := by
  cases e with
  | call c =>
    obtain ⟨p, hp, -⟩ := hv.exists_page
    rw [happening?_call hv hp, push, begin_eq hv hp c]
    exact ht.entered hv hp c
  | ret x =>
    rw [happening?, push, Tape.pop]
    cases hs : r.tape.stack with
    | nil =>
      rw [Option.toList_none, List.append_nil]
      exact ht
    | cons frame rest =>
      have hrest : ({ r.tape with stack := rest } : Tape).Told r.settings past :=
        ⟨ht.flows, ht.scope_lt, ht.node_lt, ht.nodes_nodup⟩
      dsimp only
      by_cases hname : frame.event.fullName = x.call.fullName
      · obtain ⟨p, hp, hpend, -⟩ := pending_top hv hs
        have heq := finish_eq (r := { r with tape := { r.tape with stack := rest } })
          (hv.unstacked hs) hp hpend x
        have hall := hrest.concluded r.annotator r.state (hv.unstacked hs) hp hpend x
        have hending : (if frame.event.fullName = x.call.fullName ∧ isMethodLookup x = false then
            some (Happening.ended ({ r.tape with stack := rest } : Tape).scope.graph frame.node x
              (r.annotator.function x.call.function r.state).1) else none).toList =
            Page.endings ({ r.tape with stack := rest } : Tape).scope.graph frame.node x
              (r.annotator.function x.call.function r.state).1 := by
          cases hlookup : isMethodLookup x <;> simp [Page.endings, hlookup, hname]
        rw [if_pos hname, hending]
        dsimp only
        rw [heq]
        exact hall
      · rw [if_neg hname, if_neg fun hx => hname hx.1, Option.toList_none, List.append_nil]
        exact hrest

/-- Any run of events keeps the tape told, with its history. -/
theorem told_absorb (hv : r.tape.Valid) (ht : r.tape.Told r.settings past) (events : List Event) :
    (r.absorb events).tape.Told r.settings (past ++ r.history events) := by
  induction events generalizing r past with
  | nil =>
    rw [history, List.append_nil]
    exact ht
  | cons e events ih =>
    have hstep := told_push hv ht e
    rw [← (settings_push r e).1] at hstep
    rw [history, ← List.append_assoc, ← (settings_push r e).1]
    exact ih (push_spec hv e).1 hstep

/--
At any time the edges into a call are those by which the objects that go in come from their last
writers in its scope before the call began, and the edges to the output marker of a graph are the
last writes of all objects in its scope.
-/
theorem absorb_wired (a : Annotator σ) (state : σ) (settings : Settings) (s : Supply)
    (events : List Event) :
    let r := start a state settings s
    (∀ h f, (r.absorb events).tape.recording.graph? h = some f →
      (∀ n ∈ Table.keys f.calls, ∃ before c after,
        r.history events = before ++ .began h n c :: after ∧
        (f.graph.inEdges n).map Wire.ofEdge = Wire.into settings f.input (writesIn h before) c) ∧
      ((f.graph.inEdges f.output).map Wire.ofEdge).Nodup ∧
      ∀ x, x ∈ (f.graph.inEdges f.output).map Wire.ofEdge ↔
        ∃ o w, lastWrite (writesIn h (r.history events)) o = some w ∧ x = .exit w) ∧
    ((r.history events).filterMap Happening.beginner?).Nodup := by
  intro r
  have hvalid := valid_start a state settings s
  have htold : (r.absorb events).tape.Told settings (r.history events) :=
    told_absorb hvalid (Tape.told_empty s) events
  refine ⟨fun h f hf => ?_, htold.nodes_nodup⟩
  have hf' := htold.flows h f hf
  refine ⟨hf'.calls, ?_, hf'.exits⟩
  have hrec : f.Recorded := (valid_absorb hvalid events).kept.recorded h.index f hf
  have hnd : (f.graph.inEdges f.output).Nodup :=
    (List.Nodup.of_map _ hrec.wellFormed.edges_nodup).filter _
  refine hnd.map_on fun e he e' he' heq => ?_
  rw [Graph.mem_inEdges] at he he'
  exact hrec.last e he.1 e' he'.1 he.2 he'.2 (congrArg Wire.object heq)

end Recorder

end ObjectFlow
