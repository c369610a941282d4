import ObjectFlow.Proofs.Flow.Continue
import ObjectFlow.Proofs.Flow.Steady

/-!
# A tape that resumes a recording

The same events are recorded on a new tape and on one whose calls have all ended. Then the second
tape has the graphs of the recording, of which the outermost one is continued, and behind them the
bodies of the new tape (`Resumes`). Every event keeps this up (`Recorder.Beside.absorb`), as long as
the answers of the annotator do not change.

## Outline

`Resumes` relates the tapes graph by graph. The outermost graph of the one continues that of the
recording; the graph of a body continues an empty graph, so that the two cases are one (`Base`). The
stacks have the same shape, under the map `ρ` of nodes and with the handles moved behind the
recording (`Handle.behind`).

An event is a write on the pages of the innermost scopes, and these correspond (`exists_pages`).
When a node is made on both tapes, `ρ` is extended by it: identities below the supply keep their
names, and those from the supply on are counted in step (`extend`). So the map is found on the way
and depends on the events.

Recorders ask their annotators from different states. `Beside` keeps both states among those that
can be reached, where answers are the same.
-/

namespace ObjectFlow

/-- Where the graphs of a later recording stand behind the graphs of an earlier one. -/
def Handle.behind (size : Nat) (h : Handle) : Handle :=
  if h.index = 0 then ⟨0⟩ else ⟨size + (h.index - 1)⟩

theorem Handle.behind_of_pos {size : Nat} {h : Handle} (hh : 0 < h.index) :
    h.behind size = ⟨size + (h.index - 1)⟩ := if_neg (Nat.ne_of_gt hh)

/-- Graphs keep different places. -/
theorem Handle.behind_injective {size : Nat} (hs : 0 < size) {h h' : Handle}
    (heq : h.behind size = h'.behind size) : h = h' := by
  obtain ⟨i⟩ := h
  obtain ⟨j⟩ := h'
  unfold behind at heq
  congr 1
  split at heq <;> split at heq <;> simp only [Handle.mk.injEq] at heq <;>
    simp only at * <;> omega

namespace Tape

/-- The graph that a graph of a later recording continues. -/
def Base (first : Recording) (i : Nat) (base : Flow) : Prop :=
  i = 0 ∧ first.graphs[0]? = some base ∨ 0 < i ∧ ∃ s, base = (Flow.empty s).1

/-- What is continued was recorded. -/
theorem Base.recorded {first : Recording} {s : Supply} (hfirst : first.Kept s) {i : Nat}
    {base : Flow} (h : Base first i base) : base.Recorded := by
  rcases h with ⟨-, hb⟩ | ⟨-, s, rfl⟩
  · exact hfirst.recorded 0 base hb
  · exact Flow.recorded_empty s

/-- What a tape has recorded since a first recording is what another tape has recorded. -/
structure Resumes (first : Recording) (ρ : NodeId → NodeId) (t w : Tape) : Prop where
  length_eq : w.recording.graphs.length + 1 =
    first.graphs.length + t.recording.graphs.length
  older : ∀ i, 0 < i → i < first.graphs.length →
    w.recording.graphs[i]? = first.graphs[i]?
  flows : ∀ (i : Nat) (later : Flow), t.recording.graphs[i]? = some later →
    ∃ base whole, Base first i base ∧
      w.recording.graph? (Handle.behind first.graphs.length ⟨i⟩) = some whole ∧
      Flow.Continues ρ (Handle.behind first.graphs.length) base later whole
  shapes : w.stack.map Frame.shape = (t.stack.map Frame.shape).map fun x =>
    (x.1, ρ x.2.1, x.2.2.map (Handle.behind first.graphs.length))

/-- The next nodes of one tape have the names of the next nodes of another one. -/
def extend (ρ : NodeId → NodeId) (s s' : Supply) (n : NodeId) : NodeId :=
  if n.value < s.next then ρ n else ⟨s'.next + (n.value - s.next)⟩

/-- Identities that are still to come are counted in step. -/
theorem extend_next (ρ : NodeId → NodeId) (s s' : Supply) (k : Nat) :
    extend ρ s s' ⟨s.next + k⟩ = ⟨s'.next + k⟩ := by
  rw [extend, if_neg (Nat.not_lt.2 (Nat.le_add_right _ _)), Nat.add_sub_cancel_left]

namespace Resumes

variable {first : Recording} {ρ : NodeId → NodeId} {t w : Tape}

/-- The innermost scopes correspond. -/
theorem scope_eq (h : Resumes first ρ t w) (ht : t.Valid) (hw : w.Valid) :
    w.scope.graph = t.scope.graph.behind first.graphs.length := by
  rw [scope_graph_eq, scope_graph_eq, h.shapes, hw.root_eq, hw.kept.root_eq, ht.root_eq,
    ht.kept.root_eq]
  induction t.stack.map Frame.shape with
  | nil => rfl
  | cons x rest ih =>
    rw [List.map_cons, List.findSome?_cons, List.findSome?_cons]
    cases hx : x.2.2 with
    | some s => simp
    | none => simpa using ih

/-- The innermost scopes have pages of which one continues the other. -/
theorem exists_pages (h : Resumes first ρ t w) (ht : t.Valid) (hw : w.Valid) :
    ∃ p q base, t.page? = some p ∧ w.page? = some q ∧ Base first t.scope.graph.index base ∧
      Flow.Continues ρ (Handle.behind first.graphs.length) base p.flow q.flow := by
  obtain ⟨p, hp, -⟩ := ht.exists_page
  obtain ⟨q, hq, -⟩ := hw.exists_page
  obtain ⟨base, whole, hbase, hwhole, hcont⟩ := h.flows _ _ (page?_eq_some_iff.1 hp).1
  rw [← h.scope_eq ht hw] at hwhole
  obtain rfl := Option.some.inj (hwhole.symm.trans (page?_eq_some_iff.1 hq).1)
  exact ⟨p, q, base, hp, hq, hbase, hcont⟩

/-- Names of nodes that are still to come may be changed. -/
theorem congr (h : Resumes first ρ t w) (ht : t.Valid) {ρ' : NodeId → NodeId}
    (hρ : ∀ n : NodeId, n.value < t.supply.next → ρ' n = ρ n) : Resumes first ρ' t w := by
  refine ⟨h.length_eq, h.older, fun i later hl => ?_, h.shapes.trans ?_⟩
  · obtain ⟨base, whole, hbase, hwhole, hcont⟩ := h.flows i later hl
    exact ⟨base, whole, hbase, hwhole, hcont.congr (ht.kept.recorded i later hl).toFramed
      fun n hn => hρ n ((ht.kept.before i later hl).node_lt n hn)⟩
  · refine List.map_congr_left fun x hx => ?_
    obtain ⟨f, hf, rfl⟩ := List.mem_map.1 hx
    have hn : f.node ∈ t.seats.map Prod.snd := t.map_node_seats ▸ List.mem_map_of_mem hf
    obtain ⟨y, hy, hyn⟩ := List.mem_map.1 hn
    obtain ⟨g, hg, hpend⟩ := ht.seated y hy
    have hlt := (ht.kept.before _ g hg).node_lt y.2
      ((ht.kept.recorded _ g hg).mem_of_call hpend.1)
    rw [Frame.shape, hρ _ (hyn ▸ hlt)]

/-- Something is written on the pages of the innermost scopes. -/
theorem write (h : Resumes first ρ t w) (hfirst : 0 < first.graphs.length) (ht : t.Valid)
    (hw : w.Valid) {p p' q q' : Page} (hp : t.page? = some p) (hq : w.page? = some q)
    (s s' : Supply)
    (hcont : ∀ base, Base first t.scope.graph.index base →
      Flow.Continues ρ (Handle.behind first.graphs.length) base p.flow q.flow →
      Flow.Continues ρ (Handle.behind first.graphs.length) base p'.flow q'.flow) :
    Resumes first ρ (t.write p' s) (w.write q' s') := by
  have hscope := h.scope_eq ht hw
  obtain ⟨hpf, -⟩ := page?_eq_some_iff.1 hp
  obtain ⟨hqf, -⟩ := page?_eq_some_iff.1 hq
  have hset : ∀ g : Handle, g ≠ w.scope.graph →
      (w.recording.set w.scope.graph q'.flow).graph? g = w.recording.graph? g := by
    intro g hne
    refine List.getElem?_set_ne fun hi => hne ?_
    cases g
    exact (congrArg Handle.mk hi).symm
  refine ⟨?_, fun i hi hi' => ?_, fun i later hl => ?_, ?_⟩
  · rw [recording_write, recording_write]
    simpa [Recording.set] using h.length_eq
  · rw [recording_write, ← h.older i hi hi']
    refine hset ⟨i⟩ fun heq => ?_
    rw [hscope] at heq
    by_cases hz : t.scope.graph.index = 0
    · rw [Handle.behind, if_pos hz] at heq
      cases heq
      exact Nat.lt_irrefl _ hi
    · rw [Handle.behind, if_neg hz] at heq
      cases heq
      omega
  · -- the graph of the page continues as its page does, and all others as before
    rw [recording_write] at hl ⊢
    rcases Recording.set_cases hl with ⟨hi, hl⟩ | ⟨rfl, rfl⟩
    · obtain ⟨base, whole, hbase, hwhole, hc⟩ := h.flows i later hl
      refine ⟨base, whole, hbase, (hset _ fun heq => hi ?_).trans hwhole, hc⟩
      rw [hscope] at heq
      exact congrArg Handle.index (Handle.behind_injective hfirst heq)
    · obtain ⟨base, whole, hbase, hwhole, hc⟩ := h.flows _ _ hpf
      rw [← hscope] at hwhole
      obtain rfl := Option.some.inj (hwhole.symm.trans hqf)
      refine ⟨base, q'.flow, hbase, ?_, hcont base hbase hc⟩
      rw [← hscope]
      exact List.getElem?_set_self (List.getElem?_eq_some_iff.1 hqf).1
  · rw [map_shape_write, map_shape_write]
    exact h.shapes

/-! ## A call begins

A new body is opened on both tapes, the call is put on both pages, and a frame on both stacks. -/

/-- The graphs of a body are opened at the same time. -/
theorem openBody (h : Resumes first ρ t w) (ht : t.Valid)
    (c : Invocation) :
    Resumes first (extend ρ t.supply w.supply) (t.openBody c).2 (w.openBody c).2 ∧
      (w.openBody c).1 = (t.openBody c).1.map (Handle.behind first.graphs.length) ∧
      extend ρ t.supply w.supply (t.openBody c).2.supply.node.1 =
        (w.openBody c).2.supply.node.1 := by
  have hρ : Resumes first (extend ρ t.supply w.supply) t w :=
    h.congr ht fun n hn => if_pos hn
  have hlen := h.length_eq
  have hpos := ht.kept.root_lt
  unfold Tape.openBody
  split
  · exact ⟨hρ, rfl, extend_next ρ t.supply w.supply 0⟩
  · have hbehind : Handle.behind first.graphs.length ⟨t.recording.graphs.length⟩ =
        ⟨w.recording.graphs.length⟩ := by
      rw [Handle.behind_of_pos hpos]
      exact congrArg Handle.mk (by simp only; omega)
    refine ⟨⟨?_, fun i hi hi' => ?_, fun i later hl => ?_, hρ.shapes⟩, congrArg some hbehind.symm,
      extend_next ρ t.supply w.supply 2⟩
    · simp only [Recording.push, List.length_append, List.length_singleton]
      omega
    · have hlt : i < w.recording.graphs.length := by omega
      exact (List.getElem?_append_left hlt).trans (hρ.older i hi hi')
    · rcases Recording.push_cases hl with hl | ⟨rfl, rfl⟩
      · obtain ⟨base, whole, hbase, hwhole, hcont⟩ := hρ.flows i later hl
        refine ⟨base, whole, hbase, ?_, hcont⟩
        exact (List.getElem?_append_left (List.getElem?_eq_some_iff.1 hwhole).1).trans hwhole
      · refine ⟨(Flow.empty w.supply).1, (Flow.empty w.supply).1, .inr ⟨hpos, _, rfl⟩, ?_, ?_⟩
        · rw [hbehind]
          simp [Recording.push, Recording.graph?]
        · exact .empty (extend_next ρ t.supply w.supply 0) (extend_next ρ t.supply w.supply 1)

/-- A call that is open on both tapes. -/
theorem stacked (h : Resumes first ρ t w) (c : Invocation) (n : NodeId) (body : Option Handle) :
    Resumes first ρ (t.stacked c n body)
      (w.stacked c (ρ n) (body.map (Handle.behind first.graphs.length))) := by
  refine ⟨h.length_eq, h.older, h.flows, ?_⟩
  show _ :: w.stack.map Frame.shape = _ :: _
  rw [h.shapes]
  cases body <;> rfl

/-- A call begins on both tapes. -/
theorem entered (h : Resumes first ρ t w) {s : Supply} (hfirst : first.Kept s) (ht : t.Valid)
    (hw : w.Valid) {p q : Page} (hp : t.page? = some p) (hq : w.page? = some q) (c : Invocation)
    {e : Flow.Entrance} (he : ∀ a ∈ e.arrivals, a.reference.id = some a.object) :
    Resumes first (extend ρ t.supply w.supply) (t.entered p c e) (w.entered q c e) := by
  obtain ⟨hopen, hbody, hnode⟩ := h.openBody ht c
  have ht₁ := ht.openBody c
  have hw₁ := hw.openBody c
  have hp₁ := page?_openBody hp c
  have hq₁ := page?_openBody hq c
  unfold Tape.entered
  generalize extend ρ t.supply w.supply = ρ' at hopen hnode ⊢
  generalize t.openBody c = x at hopen hbody hnode ht₁ hp₁ ⊢
  generalize w.openBody c = y at hopen hbody hnode hw₁ hq₁ ⊢
  obtain ⟨body, t₁⟩ := x
  obtain ⟨body', w₁⟩ := y
  dsimp only at hopen hbody hnode ht₁ hp₁ hw₁ hq₁ ⊢
  subst hbody
  rw [← hnode]
  refine (hopen.write hfirst.root_lt ht₁ hw₁ hp₁ hq₁ _ _
    fun base hbase hcont => ?_).stacked c _ body
  obtain ⟨hps, hpb⟩ := ht₁.sound hp₁
  obtain ⟨hqs, hqb⟩ := hw₁.sound hq₁
  exact hcont.enter (hbase.recorded hfirst) hps hqs hpb hqb hnode c body he

/-! ## A call ends

The call that ends on the one tape is the one that ends on the other, as the stacks have the same
shape. -/

/-- A call ends on both tapes. -/
theorem concluded (h : Resumes first ρ t w) {s : Supply} (hfirst : first.Kept s) (ht : t.Valid)
    (hw : w.Valid) {p q : Page} (hp : t.page? = some p) (hq : w.page? = some q) {n : NodeId}
    (hn : p.flow.Pending n) (e : Completion) {d : Flow.Departure}
    (hd : ∀ x ∈ d.productions, x.reference.id = some x.object) :
    Resumes first ρ (t.write (p.conclude n t.supply e d).1 (p.conclude n t.supply e d).2)
      (w.write (q.conclude (ρ n) w.supply e d).1 (q.conclude (ρ n) w.supply e d).2) := by
  obtain ⟨hps, hpb⟩ := ht.sound hp
  obtain ⟨hqs, hqb⟩ := hw.sound hq
  exact h.write hfirst.root_lt ht hw hp hq _ _ fun base hbase hcont =>
    hcont.conclude (hbase.recorded hfirst) hps hqs hpb hqb hn e hd

/-- The innermost call is the same on both tapes. -/
theorem unstacked (h : Resumes first ρ t w) {f g : Frame} {rest rest' : List Frame}
    (ht : t.stack = f :: rest) (hw : w.stack = g :: rest') :
    g.event = f.event ∧ g.node = ρ f.node ∧
      Resumes first ρ { t with stack := rest } { w with stack := rest' } := by
  have hshapes := h.shapes
  rw [ht, hw, List.map_cons, List.map_cons, List.map_cons, List.cons.injEq, Frame.shape,
    Frame.shape, Prod.mk.injEq, Prod.mk.injEq] at hshapes
  exact ⟨hshapes.1.1, hshapes.1.2.1, h.length_eq, h.older, h.flows, hshapes.2⟩

end Resumes

end Tape

namespace Recorder

variable {σ : Type} {a : Annotator σ} {state : σ} {settings : Settings} {first : Recording}
variable {ρ : NodeId → NodeId} {r w : Recorder σ}

/-- A recorder on a new tape beside one on a tape that resumes a first recording. -/
structure Beside (a : Annotator σ) (state : σ) (settings : Settings) (first : Recording)
    (ρ : NodeId → NodeId) (r w : Recorder σ) : Prop where
  annotator_eq : r.annotator = a
  annotator_eq' : w.annotator = a
  settings_eq : r.settings = settings
  settings_eq' : w.settings = settings
  reaches : a.Reaches state r.state
  reaches' : a.Reaches state w.state
  valid : r.tape.Valid
  valid' : w.tape.Valid
  resumes : Tape.Resumes first ρ r.tape w.tape

/-- A call that begins keeps the recorders beside each other. -/
theorem Beside.begin (h : Beside a state settings first ρ r w) (ha : a.Steady state) {s : Supply}
    (hfirst : first.Kept s) (c : Invocation) :
    ∃ ρ', Beside a state settings first ρ' (r.begin c).2 (w.begin c).2 := by
  obtain ⟨p, q, -, hp, hq, -⟩ := h.resumes.exists_pages h.valid h.valid'
  have hr := Flow.settled_entrance ha settings c _ h.reaches
  have hw := Flow.settled_entrance ha settings c _ h.reaches'
  have hid := Flow.entrance_identified a settings c r.state
  rw [begin_eq h.valid hp, begin_eq h.valid' hq, h.annotator_eq, h.annotator_eq', h.settings_eq,
    h.settings_eq', hw.1, ← hr.1]
  exact ⟨_, rfl, rfl, rfl, rfl, hr.2, hw.2, h.valid.entered hp c hid, h.valid'.entered hq c hid,
    h.resumes.entered hfirst h.valid h.valid' hp hq c hid⟩

/-- A call that ends keeps the recorders beside each other. -/
theorem Beside.finish (h : Beside a state settings first ρ r w) (ha : a.Steady state) {s : Supply}
    (hfirst : first.Kept s) {p q : Page} (hp : r.tape.page? = some p)
    (hq : w.tape.page? = some q) {n : NodeId} (hn : p.flow.Pending n)
    (hn' : q.flow.Pending (ρ n)) (hseat : n ∉ r.tape.seats.map Prod.snd)
    (hseat' : ρ n ∉ w.tape.seats.map Prod.snd) (x : Completion) :
    Beside a state settings first ρ (r.finish n x).2 (w.finish (ρ n) x).2 := by
  have hr := Flow.settled_departure ha settings x _ h.reaches
  have hw := Flow.settled_departure ha settings x _ h.reaches'
  have hid := Flow.departure_identified a settings x r.state
  rw [finish_eq h.valid hp hn, finish_eq h.valid' hq hn', h.annotator_eq, h.annotator_eq',
    h.settings_eq, h.settings_eq', hw.1, ← hr.1]
  refine ⟨rfl, rfl, rfl, rfl, ?_, ?_, h.valid.concluded hp hn hseat x hid,
    h.valid'.concluded hq hn' hseat' x hid,
    h.resumes.concluded hfirst h.valid h.valid' hp hq hn x hid⟩
  · show a.Reaches state (if _ then _ else _)
    split
    · exact h.reaches
    · exact hr.2
  · show a.Reaches state (if _ then _ else _)
    split
    · exact h.reaches'
    · exact hw.2

/-- Any event keeps the recorders beside each other. -/
theorem Beside.push (h : Beside a state settings first ρ r w) (ha : a.Steady state) {s : Supply}
    (hfirst : first.Kept s) (e : Event) :
    ∃ ρ', Beside a state settings first ρ' (r.push e).2 (w.push e).2 := by
  cases e with
  | call c => exact h.begin ha hfirst c
  | ret x =>
    have hshapes := h.resumes.shapes
    rw [Recorder.push, Recorder.push, Tape.pop, Tape.pop]
    cases hs : r.tape.stack with
    | nil =>
      rw [hs] at hshapes
      rw [List.map_eq_nil_iff.1 hshapes]
      exact ⟨ρ, h⟩
    | cons f rest =>
      cases hs' : w.tape.stack with
      | nil =>
        rw [hs, hs'] at hshapes
        cases hshapes
      | cons g rest' =>
        obtain ⟨hevent, hnode, hrest⟩ := h.resumes.unstacked hs hs'
        obtain ⟨p, hp, hn, hseat⟩ := pending_top h.valid hs
        obtain ⟨q, hq, hn', hseat'⟩ := pending_top h.valid' hs'
        have hpopped : Beside a state settings first ρ
            { r with tape := { r.tape with stack := rest } }
            { w with tape := { w.tape with stack := rest' } } :=
          ⟨h.annotator_eq, h.annotator_eq', h.settings_eq, h.settings_eq', h.reaches, h.reaches',
            h.valid.unstacked hs, h.valid'.unstacked hs', hrest⟩
        rw [hnode] at hn' hseat'
        dsimp only
        rw [hevent, hnode]
        by_cases hname : f.event.fullName = x.call.fullName
        · rw [if_pos hname, if_pos hname]
          exact ⟨ρ, hpopped.finish ha hfirst hp hq hn hn' hseat hseat' x⟩
        · rw [if_neg hname, if_neg hname]
          exact ⟨ρ, hpopped⟩

/-- Any run of events keeps the recorders beside each other. -/
theorem Beside.absorb (h : Beside a state settings first ρ r w) (ha : a.Steady state) {s : Supply}
    (hfirst : first.Kept s) (events : List Event) :
    ∃ ρ', Beside a state settings first ρ' (r.absorb events) (w.absorb events) := by
  induction events generalizing ρ r w with
  | nil => exact ⟨ρ, h⟩
  | cons e events ih =>
    obtain ⟨ρ', h'⟩ := h.push ha hfirst e
    exact ih h'

end Recorder

end ObjectFlow
