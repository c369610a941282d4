import ObjectFlow.Proofs.Flow.Append
import ObjectFlow.Proofs.Flow.Remember
import ObjectFlow.Proofs.Flow.Resume

/-!
# Recording in pieces

The join of two recordings, the second of which was begun when all calls of the first one had ended,
is what one recording of all events would have been, up to the names of the nodes and without the
ties that revive a receiver (`Recorder.join_absorb`).

The recorder is one that remembers the answers of its annotator. Each recording then remembers on
its own, while one recording of all events goes on with what the first part was told. So the
annotator must give steady answers, and one answer for all functions that are remembered as one.
Without the second condition the two differ (`Recorder.join_asks_anew`).

## Outline

1. *Graphs.* `Alike ρ f g` compares two graphs of a recording whose nodes have other names: the
   markers and calls agree in their order under `ρ`, and the edges agree as ties, in any order. A
   graph that takes up a later one is alike to one that was continued with it, less the ties that
   are revived (`Continues.alike`); the graph of a body is only moved (`Continues.alike_body`).
2. *Recordings.* The graphs of the second recording other than its root follow those of the first,
   with their bodies moved behind them (`Recording.Kept.join_spec`). One map of names serves all
   graphs, since what is younger than the first recording has an identity past its supply
   (`Tape.Resumes.renamed`).
3. *Runs.* A new tape is resumed by one whose calls have all ended (`Tape.Resumes.exists_empty`),
   and every event that both record keeps it so (`Recorder.exists_resumes`). With the steps before,
   this gives the theorem for recorders that ask their annotator afresh (`Recorder.join_afresh`).
4. *Memory.* What a recorder remembers does not show in its tape
   (`Recorder.tape_absorb_remembering`), for either part and for the whole. Steady answers agree at
   the state in which the second part begins wherever they agreed at first
   (`Annotator.Keyed.reached`).
-/

namespace ObjectFlow

namespace Flow

/-! ## Graphs that differ in the names of their nodes

Identities of edges are drawn from the supply like those of nodes, and edges are redrawn while
recording, so neither their identities nor their order can be the same in a join. As ties they
can. -/

/-- A tie between nodes under other names. -/
def Tie.rename (ρ : NodeId → NodeId) (t : Tie) : Tie := ⟨ρ t.source, ρ t.target, t.data⟩

/-- The second graph has the calls and ties of the first one under other names. -/
structure Alike (ρ : NodeId → NodeId) (f g : Flow) : Prop where
  input_eq : g.input = ρ f.input
  output_eq : g.output = ρ f.output
  calls_eq : g.calls = f.calls.map fun c => (ρ c.1, c.2)
  ties_perm : g.ties.Perm (f.ties.map (Tie.rename ρ))

/-- The graph without the ties that revive what an earlier graph left. -/
def unrevived (f base : Flow) : Flow :=
  { f with graph := { f.graph with
      edges := f.graph.edges.filter fun e => ¬ (tieOf e).Revives base f } }

theorem ties_unrevived (f base : Flow) :
    (f.unrevived base).ties = f.ties.filter fun t => ¬ t.Revives base f :=
  ties_filterEdges (f := f) (fun t => ¬ t.Revives base f) fun _ _ => rfl

/-- The nodes are the markers and the calls, so they correspond as well. -/
theorem Alike.nodeIds_eq {ρ : NodeId → NodeId} {f g : Flow} (h : Alike ρ f g) (hf : f.Framed)
    (hg : g.Framed) : g.graph.nodeIds = f.graph.nodeIds.map ρ := by
  rw [hg.nodeIds_eq, hf.nodeIds_eq, h.input_eq, h.output_eq, h.calls_eq]
  simp [Table.keys, Function.comp_def]

theorem Alike.length_ties {ρ : NodeId → NodeId} {f g : Flow} (h : Alike ρ f g) :
    g.ties.length = f.ties.length := by
  rw [h.ties_perm.length_eq, List.length_map]

variable {ρ : NodeId → NodeId} {f : Flow}

/-- Ties between nodes that keep their names stay as they are. -/
theorem Framed.map_rename (hf : f.Framed) (h : ∀ n ∈ f.graph.nodeIds, ρ n = n) {ts : List Tie}
    (hts : ∀ t ∈ ts, t ∈ f.ties) : ts.map (Tie.rename ρ) = ts := by
  refine (List.map_congr_left fun t ht => ?_).trans (List.map_id _)
  obtain ⟨e, he, rfl⟩ := mem_ties.1 (hts t ht)
  show (⟨ρ e.source, ρ e.target, e.data⟩ : Tie) = tieOf e
  rw [h _ (hf.wellFormed.source_mem e he), h _ (hf.wellFormed.target_mem e he)]
  rfl

theorem Framed.map_calls_rename (hf : f.Framed) (h : ∀ n ∈ f.graph.nodeIds, ρ n = n) :
    (f.calls.map fun c => (ρ c.1, c.2)) = f.calls := by
  refine (List.map_congr_left fun c hc => ?_).trans (List.map_id _)
  rw [h _ (hf.mem_of_call (Table.mem_keys.2 ⟨c.2, hc⟩))]
  rfl

/-- A graph whose nodes keep their names is alike to itself. -/
theorem Framed.alike_self (hf : f.Framed) (h : ∀ n ∈ f.graph.nodeIds, ρ n = n) : Alike ρ f f :=
  ⟨(h _ hf.input_mem).symm, (h _ hf.output_mem).symm, (hf.map_calls_rename h).symm,
    List.Perm.of_eq (hf.map_rename h fun _ ht => ht).symm⟩

/-! ## Appended and continued graphs

The same later events are recorded twice here: on a graph of their own, which is then appended to
the base, and on the base itself. `Continues` relates the two recorded graphs, and what remains is
to compare what appending does to a tie with what recording it on the base did. -/

section Continued

variable {ρ ρ' : NodeId → NodeId} {μ : Handle → Handle} {base later whole : Flow}

/-- Taking up a tie and giving the nodes their other names is carrying it. -/
theorem Continues.rename_appended (h : Continues ρ μ base later whole) (hb : base.Recorded)
    (hl : later.Framed) (hfix : ∀ n ∈ base.graph.nodeIds, ρ' n = n)
    (hnew : ∀ n ∈ Table.keys later.calls, ρ' n = ρ n) {t : Tie} (ht : t ∈ later.ties) :
    (t.appended base later).rename ρ' = t.carried ρ base later.input := by
  have hnode : ∀ n ∈ later.graph.nodeIds, ρ' (unmarked base later n) = ρ n := by
    intro n hn
    rcases hl.mem_nodeIds_iff.1 hn with rfl | rfl | hn
    · rw [unmarked_input base hl, hfix _ hb.input_mem, h.input_eq, h.base_input]
    · rw [unmarked_output, hfix _ hb.output_mem, h.output_eq, h.base_output]
    · rw [unmarked_call base hl hn, hnew n hn]
  obtain ⟨e, he, rfl⟩ := mem_ties.1 ht
  have hs : ρ' (unmarked base later (tieOf e).source) = ρ (tieOf e).source :=
    hnode _ (hl.wellFormed.source_mem e he)
  have htarget : ρ' (unmarked base later (tieOf e).target) = ρ (tieOf e).target :=
    hnode _ (hl.wellFormed.target_mem e he)
  unfold Tie.rename Tie.appended Tie.carried Tie.home
  dsimp only
  rw [htarget]
  cases hm : (if (tieOf e).source = later.input then
      (tieOf e).data.object.id.bind base.maker? else none) with
  | none => rw [Option.getD_none, Option.getD_none, hs]
  | some m =>
    have hmaker : m.1 ∈ Table.keys base.calls := by
      obtain ⟨-, hm⟩ := Option.ite_none_right_eq_some.1 hm
      obtain ⟨o, -, hm⟩ := Option.bind_eq_some_iff.1 hm
      exact hb.maker_call hm
    rw [Option.getD_some, Option.getD_some, hfix _ (hb.mem_of_call hmaker)]

/-- What takes up a later graph is what continues with it, up to what is revived. -/
theorem Continues.alike (h : Continues ρ μ base later whole) (hb : base.Recorded)
    (hl : later.Framed) (hfix : ∀ n ∈ base.graph.nodeIds, ρ' n = n)
    (hnew : ∀ n ∈ Table.keys later.calls, ρ' n = ρ n) {root : Flow}
    (hin : root.input = base.input) (hout : root.output = base.output)
    (hcalls : root.calls = base.calls ++ later.calls.map fun c => (c.1, c.2.onBody μ))
    (hties : root.ties.Perm ((base.ties.filter fun t => ¬ t.Superseded base later) ++
      later.ties.map (Tie.appended base later))) : Alike ρ' root (whole.unrevived base) := by
  refine ⟨?_, ?_, ?_, ?_⟩
  · rw [hin, hfix _ hb.input_mem]
    exact h.base_input.symm
  · rw [hout, hfix _ hb.output_mem]
    exact h.base_output.symm
  · show whole.calls = _
    rw [h.calls_eq, hcalls, List.map_append, hb.map_calls_rename hfix, List.map_map]
    refine congrArg _ (List.map_congr_left fun c hc => ?_)
    rw [Function.comp_apply, hnew _ (Table.mem_keys.2 ⟨c.2, hc⟩)]
  · rw [ties_unrevived, h.ties_eq]
    refine ((hties.map (Tie.rename ρ')).trans ?_).symm
    rw [List.map_append, List.map_map]
    have hbase := hb.map_rename hfix
      fun t (ht : t ∈ base.ties.filter fun t => ¬ t.Superseded base later) =>
        List.mem_of_mem_filter ht
    have hlater : later.ties.map (Tie.rename ρ' ∘ Tie.appended base later) =
        later.ties.map (Tie.carried ρ base later.input) :=
      List.map_congr_left fun t ht => h.rename_appended hb hl hfix hnew ht
    rw [hbase, hlater]

/-- The graph of a body has nothing before it, so it is only moved. -/
theorem Continues.alike_body {s : Supply} (h : Continues ρ μ (Flow.empty s).1 later whole)
    (hl : later.Framed) {moved : Table Handle Handle}
    (hmoved : ∀ c ∈ later.calls, c.2.rehandled moved = c.2.onBody μ)
    (hnew : ∀ n ∈ later.graph.nodeIds, ρ' n = ρ n) :
    Alike ρ' (later.rehandle later.graph.nodeIds moved) whole := by
  refine ⟨?_, ?_, ?_, ?_⟩
  · rw [input_rehandle, hnew _ hl.input_mem, h.input_eq]
  · rw [output_rehandle, hnew _ hl.output_mem, h.output_eq]
  · rw [hl.calls_rehandle hl.wellFormed.nodes_nodup, h.calls_eq, List.map_map]
    show List.map _ _ = _
    refine List.map_congr_left fun c hc => ?_
    have hn : c.1 ∈ later.graph.nodeIds :=
      hl.mem_of_call (Table.mem_keys.2 ⟨c.2, hc⟩)
    rw [Function.comp_apply, if_pos hn, hnew _ hn, hmoved c hc]
  · have hnone : (whole.ties.filter fun t => ¬ t.Revives (Flow.empty s).1 whole) = whole.ties :=
      List.filter_eq_self.2 fun t _ => decide_eq_true fun hx => by cases hx.1
    rw [ties_rehandle, ← hnone, h.ties_eq]
    show List.Perm (List.map _ _) _
    refine List.Perm.of_eq (List.map_congr_left fun t ht => ?_)
    obtain ⟨e, he, rfl⟩ := mem_ties.1 ht
    have hmaker : ∀ o, (Flow.empty s).1.maker? o = none := fun _ => rfl
    have hhome : (tieOf e).home ρ (Flow.empty s).1 later.input =
        (ρ e.source, e.data.sourcePin) := by
      unfold Tie.home
      split
      · cases (tieOf e).data.object.id with
        | none => rfl
        | some o => rw [Option.bind_some, hmaker, Option.getD_none]; rfl
      · rfl
    show (⟨_, ρ e.target, _⟩ : Tie) = ⟨ρ' e.source, ρ' e.target, e.data⟩
    rw [hhome, hnew _ (hl.wellFormed.source_mem e he), hnew _ (hl.wellFormed.target_mem e he)]
    rfl

end Continued

end Flow

namespace Recording

variable {r later : Recording} {s : Supply}

/-! ## New handles

The graphs of a recording that was kept from its beginning are numbered, its root first. So those
that move are the ones from the second on, and they move by the number of graphs that are there less
one. -/

/-- The graphs other than the root are the second and those after it. -/
theorem Kept.handles_eq (hl : later.Kept s) : (later.handles.filter fun g => g.1 ≠ later.root) =
    (later.graphs.tail.zipIdx 1).map fun g => (⟨g.2⟩, g.1) := by
  have hroot := hl.root_eq
  have hpos := hl.root_lt
  rw [handles, hroot]
  cases later.graphs with
  | nil => rfl
  | cons g gs =>
    rw [List.zipIdx_cons, List.map_cons, List.filter_cons_of_neg (by simp), List.tail_cons,
      List.filter_eq_self]
    intro h hh
    obtain ⟨⟨f, i⟩, hm, rfl⟩ := List.mem_map.1 hh
    have hi := List.le_snd_of_mem_zipIdx hm
    simp only [decide_eq_true_eq, ne_eq, Handle.mk.injEq]
    omega

theorem Kept.map_fst_handles (hl : later.Kept s) :
    (later.handles.filter fun g => g.1 ≠ later.root).map Prod.fst =
      (List.range' 1 later.graphs.tail.length).map Handle.mk := by
  rw [hl.handles_eq, List.map_map, ← List.zipIdx_map_snd, List.map_map]
  rfl

/-- Every body of the later recording has a new handle behind the graphs of the first one. -/
theorem Kept.at?_moved (r : Recording) (hl : later.Kept s) {h : Handle} (hpos : 0 < h.index)
    (hlt : h.index < later.graphs.length) :
    Table.at? (r.moved later) h = some (h.behind r.graphs.length) := by
  have hinj : Function.Injective Handle.mk := fun i j heq => congrArg Handle.index heq
  unfold moved
  rw [hl.map_fst_handles]
  refine Table.at?_of_mem ?_ (List.mem_map.2 ⟨(h, h.index - 1), ?_, ?_⟩)
  · rw [Table.keys, List.map_map]
    show (List.map Prod.fst (List.zipIdx _)).Nodup
    rw [List.zipIdx_map_fst]
    exact List.Nodup.map hinj List.nodup_range'
  · rw [List.mk_mem_zipIdx_iff_getElem?, List.getElem?_map, List.getElem?_range']
    · obtain ⟨i⟩ := h
      simp only [Option.map_some, Option.some.injEq, Handle.mk.injEq] at hpos ⊢
      omega
    · rw [List.length_tail]
      omega
  · rw [Handle.behind_of_pos hpos]

/-- Moving the body of a call by the table is counting it past the graphs of the first recording. -/
theorem Kept.rehandled_eq (r : Recording) (hl : later.Kept s) {i : Nat} {f : Flow}
    (hf : later.graphs[i]? = some f) {c : NodeId × Flow.Call} (hc : c ∈ f.calls) :
    c.2.rehandled (r.moved later) = c.2.onBody (Handle.behind r.graphs.length) := by
  unfold Flow.Call.rehandled Flow.Call.onBody
  cases hb : c.2.body with
  | none => rfl
  | some h =>
    obtain ⟨hpos, hlt⟩ := hl.body_after i f hf (c.1, h) (Flow.mem_bodies.2 ⟨c.2, hc, hb⟩)
    rw [Option.bind_some, hl.at?_moved r (Nat.lt_of_le_of_lt (Nat.zero_le i) hpos) hlt,
      Option.map_some]

/-- What was recorded later has other nodes and edges. -/
theorem Kept.apart_since {r later : Recording} {s s' : Supply} (hr : r.Kept s) (hl : later.Since s')
    (hs : s.next ≤ s'.next) {f g : Flow} {i j : Nat} (hf : r.graphs[i]? = some f)
    (hg : later.graphs[j]? = some g) : f.Apart g := by
  have hb := hr.before i f hf
  obtain ⟨hnodes, hedges⟩ := hl j g hg
  exact ⟨fun n hn hn' => absurd (hb.node_lt n hn) (Nat.not_lt.2 (Nat.le_trans hs (hnodes n hn'))),
    fun e he e' he' heq =>
      absurd (hb.edge_lt e he) (Nat.not_lt.2 (heq ▸ Nat.le_trans hs (hedges e' he')))⟩

/-! ## Joining

The join succeeds because both roots have borders and nothing in common, and its root then extends
the first one. -/

/-- The bodies of a later recording as they stand behind the graphs of the first one. -/
def movedBodies (r later : Recording) : List Flow :=
  later.graphs.tail.map fun g => g.rehandle g.graph.nodeIds (r.moved later)

/-- The join of a recording with a later one has the graphs of the first, the root extended, and
behind them the moved bodies. -/
theorem Kept.join_spec (hr : r.Kept s) (hl : later.Kept s) {f g : Flow}
    (hf : r.graphs[0]? = some f) (hg : later.graphs[0]? = some g) (hap : f.Apart g) :
    ∃ root s', r.join later s =
        .ok ({ r with graphs := (r.graphs ++ r.movedBodies later).set 0 root }, s') ∧
      root.Framed ∧ root.input = f.input ∧ root.output = f.output ∧
      root.calls = f.calls ++ g.calls.map (fun c =>
        (c.1, c.2.onBody (Handle.behind r.graphs.length))) ∧
      root.ties.Perm ((f.ties.filter fun t => ¬ t.Superseded f g) ++
        g.ties.map (Flow.Tie.appended f g)) := by
  obtain ⟨root, s', hok, hframed, hin, hout, hcalls, hties⟩ := (hr.recorded 0 f hf).append_spec
    (hl.recorded 0 g hg) hap (hr.before 0 f hf) (hl.before 0 g hg) (r.moved later)
  refine ⟨root, s', ?_, hframed, hin, hout, hcalls.trans ?_, hties⟩
  · have hbodies : ((later.handles.filter fun g => g.1 ≠ later.root).map fun g =>
        g.2.rehandle g.2.graph.nodeIds (r.moved later)) = r.movedBodies later := by
      rw [hl.handles_eq, List.map_map, movedBodies]
      conv_rhs => rw [← List.zipIdx_map_fst 1 later.graphs.tail]
      rw [List.map_map]
      rfl
    have hrf : r.rootGraph? = some f := by rw [rootGraph?, graph?, hr.root_eq, hf]
    have hlg : later.rootGraph? = some g := by rw [rootGraph?, graph?, hl.root_eq, hg]
    rw [join, hr.validate_eq_ok, hl.validate_eq_ok, Outcome.ok_bind, Outcome.ok_bind]
    dsimp only
    rw [hrf, hlg, hbodies]
    dsimp only
    rw [hok, Outcome.mapError_ok, Outcome.ok_bind, hr.root_eq]
    rfl
  · refine congrArg _ (List.map_congr_left fun c hc => ?_)
    rw [hl.rehandled_eq r hg hc]

end Recording

namespace Recording

/-- The nodes of the recording have names of their own. -/
def NamedApart (ρ : NodeId → NodeId) (r : Recording) : Prop :=
  ∀ h h' f f', r.graph? h = some f → r.graph? h' = some f' →
    ∀ n ∈ f.graph.nodeIds, ∀ n' ∈ f'.graph.nodeIds, ρ n = ρ n' → n = n'

theorem exists_graph_of_length {r r' : Recording} (h : r.graphs.length = r'.graphs.length)
    {this : Handle} {g : Flow} (hg : r'.graph? this = some g) : ∃ f, r.graph? this = some f :=
  ⟨_, List.getElem?_eq_getElem (h ▸ (List.getElem?_eq_some_iff.1 hg).1)⟩

/-- A graph of the join is the new root, a body of the first recording, or a moved body of the later
one. -/
theorem getElem?_join {r later : Recording} {root f : Flow} {i : Nat}
    (hr : 0 < r.graphs.length)
    (hf : ((r.graphs ++ r.movedBodies later).set 0 root)[i]? = some f) :
    i = 0 ∧ f = root ∨ 0 < i ∧ i < r.graphs.length ∧ r.graphs[i]? = some f ∨
      r.graphs.length ≤ i ∧ ∃ g, later.graphs[i - r.graphs.length + 1]? = some g ∧
        f = g.rehandle g.graph.nodeIds (r.moved later) := by
  rcases Nat.eq_zero_or_pos i with rfl | hi
  · rw [List.getElem?_set_self (List.length_append ▸ Nat.add_pos_left hr _)] at hf
    exact .inl ⟨rfl, (Option.some.inj hf).symm⟩
  · rw [List.getElem?_set_ne (Nat.ne_of_lt hi)] at hf
    rcases Nat.lt_or_ge i r.graphs.length with hlt | hge
    · rw [List.getElem?_append_left hlt] at hf
      exact .inr (.inl ⟨hi, hlt, hf⟩)
    · rw [List.getElem?_append_right hge, movedBodies, List.getElem?_map, List.getElem?_tail] at hf
      obtain ⟨g, hg, rfl⟩ := Option.map_eq_some_iff.1 hf
      exact .inr (.inr ⟨hge, g, hg, rfl⟩)

end Recording

namespace Tape.Resumes

variable {first : Recording} {ρ : NodeId → NodeId} {t w : Tape}

/-- A new tape beside one whose calls have all ended. -/
theorem exists_empty {w : Tape} {s : Supply} (hw : w.Valid) (hstack : w.stack = []) :
    ∃ ρ, Resumes w.recording ρ (Tape.empty s) w := by
  obtain ⟨base, hbase⟩ : ∃ f, w.recording.graphs[0]? = some f :=
    ⟨_, List.getElem?_eq_getElem hw.kept.root_lt⟩
  have hne := (Flow.framed_empty s).input_ne_output
  refine ⟨fun n => if n = (Flow.empty s).1.input then base.input else base.output, rfl,
    fun i _ _ => rfl, fun i later hl => ?_, ?_⟩
  · cases i with
    | succ i => cases hl
    | zero =>
      obtain rfl : (Flow.empty s).1 = later := Option.some.inj hl
      exact ⟨base, base, .inl ⟨rfl, hbase⟩, hbase, .empty (if_pos rfl) (if_neg hne.symm)⟩
  · rw [hstack]
    rfl

/-- The nodes that are no nodes of the first recording have other names. -/
def renamed (ρ : NodeId → NodeId) (s : Supply) (n : NodeId) : NodeId :=
  if n.value < s.next then n else ρ n

/-- The join of a recording with what a new tape has recorded, beside a tape that went on. -/
theorem join (h : Resumes first ρ t w) {s s₀ s₁ : Supply} (hfirst : first.Kept s₀) (ht : t.Valid)
    (hsince : t.Since s₁) (h₁ : s₀.next ≤ s₁.next) (hs : t.supply.next ≤ s.next) :
    ∃ joined s' base, first.join t.recording s = .ok (joined, s') ∧
      joined.root = ⟨0⟩ ∧ joined.graphs.length = w.recording.graphs.length ∧
      first.graphs[0]? = some base ∧
      ∀ i f g, joined.graphs[i]? = some f → w.recording.graphs[i]? = some g → f.Framed ∧
        Flow.Alike (renamed ρ s₀) f (if i = 0 then g.unrevived base else g) := by
  have hle : s₀.next ≤ s.next := Nat.le_trans h₁ (Nat.le_trans hsince.2 hs)
  have hpos := hfirst.root_lt
  have hlen := h.length_eq
  obtain ⟨base, hbase⟩ : ∃ f, first.graphs[0]? = some f := ⟨_, List.getElem?_eq_getElem hpos⟩
  obtain ⟨later, hlater⟩ : ∃ f, t.recording.graphs[0]? = some f :=
    ⟨_, List.getElem?_eq_getElem ht.kept.root_lt⟩
  -- Nodes of the first part keep their identities, and those of the later part take that of a twin.
  have hfix : ∀ (i : Nat) (f : Flow), first.graphs[i]? = some f → ∀ n ∈ f.graph.nodeIds,
      renamed ρ s₀ n = n := fun i f hf n hn => if_pos ((hfirst.before i f hf).node_lt n hn)
  have hnew : ∀ (i : Nat) (f : Flow), t.recording.graphs[i]? = some f → ∀ n ∈ f.graph.nodeIds,
      renamed ρ s₀ n = ρ n := fun i f hf n hn =>
    if_neg (Nat.not_lt.2 (Nat.le_trans h₁ ((hsince.1 i f hf).1 n hn)))
  have hap : base.Apart later := hfirst.apart_since hsince.1 h₁ hbase hlater
  have hrec := hfirst.recorded 0 base hbase
  have hlrec := ht.kept.recorded 0 later hlater
  obtain ⟨root, s', hok, hframed, hin, hout, hcalls, hties⟩ :=
    (hfirst.mono hle).join_spec (ht.kept.mono hs) hbase hlater hap
  refine ⟨_, s', base, hok, hfirst.root_eq, ?_, hbase, fun i f g hf hg => ?_⟩
  · simp only [List.length_set, List.length_append, Recording.movedBodies, List.length_map,
      List.length_tail]
    have := ht.kept.root_lt
    omega
  · rcases Recording.getElem?_join hpos hf with ⟨rfl, rfl⟩ | ⟨hi, hlt, hf⟩ | ⟨hge, k, hk, rfl⟩
    · obtain ⟨base', whole, hb, hwhole, hcont⟩ := h.flows 0 later hlater
      obtain rfl := Option.some.inj (hwhole.symm.trans hg)
      obtain rfl : base = base' := by
        rcases hb with ⟨-, hb⟩ | ⟨hlt, -⟩
        · exact Option.some.inj (hbase.symm.trans hb)
        · exact absurd hlt (Nat.lt_irrefl 0)
      rw [if_pos rfl]
      refine ⟨hframed, hcont.alike hrec hlrec.toFramed (hfix 0 base hbase) (fun n hn => ?_) hin hout
        hcalls hties⟩
      exact hnew 0 later hlater n (hlrec.mem_of_call hn)
    · obtain rfl := Option.some.inj (hg.symm.trans ((h.older i hi hlt).trans hf))
      rw [if_neg (Nat.ne_of_gt hi)]
      have hgf := (hfirst.recorded i g hf).toFramed
      exact ⟨hgf, hgf.alike_self (hfix i g hf)⟩
    · have hkf := (ht.kept.recorded _ k hk).toFramed
      obtain ⟨base', whole, hb, hwhole, hcont⟩ := h.flows _ k hk
      have hplace : Handle.behind first.graphs.length ⟨i - first.graphs.length + 1⟩ = ⟨i⟩ := by
        rw [Handle.behind_of_pos (Nat.succ_pos _)]
        exact congrArg Handle.mk (by simp only; omega)
      rw [hplace] at hwhole
      obtain rfl := Option.some.inj (hwhole.symm.trans hg)
      obtain ⟨s'', rfl⟩ : ∃ s, base' = (Flow.empty s).1 := by
        rcases hb with ⟨hz, -⟩ | ⟨-, hb⟩
        · exact absurd hz (Nat.succ_ne_zero _)
        · exact hb
      rw [if_neg (Nat.ne_of_gt (Nat.lt_of_lt_of_le hpos hge))]
      exact ⟨hkf.rehandle _ _, hcont.alike_body hkf
        (fun c hc => ht.kept.rehandled_eq first hk hc) (hnew _ k hk)⟩

end Tape.Resumes

/-- Graphs that are alike have as different names as the graphs of a kept recording. -/
theorem namedApart {ρ : NodeId → NodeId} {r whole : Recording} {s : Supply} {base : Flow}
    (hw : whole.Kept s) (hlen : r.graphs.length = whole.graphs.length)
    (h : ∀ (i : Nat) (f g : Flow), r.graphs[i]? = some f → whole.graphs[i]? = some g →
      f.Framed ∧ Flow.Alike ρ f (if i = 0 then g.unrevived base else g)) : r.NamedApart ρ := by
  have hnames : ∀ (i : Nat) (f : Flow), r.graphs[i]? = some f →
      ∃ g, whole.graphs[i]? = some g ∧ g.graph.nodeIds = f.graph.nodeIds.map ρ := by
    intro i f hf
    have hi : i < whole.graphs.length := hlen ▸ (List.getElem?_eq_some_iff.1 hf).1
    refine ⟨whole.graphs[i], List.getElem?_eq_getElem hi, ?_⟩
    have hg := (hw.recorded i _ (List.getElem?_eq_getElem hi)).toFramed
    obtain ⟨hframed, halike⟩ := h i f _ hf (List.getElem?_eq_getElem hi)
    split at halike
    · exact halike.nodeIds_eq hframed (hg.filterEdges _)
    · exact halike.nodeIds_eq hframed hg
  rintro ⟨i⟩ ⟨j⟩ f f' hf hf' n hn n' hn' heq
  obtain ⟨g, hg, hids⟩ := hnames i f hf
  obtain ⟨g', hg', hids'⟩ := hnames j f' hf'
  have hm : ρ n ∈ g.graph.nodeIds := hids ▸ List.mem_map_of_mem hn
  have hm' : ρ n ∈ g'.graph.nodeIds := hids' ▸ heq ▸ List.mem_map_of_mem hn'
  obtain rfl := hw.nodes_apart i j g g' hg hg' _ hm hm'
  obtain rfl := Option.some.inj (hf.symm.trans hf')
  refine List.inj_on_of_nodup_map ?_ hn hn' heq
  rw [← hids]
  exact (hw.recorded i g hg).wellFormed.nodes_nodup

namespace Recorder

variable {σ : Type}

/-- Events may be recorded in two parts. -/
theorem absorb_append (r : Recorder σ) (earlier later : List Event) :
    r.absorb (earlier ++ later) = (r.absorb earlier).absorb later := List.foldl_append

/-- What is recorded on a new tape is what a tape records whose calls have all ended. -/
theorem exists_resumes (a : Annotator σ) {state state₂ : σ} (ha : a.Steady state)
    (hstate : a.Reaches state state₂) (settings : Settings) (s s₂ : Supply)
    (earlier later : List Event)
    (hclosed : ((start a state settings s).absorb earlier).tape.stack = []) :
    ∃ ρ, Tape.Resumes ((start a state settings s).absorb earlier).tape.recording ρ
      ((start a state₂ settings s₂).absorb later).tape
      ((start a state settings s).absorb (earlier ++ later)).tape := by
  have hfirst := valid_start a state settings s
  -- a run beside itself tells what becomes of the annotator
  obtain ⟨ρ₀, hempty⟩ := Tape.Resumes.exists_empty (s := s) hfirst rfl
  obtain ⟨ρ', hself⟩ := Beside.absorb
    (r := start a state settings s) (w := start a state settings s)
    ⟨rfl, rfl, rfl, rfl, .refl, .refl, hfirst, hfirst, hempty⟩ ha hfirst.kept earlier
  obtain ⟨ρ₁, hresumes⟩ := Tape.Resumes.exists_empty (s := s₂) hself.valid hclosed
  rw [absorb_append]
  obtain ⟨ρ, h⟩ := Beside.absorb (r := start a state₂ settings s₂)
    ⟨rfl, hself.annotator_eq, rfl, hself.settings_eq, hstate, hself.reaches,
      valid_start a state₂ settings s₂, hself.valid, hresumes⟩ ha hself.valid.kept later
  exact ⟨ρ, h.resumes⟩

/-- The graphs of the join beside those of one recording of all events. -/
theorem exists_join (a : Annotator σ) {state state₂ : σ} (ha : a.Steady state)
    (hstate : a.Reaches state state₂) (settings : Settings) (s : Supply) {s₂ s₃ : Supply}
    (earlier later : List Event)
    (hclosed : ((start a state settings s).absorb earlier).tape.stack = [])
    (hs₂ : ((start a state settings s).absorb earlier).tape.supply.next ≤ s₂.next)
    (hs₃ : ((start a state₂ settings s₂).absorb later).tape.supply.next ≤ s₃.next) :
    ∃ joined s' base ρ, ((start a state settings s).absorb earlier).tape.recording.join
        ((start a state₂ settings s₂).absorb later).tape.recording s₃ = .ok (joined, s') ∧
      joined.root = ⟨0⟩ ∧ joined.graphs.length =
        ((start a state settings s).absorb (earlier ++ later)).tape.recording.graphs.length ∧
      ((start a state settings s).absorb earlier).tape.recording.graphs[0]? = some base ∧
      ∀ i f g, joined.graphs[i]? = some f →
        ((start a state settings s).absorb (earlier ++ later)).tape.recording.graphs[i]? = some g →
        f.Framed ∧ Flow.Alike ρ f (if i = 0 then g.unrevived base else g) := by
  obtain ⟨ρ, hres⟩ := exists_resumes a ha hstate settings s s₂ earlier later hclosed
  obtain ⟨joined, s', base, hok, hx⟩ := hres.join
    (valid_absorb (valid_start a state settings s) earlier).kept
    (valid_absorb (valid_start a state₂ settings s₂) later)
    (since_absorb (valid_start a state₂ settings s₂) (since_start a state₂ settings s₂) later)
    hs₂ hs₃
  exact ⟨joined, s', base, _, hok, hx⟩

/-- The join of two recordings by recorders that ask afresh: `join_absorb` without its memory. -/
theorem join_afresh (a : Annotator σ) {state state₂ : σ} (ha : a.Steady state)
    (hstate : a.Reaches state state₂) (settings : Settings) (s : Supply) {s₂ s₃ : Supply}
    (earlier later : List Event)
    (hclosed : ((start a state settings s).absorb earlier).tape.stack = [])
    (hs₂ : ((start a state settings s).absorb earlier).tape.supply.next ≤ s₂.next)
    (hs₃ : ((start a state₂ settings s₂).absorb later).tape.supply.next ≤ s₃.next) :
    let first := ((start a state settings s).absorb earlier).tape.recording
    let second := ((start a state₂ settings s₂).absorb later).tape.recording
    let whole := ((start a state settings s).absorb (earlier ++ later)).tape.recording
    ∃ joined s' base ρ, first.join second s₃ = .ok (joined, s') ∧
      first.rootGraph? = some base ∧ joined.root = whole.root ∧
      joined.graphs.length = whole.graphs.length ∧ joined.NamedApart ρ ∧
      ∀ h f g, joined.graph? h = some f → whole.graph? h = some g →
        Flow.Alike ρ f (if h = whole.root then g.unrevived base else g) := by
  intro first second whole
  obtain ⟨joined, s', base, ρ, hok, hroot, hlen, hbase, halike⟩ :=
    exists_join a ha hstate settings s earlier later hclosed hs₂ hs₃
  have hfirst := valid_absorb (valid_start a state settings s) earlier
  have hwhole := valid_absorb (valid_start a state settings s) (earlier ++ later)
  refine ⟨joined, s', base, ρ, hok, ?_, hroot.trans hwhole.kept.root_eq.symm, hlen,
    namedApart hwhole.kept hlen halike, fun h f g hf hg => ?_⟩
  · rw [Recording.rootGraph?, Recording.graph?, hfirst.kept.root_eq, hbase]
  · obtain ⟨i⟩ := h
    have hx := (halike i f g hf hg).2
    rw [hwhole.kept.root_eq]
    simpa only [Handle.mk.injEq] using hx

/--
For an annotator whose answers do not change, and which answers functions alike that are remembered
as one, the join of two recordings, the second of which was begun when all calls of the first one
had ended, has the graphs of one recording of all events under other names. Only those ties of the
outermost graph are missing that lead what a call of the first recording left to the receiver of an
initializer of the second one.
-/
theorem join_absorb (a : Annotator σ) {state state₂ : σ} (ha : a.Steady state)
    (hstate : a.Reaches state state₂) (settings : Settings) (s : Supply) {s₂ s₃ : Supply}
    (earlier later : List Event)
    (hkeyed : a.Keyed state ((earlier ++ later).map Event.callee))
    (hclosed : ((start a.remembering ⟨state, [], []⟩ settings s).absorb earlier).tape.stack = [])
    (hs₂ : ((start a.remembering ⟨state, [], []⟩ settings s).absorb earlier).tape.supply.next ≤
      s₂.next)
    (hs₃ : ((start a.remembering ⟨state₂, [], []⟩ settings s₂).absorb later).tape.supply.next ≤
      s₃.next) :
    let first := ((start a.remembering ⟨state, [], []⟩ settings s).absorb earlier).tape.recording
    let second := ((start a.remembering ⟨state₂, [], []⟩ settings s₂).absorb later).tape.recording
    let whole :=
      ((start a.remembering ⟨state, [], []⟩ settings s).absorb (earlier ++ later)).tape.recording
    ∃ joined s' base ρ, first.join second s₃ = .ok (joined, s') ∧
      first.rootGraph? = some base ∧ joined.root = whole.root ∧
      joined.graphs.length = whole.graphs.length ∧ joined.NamedApart ρ ∧
      ∀ h f g, joined.graph? h = some f → whole.graph? h = some g →
        Flow.Alike ρ f (if h = whole.root then g.unrevived base else g) := by
  have hearlier : a.Keyed state (earlier.map Event.callee) :=
    hkeyed.mono (List.map_subset _ (List.subset_append_left _ _))
  have hlater : a.Keyed state₂ (later.map Event.callee) :=
    (hkeyed.mono (List.map_subset _ (List.subset_append_right _ _))).reached ha hstate
  rw [tape_absorb_remembering ha settings s hearlier] at hclosed hs₂ ⊢
  rw [tape_absorb_remembering (ha.reached hstate) settings s₂ hlater] at hs₃ ⊢
  rw [tape_absorb_remembering ha settings s hkeyed]
  exact join_afresh a ha hstate settings s earlier later hclosed hs₂ hs₃

/-! ## An object that is made in the first part

The runs are those of a recorder that knows the heirs of a class (`heirs`), so that something is
there to be remembered. Their joins are not evaluated: what they are like is told by the theorem on
recorders that ask afresh, whose tapes are the same. -/

/-- The object that is made. -/
def thing : Snapshot := .object ⟨"o"⟩ ⟨"m", "T", []⟩ []

/-- A call without a body that returns at once. -/
def single (name : String) (arguments : Table String Snapshot) (value : Snapshot) : List Event :=
  let c : Invocation := ⟨⟨"m", name, none⟩, true, arguments⟩
  [.call c, .ret ⟨c, value⟩]

/-- The recorder after the events, with what it was told of the heirs of `m.B`. -/
def recalling (s : Supply) (events : List Event) : Recorder (Memory Unit) :=
  (start (heirs "m.B" fitting).remembering ⟨(), [], []⟩ {} s).absorb events

/-- An heir is fitted, and an object is made. -/
def making : List Event := fit ["m.B"] ++ single "make" [] thing

/-- The heir is fitted again, and the object is used. -/
def consuming : List Event := fit ["m.B"] ++ single "use" [("x", thing)] .none

/-- What uses the object in the second part takes it from what made it in the first one, and both
calls of the heir's method have their note. -/
theorem join_absorb_single : ∃ joined s' f,
    (recalling ⟨0⟩ making).tape.recording.join (recalling ⟨5⟩ consuming).tape.recording ⟨10⟩ =
      .ok (joined, s') ∧
    joined.rootGraph? = some f ∧ f.ties.length = 2 ∧
    f.calls.map (fun c => c.2.note) = [some fitting.key, none, some fitting.key, none] := by
  have hkeyed : (heirs "m.B" fitting).Keyed () ((making ++ consuming).map Event.callee) := by
    unfold Annotator.Keyed
    decide +kernel
  have hclosed : (recalling ⟨0⟩ making).tape.stack = [] :=
    List.length_eq_zero_iff.1 (by decide +kernel)
  have hs₂ : (recalling ⟨0⟩ making).tape.supply.next ≤ (⟨5⟩ : Supply).next := by decide +kernel
  have hs₃ : (recalling ⟨5⟩ consuming).tape.supply.next ≤ (⟨10⟩ : Supply).next := by
    decide +kernel
  obtain ⟨base, hbase, g, hg, hlength, hnotes⟩ :
      ∃ base ∈ (recalling ⟨0⟩ making).tape.recording.rootGraph?,
        ∃ g ∈ (recalling ⟨0⟩ (making ++ consuming)).tape.recording.rootGraph?,
          (g.unrevived base).ties.length = 2 ∧ (g.unrevived base).calls.map (fun c => c.2.note) =
            [some fitting.key, none, some fitting.key, none] := by
    decide +kernel
  simp only [recalling] at hclosed hs₂ hs₃ hbase hg ⊢
  obtain ⟨joined, s', base', ρ, hok, hbase', hroot, hlen, -, halike⟩ :=
    join_absorb (heirs "m.B" fitting) (steady_heirs _ _) .refl {} ⟨0⟩ _ _ hkeyed hclosed hs₂ hs₃
  obtain rfl := Option.some.inj (hbase'.symm.trans hbase)
  obtain ⟨f, hf⟩ := Recording.exists_graph_of_length hlen hg
  have hf' : joined.rootGraph? = some f := by rw [Recording.rootGraph?, hroot, hf]
  have h := halike _ f g hf hg
  rw [if_pos rfl] at h
  refine ⟨joined, s', f, hok, hf', h.length_ties.symm.trans hlength, ?_⟩
  rw [← hnotes, h.calls_eq, List.map_map]
  rfl

/-- Each part remembers on its own: their join is like one recording that asks afresh. -/
theorem exists_join_recalling (s s₂ s₃ : Supply) {earlier later : List Event}
    (hearlier : (heirs "m.B" fitting).Keyed () (earlier.map Event.callee))
    (hlater : (heirs "m.B" fitting).Keyed () (later.map Event.callee))
    (hclosed : (recalling s earlier).tape.stack = [])
    (hs₂ : (recalling s earlier).tape.supply.next ≤ s₂.next)
    (hs₃ : (recalling s₂ later).tape.supply.next ≤ s₃.next) {g : Flow}
    (hg : ((start (heirs "m.B" fitting) () {} s).absorb
      (earlier ++ later)).tape.recording.rootGraph? = some g) :
    ∃ joined s' base f, (recalling s earlier).tape.recording.join
        (recalling s₂ later).tape.recording s₃ = .ok (joined, s') ∧
      (recalling s earlier).tape.recording.rootGraph? = some base ∧
      joined.rootGraph? = some f ∧ ∃ ρ, Flow.Alike ρ f (g.unrevived base) := by
  have ha : (heirs "m.B" fitting).Steady () := steady_heirs _ _
  simp only [recalling] at hclosed hs₂ hs₃ ⊢
  rw [tape_absorb_remembering ha {} s hearlier] at hclosed hs₂ ⊢
  rw [tape_absorb_remembering ha {} s₂ hlater] at hs₃ ⊢
  obtain ⟨joined, s', base, ρ, hok, hbase, hroot, hlen, -, halike⟩ :=
    join_afresh _ ha .refl {} s earlier later hclosed hs₂ hs₃
  obtain ⟨f, hf⟩ := Recording.exists_graph_of_length hlen hg
  refine ⟨joined, s', base, f, hok, hbase, by rw [Recording.rootGraph?, hroot, hf], ρ, ?_⟩
  have h := halike _ f g hf hg
  rwa [if_pos rfl] at h

/-- What made an object is lost to the initializer that gets it as its receiver. -/
theorem join_loses_receiver :
    (recalling ⟨0⟩ (single "make" [] thing)).tape.stack.length = 0 ∧ ∃ joined s' f g,
      (recalling ⟨0⟩ (single "make" [] thing)).tape.recording.join
        (recalling ⟨4⟩ (single "T.__init__" [("self", thing)] .none)).tape.recording ⟨8⟩ =
          .ok (joined, s') ∧
      joined.rootGraph? = some f ∧
      (recalling ⟨0⟩ (single "make" [] thing ++
        single "T.__init__" [("self", thing)] .none)).tape.recording.rootGraph? = some g ∧
      ∀ ρ, ¬ Flow.Alike ρ f g := by
  have hclosed : (recalling ⟨0⟩ (single "make" [] thing)).tape.stack.length = 0 := by
    decide +kernel
  have hkeyed : (heirs "m.B" fitting).Keyed ()
      ((single "make" [] thing ++ single "T.__init__" [("self", thing)] .none).map
        Event.callee) := by
    unfold Annotator.Keyed
    decide +kernel
  obtain ⟨base, hbase, g, hg, hlength⟩ :
      ∃ base ∈ (recalling ⟨0⟩ (single "make" [] thing)).tape.recording.rootGraph?,
        ∃ g ∈ (recalling ⟨0⟩ (single "make" [] thing ++
          single "T.__init__" [("self", thing)] .none)).tape.recording.rootGraph?,
          (g.unrevived base).ties.length < g.ties.length := by
    decide +kernel
  obtain ⟨joined, s', base', f, hok, hbase', hf, ρ, h⟩ := exists_join_recalling ⟨0⟩ ⟨4⟩ ⟨8⟩
    (hkeyed.mono (List.map_subset _ (List.subset_append_left _ _)))
    (hkeyed.mono (List.map_subset _ (List.subset_append_right _ _)))
    (List.length_eq_zero_iff.1 hclosed) (by decide +kernel) (by decide +kernel)
    (by rw [← tape_absorb_remembering (steady_heirs _ _) {} _ hkeyed]; exact hg)
  obtain rfl := Option.some.inj (hbase'.symm.trans hbase)
  refine ⟨hclosed, joined, s', f, g, hok, hf, hg, fun ρ' hx => ?_⟩
  rw [h.length_ties, hx.length_ties] at hlength
  exact Nat.lt_irrefl _ hlength

/-- Where two classes of one name are answered differently, each part of a run remembers its own
answer, and one recording of both parts the first one. -/
theorem join_asks_anew :
    ∃ joined s' f g, (recalling ⟨0⟩ (fit [])).tape.recording.join
        (recalling ⟨3⟩ (fit ["m.B"])).tape.recording ⟨6⟩ = .ok (joined, s') ∧
      joined.rootGraph? = some f ∧
      (recalling ⟨0⟩ (fit [] ++ fit ["m.B"])).tape.recording.rootGraph? = some g ∧
      f.calls.map (fun c => c.2.note) = [none, some fitting.key] ∧
      g.calls.map (fun c => c.2.note) = [none, none] := by
  have hkeyed : ∀ bases ∈ [[], ["m.B"]],
      (heirs "m.B" fitting).Keyed () ((fit bases).map Event.callee) := by
    unfold Annotator.Keyed
    decide +kernel
  obtain ⟨g', hg', hnotes'⟩ : ∃ g ∈ ((start (heirs "m.B" fitting) () {} ⟨0⟩).absorb
      (fit [] ++ fit ["m.B"])).tape.recording.rootGraph?,
        g.calls.map (fun c => c.2.note) = [none, some fitting.key] := by
    decide +kernel
  obtain ⟨g, hg, hnotes⟩ : ∃ g ∈ (recalling ⟨0⟩ (fit [] ++ fit ["m.B"])).tape.recording.rootGraph?,
      g.calls.map (fun c => c.2.note) = [none, none] := by
    decide +kernel
  obtain ⟨joined, s', base, f, hok, -, hf, ρ, h⟩ := exists_join_recalling ⟨0⟩ ⟨3⟩ ⟨6⟩
    (hkeyed _ (by decide)) (hkeyed _ (by decide)) (List.length_eq_zero_iff.1 (by decide +kernel))
    (by decide +kernel) (by decide +kernel) hg'
  refine ⟨joined, s', f, g, hok, hf, hg, ?_, hnotes⟩
  have hcalls : g'.calls = f.calls.map fun c => (ρ c.1, c.2) := h.calls_eq
  rw [← hnotes', hcalls, List.map_map]
  rfl

end Recorder

end ObjectFlow
