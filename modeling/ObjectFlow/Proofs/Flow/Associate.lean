import ObjectFlow.Proofs.Flow.Join
import ObjectFlow.Proofs.Flow.Renumber

/-!
# Three recordings one after the other

It does not matter which two of three recordings are joined first (`Recording.join_assoc`), as long
as the roots of the first two have two markers each: where one node is both, what passes by comes
back to where it came from (`Recording.join_closes_circle`).

## Outline

Write `a`, `b` and `c` for the recordings and `f`, `g` and `k` for their roots. A join puts the
graphs of the second recording, less its root, behind those of the first, and extends the root of
the first. So the two ways are compared in three steps.

1. *Places.* A body of `c` that is taken up into `b` and from there into `a` comes to stand where it
   comes to stand when it is taken up into `a` behind `b` (`place_place`). For the tables by which
   the nodes are renamed this is `at?_moved_joined`, for the bodies of `b`, and `at?_moved_moved`,
   for those of `c`.
2. *Graphs behind the root.* With that, the graphs which `a` takes up from `b` and `c` joined are
   those it takes up from `b` followed by those it then takes up from `c` (`joined_taken`), and the
   recordings are equal but for the root (`joined_joined`).
3. *Roots.* Each of the four joins extends a root (`Flow.Extended`). The nodes of the two results
   are the same in the same order (`nodes_assoc`), since the markers of `g` and `k` go either way.
   The edges are not: they have other identities and another order, but as ties, which have no
   identity, they are a permutation of each other (`Flow.ties_assoc`).

That all four joins succeed is no assumption: each outcome meets again what `append_spec` asks of
the next join.
-/

namespace ObjectFlow

namespace Flow

/-- The graphs differ in the identities and the order of their edges at most. -/
structure Same (f g : Flow) : Prop where
  input_eq : g.input = f.input
  output_eq : g.output = f.output
  nodes_eq : g.graph.nodes = f.graph.nodes
  ties_perm : g.ties.Perm f.ties

/-- A node whose body moves twice moves at once. -/
theorem Node.rehandled_rehandled {m m' m'' : Table Handle Handle} {n : Node}
    (h : ∀ b, n.call?.bind Call.body = some b →
      (Table.at? m b).bind (Table.at? m') = Table.at? m'' b) :
    (n.rehandled m).rehandled m' = n.rehandled m'' := by
  cases n with
  | input => rfl
  | output => rfl
  | call c =>
    refine congrArg Node.call ?_
    show ({ c with body := (c.body.bind (Table.at? m)).bind (Table.at? m') } : Call) =
      { c with body := c.body.bind (Table.at? m'') }
    cases hb : c.body with
    | none => rfl
    | some b => rw [Option.bind_some, Option.bind_some, h b hb]

/-- Tables that agree on the body of a node move it alike. -/
theorem Node.rehandled_congr {m m' : Table Handle Handle} {n : Node}
    (h : ∀ b, n.call?.bind Call.body = some b → Table.at? m b = Table.at? m' b) :
    n.rehandled m = n.rehandled m' := by
  cases n with
  | input => rfl
  | output => rfl
  | call c =>
    refine congrArg Node.call ?_
    show ({ c with body := c.body.bind (Table.at? m) } : Call) =
      { c with body := c.body.bind (Table.at? m') }
    cases hb : c.body with
    | none => rfl
    | some b => rw [Option.bind_some, Option.bind_some, h b hb]

end Flow

namespace Recording

open ObjectFlow.Flow

/-- The recordings differ in the identities and the order of the edges of their roots at most. -/
structure Agrees (r r' : Recording) : Prop where
  root_eq : r'.root = r.root
  length_eq : r'.graphs.length = r.graphs.length
  graph?_eq : ∀ h, h ≠ r.root → r'.graph? h = r.graph? h
  rootGraph_same : ∃ f f', r.rootGraph? = some f ∧ r'.rootGraph? = some f' ∧ f.Same f'

variable {a b c : Recording}

/-! ## Places behind two recordings

The root of `b` is left out of what `a` takes up, whether or not the graphs of `c` stand behind it,
so the index of a graph of `c` is counted past it in either case. -/

/-- A body that is taken up twice is taken to where it belongs behind both recordings. -/
theorem place_place (hb : b.Checked) (x y : Flow) (h : Handle) :
    a.place (b.joined c y) (b.place c h) = (a.joined b x).place c h := by
  have hlt := hb.root_lt
  have hlen := length_taken (r := a) hb
  show (⟨a.graphs.length + Handle.skipping ⟨b.graphs.length + _⟩ b.root⟩ : Handle) =
    ⟨(a.joined b x).graphs.length + _⟩
  rw [length_joined, Handle.skipping]
  dsimp only
  rw [if_neg (by omega)]
  exact congrArg Handle.mk (by omega)

/-- A body of the second recording moves as if the third were not there. -/
theorem at?_moved_joined (y : Flow) {h : Handle} (hlt : h.index < b.graphs.length)
    (hne : h ≠ b.root) :
    Table.at? (a.moved (b.joined c y)) h = Table.at? (a.moved b) h := by
  have hlt' : h.index < (b.joined c y).graphs.length := by
    rw [length_joined]
    exact Nat.lt_add_right _ hlt
  rw [at?_moved a hlt' hne, at?_moved a hlt hne]
  rfl

/-- A body of the third recording moves to one place, through the second recording or past it. -/
theorem at?_moved_moved (hb : b.Checked) (hc : c.Checked) (x y : Flow) {h : Handle}
    (hlt : h.index < c.graphs.length) (hne : h ≠ c.root) :
    (Table.at? (b.moved c) h).bind (Table.at? (a.moved (b.joined c y))) =
      Table.at? ((a.joined b x).moved c) h := by
  have hn : (b.joined c y).Nestable b.root.index (b.place c h) :=
    placed_nestable hb hc hlt hne (Nat.lt_add_right _ hb.root_lt)
  rw [at?_moved b hlt hne, Option.bind_some, at?_moved _ hlt hne, at?_moved a hn.lt hn.ne_root,
    place_place hb x y h]

/-! ## The graphs behind the root

The graphs other than the roots are copied with nothing but their bodies moved. What is left to show
is that the graph at each index is moved as the section before says. -/

/-- What is taken up from two recordings that are joined already is what is taken up from the one
and then from the other. -/
theorem joined_taken (hb : b.Bounded) (hc : c.Bounded) (x y : Flow) :
    a.taken (b.joined c y) = a.taken b ++ (a.joined b x).taken c := by
  have hbc := hb.checked
  have hcc := hc.checked
  have hgraphs : (b.joined c y).graphs.eraseIdx b.root.index =
      b.graphs.eraseIdx b.root.index ++ b.taken c := by
    show ((b.graphs ++ b.taken c).set _ _).eraseIdx _ = _
    rw [List.eraseIdx_set_eq, List.eraseIdx_append_of_lt_length hbc.root_lt]
  show ((b.joined c y).graphs.eraseIdx b.root.index).map _ = _
  rw [hgraphs, List.map_append]
  congr 1
  · refine List.map_congr_left fun f hf => ?_
    refine congrArg f.withNodes (List.map_congr_left fun n hn => ?_)
    refine congrArg (Prod.mk n.1) (Node.rehandled_congr fun h hh => ?_)
    obtain ⟨hlt, hne⟩ := hbc.node_body_lt (List.mem_of_mem_eraseIdx hf) hn hh
    exact at?_moved_joined y hlt hne
  · rw [taken, List.map_map, taken]
    refine List.map_congr_left fun f hf => ?_
    show (f.renumbered _).withNodes ((List.map _ f.graph.nodes).map _) = _
    rw [List.map_map]
    refine congrArg f.withNodes (List.map_congr_left fun n hn => ?_)
    refine congrArg (Prod.mk n.1) (Node.rehandled_rehandled fun h hh => ?_)
    obtain ⟨hlt, hne⟩ := hcc.node_body_lt (List.mem_of_mem_eraseIdx hf) hn hh
    exact at?_moved_moved hbc hcc x y hlt hne

/-- Both ways the graphs are the same but for the root. -/
theorem joined_joined (hb : b.Bounded) (hc : c.Bounded) (x y z : Flow) :
    (a.joined b x).joined c z = a.joined (b.joined c y) z := by
  show (⟨((a.graphs ++ a.taken b).set a.root.index x ++ _).set a.root.index z, a.root⟩ :
    Recording) = ⟨(a.graphs ++ _).set a.root.index z, a.root⟩
  rw [joined_taken hb hc x y, ← List.append_assoc]
  by_cases hi : a.root.index < (a.graphs ++ a.taken b).length
  · rw [List.set_append_left _ _ (by rwa [List.length_set]), List.set_set,
      List.set_append_left _ _ hi]
  · rw [List.set_eq_of_length_le (Nat.le_of_not_lt hi)]

/-- Recordings that are joined with two roots that are the same agree. -/
theorem agrees_joined (ha : a.Checked) {f f' : Flow} (h : f.Same f') :
    (a.joined b f).Agrees (a.joined b f') := by
  refine ⟨rfl, by rw [length_joined, length_joined], fun k hk => ?_,
    f, f', rootGraph?_joined ha f, rootGraph?_joined ha f', h⟩
  have hne : a.root.index ≠ k.index := fun heq => hk (congrArg Handle.mk heq.symm)
  show (List.set _ _ _)[_]? = (List.set _ _ _)[_]?
  rw [List.getElem?_set_ne hne, List.getElem?_set_ne hne]

/-! ## The roots

The markers of the second and of the third root are left out of the nodes both ways, and every other
node only has its body moved. -/

/-- The nodes of the root are those of the three roots one after the other, whichever two were
extended first. -/
theorem nodes_assoc (hb : b.Checked) (hc : c.Checked) {f g k fg fgk gk fgk' : Flow}
    {s₁ s₁' s₂ s₂' s₃ s₃' s₄ s₄' : Supply} (hg : b.rootGraph? = some g)
    (hk : c.rootGraph? = some k) (hgk : g.Extendable k)
    (h₁ : f.Extended g (a.moved b) s₁ fg s₁')
    (h₂ : fg.Extended k ((a.joined b fg).moved c) s₂ fgk s₂')
    (h₃ : g.Extended k (b.moved c) s₃ gk s₃')
    (h₄ : f.Extended gk (a.moved (b.joined c gk)) s₄ fgk' s₄') :
    fgk'.graph.nodes = fgk.graph.nodes := by
  have hinner : gk.innerNodes =
      g.innerNodes ++ k.innerNodes.map fun n => (n.1, n.2.rehandled (b.moved c)) := by
    have hmarker : ∀ n, gk.isMarker n = g.isMarker n := fun n => by
      rw [isMarker, isMarker, h₃.input_eq, h₃.output_eq]
    rw [innerNodes, h₃.nodes_eq, List.filter_append]
    refine congrArg₂ _ (List.filter_congr fun n _ => by rw [hmarker])
      (List.filter_eq_self.2 fun n hn => ?_)
    obtain ⟨m, hm, rfl⟩ := List.mem_map.1 hn
    have hmem := (mem_keys_innerNodes.1 (List.mem_map_of_mem (f := Prod.fst) hm)).1
    rw [hmarker, isMarker_eq_false_iff.2 (hgk.later_ne hmem)]
    rfl
  have hgmem : ∀ n ∈ g.innerNodes, ∀ h, n.2.call?.bind Call.body = some h →
      h.index < b.graphs.length ∧ h ≠ b.root := fun n hn h hh =>
    hb.node_body_lt (List.mem_of_getElem? hg) (List.mem_of_mem_filter hn) hh
  have hkmem : ∀ n ∈ k.innerNodes, ∀ h, n.2.call?.bind Call.body = some h →
      h.index < c.graphs.length ∧ h ≠ c.root := fun n hn h hh =>
    hc.node_body_lt (List.mem_of_getElem? hk) (List.mem_of_mem_filter hn) hh
  rw [h₄.nodes_eq, h₂.nodes_eq, h₁.nodes_eq, hinner, List.map_append, List.map_map,
    List.append_assoc]
  refine congrArg (f.graph.nodes ++ ·) (congrArg₂ _ (List.map_congr_left fun n hn => ?_)
    (List.map_congr_left fun n hn => ?_))
  · exact congrArg (Prod.mk n.1) (Node.rehandled_congr fun h hh =>
      at?_moved_joined gk (hgmem n hn h hh).1 (hgmem n hn h hh).2)
  · exact congrArg (Prod.mk n.1) (Node.rehandled_rehandled fun h hh =>
      at?_moved_moved hb hc fg gk (hkmem n hn h hh).1 (hkmem n hn h hh).2)

/--
Three recordings whose roots have no node and no edge in common can be joined either way, with the
same outcome, which passes its check and has a border again.
-/
theorem join_assoc {f g k : Flow} {s t : Supply} (ha : a.Bounded) (hb : b.Bounded) (hc : c.Bounded)
    (hf : a.rootGraph? = some f) (hg : b.rootGraph? = some g) (hk : c.rootGraph? = some k)
    (hfg : f.Apart g) (hfk : f.Apart k) (hgk : g.Apart k) (hfm : f.input ≠ f.output)
    (hgm : g.input ≠ g.output) (hs : ∀ x ∈ [f, g, k], x.graph.Before s)
    (ht : ∀ x ∈ [f, g, k], x.graph.Before t) :
    ∃ ab s₁ abc s₂ bc t₁ abc' t₂, a.join b s = .ok (ab, s₁) ∧ ab.join c s₁ = .ok (abc, s₂) ∧
      b.join c t = .ok (bc, t₁) ∧ a.join bc t₁ = .ok (abc', t₂) ∧
      abc.Agrees abc' ∧ abc.Bounded ∧ abc'.Bounded := by
  simp only [List.forall_mem_cons, List.not_mem_nil, false_imp_iff, implies_true, and_true] at hs ht
  obtain ⟨hfs, hgs, hks⟩ := hs
  obtain ⟨hft, hgt, hkt⟩ := ht
  have hmarkers : ∀ {r : Recording} {x : Flow}, r.Checked → r.rootGraph? = some x →
      x.input ∈ x.graph.nodeIds ∧ x.output ∈ x.graph.nodeIds := fun hr hx =>
    have hp := hr.passable_root hx
    ⟨Graph.hasNode_iff.1 hp.hasInput, Graph.hasNode_iff.1 hp.hasOutput⟩
  have hborder : ∀ {r : Recording} {x : Flow}, r.Bounded → r.rootGraph? = some x → x.Bordered :=
    fun hr hx => hr.bordered _ (List.mem_of_getElem? hx)
  obtain ⟨hfi, hfo⟩ := hmarkers ha.checked hf
  obtain ⟨hgi, hgo⟩ := hmarkers hb.checked hg
  have hxfg : f.Extendable g := ⟨hborder ha hf, hborder hb hg, hfg, hfi, hfo, hfm⟩
  have hxgk : g.Extendable k := ⟨hborder hb hg, hborder hc hk, hgk, hgi, hgo, hgm⟩
  -- the first two, and then the third
  obtain ⟨fg, s₁, hok₁, h₁⟩ := append_spec hxfg hfs hgs (a.moved b)
  have hab := ha.joined hb hf hg hxfg h₁
  have hrab : (a.joined b fg).rootGraph? = some fg := rootGraph?_joined ha.checked fg
  have hxfgk : fg.Extendable k := h₁.extendable hxfg (hborder hc hk) hfk hgk hks
  obtain ⟨fgk, s₂, hok₂, h₂⟩ :=
    append_spec hxfgk h₁.before (hks.mono h₁.next_le) ((a.joined b fg).moved c)
  have habc := hab.joined hc hrab hk hxfgk h₂
  -- the last two behind the first
  obtain ⟨gk, t₁, hok₃, h₃⟩ := append_spec hxgk hgt hkt (b.moved c)
  have hbc := hb.joined hc hg hk hxgk h₃
  have hrbc : (b.joined c gk).rootGraph? = some gk := rootGraph?_joined hb.checked gk
  have hxfgk' : f.Extendable gk := h₃.extendable_of_first hxgk hxfg hfk hft
  obtain ⟨fgk', t₂, hok₄, h₄⟩ :=
    append_spec hxfgk' (hft.mono h₃.next_le) h₃.before (a.moved (b.joined c gk))
  have habc' := ha.joined hbc hf hrbc hxfgk' h₄
  have hsame : fgk.Same fgk' := by
    refine ⟨?_, ?_, nodes_assoc hb.checked hc.checked hg hk hxgk h₁ h₂ h₃ h₄,
      (ties_assoc h₁ h₂ h₃ h₄ hxfg hxfgk hxgk hxfgk').symm⟩
    · rw [h₄.input_eq, h₂.input_eq, h₁.input_eq]
    · rw [h₄.output_eq, h₂.output_eq, h₁.output_eq]
  refine ⟨_, s₁, _, s₂, _, t₁, _, t₂, join_eq ha.valid hb hf hg hok₁,
    join_eq hab.valid hc hrab hk hok₂, join_eq hb.valid hc hg hk hok₃,
    join_eq ha.valid hbc hf hrbc hok₄, ?_, habc, habc'⟩
  rw [joined_joined hb hc fg gk fgk]
  exact agrees_joined ha.checked hsame

end Recording

namespace Recorder

open Recording

/-- The recorder after the events, without notes. -/
def silent (s : Supply) (events : List Event) : Recorder Unit :=
  (start Annotator.silent () {} s).absorb events

/-- An object is made, handed on and used. -/
theorem join_assoc_single :
    ∃ ab s₁ abc s₂ bc t₁ abc' t₂,
      (silent ⟨0⟩ (single "make" [] thing)).tape.recording.join
        (silent ⟨4⟩ (single "pass" [("x", thing)] thing)).tape.recording ⟨20⟩ = .ok (ab, s₁) ∧
      ab.join (silent ⟨9⟩ (single "use" [("x", thing)] .none)).tape.recording s₁ =
        .ok (abc, s₂) ∧
      (silent ⟨4⟩ (single "pass" [("x", thing)] thing)).tape.recording.join
        (silent ⟨9⟩ (single "use" [("x", thing)] .none)).tape.recording ⟨30⟩ = .ok (bc, t₁) ∧
      (silent ⟨0⟩ (single "make" [] thing)).tape.recording.join bc t₁ = .ok (abc', t₂) ∧
      abc.Agrees abc' ∧ abc.Bounded ∧ abc'.Bounded := by
  have hvalid : ∀ s es, (silent s es).tape.Valid := fun s es =>
    valid_absorb (valid_start Annotator.silent () {} s) es
  have hsince : ∀ s es, (silent s es).tape.recording.Since s := fun s es =>
    (since_absorb (valid_start Annotator.silent () {} s) (since_start Annotator.silent () {} s) es).1
  have ha : (silent ⟨0⟩ (single "make" [] thing)).tape.supply.next ≤ 4 := by decide +kernel
  have hb : (silent ⟨4⟩ (single "pass" [("x", thing)] thing)).tape.supply.next ≤ 9 := by
    decide +kernel
  have hc : (silent ⟨9⟩ (single "use" [("x", thing)] .none)).tape.supply.next ≤ 20 := by
    decide +kernel
  have hroot : ∀ s es, ∃ f, (silent s es).tape.recording.rootGraph? = some f ∧
      (silent s es).tape.recording.graphs[0]? = some f := fun s es => by
    have h := (hvalid s es).kept
    refine ⟨_, ?_, List.getElem?_eq_getElem h.root_lt⟩
    rw [rootGraph?, graph?, h.root_eq]
    exact List.getElem?_eq_getElem h.root_lt
  obtain ⟨f, hf, hf₀⟩ := hroot ⟨0⟩ (single "make" [] thing)
  obtain ⟨g, hg, hg₀⟩ := hroot ⟨4⟩ (single "pass" [("x", thing)] thing)
  obtain ⟨k, hk, hk₀⟩ := hroot ⟨9⟩ (single "use" [("x", thing)] .none)
  have hka := (hvalid ⟨0⟩ (single "make" [] thing)).kept
  have hkb := (hvalid ⟨4⟩ (single "pass" [("x", thing)] thing)).kept
  have hkc := (hvalid ⟨9⟩ (single "use" [("x", thing)] .none)).kept
  have hbefore : ∀ s : Supply, 20 ≤ s.next → ∀ x ∈ [f, g, k], x.graph.Before s := by
    intro s hs
    simp only [List.forall_mem_cons, List.not_mem_nil, false_imp_iff, implies_true, and_true]
    exact ⟨(hka.before 0 f hf₀).mono (by omega), (hkb.before 0 g hg₀).mono (by omega),
      (hkc.before 0 k hk₀).mono (by omega)⟩
  exact join_assoc hka.bounded hkb.bounded hkc.bounded hf hg hk
    (hka.apart_since (hsince _ _) ha hf₀ hg₀)
    (hka.apart_since (hsince _ _) (Nat.le_trans ha (by decide)) hf₀ hk₀)
    (hkb.apart_since (hsince _ _) hb hg₀ hk₀) (hka.recorded 0 f hf₀).input_ne_output
    (hkb.recorded 0 g hg₀).input_ne_output (hbefore _ (by decide)) (hbefore _ (by decide))

end Recorder

/-! ## A single marker

The assumption that the two markers of a root are different nodes cannot be left out, and a
recording passes its check without it: `point` does. A call appended to it stands both behind and in
front of the one node, so the result has a circle, and the next join refuses it. -/

namespace Recording

open ObjectFlow.Flow

/-- One node that is both markers. -/
def point : Flow :=
  ⟨{ nodes := [(⟨0⟩, .input)], seating := .inOrder [⟨0⟩] }, ⟨0⟩, ⟨0⟩⟩

/-- A call between two markers. -/
def passage : Flow :=
  ⟨{ nodes := [(⟨1⟩, .input), (⟨2⟩, .output), (⟨3⟩, .call ⟨"m", "f", [], none, none, none⟩)]
     edges := [⟨⟨4⟩, ⟨1⟩, ⟨3⟩, {}⟩, ⟨⟨5⟩, ⟨3⟩, ⟨2⟩, {}⟩]
     seating := .inOrder [⟨1⟩, ⟨2⟩, ⟨3⟩] }, ⟨1⟩, ⟨2⟩⟩

/-- Two markers alone. -/
def blank : Flow :=
  ⟨{ nodes := [(⟨6⟩, .input), (⟨7⟩, .output)], seating := .inOrder [⟨6⟩, ⟨7⟩] }, ⟨6⟩, ⟨7⟩⟩

/-- The call behind the single marker. -/
def circle : Flow :=
  ⟨{ nodes := [(⟨0⟩, .input), (⟨3⟩, .call ⟨"m", "f", [], none, none, none⟩)]
     edges := [⟨⟨8⟩, ⟨0⟩, ⟨3⟩, {}⟩, ⟨⟨9⟩, ⟨3⟩, ⟨0⟩, {}⟩]
     seating := .inOrder [⟨0⟩, ⟨3⟩] }, ⟨0⟩, ⟨0⟩⟩

/-- A recording of one graph. -/
def alone (f : Flow) : Recording := ⟨[f], ⟨0⟩⟩

/-- A recording of one graph without bodies is in order if its graph is. -/
theorem bounded_alone {f : Flow} (hf : f.Bordered) (hin : f.input ∈ f.graph.nodeIds)
    (hout : f.output ∈ f.graph.nodeIds) (ha : f.graph.Acyclic) (hbodies : bodies f = []) :
    (alone f).Bounded := by
  refine ⟨validate_eq_ok_iff.2 ⟨Nat.one_pos, fun i g hg => ?_, ?_⟩,
    List.forall_mem_singleton.2 hf⟩
  · obtain rfl : f = g := List.mem_singleton.1 (List.mem_of_getElem? hg) |>.symm
    exact ⟨Graph.hasNode_iff.2 hin, Graph.hasNode_iff.2 hout,
      (Graph.isAcyclic_iff hf.wellFormed).2 ha, hbodies ▸ fun b hb => nomatch hb⟩
  · simp [alone, bodyHandles, hbodies]

/-- One node for both markers is in order. -/
theorem bounded_point : (alone point).Bounded := by
  refine bounded_alone ⟨⟨by decide, by decide, by simp [point], by simp [point],
    Seating.fits_inOrder _⟩, ?_, ?_, ?_, ?_⟩ (by decide) (by decide)
    (Graph.acyclic_of_rank NodeId.value ?_) rfl <;> simp [point]

/-- The call between its markers is in order. -/
theorem bounded_passage : (alone passage).Bounded := by
  refine bounded_alone ⟨⟨by decide, by decide, by decide, by decide,
    Seating.fits_inOrder _⟩, ?_, ?_, ?_, ?_⟩ (by decide) (by decide)
    (Graph.acyclic_of_rank (fun n => if n.value = 2 then 4 else n.value) ?_) rfl <;>
    simp [passage]

/-- Two markers alone are in order. -/
theorem bounded_blank : (alone blank).Bounded := by
  refine bounded_alone ⟨⟨by decide, by decide, by simp [blank], by simp [blank],
    Seating.fits_inOrder _⟩, ?_, ?_, ?_, ?_⟩ (by decide) (by decide)
    (Graph.acyclic_of_rank NodeId.value ?_) rfl <;> simp [blank]

/-- A call behind the single marker leads back to it. -/
theorem circle_not_acyclic : ¬ circle.graph.Acyclic := fun h =>
  h ⟨0⟩ (Relation.TransGen.tail (.single ⟨_, List.mem_cons_self, rfl, rfl⟩)
    ⟨_, List.mem_cons_of_mem _ List.mem_cons_self, rfl, rfl⟩)

/-- The circle is a graph nevertheless. -/
theorem wellFormed_circle : circle.graph.WellFormed :=
  ⟨by decide, by decide, by decide, by decide, Seating.fits_inOrder _⟩

/-- What passes a node that is both markers comes back to it, and nothing more can be joined. -/
theorem join_closes_circle :
    (alone point).Bounded ∧ (alone passage).Bounded ∧ (alone blank).Bounded ∧
    (∀ f ∈ [point, passage, blank], f.graph.Before ⟨8⟩) ∧
    point.Apart passage ∧ point.Apart blank ∧ passage.Apart blank ∧
    ∃ ab s, (alone point).join (alone passage) ⟨8⟩ = .ok (ab, s) ∧
      ∀ abc, ab.join (alone blank) s ≠ .ok abc := by
  refine ⟨bounded_point, bounded_passage, bounded_blank, ?_, ⟨by decide, by decide⟩,
    ⟨by decide, by decide⟩, ⟨by decide, by decide⟩, (alone point).joined (alone passage) circle,
    ⟨10⟩, join_eq bounded_point.valid bounded_passage rfl rfl rfl, fun abc habc => ?_⟩
  · simp only [List.forall_mem_cons, List.not_mem_nil, false_imp_iff, implies_true, and_true]
    exact ⟨⟨by decide, by decide⟩, ⟨by decide, by decide⟩, ⟨by decide, by decide⟩⟩
  · rw [join, Outcome.bind_eq_ok_iff] at habc
    obtain ⟨⟨⟩, hv, -⟩ := habc
    exact circle_not_acyclic ((Graph.isAcyclic_iff wellFormed_circle).1
      ((validate_eq_ok_iff.1 hv).passable 0 circle rfl).acyclic)

end Recording

end ObjectFlow
