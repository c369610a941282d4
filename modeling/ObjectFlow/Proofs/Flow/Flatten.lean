import ObjectFlow.Proofs.Flow.Expand
import ObjectFlow.Proofs.Flow.Origin

/-!
# Flattening

Flattening a recording that is kept up succeeds, and its result has the calls without bodies of all
graphs within the root. An object enters such a call from its origin (`flatten_spec`).

`FlatOf` is what the sweep over nested graphs carries from the bodies to a graph. For one graph,
`Expanded` tells what is carried in terms of the graph and its flat bodies; here this is compared
with `Yields` and `Origin`, which speak of all graphs of the recording. What a body gives is what
its call yields (`gives_supplied_iff`), and what enters a body is the origin of its input marker
(`enters_supplied_iff`). So each edge of the expanded graph has an origin
(`exists_origin_of_expanded`), and conversely what some graph within carries to a call without a
body is carried from its origin, be the call in the graph itself (`carries_self_of_expanded`) or in
one of the bodies (`carries_body_of_expanded`).
-/

namespace ObjectFlow.Recording

/-- The graph is another one with all bodies in the places of their calls, at any depth. -/
structure FlatOf (r : Recording) (h : Handle) (f : Flow) : Prop where
  framed : f.Framed
  markers : ∀ g, r.graph? h = some g → f.input = g.input ∧ f.output = g.output
  mem_calls_iff : ∀ n c, (n, c) ∈ f.calls ↔
    c.body = none ∧ ∃ j g, r.Within h j ∧ r.graph? j = some g ∧ (n, c) ∈ g.calls
  carries_iff : ∀ y n o pin, f.Carries y n o pin ↔ n ∈ f.graph.nodeIds ∧
    ∃ j g, r.graph? j = some g ∧ ∃ x, g.Carries x n o pin ∧ r.Origin h o x y

variable {r : Recording} {s : Supply}

/-- A flat graph leaves each object once, as the recorded graphs do. -/
theorem FlatOf.once {h : Handle} {f : Flow} (hf : r.FlatOf h f) (hr : r.Kept s) {g : Flow}
    (hg : r.graph? h = some g) : f.Once := by
  have hrec := hr.recorded_of hg
  -- an object leaves the flattened graph as it leaves the recorded one
  have key : ∀ y o pin, f.Carries y f.output o pin →
      ∃ e ∈ g.graph.edges, e.target = g.output ∧ e.data.object.id = some o ∧
        r.Yields o e.source y := by
    intro y o pin hc
    obtain ⟨-, j, g', hg', x, hx, ho⟩ := (hf.carries_iff _ _ _ _).1 hc
    have hmem := (hx.mem (hr.recorded_of hg').toFramed).2
    rw [(hf.markers g hg).2] at hx hmem
    obtain ⟨rfl, rfl⟩ := hr.home hg hg' hrec.output_mem hmem
    obtain ⟨e, he, rfl, ht, ho', -⟩ := hx
    refine ⟨e, he, ht, ho', ?_⟩
    have hs := hrec.source_call he ht
    exact (hr.origin_call_iff hg hs).1 ho
  intro y y' o pin pin' hc hc'
  obtain ⟨e, he, ht, ho, hy⟩ := key y o pin hc
  obtain ⟨e', he', ht', ho', hy'⟩ := key y' o pin' hc'
  obtain rfl := hrec.last e he e' he' ht ht' (ho.trans ho'.symm)
  exact hr.yields_unique hy hy'

/-! ## One graph

The bodies are given by handle, while the calls in whose places they stand are nodes. `supplied` is
the table from the one to the other. -/

/-- The flat bodies that belong to the calls of a graph. -/
def supplied (body : Handle → Flow) (g : Flow) : Table NodeId Flow :=
  (bodies g).map fun b => (b.1, body b.2)

/-- Bodies are supplied at the calls that have one. -/
theorem keys_supplied (body : Handle → Flow) (g : Flow) :
    Table.keys (supplied body g) = Table.keys (bodies g) := by
  simp [supplied, Table.keys, Function.comp_def]

/-- The body at a call is the one of its handle. -/
theorem at?_supplied {g : Flow} (hg : g.Framed) (body : Handle → Flow) {m : NodeId} {f : Flow} :
    Table.at? (supplied body g) m = some f ↔ ∃ b, (m, b) ∈ bodies g ∧ f = body b := by
  have hd : (Table.keys (supplied body g)).Nodup := by
    rw [keys_supplied]
    exact nodup_keys_bodies hg.wellFormed
  rw [Table.at?_eq_some_iff hd, supplied, List.mem_map]
  constructor
  · rintro ⟨b, hb, heq⟩
    obtain ⟨rfl, rfl⟩ := Prod.mk.inj heq
    exact ⟨b.2, hb, rfl⟩
  · rintro ⟨b, hb, rfl⟩
    exact ⟨(m, b), hb, rfl⟩

variable {h : Handle} {g f : Flow} {body : Handle → Flow}

/-- No body is supplied at a call that has none. -/
theorem not_mem_keys_supplied (hg : g.Framed) (body : Handle → Flow) {n : NodeId} {c : Flow.Call}
    (hc : (n, c) ∈ g.calls) : n ∉ Table.keys (supplied body g) ↔ c.body = none := by
  rw [keys_supplied]
  exact not_mem_keys_bodies hg.wellFormed hc

/-- What is carried to a call of a flat body was carried to it in some graph within the body. -/
theorem FlatOf.exists_carries (hr : r.Kept s) {b : Handle} (hflat : r.FlatOf b f)
    {n y : NodeId} {o : ObjectId}
    {pin : Option String} (hc : f.Carries y n o pin) (hn : n ≠ f.output) :
    ∃ j g', r.Within b j ∧ r.graph? j = some g' ∧ ∃ x, g'.Carries x n o pin ∧
      r.Origin b o x y := by
  obtain ⟨hmem, j, g', hg', x, hx, ho⟩ := (hflat.carries_iff _ _ _ _).1 hc
  have hcall : n ∈ Table.keys f.calls := by
    obtain ⟨e, he, -, rfl, -⟩ := hc
    exact (hflat.framed.target_cases he).resolve_left hn
  obtain ⟨c, hc⟩ := Table.mem_keys.1 hcall
  obtain ⟨-, j', l, hw, hl, hc⟩ := (hflat.mem_calls_iff n c).1 hc
  obtain ⟨rfl, rfl⟩ := hr.home hl hg' (hr.mem_of_call hl hc)
    (hx.mem (hr.recorded_of hg').toFramed).2
  exact ⟨_, _, hw, hg', x, hx, ho⟩

theorem mem_keys_of_supplied {n : NodeId} (hn : n ∈ Table.keys (supplied body g)) :
    n ∈ Table.keys g.calls := by
  rw [keys_supplied] at hn
  obtain ⟨b, hb⟩ := Table.mem_keys.1 hn
  obtain ⟨c, hc, -⟩ := Flow.mem_bodies.1 hb
  exact Table.mem_keys.2 ⟨c, hc⟩

section

variable (hr : r.Kept s) (hg : r.graph? h = some g)
  (hbody : ∀ b ∈ bodies g, r.FlatOf b.2 (body b.2))

include hr hg hbody

/-- The calls give what they yield. -/
theorem gives_supplied_iff {n : NodeId} (hn : n ∈ Table.keys g.calls) {o : ObjectId} {y : NodeId} :
    Flow.Gives (supplied body g) o n y ↔ r.Yields o n y := by
  have hrec := hr.recorded_of hg
  obtain ⟨c, hc⟩ := Table.mem_keys.1 hn
  cases hb : c.body with
  | none =>
    have hfree := (not_mem_keys_supplied hrec.toFramed body hc).2 hb
    rw [hr.yields_self_iff hg hc hb, Flow.Gives, Table.at?_eq_none_iff.2 hfree]
    simp [hfree]
  | some b =>
    have hmem : (n, b) ∈ bodies g := Flow.mem_bodies.2 ⟨c, hc, hb⟩
    have hat := (at?_supplied hrec.toFramed body).2 ⟨b, hmem, rfl⟩
    obtain ⟨-, k, hk⟩ := hr.arena.exists_body hg hmem
    have hkrec := hr.recorded_of hk
    have hflat := hbody _ hmem
    have hout := (hflat.markers k hk).2
    have hkey : n ∈ Table.keys (supplied body g) :=
      Table.mem_keys.2 ⟨_, Table.mem_of_at? hat⟩
    rw [hr.yields_body_iff hg hmem hk, Flow.Gives, hat]
    simp only [hkey, not_true_eq_false, false_and, false_or, Option.some.injEq, exists_eq_left']
    constructor
    · rintro ⟨pin, hc⟩
      obtain ⟨-, j, g', hg', x, hx, ho⟩ := (hflat.carries_iff _ _ _ _).1 hc
      rw [hout] at hx
      obtain ⟨-, rfl⟩ := hr.home hk hg' hkrec.output_mem (hx.mem (hr.recorded_of hg').toFramed).2
      obtain ⟨e, he, rfl, ht, -⟩ := id hx
      have hs := hkrec.source_call he ht
      exact ⟨_, pin, hx, (hr.origin_call_iff hk hs).1 ho⟩
    · rintro ⟨z, pin, hz, hy⟩
      exact ⟨pin, (hflat.carries_iff _ _ _ _).2 ⟨hflat.framed.output_mem, b, k, hk, z,
        hout.symm ▸ hz, .call hy⟩⟩

/-- Where something comes from in the graph itself. -/
theorem gives_iff_origin {n : NodeId} (hn : n = g.input ∨ n ∈ Table.keys g.calls) {o : ObjectId}
    {y : NodeId} : Flow.Gives (supplied body g) o n y ↔ r.Origin h o n y := by
  have hrec := hr.recorded_of hg
  rcases hn with rfl | hn
  · have hfree : g.input ∉ Table.keys (supplied body g) := by
      rw [keys_supplied]
      intro hm
      obtain ⟨b, hb⟩ := Table.mem_keys.1 hm
      obtain ⟨c, hc, -⟩ := Flow.mem_bodies.1 hb
      exact hrec.input_not_mem (Table.mem_keys.2 ⟨c, hc⟩)
    rw [hr.origin_top_iff hg, Flow.Gives, Table.at?_eq_none_iff.2 hfree]
    simp [hfree]
  · rw [gives_supplied_iff hr hg hbody hn, hr.origin_call_iff hg hn]

/-- What enters a body is what comes into it seen from the graph. -/
theorem enters_supplied_iff {m : NodeId} {b : Handle} (hm : (m, b) ∈ bodies g) {k : Flow}
    (hk : r.graph? b = some k) {o : ObjectId} {y : NodeId} :
    Flow.Enters g (supplied body g) m o y ↔ r.Origin h o k.input y := by
  have hrec := hr.recorded_of hg
  have hsource : ∀ {x pin}, g.Carries x m o pin → x = g.input ∨ x ∈ Table.keys g.calls := by
    rintro x pin ⟨e, he, rfl, -⟩
    exact hrec.source_cases he
  rw [hr.origin_body_iff hg hm hk]
  constructor
  · rintro (⟨x, pin, hc, hy⟩ | ⟨hno, rfl⟩)
    · rcases hsource hc with rfl | hx
      · have heq := (hr.origin_top_iff hg).1 ((gives_iff_origin hr hg hbody (.inl rfl)).1 hy)
        refine .inr ⟨fun x' pin' y' hc' hy' => ?_, heq⟩
        -- all that carries the object to the call comes from outside, too
        obtain ⟨e, he, hs, ht, ho, -⟩ := hc
        obtain ⟨e', he', hs', ht', ho', -⟩ := hc'
        have hsame := hrec.agreed e' he' e he (ht'.trans ht.symm) (ho'.trans ho.symm)
        exact (hr.yields_ne_input hy' hg).1 (hs'.symm.trans (hsame.trans hs))
      · exact .inl ⟨x, pin, hc, (gives_supplied_iff hr hg hbody hx).1 hy⟩
    · refine .inr ⟨fun x pin y' hc hy => hno x pin y' hc ?_, rfl⟩
      exact (gives_iff_origin hr hg hbody (hsource hc)).2 (.call hy)
  · rintro (⟨x, pin, hc, hy⟩ | ⟨hno, rfl⟩)
    · exact .inl ⟨x, pin, hc, (gives_iff_origin hr hg hbody (hsource hc)).2 (.call hy)⟩
    · by_cases hin : ∃ pin, g.Carries g.input m o pin
      · obtain ⟨pin, hc⟩ := hin
        exact .inl ⟨g.input, pin, hc, (gives_iff_origin hr hg hbody (.inl rfl)).2 (.top hg)⟩
      · refine .inr ⟨fun x pin y' hc hy => ?_, rfl⟩
        rcases hsource hc with rfl | hx
        · exact hin ⟨pin, hc⟩
        · exact hno x pin y' hc ((gives_supplied_iff hr hg hbody hx).1 hy)

variable (hf : Flow.Expanded g (supplied body g) f)
include hf

/-- The calls are those without bodies of all graphs within. -/
theorem mem_calls_of_expanded {n : NodeId} {c : Flow.Call} :
    (n, c) ∈ f.calls ↔
      c.body = none ∧ ∃ j g', r.Within h j ∧ r.graph? j = some g' ∧ (n, c) ∈ g'.calls := by
  have hrec := hr.recorded_of hg
  have hat := fun m f => at?_supplied hrec.toFramed body (m := m) (f := f)
  rw [hf.mem_calls_iff]
  constructor
  · rintro (⟨hc, hn⟩ | ⟨m, f', hm, hc⟩)
    · exact ⟨(not_mem_keys_supplied hrec.toFramed body hc).1 hn, h, g, .refl, hg, hc⟩
    · obtain ⟨b, hb, rfl⟩ := (hat _ _).1 hm
      obtain ⟨hnone, j, g', hw, hg', hc⟩ := ((hbody _ hb).mem_calls_iff n c).1 hc
      exact ⟨hnone, j, g', (within_iff hg).2 (.inr ⟨_, hb, hw⟩), hg', hc⟩
  · rintro ⟨hnone, j, g', hw, hg', hc⟩
    rcases (within_iff hg).1 hw with rfl | ⟨b, hb, hw⟩
    · obtain rfl := Option.some.inj (hg.symm.trans hg')
      exact .inl ⟨hc, (not_mem_keys_supplied hrec.toFramed body hc).2 hnone⟩
    · exact .inr ⟨b.1, body b.2, (hat _ _).2 ⟨b.2, hb, rfl⟩,
        ((hbody _ hb).mem_calls_iff n c).2 ⟨hnone, j, g', hw, hg', hc⟩⟩

/-- What is carried comes from the origin of what some recorded graph carries. -/
theorem exists_origin_of_expanded {y n : NodeId} {o : ObjectId} {pin : Option String}
    (hc : f.Carries y n o pin) :
    ∃ j g', r.graph? j = some g' ∧ ∃ x, g'.Carries x n o pin ∧ r.Origin h o x y := by
  have hrec := hr.recorded_of hg
  rcases (hf.carries_iff _ _ _ _).1 hc with ⟨-, x, hx, hgive⟩ | ⟨m, f', hm, hn, hcase⟩
  · obtain ⟨e, he, rfl, -⟩ := id hx
    exact ⟨h, g, hg, _, hx, (gives_iff_origin hr hg hbody (hrec.source_cases he)).1 hgive⟩
  · obtain ⟨b, hb, rfl⟩ := (at?_supplied hrec.toFramed body).1 hm
    have hflat := hbody _ hb
    obtain ⟨-, k, hk⟩ := hr.arena.exists_body hg hb
    have hin := (hflat.markers k hk).1
    rcases hcase with ⟨hc, hy⟩ | ⟨hc, hent⟩
    · obtain ⟨j, g', hw, hg', x, hx, ho⟩ := hflat.exists_carries hr hc hn
      have hmem := (hx.mem (hr.recorded_of hg').toFramed).1
      exact ⟨j, g', hg', x, hx, (hr.origin_within_iff hg hb hk hw hg' hmem).2
        (.inl ⟨ho, hin ▸ hy⟩)⟩
    · obtain ⟨j, g', hw, hg', x, hx, ho⟩ := hflat.exists_carries hr hc hn
      have hmem := (hx.mem (hr.recorded_of hg').toFramed).1
      exact ⟨j, g', hg', x, hx, (hr.origin_within_iff hg hb hk hw hg' hmem).2
        (.inr ⟨hin ▸ ho, (enters_supplied_iff hr hg hbody hb hk).1 hent⟩)⟩

/-- What the graph itself carries to a node without a body comes from its origin. -/
theorem carries_self_of_expanded {j : Handle} {g' : Flow} (hg' : r.graph? j = some g')
    {x y n : NodeId} {o : ObjectId} {pin : Option String} (hx : g'.Carries x n o pin)
    (ho : r.Origin h o x y) (hn : n ∈ g.graph.nodeIds)
    (hfree : n ∉ Table.keys (supplied body g)) : f.Carries y n o pin := by
  obtain ⟨-, rfl⟩ := hr.home hg hg' hn (hx.mem (hr.recorded_of hg').toFramed).2
  obtain ⟨e, he, rfl, -⟩ := id hx
  exact (hf.carries_iff _ _ _ _).2 (.inl ⟨hfree, _, hx,
    (gives_iff_origin hr hg hbody ((hr.recorded_of hg).source_cases he)).2 ho⟩)

/-- What is carried to a call of a flat body comes from its origin. -/
theorem carries_body_of_expanded {m : NodeId} {b : Handle} (hb : (m, b) ∈ bodies g)
    {j : Handle} {g' : Flow} (hg' : r.graph? j = some g') {x y n : NodeId} {o : ObjectId}
    {pin : Option String} (hx : g'.Carries x n o pin) (ho : r.Origin h o x y)
    (hn : n ∈ Table.keys (body b).calls) : f.Carries y n o pin := by
  have hflat := hbody _ hb
  obtain ⟨-, k, hk⟩ := hr.arena.exists_body hg hb
  have hin := (hflat.markers k hk).1
  have hmem := hx.mem (hr.recorded_of hg').toFramed
  have hnb : n ∈ (body b).graph.nodeIds := hflat.framed.mem_of_call hn
  have hne : n ≠ (body b).output := fun heq => hflat.framed.output_not_mem (heq ▸ hn)
  obtain ⟨c, hc⟩ := Table.mem_keys.1 hn
  obtain ⟨-, j', l, hw, hl, hc⟩ := (hflat.mem_calls_iff n c).1 hc
  obtain ⟨rfl, rfl⟩ := hr.home hl hg' (hr.mem_of_call hl hc) hmem.2
  refine (hf.carries_iff _ _ _ _).2 (.inr ⟨m, body b,
    (at?_supplied (hr.recorded_of hg).toFramed body).2 ⟨b, hb, rfl⟩, hne, ?_⟩)
  rcases (hr.origin_within_iff hg hb hk hw hg' hmem.1).1 ho with ⟨ho, hy⟩ | ⟨ho, ho'⟩
  · exact .inl ⟨(hflat.carries_iff _ _ _ _).2 ⟨hnb, _, _, hg', x, hx, ho⟩, hin ▸ hy⟩
  · exact .inr ⟨(hflat.carries_iff _ _ _ _).2 ⟨hnb, _, _, hg', x, hx, hin ▸ ho⟩,
      (enters_supplied_iff hr hg hbody hb hk).2 ho'⟩

/-- A graph with flat bodies in the places of all its calls that have one is flat. -/
theorem FlatOf.of_expanded : r.FlatOf h f := by
  have hrec := hr.recorded_of hg
  refine ⟨hf.framed, fun g' hg' => ?_, fun _ _ => mem_calls_of_expanded hr hg hbody hf,
    fun y n o pin => ⟨fun hc => ⟨(hc.mem hf.framed).2,
      exists_origin_of_expanded hr hg hbody hf hc⟩, ?_⟩⟩
  · obtain rfl := Option.some.inj (hg.symm.trans hg')
    exact ⟨hf.input_eq, hf.output_eq⟩
  · rintro ⟨hn, j, g', hg', x, hx, ho⟩
    have hself := carries_self_of_expanded hr hg hbody hf hg' hx ho
    rcases hf.framed.mem_nodeIds_iff.1 hn with rfl | rfl | hn
    · -- nothing is carried to the input marker
      have hmem := (hx.mem (hr.recorded_of hg').toFramed).2
      rw [hf.input_eq] at hx hmem
      obtain ⟨-, rfl⟩ := hr.home hg hg' hrec.input_mem hmem
      obtain ⟨e, he, -, ht, -⟩ := hx
      exact absurd ht (hrec.target_ne_input e he)
    · refine hself (hf.output_eq ▸ hrec.output_mem) fun hm => ?_
      exact hrec.output_not_mem (hf.output_eq ▸ mem_keys_of_supplied hm)
    · obtain ⟨c, hc⟩ := Table.mem_keys.1 hn
      rcases (hf.mem_calls_iff n c).1 hc with ⟨hc, hfree⟩ | ⟨m, f', hm, hc⟩
      · exact hself (hr.mem_of_call hg hc) hfree
      · obtain ⟨b, hb, rfl⟩ := (at?_supplied hrec.toFramed body).1 hm
        exact carries_body_of_expanded hr hg hbody hf hb hg' hx ho (Table.mem_keys.2 ⟨c, hc⟩)

end

/-! ## All graphs

The root is flat when all its bodies are. -/

/-- Flatness goes over from bodies to graphs. -/
theorem Kept.nests_flatOf (hr : r.Kept s) : r.Nests r.FlatOf := by
  refine ⟨fun h f hf => hf.framed.fenced, fun h g body hg hbody hself => ?_⟩
  have hrec := hr.recorded_of hg
  refine ⟨g.Underway body, Flow.underway_persists hrec fun b hb => ?_,
    Flow.underway_start hrec.toFramed body, ?_⟩
  · obtain ⟨-, k, hk⟩ := hr.arena.exists_body hg hb
    exact ⟨(hbody b hb).framed, (hbody b hb).once hr hk, hself b hb⟩
  · rintro f ⟨done, heq, hexp, -⟩
    rw [List.append_nil] at heq
    subst heq
    exact .of_expanded hr hg hbody hexp

/-- Flattening succeeds, and it leaves the root with all bodies in the places of their calls. -/
theorem flatten_spec (hr : r.Kept s) :
    ∃ f s', r.flatten s = .ok (f, s') ∧ r.FlatOf r.root f :=
  hr.nests_flatOf.flatten_spec hr.arena fun h g hg => hr.before h.index g hg

end ObjectFlow.Recording
