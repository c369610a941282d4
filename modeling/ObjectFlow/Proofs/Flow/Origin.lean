import ObjectFlow.Proofs.Flow.Arena
import ObjectFlow.Proofs.Flow.Inline

/-!
# Where objects come from across bodies

In a recording, a call with a body gives what some call of the body leaves (`Yields`), and what
enters a body comes from what the call took it from, or from outside of the graph around it
(`Origin`). Neither depends on a bound for the depth of the bodies.

The two relations are the specification of flattening. `Yields o x y` goes down: from the call `x`
to the call without a body from which the object really comes. `Origin top o x y` goes up and then
down: what the input marker of a body hands on was taken by its call, in the graph around, from a
call that yields it, or was not taken by the call at all, and then comes from what the input marker
of the graph around stands for. Going up ends at the graph `top` which is flattened, so the relation
can be used for every graph of a recording and not for the root only.

Both are stated as inductive relations and not as functions, since what they lead to need not exist.
In a recording that is kept up they are functional (`Kept.yields_unique`), by which they can be
compared with what is looked up.
-/

namespace ObjectFlow.Recording

/--
The call that leaves an object where a node of a graph does: a call without a body does so itself,
and one with a body leaves it to the calls of the body.
-/
inductive Yields (r : Recording) (o : ObjectId) : NodeId → NodeId → Prop
  | self {h : Handle} {g : Flow} {x : NodeId} {c : Flow.Call} : r.graph? h = some g →
    (x, c) ∈ g.calls → c.body = none → Yields r o x x
  | body {h b : Handle} {g k : Flow} {x z y : NodeId} {pin : Option String} :
    r.graph? h = some g → (x, b) ∈ bodies g → r.graph? b = some k →
    k.Carries z k.output o pin → Yields r o z y → Yields r o x y

/--
The node of the flattened graph that an object comes from where it comes from a node of a graph:
what enters a body comes from where its call takes it, or from outside of the graph around the call
if nothing yields it there. The input marker of the graph that is flattened stands for itself.
-/
inductive Origin (r : Recording) (top : Handle) (o : ObjectId) : NodeId → NodeId → Prop
  | call {x y : NodeId} : r.Yields o x y → Origin r top o x y
  | top {g : Flow} : r.graph? top = some g → Origin r top o g.input g.input
  | argument {h b : Handle} {g k : Flow} {m x y : NodeId} {pin : Option String} : b ≠ top →
    r.graph? h = some g → (m, b) ∈ bodies g → r.graph? b = some k →
    g.Carries x m o pin → r.Yields o x y → Origin r top o k.input y
  | outside {h b : Handle} {g k : Flow} {m y : NodeId} : b ≠ top →
    r.graph? h = some g → (m, b) ∈ bodies g → r.graph? b = some k →
    (∀ x pin y', g.Carries x m o pin → ¬ r.Yields o x y') →
    Origin r top o g.input y → Origin r top o k.input y

variable {r : Recording} {s : Supply}

/-! ## Graphs and their nodes

A node belongs to one graph of the recording, and so does a call. -/

/-- A node belongs to one graph. -/
theorem Kept.home (hr : r.Kept s) {h h' : Handle} {g g' : Flow} (hg : r.graph? h = some g)
    (hg' : r.graph? h' = some g') {n : NodeId} (hn : n ∈ g.graph.nodeIds)
    (hn' : n ∈ g'.graph.nodeIds) : h = h' ∧ g = g' := hr.arena.home hg hg' hn hn'

/-- Every graph was recorded. -/
theorem Kept.recorded_of (hr : r.Kept s) {h : Handle} {g : Flow} (hg : r.graph? h = some g) :
    g.Recorded := hr.recorded h.index g hg

theorem Kept.mem_of_call (hr : r.Kept s) {h : Handle} {g : Flow} (hg : r.graph? h = some g)
    {n : NodeId} {c : Flow.Call} (hc : (n, c) ∈ g.calls) : n ∈ g.graph.nodeIds :=
  (hr.recorded_of hg).mem_of_call (Table.mem_keys.2 ⟨c, hc⟩)

/-! ## What calls yield

The cases of the relation are told apart by whether a call has a body. -/

/-- What yields an object is a call. -/
theorem Yields.exists_call {o : ObjectId} {x y : NodeId} (h : r.Yields o x y) :
    ∃ k g, r.graph? k = some g ∧ x ∈ Table.keys g.calls := by
  cases h with
  | self hg hc => exact ⟨_, _, hg, Table.mem_keys.2 ⟨_, hc⟩⟩
  | body hg hb =>
    obtain ⟨c, hc, -⟩ := Flow.mem_bodies.1 hb
    exact ⟨_, _, hg, Table.mem_keys.2 ⟨c, hc⟩⟩

/-- What yields an object in the end is a call. -/
theorem Yields.exists_call_right {o : ObjectId} {x y : NodeId} (h : r.Yields o x y) :
    ∃ k g, r.graph? k = some g ∧ y ∈ Table.keys g.calls := by
  induction h with
  | self hg hc => exact ⟨_, _, hg, Table.mem_keys.2 ⟨_, hc⟩⟩
  | body _ _ _ _ _ ih => exact ih

/-- A call is not the input marker of any graph. -/
theorem Kept.ne_input (hr : r.Kept s) {h k : Handle} {g g' : Flow} (hg : r.graph? h = some g)
    (hg' : r.graph? k = some g') {x : NodeId} (hx : x ∈ Table.keys g.calls) : x ≠ g'.input := by
  rintro rfl
  have hrec := hr.recorded_of hg
  obtain ⟨-, rfl⟩ := hr.home hg hg' (hrec.mem_of_call hx)
    (hr.recorded_of hg').input_mem
  exact hrec.input_not_mem hx

/-- No input marker yields an object or is yielded. -/
theorem Kept.yields_ne_input (hr : r.Kept s) {o : ObjectId} {x y : NodeId} (hy : r.Yields o x y)
    {h : Handle} {g : Flow} (hg : r.graph? h = some g) : x ≠ g.input ∧ y ≠ g.input := by
  obtain ⟨k, g', hg', hx⟩ := hy.exists_call
  obtain ⟨k', g'', hg'', hy⟩ := hy.exists_call_right
  exact ⟨hr.ne_input hg' hg hx, hr.ne_input hg'' hg hy⟩

/-- A node is one call of one graph. -/
theorem Kept.call_unique (hr : r.Kept s) {h h' : Handle} {g g' : Flow} (hg : r.graph? h = some g)
    (hg' : r.graph? h' = some g') {n : NodeId} {c c' : Flow.Call} (hc : (n, c) ∈ g.calls)
    (hc' : (n, c') ∈ g'.calls) : g = g' ∧ c = c' := by
  obtain ⟨-, rfl⟩ := hr.home hg hg' (hr.mem_of_call hg hc) (hr.mem_of_call hg' hc')
  have hd := (hr.recorded_of hg).calls_nodup
  exact ⟨rfl, Option.some.inj ((Table.at?_of_mem hd hc).symm.trans (Table.at?_of_mem hd hc'))⟩

/-- A call without a body yields what it gives itself. -/
theorem Kept.yields_self_iff (hr : r.Kept s) {h : Handle} {g : Flow} (hg : r.graph? h = some g)
    {n : NodeId} {c : Flow.Call} (hc : (n, c) ∈ g.calls) (hb : c.body = none) {o : ObjectId}
    {y : NodeId} : r.Yields o n y ↔ y = n := by
  constructor
  · intro hy
    cases hy with
    | self => rfl
    | body hg' hb' =>
      obtain ⟨c', hc', hsome⟩ := Flow.mem_bodies.1 hb'
      obtain ⟨-, rfl⟩ := hr.call_unique hg hg' hc hc'
      cases hb.symm.trans hsome
  · rintro rfl
    exact .self hg hc hb

/-- A call with a body yields what a call in the body yields that leaves the object. -/
theorem Kept.yields_body_iff (hr : r.Kept s) {h b : Handle} {g k : Flow} (hg : r.graph? h = some g)
    {n : NodeId} (hb : (n, b) ∈ bodies g) (hk : r.graph? b = some k) {o : ObjectId} {y : NodeId} :
    r.Yields o n y ↔ ∃ z pin, k.Carries z k.output o pin ∧ r.Yields o z y := by
  obtain ⟨c, hc, hsome⟩ := Flow.mem_bodies.1 hb
  constructor
  · intro hy
    cases hy with
    | self hg' hc' hnone =>
      obtain ⟨-, rfl⟩ := hr.call_unique hg hg' hc hc'
      cases hnone.symm.trans hsome
    | body hg' hb' hk' hz hy =>
      obtain ⟨c', hc', hsome'⟩ := Flow.mem_bodies.1 hb'
      obtain ⟨-, rfl⟩ := hr.call_unique hg hg' hc hc'
      obtain rfl := Option.some.inj (hsome.symm.trans hsome')
      obtain rfl := Option.some.inj (hk.symm.trans hk')
      exact ⟨_, _, hz, hy⟩
  · rintro ⟨z, pin, hz, hy⟩
    exact .body hg hb hk hz hy

/-- An object is yielded by one call at most. -/
theorem Kept.yields_unique (hr : r.Kept s) {o : ObjectId} {x y y' : NodeId} (hy : r.Yields o x y)
    (hy' : r.Yields o x y') : y = y' := by
  induction hy with
  | self hg hc hb => exact ((hr.yields_self_iff hg hc hb).1 hy').symm
  | body hg hb hk hz _ ih =>
    obtain ⟨z', pin', hz', hy'⟩ := (hr.yields_body_iff hg hb hk).1 hy'
    obtain ⟨e, he, rfl, ht, ho, -⟩ := hz
    obtain ⟨e', he', rfl, ht', ho', -⟩ := hz'
    obtain rfl := (hr.recorded_of hk).last e he e' he' ht ht' (ho.trans ho'.symm)
    exact ih hy'

/-! ## What comes into a body

Flattening a graph uses what is known of its bodies, which is stated with each body as the top. The
last two lemmas change the top from a body to the graph around it. -/

/-- Seen from the graph itself, what comes from outside does so. -/
theorem Kept.origin_top_iff (hr : r.Kept s) {h : Handle} {g : Flow} (hg : r.graph? h = some g)
    {o : ObjectId} {y : NodeId} : r.Origin h o g.input y ↔ y = g.input := by
  constructor
  · intro ho
    generalize hx : g.input = x at ho
    cases ho with
    | call hy => exact absurd hx.symm (hr.yields_ne_input hy hg).1
    | top hg' => rfl
    | @argument _ b _ k _ _ _ _ hne _ _ hk =>
      have hin : g.input ∈ k.graph.nodeIds := hx ▸ (hr.recorded_of hk).input_mem
      exact absurd (hr.home hg hk (hr.recorded_of hg).input_mem hin).1 hne.symm
    | @outside _ b _ k _ _ hne _ _ hk =>
      have hin : g.input ∈ k.graph.nodeIds := hx ▸ (hr.recorded_of hk).input_mem
      exact absurd (hr.home hg hk (hr.recorded_of hg).input_mem hin).1 hne.symm
  · rintro rfl
    exact .top hg

/-- What a call hands on comes from what it yields. -/
theorem Kept.origin_call_iff (hr : r.Kept s) {h k : Handle} {g : Flow} (hg : r.graph? k = some g)
    {n : NodeId} (hn : n ∈ Table.keys g.calls) {o : ObjectId} {y : NodeId} :
    r.Origin h o n y ↔ r.Yields o n y := by
  constructor
  · intro ho
    cases ho with
    | call hy => exact hy
    | top hg' => exact absurd rfl (hr.ne_input hg hg' hn)
    | argument _ _ _ hk => exact absurd rfl (hr.ne_input hg hk hn)
    | outside _ _ _ hk => exact absurd rfl (hr.ne_input hg hk hn)
  · exact .call

/-- What enters a body of a graph, seen from the graph. -/
theorem Kept.origin_body_iff (hr : r.Kept s) {h b : Handle} {g k : Flow} (hg : r.graph? h = some g)
    {m : NodeId} (hm : (m, b) ∈ bodies g) (hk : r.graph? b = some k) {o : ObjectId} {y : NodeId} :
    r.Origin h o k.input y ↔ (∃ x pin, g.Carries x m o pin ∧ r.Yields o x y) ∨
      (∀ x pin y', g.Carries x m o pin → ¬ r.Yields o x y') ∧ y = g.input := by
  have hne : b ≠ h := by
    rintro rfl
    exact Nat.lt_irrefl _ (hr.arena.exists_body hg hm).1
  have hin := (hr.recorded_of hk).input_mem
  constructor
  · intro ho
    generalize hx : k.input = x at ho
    cases ho with
    | call hy => exact absurd hx.symm (hr.yields_ne_input hy hk).1
    | top hg' =>
      exact absurd (hr.home hk hg' hin (hx ▸ (hr.recorded_of hg').input_mem)).1 hne
    | argument _ hg' hm' hk' hc hy =>
      obtain ⟨rfl, -⟩ := hr.home hk hk' hin (hx ▸ (hr.recorded_of hk').input_mem)
      obtain ⟨-, rfl, rfl⟩ := hr.arena.parent hg hg' hm hm'
      exact .inl ⟨_, _, hc, hy⟩
    | outside _ hg' hm' hk' hno ho =>
      obtain ⟨rfl, -⟩ := hr.home hk hk' hin (hx ▸ (hr.recorded_of hk').input_mem)
      obtain ⟨rfl, rfl, rfl⟩ := hr.arena.parent hg hg' hm hm'
      exact .inr ⟨hno, (hr.origin_top_iff hg).1 ho⟩
  · rintro (⟨x, pin, hc, hy⟩ | ⟨hno, rfl⟩)
    · exact .argument hne hg hm hk hc hy
    · exact .outside hne hg hm hk hno (.top hg)

/-- What comes from somewhere, seen from a body, does so seen from the graph around it. -/
theorem Kept.origin_lift (hr : r.Kept s) {h b : Handle} {g k : Flow} (hg : r.graph? h = some g)
    {m : NodeId} (hm : (m, b) ∈ bodies g) (hk : r.graph? b = some k) {o : ObjectId}
    {x z : NodeId} (ho : r.Origin b o x z) {j : Handle} {l : Flow} (hw : r.Within b j)
    (hl : r.graph? j = some l) (hx : x ∈ l.graph.nodeIds) :
    (z ≠ k.input → r.Origin h o x z) ∧
      (z = k.input → ∀ y, r.Origin h o k.input y → r.Origin h o x y) := by
  have hlt := (hr.arena.exists_body hg hm).1
  induction ho generalizing j l with
  | call hy => exact ⟨fun _ => .call hy, fun heq => absurd heq (hr.yields_ne_input hy hk).2⟩
  | top hg' =>
    obtain rfl := Option.some.inj (hk.symm.trans hg')
    exact ⟨fun hne => absurd rfl hne, fun _ y hy => hy⟩
  | argument _ hg' hm' hk' hc hy =>
    obtain ⟨rfl, -⟩ := hr.home hk' hl (hr.recorded_of hk').input_mem hx
    refine ⟨fun _ => .argument ?_ hg' hm' hk' hc hy, fun heq => ?_⟩
    · rintro rfl
      exact Nat.lt_irrefl _ (Nat.lt_of_lt_of_le hlt (hr.arena.index_le hw))
    · exact absurd heq (hr.yields_ne_input hy hk).2
  | outside hne hg' hm' hk' hno _ ih =>
    obtain ⟨rfl, -⟩ := hr.home hk' hl (hr.recorded_of hk').input_mem hx
    obtain ⟨ih, ih'⟩ :=
      ih (hr.arena.within_parent hw hne hg' hm') hg' (hr.recorded_of hg').input_mem
    have hne' : ∀ (b' : Handle), r.Within b b' → b' ≠ h := by
      rintro b' hw rfl
      exact Nat.lt_irrefl _ (Nat.lt_of_lt_of_le hlt (hr.arena.index_le hw))
    exact ⟨fun hz => .outside (hne' _ hw) hg' hm' hk' hno (ih hz),
      fun hz y hy => .outside (hne' _ hw) hg' hm' hk' hno (ih' hz y hy)⟩

/--
Where something within a body comes from, seen from the graph around it: from where it comes seen
from the body, unless this is the body's own input marker.
-/
theorem Kept.origin_within_iff (hr : r.Kept s) {h b : Handle} {g k : Flow}
    (hg : r.graph? h = some g) {m : NodeId} (hm : (m, b) ∈ bodies g) (hk : r.graph? b = some k)
    {j : Handle} {l : Flow} (hw : r.Within b j) (hl : r.graph? j = some l) {o : ObjectId}
    {x y : NodeId} (hx : x ∈ l.graph.nodeIds) : r.Origin h o x y ↔
      r.Origin b o x y ∧ y ≠ k.input ∨ r.Origin b o x k.input ∧ r.Origin h o k.input y := by
  constructor
  · intro ho
    induction ho generalizing j l with
    | call hy => exact .inl ⟨.call hy, (hr.yields_ne_input hy hk).2⟩
    | top hg' =>
      obtain ⟨rfl, -⟩ := hr.home hg' hl (hr.recorded_of hg').input_mem hx
      exact absurd (hr.arena.index_le hw) (Nat.not_le.2 (hr.arena.exists_body hg hm).1)
    | @argument _ b' _ _ _ _ _ _ hne hg' hm' hk' hc hy =>
      by_cases hb : b' = b
      · subst hb
        obtain rfl := Option.some.inj (hk.symm.trans hk')
        exact .inr ⟨.top hk, .argument hne hg' hm' hk' hc hy⟩
      · exact .inl ⟨.argument hb hg' hm' hk' hc hy, (hr.yields_ne_input hy hk).2⟩
    | @outside _ b' _ _ _ _ hne hg' hm' hk' hno ho ih =>
      obtain ⟨rfl, -⟩ := hr.home hk' hl (hr.recorded_of hk').input_mem hx
      by_cases hb : b' = b
      · subst hb
        obtain rfl := Option.some.inj (hk.symm.trans hk')
        exact .inr ⟨.top hk, .outside hne hg' hm' hk' hno ho⟩
      · have ih := ih (hr.arena.within_parent hw hb hg' hm') hg' (hr.recorded_of hg').input_mem
        exact ih.imp (And.imp_left (.outside hb hg' hm' hk' hno))
          (And.imp_left (.outside hb hg' hm' hk' hno))
  · rintro (⟨ho, hne⟩ | ⟨ho, ho'⟩)
    · exact (hr.origin_lift hg hm hk ho hw hl hx).1 hne
    · exact (hr.origin_lift hg hm hk ho hw hl hx).2 rfl y ho'

end ObjectFlow.Recording
