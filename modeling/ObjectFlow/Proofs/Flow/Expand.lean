import ObjectFlow.Proofs.Flow.Arena
import ObjectFlow.Proofs.Flow.Inline

/-!
# Bodies in the place of some calls

While the calls of a recorded graph are replaced by bodies in their order, what is carried where can
be told from the recorded graph and the bodies alone (`Expanded`). A call is replaced after all
calls from which it takes something.

## Outline

`done` is the table of the bodies that stand in the places of their calls already. Two relations are
defined from it and from the recorded graph. `Gives done o x y` says that `y` is what hands on the
object `o` where the recorded graph has `x`: this is `x`, or the node that leaves `o` in the body at
`x`. `Enters g done m o y` says that a call `m` takes `o` from `y`. With these
`Expanded.carries_iff` describes every edge of the graph in hand: an edge to a node outside of all
bodies, one inside of a body, or one that led from the input marker of a body and now comes from
what enters its call.

The induction step is `Expanded.append`: one more body takes the place of the next call `m`. Calls
are replaced in the order in which they began, and this order is used twice. What enters a call that
was replaced before cannot come from `m` (`enters_ne`), so it stays (`enters_append`). And `m` has
not yet been fed by anything that is changed later, so the one node that is found to feed it is the
one that `Enters` tells (`Expanded.feeder_iff`).
-/

namespace ObjectFlow.Flow

/-- Each object has one edge to the output marker. -/
def Once (f : Flow) : Prop :=
  ∀ y y' o pin pin', f.Carries y f.output o pin → f.Carries y' f.output o pin' → y = y'

/-- A node gives an object itself, unless a body stands in its place; then this leaves it. -/
def Gives (done : Table NodeId Flow) (o : ObjectId) (x y : NodeId) : Prop :=
  x ∉ Table.keys done ∧ y = x ∨
    ∃ b, Table.at? done x = some b ∧ ∃ pin, b.Carries y b.output o pin

/-- What a call takes comes from what gives it there, or from outside if nothing does. -/
def Enters (g : Flow) (done : Table NodeId Flow) (m : NodeId) (o : ObjectId) (y : NodeId) : Prop :=
  (∃ x pin, g.Carries x m o pin ∧ Gives done o x y) ∨
    (∀ x pin y', g.Carries x m o pin → ¬ Gives done o x y') ∧ y = g.input

/-- The bodies fit in the places of calls of the graph. -/
structure Fitting (g : Flow) (done : Table NodeId Flow) : Prop where
  call : ∀ m b, Table.at? done m = some b → m ∈ Table.keys g.calls
  framed : ∀ m b, Table.at? done m = some b → b.Framed
  once : ∀ m b, Table.at? done m = some b → b.Once
  apart : ∀ m b, Table.at? done m = some b → g.Apart b

/-- The graph has bodies in the places of some calls of a recorded one. -/
structure Expanded (g : Flow) (done : Table NodeId Flow) (f : Flow) : Prop where
  framed : f.Framed
  input_eq : f.input = g.input
  output_eq : f.output = g.output
  mem_calls_iff : ∀ n c, (n, c) ∈ f.calls ↔ (n, c) ∈ g.calls ∧ n ∉ Table.keys done ∨
    ∃ m b, Table.at? done m = some b ∧ (n, c) ∈ b.calls
  carries_iff : ∀ y n o pin, f.Carries y n o pin ↔
    (n ∉ Table.keys done ∧ ∃ x, g.Carries x n o pin ∧ Gives done o x y) ∨
      ∃ m b, Table.at? done m = some b ∧ n ≠ b.output ∧
        (b.Carries y n o pin ∧ y ≠ b.input ∨ b.Carries b.input n o pin ∧ Enters g done m o y)

/-- Without bodies the graph is as recorded. -/
theorem expanded_nil {g : Flow} (h : g.Framed) : Expanded g [] g := by
  refine ⟨h, rfl, rfl, fun n c => ?_, fun y n o pin => ?_⟩
  · simp
  · constructor
    · exact fun hc => .inl ⟨by simp, y, hc, .inl ⟨by simp, rfl⟩⟩
    · rintro (⟨-, x, hc, ⟨-, rfl⟩ | ⟨b, hb, -⟩⟩ | ⟨m, b, hb, -⟩)
      · exact hc
      · cases hb
      · cases hb

variable {g : Flow} {done : Table NodeId Flow}

/-- One node hands on an object in the place of a call. -/
theorem gives_unique (hf : Fitting g done) {o : ObjectId} {x y y' : NodeId}
    (h : Gives done o x y) (h' : Gives done o x y') : y = y' := by
  rcases h with ⟨hx, rfl⟩ | ⟨b, hb, pin, hc⟩ <;> rcases h' with ⟨hx', rfl⟩ | ⟨b', hb', pin', hc'⟩
  · rfl
  · exact absurd (Table.mem_keys.2 ⟨b', Table.mem_of_at? hb'⟩) hx
  · exact absurd (Table.mem_keys.2 ⟨b, Table.mem_of_at? hb⟩) hx'
  · obtain rfl := Option.some.inj (hb.symm.trans hb')
    exact hf.once x b hb _ _ _ _ _ hc hc'

/-- A call that has not been replaced gives nothing but what is its own. -/
theorem gives_call (hf : Fitting g done) {o : ObjectId} {x m : NodeId} (hm : m ∈ g.graph.nodeIds)
    (h : Gives done o x m) : x = m := by
  rcases h with ⟨-, rfl⟩ | ⟨b, hb, pin, hc⟩
  · rfl
  · exact absurd (hc.mem (hf.framed x b hb)).1 ((hf.apart x b hb).nodes m hm)

/-- One node feeds a call with an object. -/
theorem enters_unique (hg : g.Recorded) (hf : Fitting g done) {m : NodeId} {o : ObjectId}
    {y y' : NodeId} (h : Enters g done m o y) (h' : Enters g done m o y') : y = y' := by
  rcases h with ⟨x, pin, hc, hy⟩ | ⟨hno, rfl⟩ <;> rcases h' with ⟨x', pin', hc', hy'⟩ | ⟨hno', rfl⟩
  · obtain ⟨e, he, rfl, ht, ho, -⟩ := hc
    obtain ⟨e', he', rfl, ht', ho', -⟩ := hc'
    rw [hg.agreed e he e' he' (ht.trans ht'.symm) (ho.trans ho'.symm)] at hy
    exact gives_unique hf hy hy'
  · exact absurd hy (hno' x pin y hc)
  · exact absurd hy' (hno x' pin' y' hc')
  · rfl

/-- What is carried to a call comes from before it. -/
theorem Recorded.carries_lt (hg : g.Recorded) {x n : NodeId} {o : ObjectId} {pin : Option String}
    (hc : g.Carries x n o pin) (hn : n ∈ Table.keys g.calls) : x.value < n.value := by
  obtain ⟨e, he, rfl, rfl, -⟩ := hc
  exact (hg.ascending e he).resolve_left fun heq => hg.output_not_mem (heq ▸ hn)

/-- Nothing that enters an earlier call comes from a later one. -/
theorem enters_ne (hg : g.Recorded) (hf : Fitting g done) {m m' : NodeId} {o : ObjectId}
    {y : NodeId} (hm : m ∈ Table.keys g.calls) (hm' : m' ∈ Table.keys g.calls)
    (hle : m.value ≤ m'.value) (h : Enters g done m o y) : y ≠ m' := by
  rintro rfl
  rcases h with ⟨x, pin, hc, hy⟩ | ⟨-, rfl⟩
  · obtain rfl := gives_call hf (hg.mem_of_call hm') hy
    exact Nat.lt_irrefl _ (Nat.lt_of_lt_of_le (hg.carries_lt hc hm) hle)
  · exact hg.input_not_mem hm'

/-! ## One more body

Both directions of `carries_iff` for the new table are proved from those for the old one. For the
direction from the table to the graph, the two kinds of edges have a lemma each. -/

/-- What the new body leaves is given in the place of its call, and everything else as before. -/
theorem gives_append {m : NodeId} (hm : m ∉ Table.keys done) (b : Flow) {o : ObjectId}
    {x y : NodeId} : Gives (done ++ [(m, b)]) o x y ↔
      x = m ∧ (∃ pin, b.Carries y b.output o pin) ∨ x ≠ m ∧ Gives done o x y := by
  unfold Gives
  simp only [Table.at?_append_singleton hm, Table.keys_append, List.mem_append, not_or]
  by_cases hx : x = m
  · subst hx
    have hnone : Table.at? done x = none := Table.at?_eq_none_iff.2 hm
    simp [hnone]
  · simp [hx]

/-- Replacing a later call changes nothing about what enters a call. -/
theorem enters_append (hg : g.Recorded) {m m' : NodeId} (hm : m ∈ Table.keys g.calls)
    (hm' : m' ∉ Table.keys done) (hle : m.value ≤ m'.value) (b : Flow) {o : ObjectId}
    {y : NodeId} : Enters g (done ++ [(m', b)]) m o y ↔ Enters g done m o y := by
  have hgives : ∀ x pin y, g.Carries x m o pin →
      (Gives (done ++ [(m', b)]) o x y ↔ Gives done o x y) := by
    intro x pin y hc
    have hne : x ≠ m' := by
      rintro rfl
      exact Nat.lt_irrefl _ (Nat.lt_of_lt_of_le (hg.carries_lt hc hm) hle)
    rw [gives_append hm']
    simp [hne]
  refine or_congr (exists_congr fun x => exists_congr fun pin =>
    and_congr_right fun hc => hgives x pin y hc) (and_congr_left fun _ => ?_)
  exact forall_congr' fun x => forall_congr' fun pin => forall_congr' fun y' =>
    forall_congr' fun hc => not_congr (hgives x pin y' hc)

variable {f : Flow}

/-- The node that feeds a call is the one from which the object enters it. -/
theorem Expanded.feeder_iff (h : Expanded g done f) (hg : g.Recorded) (hf : Fitting g done)
    {m : NodeId} (hm : m ∈ Table.keys g.calls) (hm' : m ∉ Table.keys done) {o : ObjectId}
    {y : NodeId} : y = f.feeder m o ↔ Enters g done m o y := by
  have hmem : m ∈ g.graph.nodeIds := hg.mem_of_call hm
  have hfeeder : Enters g done m o (f.feeder m o) := by
    rcases f.feeder_cases m o with ⟨pin, hc⟩ | ⟨heq, hno⟩
    · rcases (h.carries_iff _ _ _ _).1 hc with ⟨-, x, hc, hy⟩ | ⟨n, b, hb, -, hcase⟩
      · exact .inl ⟨x, pin, hc, hy⟩
      · have hmb : m ∈ b.graph.nodeIds := by
          rcases hcase with ⟨hc, -⟩ | ⟨hc, -⟩
          · exact (hc.mem (hf.framed n b hb)).2
          · exact (hc.mem (hf.framed n b hb)).2
        exact absurd hmb ((hf.apart n b hb).nodes m hmem)
    · refine .inr ⟨fun x pin y' hc hy => ?_, heq.trans h.input_eq⟩
      exact hno y' pin ((h.carries_iff _ _ _ _).2 (.inl ⟨hm', x, hc, hy⟩))
  constructor
  · rintro rfl
    exact hfeeder
  · exact fun hy => enters_unique hg hf hy hfeeder

/-- What a call sends on is what it sent on in the recorded graph. -/
theorem Expanded.carries_call_iff (h : Expanded g done f) (hg : g.Recorded) (hf : Fitting g done)
    {m : NodeId} (hm : m ∈ Table.keys g.calls) (hm' : m ∉ Table.keys done)
    (hlt : ∀ n ∈ Table.keys done, n.value < m.value) {n : NodeId} {o : ObjectId}
    {pin : Option String} :
    f.Carries m n o pin ↔ n ∉ Table.keys done ∧ g.Carries m n o pin := by
  have hmem : m ∈ g.graph.nodeIds := hg.mem_of_call hm
  rw [h.carries_iff]
  constructor
  · rintro (⟨hn, x, hc, hy⟩ | ⟨n', b, hb, -, ⟨hc, -⟩ | ⟨-, hy⟩⟩)
    · obtain rfl := gives_call hf hmem hy
      exact ⟨hn, hc⟩
    · exact absurd (hc.mem (hf.framed n' b hb)).1 ((hf.apart n' b hb).nodes m hmem)
    · have hle := Nat.le_of_lt (hlt n' (Table.mem_keys.2 ⟨b, Table.mem_of_at? hb⟩))
      exact absurd rfl (enters_ne hg hf (hf.call n' b hb) hm hle hy)
  · exact fun ⟨hn, hc⟩ => .inl ⟨hn, m, hc, .inl ⟨hm', rfl⟩⟩

/-- One more body fits if it has nothing in common with the graph. -/
theorem Fitting.append (hf : Fitting g done) {m : NodeId} (hm : m ∈ Table.keys g.calls)
    (hnew : m ∉ Table.keys done) {b : Flow} (hb : b.Framed) (ho : b.Once) (ha : g.Apart b) :
    Fitting g (done ++ [(m, b)]) := by
  refine ⟨fun k c hk => ?_, fun k c hk => ?_, fun k c hk => ?_, fun k c hk => ?_⟩ <;>
    rcases (Table.at?_append_singleton hnew).1 hk with hk | ⟨rfl, rfl⟩
  · exact hf.call k c hk
  · exact hm
  · exact hf.framed k c hk
  · exact hb
  · exact hf.once k c hk
  · exact ho
  · exact hf.apart k c hk
  · exact ha

/-- What stands in the place of a call shares no node with the recorded graph. -/
theorem Fitting.node_ne (hf : Fitting g done) {k n m : NodeId} {c : Flow}
    (hk : Table.at? done k = some c) (hm : m ∈ g.graph.nodeIds) (hn : n ∈ c.graph.nodeIds) :
    n ≠ m := by
  rintro rfl
  exact (hf.apart k c hk).nodes n hm hn

theorem not_mem_keys_append {m n : NodeId} (b : Flow) :
    n ∉ Table.keys (done ++ [(m, b)]) ↔ n ∉ Table.keys done ∧ n ≠ m := by
  rw [Table.keys_append, List.mem_append, not_or]
  simp

section Append

variable (h : Expanded g done f) (hg : g.Recorded) (hf : Fitting g done) {m : NodeId}
  (hm : m ∈ Table.keys g.calls) (hlt : ∀ n ∈ Table.keys done, n.value < m.value) {b f' : Flow}
  (hb : b.Framed) (ha : g.Apart b) (hr : f.Replaced b m f')
include h hg hf hm hlt hb ha hr

/-- The calls of the body take the place of the call. -/
theorem Expanded.mem_calls_append {n : NodeId} {c : Call} :
    (n, c) ∈ f'.calls ↔ (n, c) ∈ g.calls ∧ n ∉ Table.keys (done ++ [(m, b)]) ∨
      ∃ k d, Table.at? (done ++ [(m, b)]) k = some d ∧ (n, c) ∈ d.calls := by
  have hnew : m ∉ Table.keys done := fun hmem => Nat.lt_irrefl _ (hlt m hmem)
  have hmem : m ∈ g.graph.nodeIds := hg.mem_of_call hm
  rw [hr.calls_eq, Table.without, List.mem_filter, List.mem_append, h.mem_calls_iff,
    not_mem_keys_append]
  simp only [ne_eq, decide_eq_true_eq]
  constructor
  · rintro ⟨(⟨hc, hn⟩ | ⟨k, d, hk, hc⟩) | hc, hne⟩
    · exact .inl ⟨hc, hn, hne⟩
    · exact .inr ⟨k, d, (Table.at?_append_singleton hnew).2 (.inl hk), hc⟩
    · exact .inr ⟨m, b, (Table.at?_append_singleton hnew).2 (.inr ⟨rfl, rfl⟩), hc⟩
  · rintro (⟨hc, hn, hne⟩ | ⟨k, d, hk, hc⟩)
    · exact ⟨.inl (.inl ⟨hc, hn⟩), hne⟩
    · rcases (Table.at?_append_singleton hnew).1 hk with hk | ⟨rfl, rfl⟩
      · have hn := (hf.framed k d hk).mem_of_call (Table.mem_keys.2 ⟨c, hc⟩)
        exact ⟨.inl (.inr ⟨k, d, hk, hc⟩), hf.node_ne hk hmem hn⟩
      · refine ⟨.inr hc, fun heq => ha.nodes k hmem ?_⟩
        exact heq ▸ hb.mem_of_call (Table.mem_keys.2 ⟨c, hc⟩)

omit ha in
/-- What is carried once the body stands there is carried by the graph and the bodies. -/
theorem Expanded.carries_append_of_replaced {y n : NodeId} {o : ObjectId} {pin : Option String}
    (hc : f'.Carries y n o pin) :
    (n ∉ Table.keys (done ++ [(m, b)]) ∧
        ∃ x, g.Carries x n o pin ∧ Gives (done ++ [(m, b)]) o x y) ∨
      ∃ k d, Table.at? (done ++ [(m, b)]) k = some d ∧ n ≠ d.output ∧
        (d.Carries y n o pin ∧ y ≠ d.input ∨
          d.Carries d.input n o pin ∧ Enters g (done ++ [(m, b)]) k o y) := by
  have hnew : m ∉ Table.keys done := fun hmem => Nat.lt_irrefl _ (hlt m hmem)
  have hself : Table.at? (done ++ [(m, b)]) m = some b :=
    (Table.at?_append_singleton hnew).2 (.inr ⟨rfl, rfl⟩)
  rcases (hr.carries_iff _ _ _ _).1 hc with
    ⟨hc | ⟨hc, hy, hn⟩ | ⟨hy, hc⟩ | ⟨hgive, hc⟩, hym, hnm⟩
  · rcases (h.carries_iff _ _ _ _).1 hc with ⟨hn, x, hx, hgive⟩ | ⟨k, d, hk, hn, hcase⟩
    · refine .inl ⟨(not_mem_keys_append b).2 ⟨hn, hnm⟩, x, hx,
        (gives_append hnew b).2 (.inr ⟨?_, hgive⟩)⟩
      rintro rfl
      rcases hgive with ⟨-, heq⟩ | ⟨d, hd, -⟩
      · exact hym heq
      · exact hnew (Table.mem_keys.2 ⟨d, Table.mem_of_at? hd⟩)
    · refine .inr ⟨k, d, (Table.at?_append_singleton hnew).2 (.inl hk), hn,
        hcase.imp_right (And.imp_right fun hent => ?_)⟩
      have hle := Nat.le_of_lt (hlt k (Table.mem_keys.2 ⟨d, Table.mem_of_at? hk⟩))
      exact (enters_append hg (hf.call k d hk) hnew hle b).2 hent
  · exact .inr ⟨m, b, hself, hn, .inl ⟨hc, hy⟩⟩
  · refine .inr ⟨m, b, hself, ?_, .inr ⟨hc, ?_⟩⟩
    · rintro rfl
      obtain ⟨e, he, hs, ht, -⟩ := hc
      exact hb.not_across e he ⟨hs, ht⟩
    · exact (enters_append hg hm hnew (Nat.le_refl _) b).2 ((h.feeder_iff hg hf hm hnew).1 hy)
  · obtain ⟨hn, hc⟩ := (h.carries_call_iff hg hf hm hnew hlt).1 hc
    exact .inl ⟨(not_mem_keys_append b).2 ⟨hn, hnm⟩, m, hc,
      (gives_append hnew b).2 (.inl ⟨rfl, hgive⟩)⟩

/-- What the graph gives to a call without a body is carried there. -/
theorem Expanded.carries_of_gives {x y n : NodeId} {o : ObjectId} {pin : Option String}
    (hfree : n ∉ Table.keys (done ++ [(m, b)])) (hx : g.Carries x n o pin)
    (hgive : Gives (done ++ [(m, b)]) o x y) : f'.Carries y n o pin := by
  have hnew : m ∉ Table.keys done := fun hmem => Nat.lt_irrefl _ (hlt m hmem)
  have hmem : m ∈ g.graph.nodeIds := hg.mem_of_call hm
  obtain ⟨hn, hnm⟩ := (not_mem_keys_append b).1 hfree
  rw [hr.carries_iff]
  rcases (gives_append hnew b).1 hgive with ⟨rfl, pin', hb'⟩ | ⟨hne, hgive'⟩
  · refine ⟨.inr (.inr (.inr ⟨⟨pin', hb'⟩, ?_⟩)), ?_, hnm⟩
    · exact (h.carries_call_iff hg hf hm hnew hlt).2 ⟨hn, hx⟩
    · exact fun heq => ha.nodes x hmem (heq ▸ (hb'.mem hb).1)
  · refine ⟨.inl ((h.carries_iff _ _ _ _).2 (.inl ⟨hn, x, hx, hgive'⟩)), ?_, hnm⟩
    rintro rfl
    exact hne (gives_call hf hmem hgive')

/-- What a body carries, or takes in, is carried in its place. -/
theorem Expanded.carries_of_body {k y n : NodeId} {d : Flow} {o : ObjectId} {pin : Option String}
    (hk : Table.at? (done ++ [(m, b)]) k = some d) (hn : n ≠ d.output)
    (hcase : d.Carries y n o pin ∧ y ≠ d.input ∨
      d.Carries d.input n o pin ∧ Enters g (done ++ [(m, b)]) k o y) :
    f'.Carries y n o pin := by
  have hnew : m ∉ Table.keys done := fun hmem => Nat.lt_irrefl _ (hlt m hmem)
  have hmem : m ∈ g.graph.nodeIds := hg.mem_of_call hm
  rw [hr.carries_iff]
  rcases (Table.at?_append_singleton hnew).1 hk with hk | ⟨rfl, rfl⟩
  · have hcall := hf.call k d hk
    have hle := Nat.le_of_lt (hlt k (Table.mem_keys.2 ⟨d, Table.mem_of_at? hk⟩))
    have hcase := hcase.imp_right (And.imp_right (enters_append hg hcall hnew hle b).1)
    have hnd : n ∈ d.graph.nodeIds :=
      hcase.elim (fun hc => (hc.1.mem (hf.framed k d hk)).2)
        fun hc => (hc.1.mem (hf.framed k d hk)).2
    refine ⟨.inl ((h.carries_iff _ _ _ _).2 (.inr ⟨k, d, hk, hn, hcase⟩)), ?_,
      hf.node_ne hk hmem hnd⟩
    rcases hcase with ⟨hc, -⟩ | ⟨-, hent⟩
    · exact hf.node_ne hk hmem (hc.mem (hf.framed k d hk)).1
    · exact enters_ne hg hf hcall hm hle hent
  · have hout : ∀ n ∈ d.graph.nodeIds, n ≠ k := fun n hn heq => ha.nodes k hmem (heq ▸ hn)
    rcases hcase with ⟨hc, hy⟩ | ⟨hc, hent⟩
    · exact ⟨.inr (.inl ⟨hc, hy, hn⟩), hout y (hc.mem hb).1, hout n (hc.mem hb).2⟩
    · have hent := (enters_append hg hm hnew (Nat.le_refl _) d).1 hent
      exact ⟨.inr (.inr (.inl ⟨(h.feeder_iff hg hf hm hnew).2 hent, hc⟩)),
        enters_ne hg hf hm hm (Nat.le_refl _) hent, hout n (hc.mem hb).2⟩

/-- A body takes the place of the next call. -/
theorem Expanded.append : Expanded g (done ++ [(m, b)]) f' where
  framed := hr.framed
  input_eq := hr.input_eq.trans h.input_eq
  output_eq := hr.output_eq.trans h.output_eq
  mem_calls_iff _ _ := h.mem_calls_append hg hf hm hlt hb ha hr
  carries_iff y n o pin := by
    refine ⟨h.carries_append_of_replaced hg hf hm hlt hb hr, ?_⟩
    rintro (⟨hfree, x, hx, hgive⟩ | ⟨k, d, hk, hn, hcase⟩)
    · exact h.carries_of_gives hg hf hm hlt hb ha hr hfree hx hgive
    · exact h.carries_of_body hg hf hm hlt hb ha hr hk hn hcase

end Append

/-! ## All bodies

`Underway` is the property by which the sweep over the calls of a graph is done. -/

/-- Calls are recorded, and their bodies taken, in the order of their identities. -/
theorem ordered_bodies (hg : g.Recorded) :
    (Recording.bodies g).Pairwise fun b b' => b.1.value < b'.1.value := by
  have hcalls : g.calls.Pairwise fun c c' => c.1.value < c'.1.value := by
    have hids := hg.ordered
    rw [hg.nodeIds_eq] at hids
    have hkeys := (List.pairwise_cons.1 (List.pairwise_cons.1 hids).2).2
    rw [Table.keys, List.pairwise_map] at hkeys
    exact hkeys
  refine List.Pairwise.filterMap _ (fun c c' hlt b hb b' hb' => ?_) hcalls
  obtain ⟨k, -, rfl⟩ := Option.map_eq_some_iff.1 hb
  obtain ⟨k', -, rfl⟩ := Option.map_eq_some_iff.1 hb'
  exact hlt

/-- The bodies of all calls but the rest stand in their places. -/
def Underway (g : Flow) (body : Handle → Flow) (rest : List (NodeId × Handle)) (f : Flow) : Prop :=
  ∃ done, Recording.bodies g = done ++ rest ∧
    Expanded g (done.map fun b => (b.1, body b.2)) f ∧
      Fitting g (done.map fun b => (b.1, body b.2))

/-- At first no body stands anywhere. -/
theorem underway_start (hg : g.Framed) (body : Handle → Flow) :
    Underway g body (Recording.bodies g) g :=
  ⟨[], rfl, expanded_nil hg, nofun, nofun, nofun, nofun⟩

/-- A replacement leaves the rest of the bodies underway. -/
theorem underway_persists (hg : g.Recorded) {body : Handle → Flow}
    (hbody : ∀ b ∈ Recording.bodies g,
      (body b.2).Framed ∧ (body b.2).Once ∧ g.Apart (body b.2)) :
    Persists body (Underway g body) := by
  have hcall : ∀ {b done rest}, Recording.bodies g = done ++ b :: rest →
      b ∈ Recording.bodies g ∧ b.1 ∈ Table.keys g.calls ∧
        ∀ n ∈ Table.keys (done.map fun b => (b.1, body b.2)), n.value < b.1.value := by
    intro b done rest heq
    have hb : b ∈ Recording.bodies g := heq ▸ List.mem_append_right _ List.mem_cons_self
    obtain ⟨c, hc, -⟩ := mem_bodies.1 hb
    refine ⟨hb, Table.mem_keys.2 ⟨c, hc⟩, fun n hn => ?_⟩
    obtain ⟨a, hn⟩ := Table.mem_keys.1 hn
    obtain ⟨b', hb', hn⟩ := List.mem_map.1 hn
    obtain ⟨rfl, -⟩ := Prod.mk.inj hn
    exact (List.pairwise_append.1 (heq ▸ ordered_bodies hg)).2.2 b' hb' b List.mem_cons_self
  have hmem : ∀ {b done rest f}, Recording.bodies g = done ++ b :: rest →
      Expanded g (done.map fun b => (b.1, body b.2)) f → b.1 ∈ Table.keys f.calls := by
    intro b done rest f heq h
    obtain ⟨-, hcall, hlt⟩ := hcall heq
    obtain ⟨c, hc⟩ := Table.mem_keys.1 hcall
    exact Table.mem_keys.2 ⟨c, (h.mem_calls_iff _ _).2
      (.inl ⟨hc, fun hm => Nat.lt_irrefl _ (hlt b.1 hm)⟩)⟩
  refine ⟨?_, ?_, ?_⟩
  · rintro rest f ⟨done, -, h, -⟩
    exact h.framed.fenced
  · rintro b rest f ⟨done, heq, h, -⟩
    exact h.framed.mem_of_call (hmem heq h)
  · rintro b rest f f' s s' ⟨done, heq, h, hf⟩ hap hins
    obtain ⟨hb, hcall, hlt⟩ := hcall heq
    obtain ⟨hframed, honce, hself⟩ := hbody b hb
    have hr := hins.replaced h.framed hframed hap (hmem heq h)
    have hexp := h.append hg hf hcall hlt hframed hself hr
    have hfit := hf.append hcall (fun hm => Nat.lt_irrefl _ (hlt b.1 hm)) hframed honce hself
    refine ⟨done ++ [b], ?_, ?_, ?_⟩
    · rw [heq, List.append_assoc]
      rfl
    · rwa [List.map_append]
    · rwa [List.map_append]

end ObjectFlow.Flow
