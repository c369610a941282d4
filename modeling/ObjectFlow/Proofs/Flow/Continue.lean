import ObjectFlow.Proofs.Flow.Tie

/-!
# A graph that continues another one

When events are recorded on a graph that already has calls, and the same events on an empty graph,
the first graph has everything of the second one behind what it had before. What the second graph
takes from outside comes from the calls that the first one had, and what it leaves at the end takes
the place of what they left. Only the receivers of initializers differ: the second graph takes them
for newborn where the first one knows where they come from (`Tie.Revives`).

## Outline

`Continues ρ μ base later whole` is a simulation between two pages on which the same events are
recorded, one that began empty (`later`) and one that began as `base` (`whole`). The map `ρ` names
the nodes of the one in the other, and `μ` the bodies. It fixes the calls of `whole` as a list, and
its ties as a list too, but for the revived ones, which are left out on one side.

There is a lemma for each of the steps that recording is made of, and in each the two pages take it
at once:

* a call begins (`enter`): each object that arrives is compared by itself (`arrival?_eq`). It
  depends on the makers of the two graphs only, which are related by `maker?_eq`;
* the pins or the slot of a call change (`adjustCall`);
* an object comes out (`produce`): the former exit of the object goes, be it one of `base` or of
  `later`, and a new one comes (`superseded_produce`);
* a call is taken back (`drop`), which touches no tie of `base` (`ends_ne_of_base`).

A call that ends is a sequence of these (`conclude`). The simulation begins with nothing recorded
(`empty`), and later nodes may be given names when they are made (`congr`).
-/

namespace ObjectFlow

namespace Flow

/-- The call with another handle for its body. -/
def Call.onBody (μ : Handle → Handle) (c : Call) : Call := { c with body := c.body.map μ }

def Call.isInitializer (c : Call) : Bool :=
  (⟨c.module, c.qualifiedName, none⟩ : Callee).name = "__init__"

/-- The calls of initializers. -/
def initializers (f : Flow) : List NodeId :=
  (f.calls.filter fun c => c.2.isInitializer).map Prod.fst

/-- The tie leads what a call of the base made to the receiver of an initializer not there yet. -/
def Tie.Revives (base whole : Flow) (t : Tie) : Prop :=
  t.source ∈ Table.keys base.calls ∧ t.target ∉ Table.keys base.calls ∧
    t.target ∈ whole.initializers ∧ t.data.targetPin = some "self"

instance (base whole : Flow) (t : Tie) : Decidable (t.Revives base whole) :=
  inferInstanceAs (Decidable (_ ∧ _ ∧ _ ∧ _))

/-- What the tie leaves at the end is left by a later graph as well. -/
def Tie.Superseded (base later : Flow) (t : Tie) : Prop :=
  t.target = base.output ∧
    ∃ u ∈ later.ties, u.target = later.output ∧ u.data.object.id = t.data.object.id

instance (base later : Flow) (t : Tie) : Decidable (t.Superseded base later) :=
  inferInstanceAs (Decidable (_ ∧ _))

/-- Where a tie of a later graph begins: what comes from outside comes from the base if it can. -/
def Tie.home (ρ : NodeId → NodeId) (base : Flow) (input : NodeId) (t : Tie) :
    NodeId × Option String :=
  (if t.source = input then t.data.object.id.bind base.maker? else none).getD
    (ρ t.source, t.data.sourcePin)

/-- A tie of a later graph in the one that continues the base. -/
def Tie.carried (ρ : NodeId → NodeId) (base : Flow) (input : NodeId) (t : Tie) : Tie :=
  ⟨(t.home ρ base input).1, ρ t.target, { t.data with sourcePin := (t.home ρ base input).2 }⟩

/-- The whole graph has what the base had and then what the later graph has. -/
structure Continues (ρ : NodeId → NodeId) (μ : Handle → Handle) (base later whole : Flow) :
    Prop where
  base_input : base.input = whole.input
  base_output : base.output = whole.output
  input_eq : ρ later.input = whole.input
  output_eq : ρ later.output = whole.output
  calls_eq : whole.calls = base.calls ++ later.calls.map fun c => (ρ c.1, c.2.onBody μ)
  ties_eq : (whole.ties.filter fun t => ¬ t.Revives base whole) =
    (base.ties.filter fun t => ¬ t.Superseded base later) ++
      later.ties.map (Tie.carried ρ base later.input)

/-- What does not come from outside comes from the node under its other name. -/
theorem Tie.home_of_ne {ρ : NodeId → NodeId} {base : Flow} {input : NodeId} {t : Tie}
    (h : t.source ≠ input) : t.home ρ base input = (ρ t.source, t.data.sourcePin) := by
  rw [home, if_neg h, Option.getD_none]

/-- What comes from outside comes from its maker in the base, if it has one there. -/
theorem Tie.home_of_eq {ρ : NodeId → NodeId} {base : Flow} {input : NodeId} {t : Tie}
    (h : t.source = input) {o : ObjectId} (ho : t.data.object.id = some o) :
    t.home ρ base input = (base.maker? o).getD (ρ t.source, t.data.sourcePin) := by
  rw [home, if_pos h, ho, Option.bind_some]

theorem mem_initializers {f : Flow} {n : NodeId} :
    n ∈ f.initializers ↔ ∃ c, (n, c) ∈ f.calls ∧ c.isInitializer = true := by
  simp [initializers]

theorem mem_keys_of_mem_initializers {f : Flow} {n : NodeId} (h : n ∈ f.initializers) :
    n ∈ Table.keys f.calls := by
  obtain ⟨c, hc, -⟩ := mem_initializers.1 h
  exact Table.mem_keys.2 ⟨c, hc⟩

namespace Continues

variable {ρ : NodeId → NodeId} {μ : Handle → Handle} {base later whole : Flow}

/-! ## The nodes

The calls of the base come first, then those of the later graph under their names in the whole one.
As the whole graph has each call once, the names are distinct and none is one of the base. -/

/-- The calls of the whole graph are those of the base and then the later ones. -/
theorem keys_eq (h : Continues ρ μ base later whole) :
    Table.keys whole.calls = Table.keys base.calls ++ (Table.keys later.calls).map ρ := by
  rw [h.calls_eq, Table.keys_append]
  simp [Table.keys, Function.comp_def]

/-- They are all distinct. -/
theorem nodup (h : Continues ρ μ base later whole) (hw : whole.Framed) :
    (Table.keys base.calls ++ (Table.keys later.calls).map ρ).Nodup := h.keys_eq ▸ hw.calls_nodup

theorem mem_keys (h : Continues ρ μ base later whole) {n : NodeId}
    (hn : n ∈ Table.keys later.calls) : ρ n ∈ Table.keys whole.calls := by
  rw [h.keys_eq]
  exact List.mem_append_right _ (List.mem_map_of_mem hn)

/-- A later call is none of the base. -/
theorem not_mem_base (h : Continues ρ μ base later whole) (hw : whole.Framed) {n : NodeId}
    (hn : n ∈ Table.keys later.calls) : ρ n ∉ Table.keys base.calls := fun hm =>
  (List.nodup_append.1 (h.nodup hw)).2.2 _ hm _ (List.mem_map_of_mem hn) rfl

/-- Later calls have names of their own. -/
theorem injective (h : Continues ρ μ base later whole) (hw : whole.Framed) {n m : NodeId}
    (hn : n ∈ Table.keys later.calls) (hm : m ∈ Table.keys later.calls) (heq : ρ n = ρ m) :
    n = m :=
  List.inj_on_of_nodup_map (List.nodup_append.1 (h.nodup hw)).2.1 hn hm heq

/-- A tie is left at the end in both graphs or in neither. -/
theorem target_eq_output_iff (h : Continues ρ μ base later whole) (hl : later.Framed)
    (hw : whole.Framed) {t : Tie} (ht : t ∈ later.ties) :
    ρ t.target = whole.output ↔ t.target = later.output := by
  constructor
  · intro heq
    rcases hl.tie_target_cases ht with hout | hc
    · exact hout
    · exact absurd (heq ▸ h.mem_keys hc) hw.output_not_mem
  · intro heq
    rw [heq, h.output_eq]

/-- What is left at the end is not revived. -/
theorem not_revives_of_output (hw : whole.Framed) {t : Tie} (ht : t.target = whole.output) :
    ¬ t.Revives base whole := fun hx =>
  hw.output_not_mem (ht ▸ mem_keys_of_mem_initializers hx.2.2.1)

/-- What is tied in the whole graph was tied before, is tied in the later graph or is revived. -/
theorem tie_cases (h : Continues ρ μ base later whole) {t : Tie} (ht : t ∈ whole.ties)
    (hr : ¬ t.Revives base whole) :
    t ∈ base.ties ∧ ¬ t.Superseded base later ∨
      ∃ u ∈ later.ties, u.carried ρ base later.input = t := by
  have hm : t ∈ whole.ties.filter fun t => ¬ t.Revives base whole :=
    List.mem_filter.2 ⟨ht, decide_eq_true hr⟩
  rw [h.ties_eq, List.mem_append, List.mem_map, List.mem_filter] at hm
  exact hm.imp_left fun hx => ⟨hx.1, of_decide_eq_true hx.2⟩

/-- What the base ties stays, unless it is superseded. -/
theorem mem_ties_of_base (h : Continues ρ μ base later whole) {t : Tie} (ht : t ∈ base.ties)
    (hs : ¬ t.Superseded base later) : t ∈ whole.ties := by
  refine List.mem_of_mem_filter (p := fun t => ¬ t.Revives base whole) ?_
  rw [h.ties_eq]
  exact List.mem_append_left _ (List.mem_filter.2 ⟨ht, decide_eq_true hs⟩)

/-- What the later graph ties is tied in the whole one. -/
theorem mem_ties_of_later (h : Continues ρ μ base later whole) {t : Tie} (ht : t ∈ later.ties) :
    t.carried ρ base later.input ∈ whole.ties := by
  refine List.mem_of_mem_filter (p := fun t => ¬ t.Revives base whole) ?_
  rw [h.ties_eq]
  exact List.mem_append_right _ (List.mem_map_of_mem ht)

/-- What the later graph takes comes from the base, from outside, or from one of its own calls. -/
theorem home_cases (h : Continues ρ μ base later whole) (hb : base.Recorded) (hl : later.Framed)
    {t : Tie} (ht : t ∈ later.ties) :
    (t.home ρ base later.input).1 ∈ Table.keys base.calls ∨
      t.source = later.input ∧ (t.home ρ base later.input).1 = whole.input ∨
      t.source ∈ Table.keys later.calls ∧ (t.home ρ base later.input).1 = ρ t.source := by
  rcases hl.tie_source_cases ht with hs | hc
  · rw [Tie.home, if_pos hs]
    cases hm : t.data.object.id.bind base.maker? with
    | some m =>
      obtain ⟨o, -, hm⟩ := Option.bind_eq_some_iff.1 hm
      exact .inl (hb.maker_call hm)
    | none => exact .inr (.inl ⟨hs, (congrArg ρ hs).trans h.input_eq⟩)
  · have hne : t.source ≠ later.input := fun heq => hl.input_not_mem (heq ▸ hc)
    exact .inr (.inr ⟨hc, congrArg Prod.fst (Tie.home_of_ne hne)⟩)

/-! ## The makers

The whole graph looks up one object among the exits of both. Those of the base that the later graph
leaves as well are gone, so there is no choice. -/

/-- An object was left by the later graph last, or else by the base. -/
theorem maker?_eq (h : Continues ρ μ base later whole) (hb : base.Recorded) (hl : later.Recorded)
    (hw : whole.Recorded) (o : ObjectId) :
    whole.maker? o = ((later.maker? o).map fun m => (ρ m.1, m.2)).or (base.maker? o) := by
  cases hm : later.maker? o with
  | some m =>
    obtain ⟨t, ht, hbr, hs, hp⟩ := hl.maker?_eq_some_iff.1 hm
    have hne : t.source ≠ later.input := fun heq =>
      hl.input_not_mem (heq ▸ hs ▸ hl.maker_call hm)
    refine hw.maker?_eq_some_iff.2 ⟨_, h.mem_ties_of_later ht, ⟨?_, hbr.2⟩, ?_, ?_⟩
    · exact (h.target_eq_output_iff hl.toFramed hw.toFramed ht).2 hbr.1
    · rw [Tie.carried, Tie.home_of_ne hne, hs]
    · rw [Tie.carried, Tie.home_of_ne hne, hp]
  | none =>
    have hnone := hl.maker?_eq_none_iff.1 hm
    show whole.maker? o = base.maker? o
    cases hm' : base.maker? o with
    | some m =>
      obtain ⟨t, ht, hbr, hs, hp⟩ := hb.maker?_eq_some_iff.1 hm'
      refine hw.maker?_eq_some_iff.2
        ⟨t, h.mem_ties_of_base ht ?_, ⟨h.base_output ▸ hbr.1, hbr.2⟩, hs, hp⟩
      rintro ⟨-, u, hu, hout, hid⟩
      exact hnone u hu ⟨hout, hid.trans hbr.2⟩
    | none =>
      refine hw.maker?_eq_none_iff.2 fun t ht hbr => ?_
      rcases h.tie_cases ht (not_revives_of_output hw.toFramed hbr.1) with ⟨hm, -⟩ | ⟨u, hu, rfl⟩
      · exact hb.maker?_eq_none_iff.1 hm' t hm ⟨h.base_output ▸ hbr.1, hbr.2⟩
      · exact hnone u hu
          ⟨(h.target_eq_output_iff hl.toFramed hw.toFramed hu).1 hbr.1, hbr.2⟩

/-! ## A call begins

An object that arrives comes from its maker. If there is none, it comes from outside, or not at all
if it is a newborn receiver. The last case is the one in which the two graphs differ: an object
without a maker in the later graph may have one in the base. -/

/-- How an object arrives in the later graph decides how it arrives in the whole one. -/
theorem arrival?_eq (h : Continues ρ μ base later whole) (hb : base.Recorded) (hl : later.Recorded)
    (hw : whole.Recorded) (c : Invocation) {n : NodeId} {whole' : Flow} {a : Arrival}
    (ha : a.reference.id = some a.object) (hn : ρ n ∉ Table.keys base.calls)
    (hi : ρ n ∈ whole'.initializers ↔ c.name = "__init__") :
    (whole.arrival? c (ρ n) a).filter (fun t => ¬ t.Revives base whole') =
      (later.arrival? c n a).map (Tie.carried ρ base later.input) := by
  have hnewborn : Tape.isNewborn c a.argument = true ↔
      ρ n ∈ whole'.initializers ∧ some a.argument = some "self" := by
    rw [hi, Tape.isNewborn, Bool.and_eq_true, decide_eq_true_iff, decide_eq_true_iff,
      Option.some.injEq, and_comm]
  rw [arrival?, arrival?, origin?, origin?, h.maker?_eq hb hl hw]
  cases hm : later.maker? a.object with
  | some m =>
    have hc := hl.maker_call hm
    have hne : m.1 ≠ later.input := fun heq => hl.input_not_mem (heq ▸ hc)
    have hkept : ∀ data, ¬ (⟨ρ m.1, ρ n, data⟩ : Tie).Revives base whole' := fun data hx =>
      h.not_mem_base hw.toFramed hc hx.1
    simp only [Option.map_some, Option.some_or, Option.filter_some, hkept, not_false_eq_true,
      decide_true, if_true, Option.some.injEq]
    rw [Tie.carried, Tie.home_of_ne hne]
  | none =>
    cases hm' : base.maker? a.object with
    | some m =>
      by_cases hnew : Tape.isNewborn c a.argument = true
      · obtain ⟨hinit, hself⟩ := hnewborn.1 hnew
        have hlost : (⟨m.1, ρ n, ⟨a.reference, m.2, some a.argument⟩⟩ : Tie).Revives base whole' :=
          ⟨hb.maker_call hm', hn, hinit, hself⟩
        simp [hnew, hlost]
      · have hkept :
            ¬ (⟨m.1, ρ n, ⟨a.reference, m.2, some a.argument⟩⟩ : Tie).Revives base whole' :=
          fun hx => hnew (hnewborn.2 hx.2.2)
        simp [hnew, hkept, Tie.carried, Tie.home, ha, hm']
    | none =>
      by_cases hnew : Tape.isNewborn c a.argument = true
      · simp [hnew]
      · have hkept : ∀ data, ¬ (⟨whole.input, ρ n, data⟩ : Tie).Revives base whole' :=
          fun data hx => hb.input_not_mem (h.base_input ▸ hx.1)
        simp [hnew, hkept, Tie.carried, Tie.home, ha, hm', h.input_eq]

/-- The call that begins is an initializer or not. -/
theorem initializers_enter (p : Page) (c : Invocation) (e : Entrance) (body : Option Handle)
    (s : Supply) : (p.enter c e body s).1.flow.initializers =
      p.flow.initializers ++ if c.name = "__init__" then [s.node.1] else [] := by
  have hname : (Page.opening c e body).isInitializer = decide (c.name = "__init__") := rfl
  rw [initializers, Page.calls_enter, List.filter_append, List.map_append, initializers]
  congr 1
  by_cases hc : c.name = "__init__" <;> simp [hname, hc]

/-- Only what a tie leads to decides whether it is revived. -/
theorem filter_revives_congr {whole' : Flow} {ts : List Tie}
    (h : ∀ t ∈ ts, t.target ∈ whole'.initializers ↔ t.target ∈ whole.initializers) :
    (ts.filter fun t => ¬ t.Revives base whole') = ts.filter fun t => ¬ t.Revives base whole := by
  refine List.filter_congr fun t ht => decide_eq_decide.2 (not_congr ?_)
  rw [Tie.Revives, Tie.Revives, h t ht]

/-- Only what the later graph leaves decides what is superseded. -/
theorem filter_superseded_congr {later' : Flow} {ts : List Tie}
    (h : ∀ t ∈ ts, t.Superseded base later' ↔ t.Superseded base later) :
    (ts.filter fun t => ¬ t.Superseded base later') =
      ts.filter fun t => ¬ t.Superseded base later :=
  List.filter_congr fun t ht => decide_eq_decide.2 (not_congr (h t ht))

/-- A call that begins leaves nothing at the end. -/
theorem superseded_enter {p : Page} (hp : p.Sound) {s : Supply} (hps : p.flow.graph.Before s)
    (c : Invocation) (e : Entrance) (body : Option Handle) {t : Tie} :
    t.Superseded base (p.enter c e body s).1.flow ↔ t.Superseded base p.flow := by
  have hnew : s.node.1 ∉ p.flow.graph.nodeIds := hps.next_not_mem_nodes
  refine and_congr_right fun _ => ?_
  rw [hp.ties_enter]
  constructor
  · rintro ⟨u, hu, hout, hid⟩
    rcases List.mem_append.1 hu with hu | hu
    · exact ⟨u, hu, hout, hid⟩
    · obtain ⟨a, -, ha⟩ := List.mem_filterMap.1 hu
      obtain ⟨m, -, rfl⟩ := Option.map_eq_some_iff.1 ha
      have hout : s.node.1 = p.flow.output := hout
      exact absurd (hout ▸ hp.recorded.output_mem) hnew
  · rintro ⟨u, hu, hout, hid⟩
    exact ⟨u, List.mem_append_left _ hu, hout, hid⟩

/-- A call that begins on both pages keeps the one continuing with the other. -/
theorem enter (hb : base.Recorded) {p q : Page} (h : Continues ρ μ base p.flow q.flow)
    (hp : p.Sound) (hq : q.Sound) {s s' : Supply} (hps : p.flow.graph.Before s)
    (hqs : q.flow.graph.Before s') (hρ : ρ s.node.1 = s'.node.1) (c : Invocation) {e : Entrance}
    (body : Option Handle) (he : ∀ a ∈ e.arrivals, a.reference.id = some a.object) :
    Continues ρ μ base (p.enter c e body s).1.flow (q.enter c e (body.map μ) s').1.flow := by
  have hnew : s'.node.1 ∉ q.flow.graph.nodeIds := hqs.next_not_mem_nodes
  have hfresh : s'.node.1 ∉ Table.keys q.flow.calls := fun hm =>
    hnew (hq.recorded.mem_of_call hm)
  have hinits := initializers_enter q c e (body.map μ) s'
  refine ⟨h.base_input, h.base_output, h.input_eq, h.output_eq, ?_, ?_⟩
  · rw [Page.calls_enter, Page.calls_enter, h.calls_eq, List.map_append, List.append_assoc,
      List.map_singleton, hρ]
    rfl
  · have hold : ∀ t ∈ q.flow.ties, t.target ∈ (q.enter c e (body.map μ) s').1.flow.initializers ↔
        t.target ∈ q.flow.initializers := by
      intro t ht
      rw [hinits, List.mem_append, or_iff_left]
      intro hm
      obtain ⟨e₀, he₀, rfl⟩ := mem_ties.1 ht
      have htn : e₀.target = s'.node.1 := by
        split at hm
        · exact List.mem_singleton.1 hm
        · cases hm
      exact hnew (htn ▸ hq.recorded.wellFormed.target_mem e₀ he₀)
    have hnewinit : s'.node.1 ∈ (q.enter c e (body.map μ) s').1.flow.initializers ↔
        c.name = "__init__" := by
      rw [hinits, List.mem_append, or_iff_right fun hm => hfresh (mem_keys_of_mem_initializers hm)]
      by_cases hc : c.name = "__init__" <;> simp [hc]
    have hbase : s'.node.1 ∉ Table.keys base.calls := fun hm =>
      hfresh (h.keys_eq ▸ List.mem_append_left _ hm)
    rw [filter_superseded_congr fun t _ => superseded_enter hp hps c e body, hq.ties_enter,
      hp.ties_enter, List.filter_append, filter_revives_congr hold, h.ties_eq,
      List.map_append, List.append_assoc, List.filter_filterMap, List.map_filterMap]
    congr 2
    refine List.filterMap_congr fun a ha => ?_
    rw [← hρ]
    exact h.arrival?_eq hb hp.recorded hq.recorded c (he a ha) (hρ ▸ hbase) (hρ ▸ hnewinit)

/-! ## A call ends

Nothing in the base is tied to a later call, so all changes to calls and edges at the call that ends
are those of the later graph under other names. -/

/-- A change of a call that leaves its name leaves the initializers. -/
theorem initializers_adjustCall {f : Flow} (hf : f.Framed) (n : NodeId) {g : Call → Call}
    (hg : ∀ c, (g c).isInitializer = c.isInitializer) :
    (f.adjustCall n g).initializers = f.initializers := by
  rw [initializers, hf.calls_adjustCall, initializers]
  induction f.calls with
  | nil => rfl
  | cons c cs ih =>
    rw [Table.adjust]
    split
    · simp [List.filter_cons, hg, apply_ite]
    · simp [List.filter_cons, apply_ite, ih]

/-- A change of a later call is the same change in the whole graph. -/
theorem map_adjust (h : Continues ρ μ base later whole) (hl : later.Framed) (hw : whole.Framed)
    {n : NodeId} (hn : n ∈ Table.keys later.calls) {g : Call → Call}
    (hbody : ∀ c, g (c.onBody μ) = (g c).onBody μ) :
    Table.adjust g (ρ n) whole.calls =
      base.calls ++ (Table.adjust g n later.calls).map fun c => (ρ c.1, c.2.onBody μ) := by
  rw [Table.adjust_eq_map g _ hw.calls_nodup, Table.adjust_eq_map g _ hl.calls_nodup, h.calls_eq,
    List.map_append, List.map_map, List.map_map]
  congr 1
  · refine (List.map_congr_left fun c hc => ?_).trans (List.map_id _)
    have hne : c.1 ≠ ρ n := fun heq =>
      h.not_mem_base hw hn (heq ▸ Table.mem_keys.2 ⟨c.2, hc⟩)
    exact if_neg hne
  · refine List.map_congr_left fun c hc => ?_
    have hc : c.1 ∈ Table.keys later.calls := Table.mem_keys.2 ⟨c.2, hc⟩
    by_cases heq : c.1 = n
    · simp [heq, hbody]
    · have hne : ρ c.1 ≠ ρ n := fun hx => heq (h.injective hw hc hn hx)
      simp [heq, hne]

/-- A later call may change in both graphs. -/
theorem adjustCall (h : Continues ρ μ base later whole) (hl : later.Framed) (hw : whole.Framed)
    {n : NodeId} (hn : n ∈ Table.keys later.calls) {g : Call → Call}
    (hname : ∀ c, (g c).isInitializer = c.isInitializer)
    (hbody : ∀ c, g (c.onBody μ) = (g c).onBody μ) :
    Continues ρ μ base (later.adjustCall n g) (whole.adjustCall (ρ n) g) := by
  refine ⟨h.base_input, h.base_output, h.input_eq, h.output_eq, ?_, ?_⟩
  · rw [hl.calls_adjustCall, hw.calls_adjustCall, h.map_adjust hl hw hn hbody]
  · have hold : ∀ t ∈ whole.ties, t.target ∈ (whole.adjustCall (ρ n) g).initializers ↔
        t.target ∈ whole.initializers := fun t _ => by
      rw [initializers_adjustCall hw (ρ n) hname]
    rw [ties_adjustCall, filter_revives_congr hold, h.ties_eq]
    rfl

/-- Nothing in the base touches a call of the later graph. -/
theorem ends_ne_of_base (h : Continues ρ μ base later whole) (hb : base.Recorded)
    (hw : whole.Framed) {n : NodeId} (hn : n ∈ Table.keys later.calls) {t : Tie}
    (ht : t ∈ base.ties) : t.source ≠ ρ n ∧ t.target ≠ ρ n := by
  have hn' := h.mem_keys hn
  have hbase := h.not_mem_base hw hn
  constructor
  · rintro heq
    rcases hb.tie_source_cases ht with hin | hc
    · exact hw.input_not_mem (h.base_input ▸ hin ▸ heq ▸ hn')
    · exact hbase (heq ▸ hc)
  · rintro heq
    rcases hb.tie_target_cases ht with hout | hc
    · exact hw.output_not_mem (h.base_output ▸ hout ▸ heq ▸ hn')
    · exact hbase (heq ▸ hc)

/-- A tie touches a call that has produced nothing in both graphs or in neither. -/
theorem ends_carried_iff (h : Continues ρ μ base later whole) (hb : base.Recorded)
    (hl : later.Framed) (hw : whole.Framed) {n : NodeId} (hn : later.Pending n) {t : Tie}
    (ht : t ∈ later.ties) :
    (t.carried ρ base later.input).source ≠ ρ n ∧ (t.carried ρ base later.input).target ≠ ρ n ↔
      t.source ≠ n ∧ t.target ≠ n := by
  have hn' := h.mem_keys hn.1
  have hsource : t.source ≠ n := by
    obtain ⟨e, he, rfl⟩ := mem_ties.1 ht
    exact hn.2 e he
  have hhome : (t.home ρ base later.input).1 ≠ ρ n := by
    intro heq
    rcases h.home_cases hb hl ht with hx | ⟨-, hx⟩ | ⟨hc, hx⟩
    · exact h.not_mem_base hw hn.1 (heq ▸ hx)
    · exact hw.input_not_mem (hx.symm.trans heq ▸ hn')
    · exact hsource (h.injective hw hc hn.1 (hx.symm.trans heq))
  refine and_congr (iff_of_true hhome hsource) (not_congr ⟨fun heq => ?_, congrArg ρ⟩)
  have heq : ρ t.target = ρ n := heq
  rcases hl.tie_target_cases ht with hout | hc
  · rw [hout, h.output_eq] at heq
    exact absurd (heq ▸ hn') hw.output_not_mem
  · exact h.injective hw hc hn.1 heq

/-- A call that has produced nothing left nothing at the end. -/
theorem superseded_removeNode (hl : later.Recorded) {n : NodeId} (hn : later.Pending n) {t : Tie} :
    t.Superseded base { later with graph := later.graph.removeNode n } ↔
      t.Superseded base later := by
  refine and_congr_right fun _ => ?_
  rw [ties_removeNode (hl.mem_of_call hn.1)]
  constructor
  · rintro ⟨u, hu, hx⟩
    exact ⟨u, List.mem_of_mem_filter hu, hx⟩
  · rintro ⟨u, hu, hout, hid⟩
    refine ⟨u, List.mem_filter.2 ⟨hu, decide_eq_true ⟨?_, ?_⟩⟩, hout, hid⟩
    · obtain ⟨e, he, rfl⟩ := mem_ties.1 hu
      exact hn.2 e he
    · exact fun heq => hl.output_not_mem (hout ▸ heq ▸ hn.1)

/-- A call that has produced nothing can be taken back. -/
theorem drop (h : Continues ρ μ base later whole) (hb : base.Recorded) (hl : later.Recorded)
    (hw : whole.Recorded) {n : NodeId} (hn : later.Pending n) :
    Continues ρ μ base { later with graph := later.graph.removeNode n }
      { whole with graph := whole.graph.removeNode (ρ n) } := by
  have hn' := h.mem_keys hn.1
  have hcalls := hw.calls_removeNode hn'
  refine ⟨h.base_input, h.base_output, h.input_eq, h.output_eq, ?_, ?_⟩
  · rw [hcalls, hl.calls_removeNode hn.1, Table.without, Table.without, h.calls_eq,
      List.filter_append, List.filter_map]
    congr 1
    · refine List.filter_eq_self.2 fun c hc => decide_eq_true ?_
      rintro heq
      exact h.not_mem_base hw.toFramed hn.1 (heq ▸ Table.mem_keys.2 ⟨c.2, hc⟩)
    · refine congrArg _ (List.filter_congr fun c hc => decide_eq_decide.2 (not_congr ?_))
      have hc : c.1 ∈ Table.keys later.calls := Table.mem_keys.2 ⟨c.2, hc⟩
      exact ⟨h.injective hw.toFramed hc hn.1, congrArg ρ⟩
  · have hold : ∀ t ∈ whole.ties.filter fun t => t.source ≠ ρ n ∧ t.target ≠ ρ n,
        t.target ∈ ({ whole with graph := whole.graph.removeNode (ρ n) } : Flow).initializers ↔
          t.target ∈ whole.initializers := by
      intro t ht
      have hne := (of_decide_eq_true (List.mem_filter.1 ht).2).2
      rw [mem_initializers, mem_initializers, hcalls]
      simp [Table.without, hne]
    rw [filter_superseded_congr fun t _ => superseded_removeNode hl hn,
      ties_removeNode (hl.mem_of_call hn.1), ties_removeNode (hw.mem_of_call hn'),
      filter_revives_congr hold, List.filter_comm, h.ties_eq, List.filter_append, List.filter_map]
    congr 1
    · exact List.filter_eq_self.2 fun t ht => decide_eq_true
        (h.ends_ne_of_base hb hw.toFramed hn.1 (List.mem_of_mem_filter ht))
    · exact congrArg _ (List.filter_congr fun t ht => decide_eq_decide.2
        (h.ends_carried_iff hb hl.toFramed hw.toFramed hn ht))

/-- One more object is left at the end by the later graph. -/
theorem superseded_produce {p : Page} (hp : p.Sound) {n : NodeId} {edge : EdgeId}
    {x : Production} (hx : x.reference.id = some x.object) {t : Tie} :
    t.Superseded base (p.produce n edge x).flow ↔
      t.Superseded base p.flow ∨ t.Brings base.output x.object := by
  rw [Tie.Superseded, hp.ties_produce]
  constructor
  · rintro ⟨ht, u, hu, hout, hid⟩
    rcases List.mem_append.1 hu with hu | hu
    · exact .inl ⟨ht, u, List.mem_of_mem_filter hu, hout, hid⟩
    · obtain rfl := List.mem_singleton.1 hu
      exact .inr ⟨ht, hid.symm.trans hx⟩
  · have hlast : (⟨n, p.flow.output, ⟨x.reference, some x.pin, none⟩⟩ : Tie) ∈
        (p.flow.ties.filter fun t => ¬ t.Brings p.flow.output x.object) ++
          [⟨n, p.flow.output, ⟨x.reference, some x.pin, none⟩⟩] :=
      List.mem_append_right _ List.mem_cons_self
    rintro (⟨ht, u, hu, hout, hid⟩ | ⟨ht, ho⟩)
    · by_cases hbr : u.Brings p.flow.output x.object
      · exact ⟨ht, _, hlast, rfl, hx.trans (hbr.2.symm.trans hid)⟩
      · exact ⟨ht, u, List.mem_append_left _ (List.mem_filter.2 ⟨hu, decide_eq_true hbr⟩), hout,
          hid⟩
    · exact ⟨ht, _, hlast, rfl, hx.trans ho.symm⟩

/-- An object comes out of a later call in both graphs. -/
theorem produce {p q : Page} (h : Continues ρ μ base p.flow q.flow)
    (hp : p.Sound) (hq : q.Sound) {s s' : Supply} (hps : p.flow.graph.Before s)
    (hqs : q.flow.graph.Before s') {n : NodeId} (hn : n ∈ Table.keys p.flow.calls)
    {x : Production} (hx : x.reference.id = some x.object) :
    Continues ρ μ base (p.produce n s.edge.1 x).flow (q.produce (ρ n) s'.edge.1 x).flow := by
  have hn' := h.mem_keys hn
  have hcalls := hq.calls_produce hqs hn' hx
  have hnote : ∀ c : Call, (Page.noteSlots x c).isInitializer = c.isInitializer := by
    intro c
    unfold Page.noteSlots
    cases x.slots <;> rfl
  have hbody : ∀ c : Call, Page.noteSlots x (c.onBody μ) = (Page.noteSlots x c).onBody μ := by
    intro c
    unfold Page.noteSlots
    cases x.slots <;> rfl
  refine ⟨h.base_input, h.base_output, h.input_eq, h.output_eq, ?_, ?_⟩
  · rw [hcalls, hp.calls_produce hps hn hx,
      h.map_adjust hp.recorded.toFramed hq.recorded.toFramed hn hbody]
  · -- a production makes no call an initializer, so the same ties are revived as before
    have hinit : (q.produce (ρ n) s'.edge.1 x).flow.initializers = q.flow.initializers := by
      rw [← initializers_adjustCall hq.recorded.toFramed (ρ n) hnote, initializers, hcalls,
        initializers, hq.recorded.calls_adjustCall]
    have hrevives : ∀ ts : List Tie,
        (ts.filter fun t => ¬ t.Revives base (q.produce (ρ n) s'.edge.1 x).flow) =
          ts.filter fun t => ¬ t.Revives base q.flow := fun ts =>
      filter_revives_congr fun t _ => by rw [hinit]
    have hne : n ≠ p.flow.input := fun heq => hp.recorded.input_not_mem (heq ▸ hn)
    -- The new tie ends at the output, where nothing is revived.
    have hnew : ([⟨ρ n, q.flow.output, ⟨x.reference, some x.pin, none⟩⟩] : List Tie).filter
        (fun t => ¬ t.Revives base q.flow) =
        [⟨n, p.flow.output, ⟨x.reference, some x.pin, none⟩⟩].map
          (Tie.carried ρ base p.flow.input) := by
      have hkept : ¬ (⟨ρ n, q.flow.output, ⟨x.reference, some x.pin, none⟩⟩ : Tie).Revives base
          q.flow := not_revives_of_output hq.recorded.toFramed rfl
      rw [List.filter_eq_self.2 fun t ht => decide_eq_true (List.mem_singleton.1 ht ▸ hkept),
        List.map_singleton, Tie.carried, Tie.home_of_ne hne]
      exact congrArg (fun m => [(⟨ρ n, m, _⟩ : Tie)]) h.output_eq.symm
    have hlater : (p.flow.ties.map (Tie.carried ρ base p.flow.input)).filter
        (fun t => ¬ t.Brings q.flow.output x.object) =
        (p.flow.ties.filter fun t => ¬ t.Brings p.flow.output x.object).map
          (Tie.carried ρ base p.flow.input) := by
      rw [List.filter_map]
      refine congrArg _ (List.filter_congr fun t ht => decide_eq_decide.2 (not_congr ?_))
      exact and_congr_left' (h.target_eq_output_iff hp.recorded.toFramed hq.recorded.toFramed ht)
    -- What the base loses by it is what it loses by the whole later part.
    have hbase : (base.ties.filter fun t => ¬ t.Superseded base p.flow).filter
        (fun t => ¬ t.Brings q.flow.output x.object) =
        base.ties.filter fun t => ¬ t.Superseded base (p.produce n s.edge.1 x).flow := by
      rw [List.filter_filter]
      refine List.filter_congr fun t ht => ?_
      rw [← Bool.decide_and]
      refine decide_eq_decide.2 ?_
      rw [superseded_produce hp hx, h.base_output, not_or, and_comm]
    rw [hrevives, hq.ties_produce, List.filter_append, List.filter_comm, h.ties_eq,
      List.filter_append, hp.ties_produce, List.map_append, List.append_assoc, hbase]
    exact congrArg _ (congrArg₂ _ hlater hnew)

/-- Some objects come out of a later call in both graphs. -/
theorem produceAll {p q : Page} (h : Continues ρ μ base p.flow q.flow) (hp : p.Sound)
    (hq : q.Sound) {s s' : Supply} (hps : p.flow.graph.Before s) (hqs : q.flow.graph.Before s')
    {n : NodeId} (hn : n ∈ Table.keys p.flow.calls) {xs : List Production}
    (hxs : ∀ x ∈ xs, x.reference.id = some x.object) :
    Continues ρ μ base (p.produceAll n s xs).1.flow (q.produceAll (ρ n) s' xs).1.flow := by
  induction xs generalizing p q s s' with
  | nil => exact h
  | cons x xs ih =>
    have hx := hxs x List.mem_cons_self
    have hn' := h.mem_keys hn
    have hpx := hp.produce_follows hps hn hx
    have hqx := hq.produce_follows hqs hn' hx
    exact ih (h.produce hp hq hps hqs hn hx) hpx.sound hqx.sound hpx.before hqx.before
      ((hp.mem_keys_produce hps hn hx n).2 hn) fun y hy => hxs y (List.mem_cons_of_mem _ hy)

/-- A call that ends on both pages keeps the one continuing with the other. -/
theorem conclude (hb : base.Recorded) {p q : Page} (h : Continues ρ μ base p.flow q.flow)
    (hp : p.Sound) (hq : q.Sound) {s s' : Supply} (hps : p.flow.graph.Before s)
    (hqs : q.flow.graph.Before s') {n : NodeId} (hn : p.flow.Pending n) (e : Completion)
    {d : Departure} (hd : ∀ x ∈ d.productions, x.reference.id = some x.object) :
    Continues ρ μ base (p.conclude n s e d).1.flow (q.conclude (ρ n) s' e d).1.flow := by
  unfold Page.conclude
  split
  · exact h.drop hb hp.recorded hq.recorded hn
  · have hslot : ∀ c : Call, (Page.nameSlot e c).isInitializer = c.isInitializer := by
      intro c
      unfold Page.nameSlot
      cases Recorder.attribute? e <;> rfl
    have hslotBody : ∀ c : Call, Page.nameSlot e (c.onBody μ) = (Page.nameSlot e c).onBody μ := by
      intro c
      unfold Page.nameSlot
      cases Recorder.attribute? e <;> rfl
    have hname := h.adjustCall hp.recorded.toFramed hq.recorded.toFramed hn.1 hslot hslotBody
    have hps₁ := hp.adjustCall_follows hps n (Page.nameSlot e)
    have hqs₁ := hq.adjustCall_follows hqs (ρ n) (Page.nameSlot e)
    have hn₁ := (hp.pending_adjustCall hn n (Page.nameSlot e)).1
    have hpins := Continues.adjustCall (g := fun c => { c with pins := Table.putAll c.pins d.pins })
      hname hps₁.sound.recorded.toFramed hqs₁.sound.recorded.toFramed hn₁ (fun _ => rfl)
      fun _ => rfl
    have hps₂ := hps₁.sound.adjustCall_follows hps₁.before n fun c =>
      { c with pins := Table.putAll c.pins d.pins }
    have hqs₂ := hqs₁.sound.adjustCall_follows hqs₁.before (ρ n) fun c =>
      { c with pins := Table.putAll c.pins d.pins }
    refine Continues.produceAll hpins hps₂.sound hqs₂.sound hps₂.before hqs₂.before ?_ hd
    exact (hps₁.sound.pending_adjustCall (hp.pending_adjustCall hn n (Page.nameSlot e)) n _).1

/-! ## Beginning

At first the later graph is empty, and the whole one is the base. -/

/-- Nothing is recorded yet. -/
theorem empty {s : Supply} (hin : ρ (Flow.empty s).1.input = base.input)
    (hout : ρ (Flow.empty s).1.output = base.output) :
    Continues ρ μ base (Flow.empty s).1 base := by
  have hties : (Flow.empty s).1.ties = [] := rfl
  have hcalls : (Flow.empty s).1.calls = [] := rfl
  refine ⟨rfl, rfl, hin, hout, ?_, ?_⟩
  · rw [hcalls, List.map_nil, List.append_nil]
  · rw [hties, List.map_nil, List.append_nil, List.filter_eq_self.2 fun t _ => decide_eq_true ?_,
      List.filter_eq_self.2 fun t _ => decide_eq_true ?_]
    · rintro ⟨-, u, hu, -⟩
      rw [hties] at hu
      cases hu
    · exact fun hx => hx.2.1 (mem_keys_of_mem_initializers hx.2.2.1)

/-- Only the names of the nodes of the later graph matter. -/
theorem congr (h : Continues ρ μ base later whole) (hl : later.Framed) {ρ' : NodeId → NodeId}
    (hρ : ∀ n ∈ later.graph.nodeIds, ρ' n = ρ n) : Continues ρ' μ base later whole := by
  refine ⟨h.base_input, h.base_output, (hρ _ hl.input_mem).trans h.input_eq,
    (hρ _ hl.output_mem).trans h.output_eq, ?_, ?_⟩
  · rw [h.calls_eq]
    refine congrArg _ (List.map_congr_left fun c hc => ?_)
    rw [hρ _ (hl.mem_of_call (Table.mem_keys.2 ⟨c.2, hc⟩))]
  · rw [h.ties_eq]
    refine congrArg _ (List.map_congr_left fun t ht => ?_)
    obtain ⟨e, he, rfl⟩ := mem_ties.1 ht
    have hs := hρ _ (hl.wellFormed.source_mem e he)
    have ht := hρ _ (hl.wellFormed.target_mem e he)
    simp only [Tie.carried, Tie.home, tieOf, hs, ht]

end Continues

end Flow

end ObjectFlow
