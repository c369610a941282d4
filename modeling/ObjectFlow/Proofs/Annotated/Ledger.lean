import ObjectFlow.Proofs.Annotated.Reify

/-!
# What becomes of every reference

While objects are turned into entities, a ledger keeps the entities that stand behind an action for
what it gives out, and those that stand in front of one for what nothing hands to it. Which edges
carry what can be read off the draft and the ledger at every moment (`Stage`). In the end every edge
of the draft goes over an entity (`reify_ledger`).

## Outline

The graph changes with every object that is looked at, and what is read from it at the next one
depends on all former changes. So the proofs do not follow the graph. They follow a list of entries
that is only ever appended to, and `Stage` says what the graph is in terms of the draft, which does
not change, and of the list. An edge from `u` to `v` carries `o` in exactly four cases:

1. the draft has such an edge, and `u` has given out no entity for `o` yet;
2. `v` is the entity that `u` gave out for `o`;
3. `u` is an entity for `o` of some `w`, and the draft has an edge from `w` to `v` that carries `o`;
4. `u` is the entity put in front of `v` because nothing hands `o` to it.

Three kinds of steps preserve this. What an object's pins say is added at an entity that is there
already, which changes nothing about what is carried (`Stage.take`). An entity is put in front of an
action, which adds an edge of the fourth kind (`Stage.herald`). An entity is put behind an action
and takes over the edges that carry its object, which turns edges of the first kind into ones of the
second and third (`Stage.follow`). These make up the inputs (`Stage.inputs`) and the outputs
(`Stage.outputs`) of one action, and one action after the other is visited (`Stage.visit`).
`Visited` says how far this went: entries belong to visited actions, and visited actions have an
entry for all that their edges carry in the draft. Once all are visited the first case is void
(`Reified.carries_iff`).

`Named` is kept beside `Stage`: an entity bears the identity of the object it was made for.
-/

namespace ObjectFlow.Annotated.Draft

open ObjectFlow.Graph

/-! ## The ledger

An entry is added once and never changed, and its entity is new when it is added. So entities
determine entries, and an action has one entity for an object that it gives out. -/

/--
The entity of an object that an action gives out stands behind the action, and the one of an object
that nothing hands to the action in front of it.
-/
structure Entry where
  action : NodeId
  side : Side
  object : ObjectId
  entity : NodeId

abbrev Ledger := List Entry

/-- What is done when part of the objects are entities. -/
structure Stage (d : Draft) (L : Ledger) (g : Graph Node Thread) (s : Supply) : Prop where
  draft : d.graph.WellFormed
  sound : Sound g s
  action : ∀ n a, d.graph.node? n = some (.action a) → g.node? n = some (.action a)
  mem_iff : ∀ n, n ∈ g.nodeIds ↔ n ∈ d.graph.nodeIds ∨ ∃ x ∈ L, x.entity = n
  action_mem : ∀ x ∈ L, x.action ∈ d.graph.nodeIds
  entity_new : ∀ x ∈ L, x.entity ∉ d.graph.nodeIds
  entities_nodup : (L.map Entry.entity).Nodup
  once : ∀ x ∈ L, ∀ y ∈ L, x.side = .output → y.side = .output → x.action = y.action →
    x.object = y.object → x = y
  cause : ∀ x ∈ L, x.object ∈ Table.keys (d.listed x.side x.action) ∨
    x.side = .output ∧ ∃ v, Carries d.graph x.action v x.object
  carries : ∀ u v o, Carries g u v o ↔
    Carries d.graph u v o ∧ (∀ n, ⟨u, .output, o, n⟩ ∉ L) ∨ ⟨u, .output, o, v⟩ ∈ L ∨
    (∃ w, ⟨w, .output, o, u⟩ ∈ L ∧ Carries d.graph w v o) ∨ ⟨v, .input, o, u⟩ ∈ L

/-- The entities are those of their objects. -/
def Named (L : Ledger) (g : Graph Node Thread) : Prop :=
  ∀ x ∈ L, ∃ e, g.node? x.entity = some (.entity e) ∧ e.profile.id = some x.object

variable {d : Draft} {L : Ledger} {g : Graph Node Thread} {s : Supply}

/-- Before anything is looked at the ledger is empty and the graph is the draft's. -/
theorem Stage.start (h : Sound d.graph s) : Stage d [] d.graph s where
  draft := h.wellFormed
  sound := h
  action := fun _ _ ha => ha
  mem_iff := by simp
  action_mem := by simp
  entity_new := by simp
  entities_nodup := List.nodup_nil
  once := by simp
  cause := by simp
  carries := by simp

/-- An entity has one entry. -/
theorem Stage.eq_of_entity (h : Stage d L g s) {x y : Entry} (hx : x ∈ L) (hy : y ∈ L)
    (heq : x.entity = y.entity) : x = y :=
  List.inj_on_of_nodup_map h.entities_nodup hx hy heq

/-- Edges of the draft lead between nodes of the draft. -/
theorem Stage.mem_of_carries (h : Stage d L g s) {u v : NodeId} {o : ObjectId}
    (hc : Carries d.graph u v o) : u ∈ d.graph.nodeIds ∧ v ∈ d.graph.nodeIds :=
  h.draft.step_mem hc.step

/-- An entity hands on nothing but its object. -/
theorem Stage.object_eq (h : Stage d L g s) {x : Entry} (hx : x ∈ L) {v : NodeId} {o : ObjectId}
    (hc : Carries g x.entity v o) : o = x.object := by
  rcases (h.carries _ _ _).1 hc with ⟨hc, -⟩ | hm | ⟨w, hm, -⟩ | hm
  · exact absurd (h.mem_of_carries hc).1 (h.entity_new x hx)
  · exact absurd (h.action_mem _ hm) (h.entity_new x hx)
  · exact congrArg Entry.object (h.eq_of_entity hm hx rfl)
  · exact congrArg Entry.object (h.eq_of_entity hm hx rfl)

/-- What an action hands on is as in the draft until it is looked at. -/
theorem Stage.carries_action (h : Stage d L g s) {u : NodeId} (hu : u ∈ d.graph.nodeIds)
    {o : ObjectId} (hno : ∀ n, ⟨u, .output, o, n⟩ ∉ L) (v : NodeId) :
    Carries g u v o ↔ Carries d.graph u v o := by
  rw [h.carries]
  constructor
  · rintro (⟨hc, -⟩ | hm | ⟨w, hm, -⟩ | hm)
    · exact hc
    · exact absurd hm (hno v)
    · exact absurd hu (h.entity_new _ hm)
    · exact absurd hu (h.entity_new _ hm)
  · exact fun hc => .inl ⟨hc, hno⟩

/-- A step that changes no more than entities leaves the stage as it is. -/
theorem Stage.congr (h : Stage d L g s) {g' : Graph Node Thread} {s' : Supply}
    (hg : Sound g' s') (hids : g'.nodeIds = g.nodeIds)
    (ha : ∀ n a, g.node? n = some (.action a) → g'.node? n = some (.action a))
    (hc : ∀ u v o, Carries g' u v o ↔ Carries g u v o) : Stage d L g' s' :=
  { h with
    sound := hg
    action := fun n a hn => ha n a (h.action n a hn)
    mem_iff := fun n => hids ▸ h.mem_iff n
    carries := fun u v o => (hc u v o).trans (h.carries u v o) }

/-- A new entity is entered in the ledger. -/
theorem Stage.append (h : Stage d L g s) {x : Entry} {g' : Graph Node Thread} {s' : Supply}
    (hg : Sound g' s') (hnew : x.entity ∉ g.nodeIds)
    (hids : ∀ n, n ∈ g'.nodeIds ↔ n ∈ g.nodeIds ∨ n = x.entity)
    (ha : ∀ n a, g.node? n = some (.action a) → g'.node? n = some (.action a))
    (hx : x.action ∈ d.graph.nodeIds)
    (honce : x.side = .output → ∀ y ∈ L, y.side = .output → y.action = x.action →
      y.object ≠ x.object)
    (hcause : x.object ∈ Table.keys (d.listed x.side x.action) ∨
      x.side = .output ∧ ∃ v, Carries d.graph x.action v x.object)
    (hcarries : ∀ u v o, Carries g' u v o ↔
      Carries d.graph u v o ∧ (∀ n, ⟨u, .output, o, n⟩ ∉ L ++ [x]) ∨
      ⟨u, .output, o, v⟩ ∈ L ++ [x] ∨
      (∃ w, ⟨w, .output, o, u⟩ ∈ L ++ [x] ∧ Carries d.graph w v o) ∨
      ⟨v, .input, o, u⟩ ∈ L ++ [x]) : Stage d (L ++ [x]) g' s' where
  draft := h.draft
  sound := hg
  action := fun n a hn => ha n a (h.action n a hn)
  mem_iff := fun n => by
    rw [hids, h.mem_iff, or_assoc, eq_comm (a := n)]
    simp only [List.mem_append, List.mem_singleton, or_and_right, exists_or, exists_eq_left]
  action_mem := fun y hy => (List.mem_append.1 hy).elim (h.action_mem y) fun hy => by
    rw [List.mem_singleton.1 hy]
    exact hx
  entity_new := fun y hy => (List.mem_append.1 hy).elim (h.entity_new y) fun hy => by
    rw [List.mem_singleton.1 hy]
    exact fun hm => hnew ((h.mem_iff _).2 (.inl hm))
  entities_nodup := by
    rw [List.map_append, List.nodup_append']
    refine ⟨h.entities_nodup, List.nodup_singleton _, List.disjoint_right.2 fun n hn hm => ?_⟩
    obtain ⟨y, hy, rfl⟩ := List.mem_map.1 hm
    rw [List.map_singleton, List.mem_singleton] at hn
    exact hnew ((h.mem_iff _).2 (.inr ⟨y, hy, hn⟩))
  once := by
    intro y hy z hz hys hzs hact hobj
    rw [List.mem_append, List.mem_singleton] at hy hz
    rcases hy with hy | rfl <;> rcases hz with hz | rfl
    · exact h.once y hy z hz hys hzs hact hobj
    · exact absurd hobj (honce hzs y hy hys hact)
    · exact absurd hobj.symm (honce hys z hz hzs hact.symm)
    · rfl
  cause := fun y hy => (List.mem_append.1 hy).elim (h.cause y) fun hy => by
    rw [List.mem_singleton.1 hy]
    exact hcause
  carries := hcarries

/-! ## Inputs

An object that an action takes in has one source, several, or none. With one, its pins are put on
the edge from there, and an entity also takes in what is known of the object. With several nothing
is done. With none, an entity is put in front of the action, which then is its one source. -/

/-- An entity takes over the identity of its object. -/
theorem absorb_entity {p : Profile} {o : ObjectId} (hp : p.id = some o) {e : Entity}
    (he : e.profile.id = some o ∨ e = {}) :
    ∃ e', absorb p (.entity e) = .entity e' ∧ e'.profile.id = some o := by
  rw [absorb]
  split
  · rename_i hnote
    refine ⟨e, rfl, he.resolve_right ?_⟩
    rintro rfl
    cases hnote
  · refine ⟨_, rfl, ?_⟩
    show (p.id <|> e.profile.id) = some o
    rw [hp]
    rfl

/-- What an object's pins say is added to the node it comes from. -/
theorem Stage.take (h : Stage d L g s) {action entity : NodeId} {o : ObjectId} {p : Candidate}
    (hc : Carries g entity action o) (hp : p.profile.id = some o)
    (hn : ∀ x ∈ L, ∃ e, g.node? x.entity = some (.entity e) ∧
      (e.profile.id = some x.object ∨ x.entity = entity ∧ e = {}))
    {g' : Graph Node Thread} {s' : Supply}
    (hok : takeFrom g s action o p entity = .ok (g', s')) : Stage d L g' s' ∧ Named L g' := by
  obtain ⟨g₁, s₁, hok₁, hg₁, hids, hnode, hcarries⟩ := takeFrom_spec h.sound hc p
  cases hok.symm.trans hok₁
  refine ⟨h.congr hg₁ hids (fun n a ha => ?_) hcarries, fun x hx => ?_⟩
  · rw [hnode, ha]
    split <;> rfl
  · obtain ⟨e, he, hid⟩ := hn x hx
    rw [hnode, he]
    by_cases hxe : x.entity = entity
    · have ho : o = x.object := h.object_eq hx (hxe ▸ hc)
      obtain ⟨e', habs, hid'⟩ := absorb_entity (ho ▸ hp) (hid.imp_right And.right)
      rw [if_pos hxe, Option.map_some, habs]
      exact ⟨e', rfl, hid'⟩
    · rw [if_neg hxe]
      exact ⟨e, rfl, hid.resolve_right fun hx => hxe hx.1⟩

/-- An entity is put in front of an action for what its pins take in. -/
theorem Stage.herald (h : Stage d L g s) {action : NodeId} (ha : action ∈ d.graph.nodeIds)
    {o : ObjectId} (ho : o ∈ Table.keys (d.listed .input action)) :
    Stage d (L ++ [⟨action, .input, o, s.node.1⟩]) (heralded g s action o) s.node.2.edge.2 := by
  have hag : action ∈ g.nodeIds := (h.mem_iff action).2 (.inl ha)
  refine h.append (h.sound.heralded hag o) h.sound.node_new (fun n => ?_) (fun n a hn => ?_) ha
    (fun hs => by cases hs) (.inl ho) fun u v o' => ?_
  · show n ∈ (g.attachNode _ _).nodeIds ↔ _
    rw [nodeIds_attachNode, List.mem_append, List.mem_singleton]
  · show (g.attachNode _ _).node? n = _
    rw [node?_attachNode, hn]
    rfl
  · have hin : v = action ∧ o' = o ∧ u = s.node.1 ↔ u = s.node.1 ∧ v = action ∧ o' = o := by
      tauto
    rw [carries_heralded, h.carries]
    simp [or_assoc, hin]

/-- What is known of an input at an action. -/
structure Drawable (d : Draft) (g : Graph Node Thread) (action : NodeId)
    (x : ObjectId × Candidate) : Prop where
  profile_id : x.2.profile.id = some x.1
  carries : ∀ n, x.2.sources = [n] → Carries g n action x.1
  listed : x.2.sources = [] → x.1 ∈ Table.keys (d.listed .input action)

/-- One input of an action adds an entry in front of it at most. Edges that carry something still
do, so that what is known of the inputs to come stays true. -/
theorem Stage.input (h : Stage d L g s) (hn : Named L g) {action : NodeId}
    (ha : action ∈ d.graph.nodeIds) {x : ObjectId × Candidate} (hx : Drawable d g action x)
    {g' : Graph Node Thread} {s' : Supply}
    (hok : reifyInput g s action x.1 x.2 = .ok (g', s')) :
    (∃ L', (L' = L ∨ ∃ n, L' = L ++ [⟨action, .input, x.1, n⟩]) ∧ Stage d L' g' s' ∧
      Named L' g') ∧ ∀ u v o, Carries g u v o → Carries g' u v o := by
  have hag : action ∈ g.nodeIds := (h.mem_iff action).2 (.inl ha)
  obtain ⟨g₁, s₁, hok₁, -, -, hmono⟩ := reifyInput_spec h.sound hag hx.carries
  cases hok.symm.trans hok₁
  refine ⟨?_, hmono⟩
  rcases hsources : x.2.sources with _ | ⟨n, _ | ⟨n', rest⟩⟩
  · rw [reifyInput_of_nil h.sound hag x.1 hsources] at hok
    refine ⟨_, .inr ⟨s.node.1, rfl⟩, (h.herald ha (hx.listed hsources)).take
      (carries_heralded.2 (.inr ⟨rfl, rfl, rfl⟩)) hx.profile_id (fun y hy => ?_) hok⟩
    have hnode : ∀ n, (heralded g s action x.1).node? n =
        (g.attachNode s.node.1 (.entity {})).node? n := fun _ => rfl
    rw [hnode, node?_attachNode]
    rcases List.mem_append.1 hy with hy | hy
    · obtain ⟨e, he, hid⟩ := hn y hy
      exact ⟨e, by rw [he]; rfl, .inl hid⟩
    · rw [List.mem_singleton.1 hy]
      refine ⟨{}, ?_, .inr ⟨rfl, rfl⟩⟩
      rw [node?_eq_none_iff.2 h.sound.node_new]
      simp
  · rw [reifyInput, hsources] at hok
    obtain ⟨hs', hn'⟩ := h.take (hx.carries n hsources) hx.profile_id
      (fun y hy => (hn y hy).imp fun e he => ⟨he.1, .inl he.2⟩) hok
    exact ⟨L, .inl rfl, hs', hn'⟩
  · rw [reifyInput, hsources] at hok
    cases hok
    exact ⟨L, .inl rfl, h, hn⟩

/-- The inputs of an action add nothing but entities in front of it. -/
theorem Stage.inputs (h : Stage d L g s) (hn : Named L g) {action : NodeId}
    (ha : action ∈ d.graph.nodeIds) {t : Candidates} (ht : ∀ x ∈ t, Drawable d g action x)
    {g' : Graph Node Thread} {s' : Supply}
    (hok : reifyAll (fun g s => reifyInput g s action) g s t = .ok (g', s')) :
    ∃ L', Stage d (L ++ L') g' s' ∧ Named (L ++ L') g' ∧
      ∀ x ∈ L', x.side = .input ∧ x.action = action := by
  have hdone := Outcome.foldlM_rest (b := (g, s)) (I := fun t p =>
    (∀ x ∈ t, Drawable d p.1 action x) ∧
      ∃ L', Stage d (L ++ L') p.1 p.2 ∧ Named (L ++ L') p.1 ∧
        ∀ x ∈ L', x.side = .input ∧ x.action = action)
    (fun x t p p' => ?_) ⟨ht, [], by simpa using h, by simpa using hn, by simp⟩ hok
  · exact hdone.2
  · rintro ⟨ht, L', hs, hn, hside⟩ hok
    obtain ⟨⟨L₁, hL₁, hs₁, hn₁⟩, hmono⟩ := hs.input hn ha (ht x List.mem_cons_self) hok
    refine ⟨fun y hy => ?_, ?_⟩
    · have hy := ht y (List.mem_cons_of_mem _ hy)
      exact ⟨hy.profile_id, fun n hn => hmono _ _ _ (hy.carries n hn), hy.listed⟩
    · rcases hL₁ with rfl | ⟨n, rfl⟩
      · exact ⟨L', hs₁, hn₁, hside⟩
      · rw [List.append_assoc] at hs₁ hn₁
        refine ⟨_, hs₁, hn₁, fun y hy => ?_⟩
        rcases List.mem_append.1 hy with hy | hy
        · exact hside y hy
        · rw [List.mem_singleton.1 hy]
          exact ⟨rfl, rfl⟩

/-! ## Outputs

Every object that an action gives out becomes one new entity, behind the action and in front of
whatever the object went to. -/

/-- What is known of an output at an action. -/
structure Issuable (d : Draft) (L : Ledger) (action : NodeId) (x : ObjectId × Candidate) :
    Prop where
  profile_id : x.2.profile.id = some x.1
  fresh : ∀ n, ⟨action, .output, x.1, n⟩ ∉ L
  cause : x.1 ∈ Table.keys (d.listed .output action) ∨ ∃ v, Carries d.graph action v x.1

/-- An entity is put behind an action, and the edges that carry its object go on from there. -/
theorem Stage.follow (h : Stage d L g s) {action : NodeId} (ha : action ∈ d.graph.nodeIds)
    {x : ObjectId × Candidate} (hx : Issuable d L action x) :
    Stage d (L ++ [⟨action, .output, x.1, s.node.1⟩]) (followed g s action x.1 x.2.profile)
      s.node.2.edge.2 := by
  have hag : action ∈ g.nodeIds := (h.mem_iff action).2 (.inl ha)
  refine h.append (h.sound.followed hag x.1 _) h.sound.node_new (fun n => ?_) (fun n a hn => ?_) ha
    (fun _ y hy hs hact hobj => ?_) (hx.cause.imp_right fun hv => ⟨rfl, hv⟩) fun u v o => ?_
  · rw [followed, nodeIds_insertedAfter, List.mem_append, List.mem_singleton]
  · have hne : n ≠ s.node.1 := fun heq =>
      h.sound.node_new (heq ▸ mem_nodeIds_of_node? hn)
    exact (node?_insertedAfter hne).trans hn
  · obtain ⟨u, side, o, n⟩ := y
    obtain rfl : side = .output := hs
    obtain rfl : u = action := hact
    obtain rfl : o = x.1 := hobj
    exact hx.fresh n hy
  · rw [carries_followed h.sound, h.carries_action ha hx.fresh, h.carries]
    simp only [List.mem_append, List.mem_singleton, Entry.mk.injEq, true_and, reduceCtorEq,
      false_and, and_false, or_false, not_or, forall_and]
    -- The action has given out no such object before, so the new entry repeats none.
    have hno : ∀ n, (⟨action, .output, x.1, n⟩ : Entry) ∉ L := hx.fresh
    have hentity : ∀ w side o, (⟨w, side, o, action⟩ : Entry) ∉ L := fun w side o hm =>
      h.entity_new _ hm ha
    constructor
    · rintro (⟨⟨hc, hnone⟩ | hm | ⟨w, hm, hc⟩ | hm, hne⟩ | ⟨rfl, hc, rfl⟩ | ⟨rfl, rfl, rfl⟩)
      · exact .inl ⟨hc, hnone, fun n hn => hne ⟨hn.1, hn.2.1⟩⟩
      · exact .inr (.inl (.inl hm))
      · exact .inr (.inr (.inl ⟨w, .inl hm, hc⟩))
      · exact .inr (.inr (.inr hm))
      · exact .inr (.inr (.inl ⟨action, .inr ⟨rfl, rfl, rfl⟩, hc⟩))
      · exact .inr (.inl (.inr ⟨rfl, rfl, rfl⟩))
    · rintro (⟨hc, hnone, hne⟩ | (hm | ⟨rfl, rfl, rfl⟩) | ⟨w, hm | ⟨rfl, rfl, rfl⟩, hc⟩ | hm)
      · exact .inl ⟨.inl ⟨hc, hnone⟩, fun hx => hne _ ⟨hx.1, hx.2, rfl⟩⟩
      · refine .inl ⟨.inr (.inl hm), ?_⟩
        rintro ⟨rfl, rfl⟩
        exact hno v hm
      · exact .inr (.inr ⟨rfl, rfl, rfl⟩)
      · refine .inl ⟨.inr (.inr (.inl ⟨w, hm, hc⟩)), ?_⟩
        rintro ⟨rfl, rfl⟩
        exact hentity _ _ _ hm
      · exact .inr (.inl ⟨rfl, hc, rfl⟩)
      · refine .inl ⟨.inr (.inr (.inr hm)), ?_⟩
        rintro ⟨rfl, rfl⟩
        exact hentity _ _ _ hm

/-- One output of an action adds the entry of its entity. -/
theorem Stage.output (h : Stage d L g s) (hn : Named L g) {action : NodeId}
    (ha : action ∈ d.graph.nodeIds) {x : ObjectId × Candidate} (hx : Issuable d L action x)
    {g' : Graph Node Thread} {s' : Supply}
    (hok : reifyOutput g s action x.1 x.2 = .ok (g', s')) :
    Stage d (L ++ [⟨action, .output, x.1, s.node.1⟩]) g' s' ∧
      Named (L ++ [⟨action, .output, x.1, s.node.1⟩]) g' := by
  have hag : action ∈ g.nodeIds := (h.mem_iff action).2 (.inl ha)
  have hf := h.follow ha hx
  obtain ⟨g₁, s₁, hok₁, hg₁, hnodes, hcarries⟩ := attachPins_spec hf.sound
    ((carries_followed h.sound).2 (.inr (.inr ⟨rfl, rfl, rfl⟩))) x.2.pins
  rw [reifyOutput_eq h.sound hag] at hok
  cases hok.symm.trans hok₁
  have hnode : ∀ n, g'.node? n = (followed g s action x.1 x.2.profile).node? n := fun n =>
    congrArg (Table.at? · n) hnodes
  refine ⟨hf.congr hg₁ (congrArg Table.keys hnodes) (fun n a hn => (hnode n).trans hn) hcarries,
    fun y hy => ?_⟩
  rw [hnode, followed]
  rcases List.mem_append.1 hy with hy | hy
  · obtain ⟨e, he, hid⟩ := hn y hy
    have hne : y.entity ≠ s.node.1 := fun heq =>
      h.sound.node_new (heq ▸ mem_nodeIds_of_node? he)
    exact ⟨e, (node?_insertedAfter hne).trans he, hid⟩
  · rw [List.mem_singleton.1 hy]
    exact ⟨_, node?_hub_insertedAfter h.sound.node_new, hx.profile_id⟩

/-- The outputs of an action become entities behind it. -/
theorem Stage.outputs (h : Stage d L g s) (hn : Named L g) {action : NodeId}
    (ha : action ∈ d.graph.nodeIds) {t : Candidates} (hd : (Table.keys t).Nodup)
    (ht : ∀ x ∈ t, Issuable d L action x) {g' : Graph Node Thread} {s' : Supply}
    (hok : reifyAll (fun g s => reifyOutput g s action) g s t = .ok (g', s')) :
    ∃ L', Stage d (L ++ L') g' s' ∧ Named (L ++ L') g' ∧ (∀ x ∈ L', x.action = action) ∧
      ∀ o ∈ Table.keys t, ∃ n, ⟨action, .output, o, n⟩ ∈ L' := by
  have hdone := Outcome.foldlM_rest (b := (g, s)) (I := fun rest p =>
    (Table.keys rest).Nodup ∧ ∃ L', (∀ x ∈ rest, Issuable d (L ++ L') action x) ∧
      Stage d (L ++ L') p.1 p.2 ∧ Named (L ++ L') p.1 ∧ (∀ x ∈ L', x.action = action) ∧
      ∀ o ∈ Table.keys t, o ∈ Table.keys rest ∨ ∃ n, ⟨action, .output, o, n⟩ ∈ L')
    (fun x rest p p' => ?_)
    ⟨hd, [], by simpa using ht, by simpa using h, by simpa using hn, by simp,
      fun o ho => .inl ho⟩ hok
  · obtain ⟨-, L', -, hs, hn, hact, hkeys⟩ := hdone
    exact ⟨L', hs, hn, hact, fun o ho => (hkeys o ho).resolve_left List.not_mem_nil⟩
  · rintro ⟨hd, L', hrest, hs, hn, hact, hkeys⟩ hok
    rw [Table.keys_cons, List.nodup_cons] at hd
    obtain ⟨hs₁, hn₁⟩ := hs.output hn ha (hrest x List.mem_cons_self) hok
    rw [List.append_assoc] at hs₁ hn₁
    refine ⟨hd.2, _, fun y hy => ?_, hs₁, hn₁, fun y hy => ?_, fun o ho => ?_⟩
    · have hiss := hrest y (List.mem_cons_of_mem _ hy)
      refine ⟨hiss.profile_id, fun n hm => ?_, hiss.cause⟩
      rw [← List.append_assoc, List.mem_append, List.mem_singleton] at hm
      rcases hm with hm | hm
      · exact hiss.fresh n hm
      · have hobject : y.1 = x.1 := congrArg Entry.object hm
        exact hd.1 (hobject ▸ List.mem_map_of_mem hy)
    · rcases List.mem_append.1 hy with hy | hy
      · exact hact y hy
      · rw [List.mem_singleton.1 hy]
    · rcases hkeys o ho with hk | ⟨n, hn⟩
      · rcases List.mem_cons.1 hk with rfl | hk
        · exact .inr ⟨_, List.mem_append_right _ (List.mem_singleton_self _)⟩
        · exact .inl hk
      · exact .inr ⟨n, List.mem_append_left _ hn⟩

/-! ## All actions

The loop goes over a topological order, but of the order only this is used, that every node of the
draft is in it once. -/

/-- Entities stand beside actions that were looked at, and these have given out all objects. -/
structure Visited (d : Draft) (L : Ledger) (rest : List NodeId) : Prop where
  not_mem : ∀ x ∈ L, x.action ∉ rest
  complete : ∀ u v o, Carries d.graph u v o → u ∉ rest → ∃ n, ⟨u, .output, o, n⟩ ∈ L

/-- What an action takes in is known at the moment when it is looked at: its one source carries it,
and what has no source is listed in the draft. -/
theorem Tidy.drawable (hd : d.Tidy) (g : Graph Node Thread) (action : NodeId) :
    ∀ x ∈ d.inputsOf g action, Drawable d g action x := by
  intro x hx
  have ht := hd.tabled .input action
  refine ⟨profile_id_gather hd.profile_id extends_addSource ht.profile_id _ x hx,
    hd.sourceless.carries_inputsOf x hx, fun hnil => ?_⟩
  have hk : x.1 ∈ Table.keys (d.inputsOf g action) := List.mem_map_of_mem hx
  refine (mem_keys_gather.1 hk).resolve_right ?_
  rintro ⟨e, he, hid⟩
  have hmem := (sources_of_handed d ht.keys_nodup ht.sourceless x hx).2 e he hid
  exact List.not_mem_nil (hnil ▸ hmem)

/-- What an action gives out is what its pins do, or what its edges in the draft carry. -/
theorem Stage.mem_keys_outputsOf (h : Stage d L g s) {action : NodeId}
    (ha : action ∈ d.graph.nodeIds) (hfresh : ∀ o n, ⟨action, .output, o, n⟩ ∉ L)
    {o : ObjectId} : o ∈ Table.keys (d.outputsOf g action) ↔
      o ∈ Table.keys (d.listed .output action) ∨ ∃ v, Carries d.graph action v o := by
  have hcarries : ∀ v o, Carries g action v o ↔ Carries d.graph action v o := fun v o =>
    h.carries_action ha (hfresh o) v
  rw [outputsOf, mem_keys_gather]
  refine or_congr_right ⟨?_, ?_⟩
  · rintro ⟨e, he, rfl⟩
    obtain ⟨hmem, rfl⟩ := mem_outEdges.1 he
    exact ⟨e.target, (hcarries _ _).1 (.of_mem hmem)⟩
  · rintro ⟨v, hc⟩
    obtain ⟨e, he, hs, -, rfl⟩ := (hcarries v o).2 hc
    exact ⟨e, mem_outEdges.2 ⟨he, hs⟩, rfl⟩

/-- What an action gives out is known when its inputs have been looked at. -/
theorem Stage.issuable (hd : d.Tidy) (h : Stage d L g s) {action : NodeId}
    (ha : action ∈ d.graph.nodeIds) (hfresh : ∀ o n, ⟨action, .output, o, n⟩ ∉ L) :
    ∀ x ∈ d.outputsOf g action, Issuable d L action x := fun x hx =>
  ⟨profile_id_gather hd.profile_id extends_id (hd.tabled .output action).profile_id _ x hx,
    hfresh x.1, (h.mem_keys_outputsOf ha hfresh).1 (List.mem_map_of_mem hx)⟩

/-- Nothing has been given out by an action whose inputs have just been looked at. -/
theorem Visited.fresh {action : NodeId} {rest : List NodeId}
    (hv : Visited d L (action :: rest)) {L' : Ledger} (hL' : ∀ x ∈ L', x.side = .input)
    (o : ObjectId) (n : NodeId) : ⟨action, .output, o, n⟩ ∉ L ++ L' := by
  intro hm
  rcases List.mem_append.1 hm with hm | hm
  · exact hv.not_mem _ hm List.mem_cons_self
  · cases hL' _ hm

/-- An action is looked at: first its inputs, then its outputs. Afterwards it is among those that
were visited. -/
theorem Stage.visit (hd : d.Tidy) (h : Stage d L g s) (hn : Named L g) {action : NodeId}
    {rest : List NodeId} (ha : action ∈ d.graph.nodeIds) (hrest : action ∉ rest)
    (hv : Visited d L (action :: rest)) {g' : Graph Node Thread} {s' : Supply}
    (hok : d.reifyAction g s action = .ok (g', s')) :
    ∃ L', Stage d L' g' s' ∧ Named L' g' ∧ Visited d L' rest := by
  rw [reifyAction_eq] at hok
  obtain ⟨⟨g₁, s₁⟩, hok₁, hok⟩ := Outcome.bind_eq_ok_iff.1 hok
  obtain ⟨L₁, hs₁, hn₁, hside⟩ := h.inputs hn ha (hd.drawable g action) hok₁
  have hfresh := hv.fresh fun x hx => (hside x hx).1
  obtain ⟨L₂, hs₂, hn₂, hact, hall⟩ := hs₁.outputs hn₁ ha
    (nodup_keys_gather (hd.tabled .output action).keys_nodup _) (hs₁.issuable hd ha hfresh) hok
  refine ⟨_, hs₂, hn₂, fun x hx hm => ?_, fun u v o hc hu => ?_⟩
  · rcases List.mem_append.1 hx with hx | hx
    · rcases List.mem_append.1 hx with hx | hx
      · exact hv.not_mem x hx (List.mem_cons_of_mem _ hm)
      · exact hrest ((hside x hx).2 ▸ hm)
    · exact hrest (hact x hx ▸ hm)
  · by_cases hua : u = action
    · subst hua
      obtain ⟨n, hn⟩ := hall o ((hs₁.mem_keys_outputsOf ha hfresh).2 (.inr ⟨v, hc⟩))
      exact ⟨n, List.mem_append_right _ hn⟩
    · obtain ⟨n, hn⟩ := hv.complete u v o hc (by simp [hua, hu])
      exact ⟨n, List.mem_append_left _ (List.mem_append_left _ hn)⟩

/-- What is done in the end: every object goes over an entity. -/
structure Reified (d : Draft) (L : Ledger) (g : Graph Node Thread) (s : Supply) : Prop extends
    Stage d L g s where
  named : Named L g
  complete : ∀ u v o, Carries d.graph u v o → ∃ n, ⟨u, .output, o, n⟩ ∈ L

/-- Turning all objects into entities succeeds, and every object goes over one. -/
theorem reify_ledger (hd : d.Tidy) (h : Sound d.graph s) :
    ∃ g s' L, d.reify s = .ok (g, s') ∧ Reified d L g s' := by
  obtain ⟨g, s', hok, -⟩ := reify_spec hd.sourceless h
  obtain ⟨order, horder⟩ := exists_topologicalOrder h.wellFormed h.acyclic
  have hperm := (topologicalOrder_spec h.wellFormed horder).1
  have hrun := hok
  rw [reify, horder, Outcome.mapError_ok, Outcome.ok_bind, Outcome.mapError_eq_ok_iff] at hrun
  have hstart : Visited d [] order :=
    ⟨by simp, fun u v o hc hu => absurd (hperm.symm.subset (h.wellFormed.step_mem hc.step).1) hu⟩
  have hdone := Outcome.foldlM_rest (b := (d.graph, s)) (I := fun rest p =>
    rest.Nodup ∧ (∀ n ∈ rest, n ∈ d.graph.nodeIds) ∧
      ∃ L, Stage d L p.1 p.2 ∧ Named L p.1 ∧ Visited d L rest)
    (fun n rest p p' => ?_)
    ⟨hperm.symm.nodup h.wellFormed.nodes_nodup, hperm.subset, [], .start h, by simp [Named],
      hstart⟩ hrun
  · obtain ⟨-, -, L, hs, hn, hv⟩ := hdone
    exact ⟨g, s', L, hok, hs, hn, fun u v o hc => hv.complete u v o hc List.not_mem_nil⟩
  · rintro ⟨hnodup, hmem, L, hs, hn, hv⟩ hok
    rw [List.nodup_cons] at hnodup
    exact ⟨hnodup.2, fun m hm => hmem m (List.mem_cons_of_mem _ hm),
      hs.visit hd hn (hmem n List.mem_cons_self) hnodup.1 hv hok⟩

/-- In the end an edge leads from an action to the entity it gave out, from such an entity to where
the draft has its object go, or from an entity to the action it was put in front of. -/
theorem Reified.carries_iff (h : Reified d L g s) {u v : NodeId} {o : ObjectId} :
    Carries g u v o ↔ ⟨u, .output, o, v⟩ ∈ L ∨
      (∃ w, ⟨w, .output, o, u⟩ ∈ L ∧ Carries d.graph w v o) ∨ ⟨v, .input, o, u⟩ ∈ L := by
  rw [h.carries]
  refine or_iff_right ?_
  rintro ⟨hc, hno⟩
  obtain ⟨n, hn⟩ := h.complete u v o hc
  exact hno n hn

end ObjectFlow.Annotated.Draft
