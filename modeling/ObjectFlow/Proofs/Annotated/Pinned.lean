import ObjectFlow.Proofs.Annotated.Labels

/-!
# The pins of an action on its edges

When all objects are entities, the edges with pins at an action are those that its table lists, and
what its pins take in or give out goes over no other edge of it (`reify_pinned`).

## Outline

The inputs and the outputs of an action are put in one object after the other, and the same is to be
shown of both. `Attached d side action t g g'` says what becomes of the edges when the objects of
the table `t` are put in on one side: the new labels are the listing of `t`, the labels of one
object have one entity at their other end, and no object with a pin goes over a bare edge. It is
closed under appending tables (`Attached.append`), so it is enough to look at one object.

For an output this is one new entity. For an input the number of its sources matters. With none, an
entity is put in front (`Stage.attached_heralded`), with one, the pins are put at the edge from
there (`Stage.attached_taken`). With several nothing would be done, so inputs with pins must come
from one place (`Definite`). And the one source must be an entity and not an action, which is so
because actions are looked at in topological order: the one it came from in the draft has given it
out already (`Stage.given_out`).

`Spelled` is what is stated of an action in the end. What is done later at other actions does not
change it (`Attached.spelled`).
-/

namespace ObjectFlow.Annotated.Draft

open ObjectFlow.Graph

/-! ## The two ends of an edge

For an input the action is at the target of an edge, for an output at the source. With the ends
named by the side, both are treated alike. -/

/-- The end at the action whose input or output the edge is. -/
def Label.near (l : Label) : Side → NodeId
  | .input => l.target
  | .output => l.source

/-- The end at the entity. -/
def Label.far (l : Label) : Side → NodeId
  | .input => l.source
  | .output => l.target

/-- An edge without a pin carries an object into an action, or out of it. -/
def BareAt (g : Graph Node Thread) (side : Side) (action : NodeId) (o : ObjectId) : Prop :=
  match side with
  | .input => ∃ n, Bare g n action o
  | .output => ∃ n, Bare g action n o

variable {d : Draft} {L : Ledger} {g g' : Graph Node Thread} {s s' : Supply}

/--
What becomes of the edges when some objects turn into inputs or outputs of an action: those of their
pins are new, and apart from these objects no edge without a pin is new at any action.
-/
structure Attached (d : Draft) (side : Side) (action : NodeId) (t : Candidates)
    (g g' : Graph Node Thread) : Prop where
  spells : ∃ ls, labels g' = labels g ++ ls ∧ ls.map (fun l => (l.object, l.pin)) = listing t ∧
    (∀ l ∈ ls, l.near side = action ∧ l.far side ∉ d.graph.nodeIds) ∧
    ∀ l ∈ ls, ∀ l' ∈ ls, l.object = l'.object → l.far side = l'.far side
  not_bare : ∀ x ∈ t, x.2.pins ≠ [] → ¬ BareAt g' side action x.1
  bare : ∀ side' n o, n ∈ d.graph.nodeIds → BareAt g' side' n o → BareAt g side' n o ∨
    side' = side ∧ n = action ∧ o ∈ Table.keys t

/-- Without objects nothing is attached. -/
theorem Attached.nil (d : Draft) (side : Side) (action : NodeId) (g : Graph Node Thread) :
    Attached d side action [] g g :=
  ⟨⟨[], by simp, rfl, by simp, by simp⟩, by simp, fun _ _ _ _ h => .inl h⟩

/-- Objects are attached one table after the other. -/
theorem Attached.append {side : Side} {action : NodeId} {t t' : Candidates}
    {g₁ : Graph Node Thread} (h : Attached d side action t g g₁)
    (h' : Attached d side action t' g₁ g') (ha : action ∈ d.graph.nodeIds)
    (hd : ∀ o ∈ Table.keys t, o ∉ Table.keys t') :
    Attached d side action (t ++ t') g g' := by
  obtain ⟨ls, hls, hmap, hends, hfar⟩ := h.spells
  obtain ⟨ls', hls', hmap', hends', hfar'⟩ := h'.spells
  have hlisted : ∀ {ls : List Label} {t : Candidates},
      ls.map (fun l => (l.object, l.pin)) = listing t → ∀ l ∈ ls, l.object ∈ Table.keys t :=
    fun hmap _ hl => mem_keys_of_mem_listing (hmap ▸ List.mem_map_of_mem hl)
  refine ⟨⟨ls ++ ls', by rw [hls', hls, List.append_assoc], ?_, fun l hl => ?_,
    fun l hl l' hl' heq => ?_⟩, fun x hx hp hb => ?_, fun side' n o hn hb => ?_⟩
  · rw [List.map_append, hmap, hmap', listing, listing, listing, List.flatMap_append]
  · exact (List.mem_append.1 hl).elim (hends l) (hends' l)
  · rcases List.mem_append.1 hl with hl | hl <;> rcases List.mem_append.1 hl' with hl' | hl'
    · exact hfar l hl l' hl' heq
    · exact absurd (hlisted hmap' l' hl') (hd _ (heq ▸ hlisted hmap l hl))
    · exact absurd (heq ▸ hlisted hmap' l hl) (hd _ (hlisted hmap l' hl'))
    · exact hfar' l hl l' hl' heq
  · rcases List.mem_append.1 hx with hx | hx
    · rcases h'.bare side action x.1 ha hb with hb | ⟨-, -, hk⟩
      · exact h.not_bare x hx hp hb
      · exact hd x.1 (List.mem_map_of_mem hx) hk
    · exact h'.not_bare x hx hp hb
  · rw [Table.keys_append, List.mem_append]
    rcases h'.bare side' n o hn hb with hb | ⟨hside, hna, hk⟩
    · rcases h.bare side' n o hn hb with hb | ⟨hside, hna, hk⟩
      · exact .inl hb
      · exact .inr ⟨hside, hna, .inl hk⟩
    · exact .inr ⟨hside, hna, .inr hk⟩

/-- An object that is not in the table has got no pin at the action. -/
theorem Attached.fresh {side : Side} {action : NodeId} {t : Candidates}
    (h : Attached d side action t g g') (hno : ∀ l ∈ labels g, l.near side ≠ action)
    {o : ObjectId} (ho : o ∉ Table.keys t) :
    ∀ l ∈ labels g', ¬ (l.near side = action ∧ l.object = o) := by
  obtain ⟨ls, hls, hmap, -⟩ := h.spells
  rintro l hl ⟨hnear, rfl⟩
  rw [hls] at hl
  rcases List.mem_append.1 hl with hl | hl
  · exact hno l hl hnear
  · exact ho (mem_keys_of_mem_listing (hmap ▸ List.mem_map_of_mem hl))

/-- One new entity at the far ends of an object's pins is all that they say. -/
theorem spells_of_entity {side : Side} {action n : NodeId} (hn : n ∉ d.graph.nodeIds)
    {x : ObjectId × Candidate} {label : String → Label}
    (hlabel : ∀ pin, (label pin).near side = action ∧ (label pin).far side = n ∧
      ((label pin).object, (label pin).pin) = (x.1, pin))
    (hl : labels g' = labels g ++ x.2.pins.map label) :
    ∃ ls, labels g' = labels g ++ ls ∧ ls.map (fun l => (l.object, l.pin)) = listing [x] ∧
      (∀ l ∈ ls, l.near side = action ∧ l.far side ∉ d.graph.nodeIds) ∧
      ∀ l ∈ ls, ∀ l' ∈ ls, l.object = l'.object → l.far side = l'.far side := by
  have hfar : ∀ l ∈ x.2.pins.map label, l.near side = action ∧ l.far side = n := by
    intro l hl
    obtain ⟨pin, -, rfl⟩ := List.mem_map.1 hl
    exact ⟨(hlabel pin).1, (hlabel pin).2.1⟩
  refine ⟨_, hl, ?_, fun l hl => ?_, fun l hl l' hl' _ => ?_⟩
  · rw [List.map_map, listing_cons, listing, List.flatMap_nil, List.append_nil]
    exact List.map_congr_left fun pin _ => (hlabel pin).2.2
  · exact ⟨(hfar l hl).1, (hfar l hl).2 ▸ hn⟩
  · exact (hfar l hl).2.trans (hfar l' hl').2.symm

/-! ## Inputs

The edges from a source to the action are replaced by one for each pin. -/

/-- Pins take the place of the bare edges of an input. -/
theorem edges_takeFrom (h : Sound g s) {entity action : NodeId} (he : entity ∈ g.nodeIds)
    (ha : action ∈ g.nodeIds) {o : ObjectId} {p : Candidate}
    (hno : ∀ l ∈ labels g, ¬ (l.target = action ∧ l.object = o))
    (hok : takeFrom g s action o p entity = .ok (g', s')) :
    labels g' = labels g ++ p.pins.map (fun pin => ⟨entity, action, o, pin⟩) ∧
      ∀ x y o', Bare g' x y o' ↔
        Bare g x y o' ∧ (p.pins = [] ∨ ¬ (x = entity ∧ y = action ∧ o' = o)) := by
  rw [takeFrom] at hok
  obtain ⟨⟨g₁, s₁⟩, hattach, hok⟩ := Outcome.bind_eq_ok_iff.1 hok
  cases hok
  have hedges := edges_attachPins h he ha (fun l hl hx => hno l hl ⟨hx.2.1, hx.2.2⟩) hattach
  exact hedges

/-- What is known of an input when all its sources are entities. -/
structure Placeable (d : Draft) (g : Graph Node Thread) (action : NodeId)
    (x : ObjectId × Candidate) : Prop extends Drawable d g action x where
  source_new : ∀ n ∈ x.2.sources, n ∉ d.graph.nodeIds
  source_mem : ∀ n, Carries g n action x.1 → n ∈ x.2.sources
  single : x.2.pins ≠ [] → x.2.sources.length ≤ 1

/-- An input that nothing hands over gets a new entity in front of the action. -/
theorem Stage.attached_heralded (h : Stage d L g s) {action : NodeId}
    (ha : action ∈ d.graph.nodeIds) {x : ObjectId × Candidate} (hx : Placeable d g action x)
    (hno : ∀ l ∈ labels g, ¬ (l.target = action ∧ l.object = x.1)) (hsources : x.2.sources = [])
    (hok : reifyInput g s action x.1 x.2 = .ok (g', s')) :
    Attached d .input action [x] g g' ∧
      ∀ n o, Carries g' n action o → Carries g n action o ∨ o = x.1 := by
  have hs := h.herald ha (hx.listed hsources)
  obtain ⟨hl₁, hb₁⟩ := edges_heralded (g := g) (s := s) action x.1
  have hnew : s.node.1 ∈ (heralded g s action x.1).nodeIds :=
    (hs.mem_iff _).2 (.inr ⟨_, List.mem_append_right _ (List.mem_singleton_self _), rfl⟩)
  have hnd : s.node.1 ∉ d.graph.nodeIds := fun hm => h.sound.node_new ((h.mem_iff _).2 (.inl hm))
  rw [reifyInput_of_nil h.sound ((h.mem_iff action).2 (.inl ha)) x.1 hsources] at hok
  obtain ⟨hl, hb⟩ := edges_takeFrom hs.sound hnew ((hs.mem_iff _).2 (.inl ha)) (by rwa [hl₁]) hok
  obtain ⟨_, _, hok', -, -, -, hcarries⟩ := takeFrom_spec hs.sound
    (carries_heralded.2 (.inr ⟨rfl, rfl, rfl⟩)) x.2
  cases hok.symm.trans hok'
  have hnone : ∀ n, ¬ Carries g n action x.1 := fun n hc => by
    have hm := hx.source_mem n hc
    rw [hsources] at hm
    cases hm
  refine ⟨⟨spells_of_entity hnd (fun _ => ⟨rfl, rfl, rfl⟩) (hl₁ ▸ hl), fun y hy hp => ?_,
    fun side m o hm hbare => ?_⟩, fun n o hc => ?_⟩
  · rintro ⟨m, hbare⟩
    rw [List.mem_singleton.1 hy] at hbare hp
    obtain ⟨hbare, hor⟩ := (hb _ _ _).1 hbare
    rcases (hb₁ _ _ _).1 hbare with hbare | ⟨rfl, -, -⟩
    · exact hnone m hbare.carries
    · exact hor.resolve_left hp ⟨rfl, rfl, rfl⟩
  · cases side with
    | input =>
      obtain ⟨n, hbare⟩ := hbare
      rcases (hb₁ _ _ _).1 ((hb _ _ _).1 hbare).1 with hbare | ⟨-, rfl, rfl⟩
      · exact .inl ⟨n, hbare⟩
      · exact .inr ⟨rfl, rfl, by simp⟩
    | output =>
      obtain ⟨n, hbare⟩ := hbare
      rcases (hb₁ _ _ _).1 ((hb _ _ _).1 hbare).1 with hbare | ⟨rfl, -, -⟩
      · exact .inl ⟨n, hbare⟩
      · exact absurd hm hnd
  · exact (carries_heralded.1 ((hcarries _ _ _).1 hc)).imp_right fun hx => hx.2.2

/-- An input is taken from the one entity that hands it over. -/
theorem Stage.attached_taken (h : Stage d L g s) {action : NodeId}
    (ha : action ∈ d.graph.nodeIds) {x : ObjectId × Candidate} (hx : Placeable d g action x)
    (hno : ∀ l ∈ labels g, ¬ (l.target = action ∧ l.object = x.1)) {n : NodeId}
    (hsources : x.2.sources = [n]) (hok : reifyInput g s action x.1 x.2 = .ok (g', s')) :
    Attached d .input action [x] g g' ∧
      ∀ n o, Carries g' n action o → Carries g n action o := by
  have hc := hx.carries n hsources
  have hmem := h.sound.wellFormed.step_mem hc.step
  rw [reifyInput, hsources] at hok
  obtain ⟨hl, hb⟩ := edges_takeFrom h.sound hmem.1 ((h.mem_iff action).2 (.inl ha)) hno hok
  obtain ⟨_, _, hok', -, -, -, hcarries⟩ := takeFrom_spec h.sound hc x.2
  cases hok.symm.trans hok'
  refine ⟨⟨spells_of_entity (hx.source_new n (by simp [hsources])) (fun _ => ⟨rfl, rfl, rfl⟩) hl,
    fun y hy hp => ?_, fun side m o hm hbare => .inl ?_⟩, fun n o hc => (hcarries _ _ _).1 hc⟩
  · rintro ⟨m, hbare⟩
    rw [List.mem_singleton.1 hy] at hbare hp
    obtain ⟨hbare, hor⟩ := (hb _ _ _).1 hbare
    have hm := hx.source_mem m hbare.carries
    rw [hsources, List.mem_singleton] at hm
    exact hor.resolve_left hp ⟨hm, rfl, rfl⟩
  · cases side <;> exact hbare.imp fun n hbare => ((hb _ _ _).1 hbare).1

/-- An object without pins is attached where nothing changes. -/
theorem Attached.of_pinless {side : Side} {action : NodeId} {x : ObjectId × Candidate}
    (hpins : x.2.pins = []) : Attached d side action [x] g g := by
  refine ⟨⟨[], by simp, by simp [listing, hpins], by simp, by simp⟩, fun y hy hp => ?_,
    fun _ _ _ _ hbare => .inl hbare⟩
  rw [List.mem_singleton.1 hy] at hp
  exact absurd hpins hp

/-- Just one entity stands for an input with pins. -/
theorem Stage.attached_input (h : Stage d L g s) {action : NodeId}
    (ha : action ∈ d.graph.nodeIds) {x : ObjectId × Candidate} (hx : Placeable d g action x)
    (hno : ∀ l ∈ labels g, ¬ (l.target = action ∧ l.object = x.1))
    (hok : reifyInput g s action x.1 x.2 = .ok (g', s')) :
    Attached d .input action [x] g g' ∧
      ∀ n o, Carries g' n action o → Carries g n action o ∨ o = x.1 := by
  rcases hsources : x.2.sources with _ | ⟨n, _ | ⟨n', rest⟩⟩
  · exact h.attached_heralded ha hx hno hsources hok
  · exact (h.attached_taken ha hx hno hsources hok).imp_right fun hc n o h => .inl (hc n o h)
  · -- an object from several entities has no pins
    have hpins : x.2.pins = [] := by
      by_contra hp
      have hle := hx.single hp
      rw [hsources] at hle
      simp at hle
    rw [reifyInput, hsources] at hok
    cases hok
    exact ⟨.of_pinless hpins, fun _ _ hc => .inl hc⟩

/-- The inputs of an action spell its pins. -/
theorem Stage.attached_inputs (h : Stage d L g s) (hn : Named L g) {action : NodeId}
    (ha : action ∈ d.graph.nodeIds) {t : Candidates} (hd : (Table.keys t).Nodup)
    (ht : ∀ x ∈ t, Placeable d g action x)
    (hno : ∀ l ∈ labels g, l.target ≠ action)
    (hok : reifyAll (fun g s => reifyInput g s action) g s t = .ok (g', s')) :
    Attached d .input action t g g' := by
  have hdone := Outcome.foldlM_rest (b := (g, s)) (I := fun rest p =>
    (∀ x ∈ rest, Placeable d p.1 action x) ∧ (∃ L, Stage d L p.1 p.2 ∧ Named L p.1) ∧
      ∃ t₁, t = t₁ ++ rest ∧ Attached d .input action t₁ g p.1)
    (fun x rest p p' => ?_) ⟨ht, ⟨L, h, hn⟩, [], rfl, .nil _ _ _ _⟩ hok
  · obtain ⟨-, -, t₁, rfl, hatt⟩ := hdone
    rwa [List.append_nil]
  · rintro ⟨hrest, ⟨L₁, hs₁, hn₁⟩, t₁, rfl, hatt⟩ hok
    have hx := hrest x List.mem_cons_self
    rw [Table.keys_append, Table.keys_cons, List.nodup_append'] at hd
    have hnot : x.1 ∉ Table.keys t₁ := fun ho =>
      List.disjoint_left.1 hd.2.2 ho List.mem_cons_self
    obtain ⟨hone, hcarries⟩ := hs₁.attached_input ha hx (hatt.fresh hno hnot) hok
    obtain ⟨⟨L₂, -, hs₂, hn₂⟩, hmono⟩ := hs₁.input hn₁ ha hx.toDrawable hok
    refine ⟨fun y hy => ?_, ⟨L₂, hs₂, hn₂⟩, t₁ ++ [x], by simp, hatt.append hone ha fun o ho => ?_⟩
    · have hne : y.1 ≠ x.1 := fun heq =>
        (List.nodup_cons.1 hd.2.1).1 (heq ▸ List.mem_map_of_mem hy)
      have hy := hrest y (List.mem_cons_of_mem _ hy)
      exact ⟨⟨hy.profile_id, fun n hn => hmono _ _ _ (hy.carries n hn), hy.listed⟩, hy.source_new,
        fun n hc => hy.source_mem n ((hcarries n _ hc).resolve_right hne), hy.single⟩
    · rw [Table.keys_cons, Table.keys_nil, List.mem_singleton]
      rintro rfl
      exact hnot ho

/-! ## Outputs

The new entity is behind the action, and pins stand on the edge between the two. -/

/-- One new entity stands for an output. -/
theorem Stage.attached_output (h : Stage d L g s) {action : NodeId}
    (ha : action ∈ d.graph.nodeIds) {x : ObjectId × Candidate} (hx : Issuable d L action x)
    (hno : ∀ l ∈ labels g, ¬ (l.source = action ∧ l.object = x.1))
    (hok : reifyOutput g s action x.1 x.2 = .ok (g', s')) :
    Attached d .output action [x] g g' := by
  have hag : action ∈ g.nodeIds := (h.mem_iff action).2 (.inl ha)
  have hf := h.follow ha hx
  have hl₁ := labels_followed h.sound hno x.2.profile
  have hb₁ := bare_followed h.sound action x.1 x.2.profile
  have hnew : s.node.1 ∈ (followed g s action x.1 x.2.profile).nodeIds :=
    (hf.mem_iff _).2 (.inr ⟨_, List.mem_append_right _ (List.mem_singleton_self _), rfl⟩)
  have hnd : s.node.1 ∉ d.graph.nodeIds := fun hm => h.sound.node_new ((h.mem_iff _).2 (.inl hm))
  rw [reifyOutput_eq h.sound hag] at hok
  obtain ⟨hl, hb⟩ := edges_attachPins hf.sound ((hf.mem_iff _).2 (.inl ha)) hnew
    (fun l hm hx => hno l (hl₁ ▸ hm) ⟨hx.1, hx.2.2⟩) hok
  refine ⟨spells_of_entity hnd (fun _ => ⟨rfl, rfl, rfl⟩) (hl₁ ▸ hl), fun y hy hp => ?_,
    fun side m o hm hbare => ?_⟩
  · rintro ⟨n, hbare⟩
    rw [List.mem_singleton.1 hy] at hbare hp
    obtain ⟨hbare, hor⟩ := (hb _ _ _).1 hbare
    rcases (hb₁ _ _ _).1 hbare with ⟨-, hne⟩ | ⟨rfl, -⟩ | ⟨-, rfl, -⟩
    · exact hne ⟨rfl, rfl⟩
    · exact hnd ha
    · exact hor.resolve_left hp ⟨rfl, rfl, rfl⟩
  · cases side with
    | input =>
      obtain ⟨n, hbare⟩ := hbare
      rcases (hb₁ _ _ _).1 ((hb _ _ _).1 hbare).1 with ⟨hbare, -⟩ | ⟨-, hbare, rfl⟩ | ⟨-, rfl, -⟩
      · exact .inl ⟨n, hbare⟩
      · exact .inl ⟨action, hbare⟩
      · exact absurd hm hnd
    | output =>
      obtain ⟨n, hbare⟩ := hbare
      rcases (hb₁ _ _ _).1 ((hb _ _ _).1 hbare).1 with ⟨hbare, -⟩ | ⟨rfl, -⟩ | ⟨rfl, -, rfl⟩
      · exact .inl ⟨n, hbare⟩
      · exact absurd hm hnd
      · exact .inr ⟨rfl, rfl, by simp⟩

/-- The outputs of an action spell its pins. -/
theorem Stage.attached_outputs (h : Stage d L g s) (hn : Named L g) {action : NodeId}
    (ha : action ∈ d.graph.nodeIds) {t : Candidates} (hd : (Table.keys t).Nodup)
    (ht : ∀ x ∈ t, Issuable d L action x) (hno : ∀ l ∈ labels g, l.source ≠ action)
    (hok : reifyAll (fun g s => reifyOutput g s action) g s t = .ok (g', s')) :
    Attached d .output action t g g' := by
  have hdone := Outcome.foldlM_rest (b := (g, s)) (I := fun rest p =>
    (∃ L, Stage d L p.1 p.2 ∧ Named L p.1 ∧ ∀ x ∈ rest, Issuable d L action x) ∧
      ∃ t₁, t = t₁ ++ rest ∧ Attached d .output action t₁ g p.1)
    (fun x rest p p' => ?_) ⟨⟨L, h, hn, ht⟩, [], rfl, .nil _ _ _ _⟩ hok
  · obtain ⟨-, t₁, rfl, hatt⟩ := hdone
    rwa [List.append_nil]
  · rintro ⟨⟨L₁, hs₁, hn₁, hrest⟩, t₁, rfl, hatt⟩ hok
    have hx := hrest x List.mem_cons_self
    rw [Table.keys_append, Table.keys_cons, List.nodup_append'] at hd
    have hnot : x.1 ∉ Table.keys t₁ := fun ho =>
      List.disjoint_left.1 hd.2.2 ho List.mem_cons_self
    have hone := hs₁.attached_output ha hx (hatt.fresh hno hnot) hok
    obtain ⟨hs₂, hn₂⟩ := hs₁.output hn₁ ha hx hok
    refine ⟨⟨_, hs₂, hn₂, fun y hy => ?_⟩, t₁ ++ [x], by simp, hatt.append hone ha fun o ho => ?_⟩
    · have hiss := hrest y (List.mem_cons_of_mem _ hy)
      refine ⟨hiss.profile_id, fun n hm => ?_, hiss.cause⟩
      rcases List.mem_append.1 hm with hm | hm
      · exact hiss.fresh n hm
      · have hobject : y.1 = x.1 := congrArg Entry.object (List.mem_singleton.1 hm)
        exact (List.nodup_cons.1 hd.2.1).1 (hobject ▸ List.mem_map_of_mem hy)
    · rw [Table.keys_cons, Table.keys_nil, List.mem_singleton]
      rintro rfl
      exact hnot ho

/-! ## All actions

Here the order of the actions is used: an action is looked at when all before it were. -/

/-- The edges with pins at an action are those that its table lists. -/
structure Spelled (d : Draft) (g : Graph Node Thread) (side : Side) (action : NodeId) : Prop where
  labels_eq : ((labels g).filter fun l => l.near side = action).map
    (fun l => (l.object, l.pin)) = listing (d.listed side action)
  far_eq : ∀ l ∈ labels g, ∀ l' ∈ labels g, l.near side = action → l'.near side = action →
    l.object = l'.object → l.far side = l'.far side
  not_bare : ∀ o ∈ Table.keys (d.listed side action), ¬ BareAt g side action o

/-- The near end on the one side is the far end on the other. -/
theorem near_of_ne {l : Label} {side side' : Side} (h : side' ≠ side) :
    l.near side' = l.far side := by
  cases side <;> cases side' <;> first | rfl | exact absurd rfl h

/-- Elsewhere the edges with pins stay as they are. -/
theorem Attached.spelled {side : Side} {action : NodeId} {t : Candidates}
    (h : Attached d side action t g g') {side' : Side} {n : NodeId} (hn : n ∈ d.graph.nodeIds)
    (hne : n ≠ action ∨ side' ≠ side) (hs : Spelled d g side' n) : Spelled d g' side' n := by
  obtain ⟨ls, hls, -, hends, -⟩ := h.spells
  have hnew : ∀ l ∈ ls, l.near side' ≠ n := by
    rintro l hl rfl
    by_cases hside : side' = side
    · subst hside
      exact hne.elim (fun hne => hne (hends l hl).1) fun hne => hne rfl
    · exact (hends l hl).2 (near_of_ne hside ▸ hn)
  have hold : ∀ l ∈ labels g', l.near side' = n → l ∈ labels g := by
    intro l hl hnear
    rw [hls] at hl
    exact (List.mem_append.1 hl).resolve_right fun hl => hnew l hl hnear
  refine ⟨?_, fun l hl l' hl' hnear hnear' => hs.far_eq l (hold l hl hnear) l' (hold l' hl' hnear')
    hnear hnear', fun o ho hb => ?_⟩
  · have hfilter : ls.filter (fun l => l.near side' = n) = [] :=
      List.filter_eq_nil_iff.2 fun l hl => by simpa using hnew l hl
    rw [hls, List.filter_append, hfilter, List.append_nil]
    exact hs.labels_eq
  · rcases h.bare side' n o hn hb with hb | ⟨hside, hna, -⟩
    · exact hs.not_bare o ho hb
    · exact hne.elim (fun hne => hne hna) fun hne => hne hside

/-- At the action itself they are those of the table. -/
theorem Attached.spelled_self {side : Side} {action : NodeId} {t : Candidates}
    (h : Attached d side action t g g') (hno : ∀ l ∈ labels g, l.near side ≠ action)
    (ht : Tabled (d.listed side action)) (hlist : listing t = listing (d.listed side action)) :
    Spelled d g' side action := by
  obtain ⟨ls, hls, hmap, hends, hfar⟩ := h.spells
  have hnew : ∀ l ∈ labels g', l.near side = action → l ∈ ls := by
    intro l hl hnear
    rw [hls] at hl
    exact (List.mem_append.1 hl).resolve_left fun hl => hno l hl hnear
  refine ⟨?_, fun l hl l' hl' hnear hnear' => hfar l (hnew l hl hnear) l' (hnew l' hl' hnear'),
    fun o ho => ?_⟩
  · have hfilter : (labels g).filter (fun l => l.near side = action) = [] :=
      List.filter_eq_nil_iff.2 fun l hl => by simpa using hno l hl
    have hall : ls.filter (fun l => l.near side = action) = ls :=
      List.filter_eq_self.2 fun l hl => by simpa using (hends l hl).1
    rw [hls, List.filter_append, hfilter, List.nil_append, hall, hmap, hlist]
  · obtain ⟨pin, hpin⟩ := ht.mem_keys_iff.1 ho
    rw [← hlist] at hpin
    obtain ⟨x, hx, rfl, hxp⟩ := mem_listing.1 hpin
    exact h.not_bare x hx (List.ne_nil_of_mem hxp)

/-- The actions that were looked at are spelled, and the others have no edges with pins. -/
structure Pinned (d : Draft) (rest : List NodeId) (g : Graph Node Thread) : Prop where
  silent : ∀ l ∈ labels g, ∀ side, l.near side ∉ rest
  spelled : ∀ n ∈ d.graph.nodeIds, n ∉ rest → ∀ side, Spelled d g side n

/-- What the pins of an action take in comes from one place. -/
def Definite (d : Draft) : Prop :=
  ∀ v, ∀ o ∈ Table.keys (d.listed .input v), ∀ u u', Carries d.graph u v o →
    Carries d.graph u' v o → u = u'

/-- What is handed to an action that is not looked at yet was given out by another one. -/
theorem Stage.given_out (h : Stage d L g s) {action : NodeId} {rest : List NodeId}
    (hv : Visited d L (action :: rest)) (ha : action ∈ d.graph.nodeIds)
    (hback : ∀ n, d.graph.Step n action → n ∉ action :: rest) {n : NodeId} {o : ObjectId}
    (hc : Carries g n action o) : ∃ w, ⟨w, .output, o, n⟩ ∈ L ∧ Carries d.graph w action o := by
  rcases (h.carries _ _ _).1 hc with ⟨hc, hno⟩ | hm | hm | hm
  · obtain ⟨m, hm⟩ := hv.complete n action o hc (hback n hc.step)
    exact absurd hm (hno m)
  · exact absurd ha (h.entity_new _ hm)
  · exact hm
  · exact absurd List.mem_cons_self (hv.not_mem _ hm)

/-- The sources of an input are the nodes that hand the object to the action. -/
theorem mem_sources_iff (hd : d.Tidy) {action : NodeId} {x : ObjectId × Candidate}
    (hx : x ∈ d.inputsOf g action) (n : NodeId) :
    n ∈ x.2.sources ↔ Carries g n action x.1 := by
  have ht := hd.tabled .input action
  constructor
  · intro hn
    obtain ⟨e, he, hs, hid⟩ := handed_of_sources d ht.sourceless x hx n hn
    obtain ⟨he, htarget⟩ := mem_inEdges.1 he
    exact ⟨e, he, hs, htarget, hid⟩
  · rintro ⟨e, he, rfl, htarget, hid⟩
    exact (sources_of_handed d ht.keys_nodup ht.sourceless x hx).2 e
      (mem_inEdges.2 ⟨he, htarget⟩) hid

/-- Before an action is looked at, all its inputs come from entities. -/
theorem Stage.placeable (hd : d.Tidy) (hone : d.Definite) (h : Stage d L g s) {action : NodeId}
    {rest : List NodeId} (hv : Visited d L (action :: rest)) (ha : action ∈ d.graph.nodeIds)
    (hback : ∀ n, d.graph.Step n action → n ∉ action :: rest) :
    ∀ x ∈ d.inputsOf g action, Placeable d g action x := by
  have ht := hd.tabled .input action
  intro x hx
  have hfrom := fun n (hn : n ∈ x.2.sources) =>
    h.given_out hv ha hback ((mem_sources_iff hd hx n).1 hn)
  refine ⟨hd.drawable g action x hx, fun n hn => ?_, fun n hc => (mem_sources_iff hd hx n).2 hc,
    fun hp => ?_⟩
  · obtain ⟨w, hm, -⟩ := hfrom n hn
    exact h.entity_new _ hm
  · have hk : x.1 ∈ Table.keys (d.listed .input action) := by
      obtain ⟨pin, hpin⟩ := List.exists_mem_of_ne_nil _ hp
      have hm : (x.1, pin) ∈ listing (d.inputsOf g action) := mem_listing.2 ⟨x, hx, rfl, hpin⟩
      rw [inputsOf, listing_gather extends_addSource] at hm
      exact ht.mem_keys_iff.2 ⟨pin, hm⟩
    have hnodup := (sources_of_handed d ht.keys_nodup ht.sourceless x hx).1
    refine (length_le_one_iff hnodup).2 fun n hn n' hn' => ?_
    obtain ⟨w, hm, hc⟩ := hfrom n hn
    obtain ⟨w', hm', hc'⟩ := hfrom n' hn'
    obtain rfl := hone action x.1 hk w w' hc hc'
    exact congrArg Entry.entity (h.once _ hm _ hm' rfl rfl rfl rfl)

/-- A label between an action and an entity lies beside no other node of the draft. -/
theorem near_eq_of_mem {l : Label} {side side' : Side} {action : NodeId}
    (hends : l.near side' = action ∧ l.far side' ∉ d.graph.nodeIds)
    (hmem : l.near side ∈ d.graph.nodeIds) : l.near side = action := by
  by_cases hs : side = side'
  · exact hs ▸ hends.1
  · exact absurd (near_of_ne hs ▸ hmem) hends.2

/-- Looking at an action spells it, and leaves the others as they were. -/
theorem Stage.visit_pinned (hd : d.Tidy) (hone : d.Definite) (h : Stage d L g s) (hn : Named L g)
    {action : NodeId} {rest : List NodeId} (ha : action ∈ d.graph.nodeIds) (hrest : action ∉ rest)
    (hsub : ∀ n ∈ rest, n ∈ d.graph.nodeIds)
    (hback : ∀ n, d.graph.Step n action → n ∉ action :: rest)
    (hv : Visited d L (action :: rest)) (hp : Pinned d (action :: rest) g)
    (hok : d.reifyAction g s action = .ok (g', s')) : Pinned d rest g' := by
  rw [reifyAction_eq] at hok
  obtain ⟨⟨g₁, s₁⟩, hok₁, hok⟩ := Outcome.bind_eq_ok_iff.1 hok
  have hsilent : ∀ l ∈ labels g, ∀ side, l.near side ≠ action := fun l hl side heq =>
    hp.silent l hl side (heq ▸ List.mem_cons_self)
  have htin := hd.tabled .input action
  have htout := hd.tabled .output action
  have hin : Attached d .input action (d.inputsOf g action) g g₁ :=
    h.attached_inputs hn ha (nodup_keys_gather htin.keys_nodup _) (h.placeable hd hone hv ha hback)
      (fun l hl => hsilent l hl .input) hok₁
  obtain ⟨L₁, hs₁, hn₁, hside⟩ := h.inputs hn ha (hd.drawable g action) hok₁
  obtain ⟨ls, hls, -, hends, -⟩ := hin.spells
  -- Taking the inputs puts pins at the other side of the action only.
  have hsilent₁ : ∀ l ∈ labels g₁, l.near .output ≠ action := by
    intro l hl heq
    rw [hls] at hl
    rcases List.mem_append.1 hl with hl | hl
    · exact hsilent l hl .output heq
    · have hfar : l.far .input = action := heq
      exact (hends l hl).2 (hfar ▸ ha)
  have hout : Attached d .output action (d.outputsOf g₁ action) g₁ g' :=
    hs₁.attached_outputs hn₁ ha (nodup_keys_gather htout.keys_nodup _)
      (hs₁.issuable hd ha (hv.fresh fun x hx => (hside x hx).1)) hsilent₁ hok
  obtain ⟨ls', hls', -, hends', -⟩ := hout.spells
  refine ⟨fun l hl side hm => ?_, fun n hnd hnr side => ?_⟩
  · rw [hls', hls, List.append_assoc] at hl
    rcases List.mem_append.1 hl with hl | hl
    · exact hp.silent l hl side (List.mem_cons_of_mem _ hm)
    · have hmem := hsub _ hm
      have heq : l.near side = action := (List.mem_append.1 hl).elim
        (fun hl => near_eq_of_mem (hends l hl) hmem) fun hl => near_eq_of_mem (hends' l hl) hmem
      exact hrest (heq ▸ hm)
  · by_cases hna : n = action
    · subst hna
      cases side with
      | input =>
        exact hout.spelled hnd (.inr (by simp)) (hin.spelled_self
          (fun l hl => hsilent l hl .input) htin (listing_gather extends_addSource _))
      | output =>
        exact hout.spelled_self hsilent₁ htout (listing_gather extends_id _)
    · exact hout.spelled hnd (.inl hna) (hin.spelled hnd (.inl hna)
        (hp.spelled n hnd (by simp [hna, hnr]) side))

/-- In the end all actions are spelled. -/
theorem reify_pinned (hd : d.Tidy) (hone : d.Definite) (h : Sound d.graph s)
    (hpin : ∀ e ∈ d.graph.edges, e.data.pin = none) (hok : d.reify s = .ok (g', s')) :
    ∀ n ∈ d.graph.nodeIds, ∀ side, Spelled d g' side n := by
  obtain ⟨order, horder⟩ := exists_topologicalOrder h.wellFormed h.acyclic
  obtain ⟨hperm, hord⟩ := topologicalOrder_spec h.wellFormed horder
  rw [reify, horder, Outcome.mapError_ok, Outcome.ok_bind, Outcome.mapError_eq_ok_iff] at hok
  have hnone : labels d.graph = [] :=
    List.filterMap_eq_nil_iff.2 fun e he => by rw [label?, hpin e he]; rfl
  have hvisited : Visited d [] order :=
    ⟨by simp, fun u v o hc hu => absurd (hperm.symm.subset (h.wellFormed.step_mem hc.step).1) hu⟩
  have hpinned : Pinned d order d.graph :=
    ⟨by simp [hnone], fun n hn hno => absurd (hperm.symm.subset hn) hno⟩
  have hdone := Outcome.foldlM_rest (b := (d.graph, s)) (I := fun rest p =>
    rest.Nodup ∧ (∀ n ∈ rest, n ∈ d.graph.nodeIds) ∧ d.graph.Ordered rest ∧
      (∃ L, Stage d L p.1 p.2 ∧ Named L p.1 ∧ Visited d L rest) ∧ Pinned d rest p.1)
    (fun n rest p p' => ?_)
    ⟨hperm.symm.nodup h.wellFormed.nodes_nodup, hperm.subset, hord,
      ⟨[], .start h, by simp [Named], hvisited⟩, hpinned⟩ hok
  · exact fun n hn side => hdone.2.2.2.2.spelled n hn List.not_mem_nil side
  · rintro ⟨hnodup, hmem, hord, ⟨L, hs, hn, hv⟩, hp⟩ hok
    rw [List.nodup_cons] at hnodup
    have ha := hmem n List.mem_cons_self
    have hsub := fun m hm => hmem m (List.mem_cons_of_mem n hm)
    have hback : ∀ m, d.graph.Step m n → m ∉ n :: rest := by
      intro m hstep hm
      rcases List.mem_cons.1 hm with rfl | hm
      · exact h.acyclic _ hstep.reaches
      · exact hnodup.1 (hord.2.step_mem hm hstep)
    exact ⟨hnodup.2, hsub, hord.2, hs.visit hd hn ha hnodup.1 hv hok,
      hs.visit_pinned hd hone hn ha hnodup.1 hsub hback hv hp hok⟩

end ObjectFlow.Annotated.Draft
