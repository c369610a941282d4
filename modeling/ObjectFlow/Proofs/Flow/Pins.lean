import ObjectFlow.Proofs.Flow.Writers
import ObjectFlow.Proofs.Trace.Slot

/-!
# References and the pins that they join

A reference is led from pin to pin by the values of an event, while a pin finds its value again by
its name. The two agree where no name of an argument can be taken for that of a part, of a result or
of another argument that has changed (`absorb_joined`); a name with a point is such a name
(`pointed_argument_unjoined`).

What is shown of an edge concerns both of its ends. The call at its source has an output pin of the
name that the edge bears, and the pin has the object of the edge. The call at its target has an
input pin with the object, or one without an object, of an argument that is a container and holds
it. Which argument that was is not kept in the graph, so the history is asked for it: `Call.Holds`
speaks of the call that began at this very node.

## Outline

1. *Names.* An output pin is named after what comes out: the result, a member of it, or an argument
   with a mark behind (`stem`). Under `Plain` the names of the pins of one call are distinct, and
   each is found again by its stem (`exchanged?_produced`), so that a pin out of which an object
   comes has that object (`Plain.departure_gives`).
2. *Pages.* `Joined` holds of a graph when every edge agrees with the pins of the calls at its ends.
   Only a change of a call can disturb it (`Joined.adjustCall`). A call that begins brings its input
   pins with it (`Page.Sound.joined_enter`). One that ends puts in its output pins first and then
   produces one object after the other (`Page.Sound.joined_conclude`); between the two steps the
   call is `Ready` for what is still to come.
3. *Tapes.* Putting in output pins must replace no input pin. For this the invariant also says that
   an open call has just the pins of its arguments (`Tape.Joined.opened`), and a return must carry
   the same arguments as its call (`Faithful`).
4. *Runs.* One event keeps all this (`Recorder.joined_push`), whether it is recorded or refused, and
   so does a run of events (`Recorder.joined_absorb`).
-/

namespace ObjectFlow

namespace Flow

/-- Names of arguments that stand for nothing else. -/
structure Plain (arguments : Table String Snapshot) : Prop where
  distinct : (Table.keys arguments).Nodup
  no_point : ∀ x ∈ Table.keys arguments, '.' ∉ x.toList
  no_result : resultPin ∉ Table.keys arguments
  no_change : ∀ x ∈ Table.keys arguments, changedPin x ∉ Table.keys arguments

/-! ## Names of pins

A mark is put behind the name of an argument that has changed, and a member of the result is named
with a point and its position. So no output pin has a stem in common with another one, unless an
argument is named like one of these. -/

/-- The name that a pin was named after. -/
def stem (pin : String) : String :=
  if pin.toList.getLast? = some '!' then String.ofList pin.toList.dropLast else pin

theorem toList_changedPin (x : String) : (changedPin x).toList = x.toList ++ ['!'] := by
  simp [changedPin]

theorem toList_memberPin (i : Nat) :
    (memberPin i).toList = resultPin.toList ++ '.' :: (toString i).toList := by
  simp [memberPin]

theorem stem_changedPin (x : String) : stem (changedPin x) = x := by
  simp [stem, toList_changedPin]

theorem stem_eq_self {pin : String} (h : '!' ∉ pin.toList) : stem pin = pin :=
  if_neg fun hlast => h (List.mem_of_getLast? hlast)

theorem stem_resultPin : stem resultPin = resultPin := stem_eq_self (by decide)

theorem stem_memberPin (i : Nat) : stem (memberPin i) = memberPin i := by
  refine stem_eq_self ?_
  rw [toList_memberPin, List.mem_append, List.mem_cons]
  rintro (h | h | h)
  · exact absurd h (by decide)
  · exact absurd h (by decide)
  · exact absurd (Text.isDigit_of_mem_toString h) (by decide)

variable {r : Completion} {note : Option Note}

/-- What a pin was named after is told by its name. -/
theorem stem_of_mem_outputNames {n : String × String} (h : n ∈ outputNames r note) :
    stem n.2 = n.1 := by
  rcases List.mem_append.1 h with h | h
  · split at h
    · obtain ⟨i, -, rfl⟩ := List.mem_map.1 h
      exact stem_memberPin i
    · cases h
    · obtain rfl := List.mem_singleton.1 h
      exact stem_resultPin
  · obtain ⟨x, -, rfl⟩ := List.mem_map.1 h
    exact stem_changedPin x

/-- No pin for what comes out has the name of an argument. -/
theorem Plain.not_mem_outputNames (h : Plain r.call.arguments) {x : String}
    (hx : x ∈ Table.keys r.call.arguments) : x ∉ (outputNames r note).map Prod.snd := by
  intro hmem
  obtain ⟨n, hn, rfl⟩ := List.mem_map.1 hmem
  rcases List.mem_append.1 hn with hn | hn
  · split at hn
    · obtain ⟨i, -, rfl⟩ := List.mem_map.1 hn
      refine h.no_point _ hx ?_
      rw [toList_memberPin]
      exact List.mem_append_right _ List.mem_cons_self
    · cases hn
    · obtain rfl := List.mem_singleton.1 hn
      exact h.no_result hx
  · obtain ⟨y, hy, rfl⟩ := List.mem_map.1 hn
    exact h.no_change y (List.mem_of_mem_filter hy) hx

/-! ## What the names stand for

A name is looked up among what was exchanged: the result stands under its own name, an argument
under its name, and a part under a path. A position is read as a number of 64 bits with a sign,
which is where `Countable` comes from. -/

/-- The result is found under its name. -/
theorem exchanged?_result (r : Completion) : exchanged? r resultPin = some r.value := by
  have hcut : Text.cut '.' resultPin = (resultPin, none) := Text.cut_of_not_mem (by decide)
  simp [exchanged?, hcut]

/-- An argument is found under its name. -/
theorem exchanged?_argument (h : Plain r.call.arguments) {x : String} {v : Snapshot}
    (hx : (x, v) ∈ r.call.arguments) : exchanged? r x = some v := by
  have hkey : x ∈ Table.keys r.call.arguments := Table.mem_keys.2 ⟨v, hx⟩
  have hcut : Text.cut '.' x = (x, none) := Text.cut_of_not_mem (h.no_point x hkey)
  have hne : x ≠ resultPin := fun heq => h.no_result (heq ▸ hkey)
  simp [exchanged?, hcut, hne, Table.at?_of_mem h.distinct hx]

/-- A position leads to the member of a tuple that is there. -/
theorem slot?_member {items : List Snapshot} {i : Nat} (hi : i < 2 ^ 63) :
    (Snapshot.tuple items).slot? (.path (toString i)) =
      items[i]?.bind Snapshot.unlessMethod := by
  obtain ⟨j, hj, hval⟩ := Text.int64?_toString hi
  have hitem : Snapshot.item? items j = items[i]? := by
    simp [Snapshot.item?, hval]
  rw [Snapshot.slot?_path_of_not_mem (Text.point_not_mem_of_int64? hj), Snapshot.part?, hj,
    Option.bind_some, hitem]

/-- A member of the result is found by its path. -/
theorem exchanged?_member {items : List Snapshot} (hr : r.value = .tuple items) {i : Nat}
    (hi : i < 2 ^ 63) :
    exchanged? r (memberPin i) = items[i]?.bind Snapshot.unlessMethod := by
  have hcut : Text.cut '.' (memberPin i) = (resultPin, some (toString i)) :=
    Text.cut_of_toList_eq (by decide) (toList_memberPin i)
  simp only [exchanged?, hcut, if_true, hr, Option.bind_some]
  exact slot?_member hi

/-- A tuple that is no longer than a position can tell. -/
def Countable (v : Snapshot) : Prop := ∀ items, v = .tuple items → items.length ≤ 2 ^ 63

/-- What is produced at a pin is found again by the name of the pin. -/
theorem exchanged?_produced (h : Plain r.call.arguments) (hv : Countable r.value)
    {p : String × TrackedObject} (hp : p ∈ produced r note) :
    p.1 ∈ (outputNames r note).map Prod.snd ∧
      (exchanged? r (stem p.1)).bind Snapshot.objectId? = some p.2.id := by
  obtain ⟨pin, o⟩ := p
  rcases mem_produced.1 hp with ⟨hvalue, rfl⟩ | ⟨items, i, hr, hat, rfl⟩ | ⟨x, hx, hpure, rfl⟩
  · rw [stem_resultPin, exchanged?_result, outputNames, hvalue]
    exact ⟨List.mem_cons_self, rfl⟩
  · have hlt : i < items.length := (List.getElem?_eq_some_iff.1 hat).1
    rw [stem_memberPin, exchanged?_member hr (Nat.lt_of_lt_of_le hlt (hv items hr)), hat]
    refine ⟨?_, rfl⟩
    rw [outputNames, hr, List.map_append, List.map_map]
    exact List.mem_append_left _ (List.mem_map.2 ⟨i, List.mem_range.2 hlt, rfl⟩)
  · rw [stem_changedPin, exchanged?_argument h hx]
    refine ⟨List.mem_map.2 ⟨(x, changedPin x), List.mem_append_right _ ?_, rfl⟩, rfl⟩
    exact List.mem_map.2 ⟨x, List.mem_filter.2 ⟨List.mem_map.2 ⟨_, hx, rfl⟩, by rw [hpure]; rfl⟩,
      rfl⟩

variable {σ : Type} {a : Annotator σ} {settings : Settings} {state : σ}

/-- A pin that an object comes out of has that object. -/
theorem Plain.departure_gives (h : Plain r.call.arguments) (hv : Countable r.value)
    {q : Production} (hq : q ∈ (departure a settings r state).1.productions) :
    q.pin ∈ Table.keys (departure a settings r state).1.pins ∧
      ∀ pin, (q.pin, pin) ∈ (departure a settings r state).1.pins →
        pin.side = .output ∧ pin.id = some q.object := by
  obtain ⟨p, hp, hpin, hobject⟩ := mem_departure_productions hq
  obtain ⟨hmem, hid⟩ := exchanged?_produced h hv hp
  refine ⟨?_, fun pin hpin' => ?_⟩
  · rw [keys_departure_pins, hpin]
    exact hmem
  · obtain ⟨x, hx, hside, hval⟩ := mem_departure_pins hpin'
    have hstem : stem q.pin = x := stem_of_mem_outputNames hx
    rw [hpin] at hstem
    exact ⟨hside, by rw [hval, ← hstem, hid, hobject]⟩

/-! ## Pins at the ends of references

An edge from the input marker has no pin at its source, and one to the output marker none at its
target, so the statements are about calls only. -/

/-- The reference leaves by an output pin that has its object. -/
def Call.Gives (c : Call) (l : Link) : Prop :=
  ∃ x pin, l.sourcePin = some x ∧ Table.at? c.pins x = some pin ∧ pin.side = .output ∧
    pin.id = l.object.id

/-- The call that began at the node has an argument that is a container and holds an object. -/
def Call.Holds (past : List Happening) (n : NodeId) (c : Call) (x : String) (o : Option ObjectId) :
    Prop :=
  ∃ h i v, .began h n i ∈ past ∧ i.function.module = c.module ∧
    i.function.qualifiedName = c.qualifiedName ∧ (x, v) ∈ i.arguments ∧ v.objectId? = none ∧
    ∃ u ∈ v.heldObjects, some u.id = o

/--
The reference enters the call at the node by an input pin that has its object, or a container that
holds it.
-/
def Call.Takes (past : List Happening) (n : NodeId) (c : Call) (l : Link) : Prop :=
  ∃ x pin, l.targetPin = some x ∧ Table.at? c.pins x = some pin ∧ pin.side = .input ∧
    (pin.id = l.object.id ∨ pin.id = none ∧ c.Holds past n x l.object.id)

/-- Every reference agrees with the pins at its ends; a marker has none. -/
structure Joined (past : List Happening) (f : Flow) : Prop where
  gives : ∀ e ∈ f.graph.edges, ∀ c, (e.source, c) ∈ f.calls → c.Gives e.data
  takes : ∀ e ∈ f.graph.edges, ∀ c, (e.target, c) ∈ f.calls → c.Takes past e.target e.data

variable {past : List Happening} {f : Flow}

/-- A graph without calls and edges is joined. -/
theorem joined_empty (s : Supply) : (Flow.empty s).1.Joined past :=
  ⟨fun e he => (by cases he), fun e he => (by cases he)⟩

/-- A graph stays joined when calls or edges go. -/
theorem Joined.of_subset (h : f.Joined past) {f' : Flow}
    (he : f'.graph.edges ⊆ f.graph.edges) (hc : f'.calls ⊆ f.calls) : f'.Joined past :=
  ⟨fun e hm c hcall => h.gives e (he hm) c (hc hcall),
    fun e hm c hcall => h.takes e (he hm) c (hc hcall)⟩

/-- A change of one call leaves the others. -/
theorem Framed.mem_calls_adjustCall (h : f.Framed) {n m : NodeId} {g : Call → Call} {c : Call}
    (hc : (m, c) ∈ (f.adjustCall n g).calls) :
    m ≠ n ∧ (m, c) ∈ f.calls ∨ m = n ∧ ∃ c', (n, c') ∈ f.calls ∧ c = g c' := by
  rw [h.calls_adjustCall, Table.adjust_eq_map g n h.calls_nodup] at hc
  obtain ⟨⟨m', c'⟩, hmem, heq⟩ := List.mem_map.1 hc
  by_cases hm : m' = n
  · rw [if_pos hm] at heq
    cases heq
    exact .inr ⟨hm, c', hm ▸ hmem, rfl⟩
  · rw [if_neg hm] at heq
    cases heq
    exact .inl ⟨hm, hmem⟩

/-- A change of a call under which the references at it still agree with its pins. -/
theorem Joined.adjustCall (h : f.Joined past) (hf : f.Framed) {n : NodeId} {g : Call → Call}
    (hgives : ∀ c, (n, c) ∈ f.calls → ∀ e ∈ f.graph.edges, e.source = n → c.Gives e.data →
      (g c).Gives e.data)
    (htakes : ∀ c, (n, c) ∈ f.calls → ∀ e ∈ f.graph.edges, e.target = n → c.Takes past n e.data →
      (g c).Takes past n e.data) : (f.adjustCall n g).Joined past := by
  refine ⟨fun e he c hc => ?_, fun e he c hc => ?_⟩
  · rcases hf.mem_calls_adjustCall hc with ⟨-, hc⟩ | ⟨hs, c', hc', rfl⟩
    · exact h.gives e he c hc
    · exact hgives c' hc' e he hs (h.gives e he c' (hs ▸ hc'))
  · rcases hf.mem_calls_adjustCall hc with ⟨-, hc⟩ | ⟨ht, c', hc', rfl⟩
    · exact h.takes e he c hc
    · subst ht
      exact htakes c' hc' e he rfl (h.takes e he c' hc')

end Flow

namespace Page

open ObjectFlow.Flow

variable {σ : Type} {a : Annotator σ} {settings : Settings} {state : σ} {past : List Happening}
  {p : Page} {s : Supply}

/-! ## A call begins

The edges that arrive at the new call leave its producers, of which the page knows that they have a
pin with the object. -/

/-- A producer has an output pin with the object that it produced. -/
theorem Sound.producer_gives (h : p.Sound) (hj : p.flow.Joined past) {o : ObjectId}
    {q : Producer} (hq : Table.at? p.producers o = some q) {c : Call}
    (hc : (q.node, c) ∈ p.flow.calls) {l : Link} (hpin : l.sourcePin = some q.pin)
    (ho : l.object.id = some o) : c.Gives l := by
  obtain ⟨e, he, -, hs, -, hobject, hp⟩ := (h.producers_iff o q).1 hq
  obtain ⟨x, pin, hx, hat, hside, hid⟩ := hj.gives e he c (hs ▸ hc)
  exact ⟨x, pin, hpin.trans (hp.symm.trans hx), hat, hside, hid.trans (hobject.trans ho.symm)⟩

/-- An object that arrives finds the pin of the argument that it is or that holds it. -/
theorem opening_takes {h : Handle} {n : NodeId} {c : Invocation} (hc : .began h n c ∈ past)
    (hplain : Plain c.arguments) {x : Arrival}
    (hx : x ∈ (entrance a settings c state).1.arrivals) (body : Option Handle)
    {l : Link} (ho : l.object.id = some x.object) (hpin : l.targetPin = some x.argument) :
    (opening c (entrance a settings c state).1 body).Takes past n l := by
  obtain ⟨v, hv, hvalue⟩ := mem_entrance_arrivals hx
  have hkeys := keys_entrance_pins a settings c state
  obtain ⟨pin, hmem⟩ : ∃ pin, (x.argument, pin) ∈ (entrance a settings c state).1.pins :=
    Table.mem_keys.1 (hkeys ▸ Table.mem_keys.2 ⟨v, hv⟩)
  obtain ⟨v', hv', hside, hid⟩ := mem_entrance_pins hmem
  obtain rfl : v = v' := Option.some.inj
    ((Table.at?_of_mem hplain.distinct hv).symm.trans (Table.at?_of_mem hplain.distinct hv'))
  refine ⟨x.argument, pin, hpin, Table.at?_of_mem (hkeys ▸ hplain.distinct) hmem, hside, ?_⟩
  rw [ho, hid]
  rcases hvalue with hvalue | ⟨hnone, hheld⟩
  · exact .inl hvalue
  · obtain ⟨u, hu, heq⟩ := List.mem_map.1 hheld
    exact .inr ⟨hnone, h, c, v, hc, rfl, rfl, hv, hnone, u, hu, congrArg some heq⟩

/-- The call that begins is joined to what it takes in. -/
theorem Sound.joined_enter (h : p.Sound) (hb : p.flow.graph.Before s) (hj : p.flow.Joined past)
    {scope : Handle} {c : Invocation} (hc : .began scope s.node.1 c ∈ past)
    (hplain : Plain c.arguments) (body : Option Handle) :
    (p.enter c (entrance a settings c state).1 body s).1.flow.Joined past := by
  have hnew : s.node.1 ∉ p.flow.graph.nodeIds := hb.next_not_mem_nodes
  have hold : ∀ n d, n ∈ p.flow.graph.nodeIds →
      (n, d) ∈ (p.enter c (entrance a settings c state).1 body s).1.flow.calls →
      (n, d) ∈ p.flow.calls := by
    intro n d hn hd
    rw [calls_enter] at hd
    rcases List.mem_append.1 hd with hd | hd
    · exact hd
    · cases List.mem_singleton.1 hd
      exact absurd hn hnew
  refine ⟨fun e he d hd => ?_, fun e he d hd => ?_⟩
  · rcases List.mem_append.1 he with he | he
    · exact hj.gives e he d (hold _ _ (h.recorded.wellFormed.source_mem e he) hd)
    · obtain ⟨-, -, x, hx, ho, hobject, -⟩ := mem_arrivalEdges he
      have hd := hold _ _ (h.rooted.origin_mem ho) hd
      have hid : e.data.object.id = some x.object := by
        rw [hobject, entrance_identified a settings c state x hx]
      unfold origin? at ho
      split at ho
      · rename_i q hq
        obtain ⟨hnode, hpin⟩ := Prod.mk.inj (Option.some.inj ho)
        exact h.producer_gives hj hq (hnode ▸ hd) hpin.symm hid
      · split at ho
        · cases ho
        · obtain ⟨hnode, -⟩ := Prod.mk.inj (Option.some.inj ho)
          exact absurd (hnode ▸ Table.mem_keys.2 ⟨d, hd⟩) h.recorded.input_not_mem
  · rcases List.mem_append.1 he with he | he
    · exact hj.takes e he d (hold _ _ (h.recorded.wellFormed.target_mem e he) hd)
    · obtain ⟨-, ht, x, hx, -, hobject, hpin⟩ := mem_arrivalEdges he
      rw [calls_enter, ht] at hd
      rcases List.mem_append.1 hd with hd | hd
      · exact absurd (mem_nodeIds_of_mem_calls hd) hnew
      · obtain rfl := (Prod.mk.inj (List.mem_singleton.1 hd)).2
        rw [ht]
        refine opening_takes hc hplain hx body ?_ hpin
        rw [hobject, entrance_identified a settings c state x hx]

/-! ## A call ends

The output pins are put in first. Then objects are produced one at a time, each with an edge to the
output marker and a change to the slots that are noted at its pin, which leaves the pin's side and
object. -/

/-- Noting the slots of a pin leaves its side and its object. -/
theorem at?_noteSlots {q : Production} {c : Call} {x : String} {pin : Pin}
    (h : Table.at? c.pins x = some pin) :
    ∃ pin', Table.at? (noteSlots q c).pins x = some pin' ∧ pin'.side = pin.side ∧
      pin'.id = pin.id := by
  unfold noteSlots
  split
  · exact ⟨pin, h, rfl, rfl⟩
  · rw [Table.at?_adjust]
    split
    · exact ⟨_, congrArg (Option.map _) h, rfl, rfl⟩
    · exact ⟨pin, h, rfl, rfl⟩

/-- What a call gives it still gives when slots have been noted. -/
theorem gives_noteSlots {q : Production} {c : Call} {l : Link} (h : c.Gives l) :
    (noteSlots q c).Gives l := by
  obtain ⟨x, pin, hx, hat, hside, hid⟩ := h
  obtain ⟨pin', hat', hside', hid'⟩ := at?_noteSlots (q := q) hat
  exact ⟨x, pin', hx, hat', hside'.trans hside, hid'.trans hid⟩

/-- What a call takes it still takes when slots have been noted. -/
theorem takes_noteSlots {q : Production} {n : NodeId} {c : Call} {l : Link}
    (h : c.Takes past n l) : (noteSlots q c).Takes past n l := by
  obtain ⟨x, pin, hx, hat, hside, hid⟩ := h
  obtain ⟨pin', hat', hside', hid'⟩ := at?_noteSlots (q := q) hat
  refine ⟨x, pin', hx, hat', hside'.trans hside, ?_⟩
  rw [hid']
  refine hid.imp_right (And.imp_right ?_)
  unfold Call.Holds noteSlots
  split <;> exact id

/-- The call at a node has a pin with the object for every one of the productions. -/
def Ready (p : Page) (n : NodeId) (qs : List Production) : Prop :=
  ∀ q ∈ qs, ∀ c, (n, c) ∈ p.flow.calls → c.Gives ⟨q.reference, some q.pin, none⟩

/-- An object that comes out by a pin of its own keeps the graph joined. -/
theorem Sound.joined_produce (h : p.Sound) (hb : p.flow.graph.Before s)
    (hj : p.flow.Joined past) {n : NodeId} (hn : n ∈ Table.keys p.flow.calls) {q : Production}
    (hq : q.reference.id = some q.object) (hready : p.Ready n [q]) :
    (p.produce n s.edge.1 q).flow.Joined past := by
  have hclaim : (p.claim n s.edge.1 q).flow.Joined past := by
    refine ⟨fun e he c hc => ?_, fun e he c hc => ?_⟩ <;> rw [calls_claim] at hc <;>
      rcases List.mem_append.1 he with he | he
    · exact hj.gives e (h.mem_released_iff.1 he).1 c hc
    · obtain rfl := List.mem_singleton.1 he
      exact hready q List.mem_cons_self c hc
    · exact hj.takes e (h.mem_released_iff.1 he).1 c hc
    · obtain rfl := List.mem_singleton.1 he
      exact absurd (Table.mem_keys.2 ⟨c, hc⟩) h.recorded.output_not_mem
  exact hclaim.adjustCall (h.claim hb hn hq).recorded.toFramed
    (fun c _ e _ _ hg => gives_noteSlots hg) fun c _ e _ _ ht => takes_noteSlots ht

/-- An object that comes out changes no call but its own, and that one in its slots only. -/
theorem Sound.mem_calls_produce (h : p.Sound) (hb : p.flow.graph.Before s) {n : NodeId}
    (hn : n ∈ Table.keys p.flow.calls) {q : Production} (hq : q.reference.id = some q.object)
    {m : NodeId} {c : Call} (hc : (m, c) ∈ (p.produce n s.edge.1 q).flow.calls) :
    m ≠ n ∧ (m, c) ∈ p.flow.calls ∨ m = n ∧ ∃ c', (n, c') ∈ p.flow.calls ∧ c = noteSlots q c' := by
  rw [← p.calls_claim n s.edge.1 q]
  exact (h.claim hb hn hq).recorded.toFramed.mem_calls_adjustCall hc

/-- The productions of one call keep the references joined and leave all other calls. -/
theorem Sound.joined_produceAll (h : p.Sound) (hb : p.flow.graph.Before s)
    (hj : p.flow.Joined past) {n : NodeId} (hn : n ∈ Table.keys p.flow.calls)
    {qs : List Production} (hq : ∀ q ∈ qs, q.reference.id = some q.object)
    (hready : p.Ready n qs) :
    (p.produceAll n s qs).1.flow.Joined past ∧
      ∀ m ≠ n, ∀ c, (m, c) ∈ (p.produceAll n s qs).1.flow.calls → (m, c) ∈ p.flow.calls := by
  induction qs generalizing p s with
  | nil => exact ⟨hj, fun _ _ _ hc => hc⟩
  | cons q qs ih =>
    have hq₁ := hq q List.mem_cons_self
    have hstep := h.produce_follows hb hn hq₁
    have hj₁ := h.joined_produce hb hj hn hq₁ fun q' hq' =>
      (List.mem_singleton.1 hq') ▸ hready q List.mem_cons_self
    have hready₁ : (p.produce n s.edge.1 q).Ready n qs := by
      intro q' hq' c hc
      rcases h.mem_calls_produce hb hn hq₁ hc with ⟨hne, -⟩ | ⟨-, c', hc', rfl⟩
      · exact absurd rfl hne
      · exact gives_noteSlots (hready q' (List.mem_cons_of_mem _ hq') c' hc')
    obtain ⟨hall, hrest⟩ := ih hstep.sound hstep.before hj₁ ((h.mem_keys_produce hb hn hq₁ n).2 hn)
      (fun q' hq' => hq q' (List.mem_cons_of_mem _ hq')) hready₁
    refine ⟨hall, fun m hne c hc => ?_⟩
    rcases h.mem_calls_produce hb hn hq₁ (hrest m hne c hc) with ⟨-, hc⟩ | ⟨heq, -⟩
    · exact hc
    · exact absurd heq hne

theorem nameSlot_pins (e : Completion) (c : Call) : (nameSlot e c).pins = c.pins := by
  unfold nameSlot
  split <;> rfl

theorem Sound.joined_nameSlot (h : p.Sound) (hj : p.flow.Joined past) (n : NodeId)
    (e : Completion) : (p.adjustCall n (nameSlot e)).flow.Joined past := by
  refine hj.adjustCall h.recorded.toFramed (fun c _ e' _ _ hg => ?_) fun c _ e' _ _ ht => ?_
  · obtain ⟨x, pin, hx, hat, hrest⟩ := hg
    exact ⟨x, pin, hx, (nameSlot_pins e c).symm ▸ hat, hrest⟩
  · obtain ⟨x, pin, hx, hat, hside, hid⟩ := ht
    refine ⟨x, pin, hx, (nameSlot_pins e c).symm ▸ hat, hside, ?_⟩
    refine hid.imp_right (And.imp_right ?_)
    unfold nameSlot
    split <;> exact id

/-- Puts in the pins for what comes out of a call. -/
def putPins (d : Departure) (c : Call) : Call := { c with pins := Table.putAll c.pins d.pins }

/-- The page when the pins for what comes out of a call have been put in. -/
theorem Sound.joined_pins (h : p.Sound) (hj : p.flow.Joined past) {n : NodeId}
    (hn : p.flow.Pending n) {e : Completion} (hplain : Plain e.call.arguments)
    (hkeys : ∀ c, (n, c) ∈ p.flow.calls → Table.keys c.pins = Table.keys e.call.arguments) :
    (p.adjustCall n (putPins (departure a settings e state).1)).flow.Joined past := by
  refine hj.adjustCall h.recorded.toFramed (fun c _ e' he' hs _ => absurd hs (hn.2 e' he')) ?_
  rintro c hc e' - - ⟨x, pin, hx, hat, hside, hid⟩
  refine ⟨x, pin, hx, ?_, hside, hid⟩
  have harg : x ∈ Table.keys e.call.arguments :=
    hkeys c hc ▸ Table.mem_keys.2 ⟨pin, Table.mem_of_at? hat⟩
  have hnone : ((departure a settings e state).1.pins.filter fun k => k.1 = x) = [] := by
    rw [List.filter_eq_nil_iff]
    rintro k hk hkx
    have hout : x ∉ (outputNames e (a.function e.call.function state).1).map Prod.snd :=
      hplain.not_mem_outputNames harg
    rw [← keys_departure_pins a settings e state] at hout
    exact hout (of_decide_eq_true hkx ▸ List.mem_map_of_mem hk)
  rw [putPins, Table.at?_putAll, hnone]
  exact hat

/-- When its pins have been put in, a call is ready to produce what comes out of it. -/
theorem Sound.ready_pins (h : p.Sound) {n : NodeId} {e : Completion}
    (hplain : Plain e.call.arguments) (hv : Countable e.value) :
    (p.adjustCall n (putPins (departure a settings e state).1)).Ready n
        (departure a settings e state).1.productions := by
  intro q hq c hc
  rcases h.recorded.toFramed.mem_calls_adjustCall hc with ⟨hne, -⟩ | ⟨-, c', -, rfl⟩
  · exact absurd rfl hne
  · obtain ⟨hmem, hpins⟩ := hplain.departure_gives hv hq
    obtain ⟨pin₀, hpin₀⟩ := Table.mem_keys.1 hmem
    have hne : ((departure a settings e state).1.pins.filter fun k => k.1 = q.pin) ≠ [] :=
      List.ne_nil_of_mem (List.mem_filter.2 ⟨hpin₀, by simp⟩)
    obtain ⟨hlast, hname⟩ := List.mem_filter.1 (List.getLast_mem hne)
    have hname := of_decide_eq_true hname
    obtain ⟨hside, hid⟩ := hpins _ (by rw [← hname]; exact hlast)
    refine ⟨q.pin, _, rfl, ?_, hside, hid.trans (departure_identified _ _ _ _ q hq).symm⟩
    rw [putPins, Table.at?_putAll, List.getLast?_eq_getLast_of_ne_nil hne]
    rfl

/-- The call that ends is joined to what comes out of it, and all other calls stay as they were. -/
theorem Sound.joined_conclude (h : p.Sound) (hb : p.flow.graph.Before s)
    (hj : p.flow.Joined past) {n : NodeId} (hn : p.flow.Pending n) {e : Completion}
    (hplain : Plain e.call.arguments) (hv : Countable e.value)
    (hkeys : ∀ c, (n, c) ∈ p.flow.calls → Table.keys c.pins = Table.keys e.call.arguments) :
    (p.conclude n s e (departure a settings e state).1).1.flow.Joined past ∧
      ∀ m ≠ n, ∀ c, (m, c) ∈ (p.conclude n s e (departure a settings e state).1).1.flow.calls →
        (m, c) ∈ p.flow.calls := by
  unfold conclude
  split
  · have hcalls : (p.withGraph (p.flow.graph.removeNode n)).flow.calls ⊆ p.flow.calls := by
      rintro ⟨m, c⟩ hc
      rw [show (p.withGraph (p.flow.graph.removeNode n)).flow.calls = _ from
        h.recorded.calls_removeNode hn.1] at hc
      exact List.mem_of_mem_filter hc
    exact ⟨hj.of_subset (fun e' he' => ((Graph.mem_edges_removeNode h.recorded.wellFormed).1 he').1)
      hcalls, fun m _ c hc => hcalls hc⟩
  · have hsound := h.adjustCall n (nameSlot e)
    have hname := h.joined_nameSlot hj n e
    have hkeys' : ∀ c, (n, c) ∈ (p.adjustCall n (nameSlot e)).flow.calls →
        Table.keys c.pins = Table.keys e.call.arguments := by
      intro c hc
      rcases h.recorded.toFramed.mem_calls_adjustCall hc with ⟨hne, -⟩ | ⟨-, c', hc', rfl⟩
      · exact absurd rfl hne
      · exact (nameSlot_pins e c').symm ▸ hkeys c' hc'
    have hpend := h.pending_adjustCall hn n (nameSlot e)
    have hput : ((p.adjustCall n (nameSlot e)).adjustCall n
        (putPins (departure a settings e state).1)).flow.Joined past :=
      hsound.joined_pins hname hpend hplain hkeys'
    obtain ⟨hall, hrest⟩ :=
      (hsound.adjustCall n _).joined_produceAll ((hb.adjustNode n _).adjustNode n _)
      hput
      (hsound.pending_adjustCall hpend n _).1 (departure_identified a settings e state)
      (hsound.ready_pins hplain hv)
    refine ⟨hall, fun m hne c hc => ?_⟩
    rcases hsound.recorded.toFramed.mem_calls_adjustCall (hrest m hne c hc) with ⟨-, hc⟩ | ⟨heq, -⟩
    · rcases h.recorded.toFramed.mem_calls_adjustCall hc with ⟨-, hc⟩ | ⟨heq, -⟩
      · exact hc
      · exact absurd heq hne
    · exact absurd heq hne

end Page

namespace Tape

/-- The references of all graphs are joined, and an open call has the pins of its arguments. -/
structure Joined (past : List Happening) (t : Tape) : Prop where
  flows : ∀ f ∈ t.recording.graphs, f.Joined past
  opened : ∀ x ∈ t.stack.map Frame.shape, Flow.Plain x.1.arguments ∧
    ∀ f ∈ t.recording.graphs, ∀ c, (x.2.1, c) ∈ f.calls →
      Table.keys c.pins = Table.keys x.1.arguments

variable {past : List Happening} {t : Tape}

theorem joined_empty (s : Supply) : (Tape.empty s).Joined past := by
  refine ⟨fun f hf => ?_, fun x hx => by cases hx⟩
  obtain rfl := List.mem_singleton.1 hf
  exact Flow.joined_empty s

/-- Another page in the place of that of the innermost scope. -/
theorem Joined.write (h : t.Joined past) {p p' : Page} (hp : t.page? = some p) {s' : Supply}
    (hj : p'.flow.Joined past)
    (hcalls : ∀ x ∈ t.stack.map Frame.shape, ∀ c, (x.2.1, c) ∈ p'.flow.calls →
      (x.2.1, c) ∈ p.flow.calls) : (t.write p' s').Joined past := by
  have hgraphs : ∀ f ∈ (t.write p' s').recording.graphs,
      f ∈ t.recording.graphs ∨ f = p'.flow := by
    intro f hf
    rw [recording_write] at hf
    exact List.mem_or_eq_of_mem_set hf
  refine ⟨fun f hf => ?_, fun x hx => ?_⟩
  · rcases hgraphs f hf with hf | rfl
    · exact h.flows f hf
    · exact hj
  · rw [map_shape_write] at hx
    obtain ⟨hplain, hkeys⟩ := h.opened x hx
    refine ⟨hplain, fun f hf c hc => ?_⟩
    rcases hgraphs f hf with hf | rfl
    · exact hkeys f hf c hc
    · exact hkeys p.flow (List.mem_of_getElem? (page?_eq_some_iff.1 hp).1) c (hcalls x hx c hc)

/-- A new body is joined to nothing. -/
theorem Joined.openBody (h : t.Joined past) (c : Invocation) :
    (t.openBody c).2.Joined past := by
  unfold Tape.openBody
  split
  · exact h
  · have hgraphs : ∀ f ∈ (t.recording.push (Flow.empty t.supply).1).2.graphs,
        f ∈ t.recording.graphs ∨ f = (Flow.empty t.supply).1 := by
      intro f hf
      simpa [Recording.push] using hf
    refine ⟨fun f hf => ?_, fun x hx => ?_⟩
    · rcases hgraphs f hf with hf | rfl
      · exact h.flows f hf
      · exact Flow.joined_empty t.supply
    · obtain ⟨hplain, hkeys⟩ := h.opened x hx
      refine ⟨hplain, fun f hf c hc => ?_⟩
      rcases hgraphs f hf with hf | rfl
      · exact hkeys f hf c hc
      · cases hc

/-- What the recording of a call does to the open calls. -/
theorem map_shape_entered (t : Tape) (p : Page) (c : Invocation) (e : Flow.Entrance) :
    (t.entered p c e).stack.map Frame.shape =
      (c, (t.openBody c).2.supply.node.1, (t.openBody c).1) :: t.stack.map Frame.shape := by
  have hstack : (t.openBody c).2.stack = t.stack := by
    unfold openBody
    split <;> rfl
  unfold entered
  dsimp only
  rw [stacked, List.map_cons, map_shape_write, hstack]
  cases hb : (t.openBody c).1 <;> simp [Frame.shape]

theorem Valid.node_lt {t : Tape} (h : t.Valid) {x : Invocation × NodeId × Option Handle}
    (hx : x ∈ t.stack.map Frame.shape) : x.2.1.value < t.supply.next := by
  obtain ⟨frame, hframe, rfl⟩ := List.mem_map.1 hx
  have hnode : frame.node ∈ t.seats.map Prod.snd := t.map_node_seats ▸ List.mem_map_of_mem hframe
  obtain ⟨y, hy, heq⟩ := List.mem_map.1 hnode
  obtain ⟨f, hf, hpend⟩ := h.seated y hy
  have hlt := (h.kept.before _ f hf).node_lt _ ((h.kept.recorded _ f hf).mem_of_call hpend.1)
  rw [heq] at hlt
  exact hlt

/-- A call that is opened has the pins of its arguments. -/
theorem Joined.stacked (h : t.Joined past) {c : Invocation} (hplain : Flow.Plain c.arguments)
    {n : NodeId} (hn : ∀ f ∈ t.recording.graphs, ∀ d, (n, d) ∈ f.calls →
      Table.keys d.pins = Table.keys c.arguments) (body : Option Handle) :
    (t.stacked c n body).Joined past := by
  refine ⟨h.flows, fun x hx => ?_⟩
  rcases List.mem_cons.1 hx with rfl | hx
  · exact ⟨hplain, hn⟩
  · exact h.opened x hx

variable {σ : Type} {a : Annotator σ} {settings : Settings} {state : σ}

/-- A call that is recorded keeps the tape joined. -/
theorem Joined.entered (h : t.Joined past) (ht : t.Valid) {p : Page} (hp : t.page? = some p)
    {scope : Handle} {c : Invocation}
    (hc : .began scope (t.openBody c).2.supply.node.1 c ∈ past) (hplain : Flow.Plain c.arguments) :
    (t.entered p c (Flow.entrance a settings c state).1).Joined past := by
  have h₁ := h.openBody c
  have ht₁ := ht.openBody c
  have hp₁ := page?_openBody hp c
  unfold Tape.entered
  generalize t.openBody c = o at h₁ ht₁ hp₁ hc
  obtain ⟨body, t₁⟩ := o
  dsimp only at h₁ ht₁ hp₁ hc ⊢
  obtain ⟨hsound, hb⟩ := ht₁.sound hp₁
  have hj : p.flow.Joined past :=
    h₁.flows _ (List.mem_of_getElem? (page?_eq_some_iff.1 hp₁).1)
  have hold : ∀ f ∈ t₁.recording.graphs, ∀ d, (t₁.supply.node.1, d) ∉ f.calls := by
    intro f hf d hd
    obtain ⟨i, hi⟩ := List.mem_iff_getElem?.1 hf
    exact (ht₁.kept.before i f hi).next_not_mem_nodes (Flow.mem_nodeIds_of_mem_calls hd)
  refine Joined.stacked ?_ hplain (fun f hf d hd => ?_) body
  · refine h₁.write hp₁ (hsound.joined_enter hb hj hc hplain body) fun x hx d hd => ?_
    rw [Page.calls_enter] at hd
    rcases List.mem_append.1 hd with hd | hd
    · exact hd
    · have hlt := ht₁.node_lt hx
      rw [(Prod.mk.inj (List.mem_singleton.1 hd)).1] at hlt
      exact absurd hlt (Nat.lt_irrefl _)
  · rw [recording_write] at hf
    rcases List.mem_or_eq_of_mem_set hf with hf | rfl
    · exact absurd hd (hold f hf d)
    · rw [Page.calls_enter] at hd
      rcases List.mem_append.1 hd with hd | hd
      · exact absurd hd
          (hold p.flow (List.mem_of_getElem? (page?_eq_some_iff.1 hp₁).1) d)
      · obtain rfl := (Prod.mk.inj (List.mem_singleton.1 hd)).2
        exact Flow.keys_entrance_pins a settings c state

/-- A frame may go from the stack. -/
theorem Joined.unstacked (h : t.Joined past) {frame : Frame} {rest : List Frame}
    (hs : t.stack = frame :: rest) : ({ t with stack := rest } : Tape).Joined past :=
  ⟨h.flows, fun x hx => h.opened x (by rw [hs]; exact List.mem_cons_of_mem _ hx)⟩

/-- The innermost call ends with the arguments with which it began. -/
theorem Joined.concluded (h : t.Joined past) (ht : t.Valid) {frame : Frame} {rest : List Frame}
    (hs : t.stack = frame :: rest) {p : Page}
    (hp : ({ t with stack := rest } : Tape).page? = some p) (hn : p.flow.Pending frame.node)
    (hseat : frame.node ∉ ({ t with stack := rest } : Tape).seats.map Prod.snd) {e : Completion}
    (hargs : e.call.arguments = frame.event.arguments) (hv : Flow.Countable e.value) :
    (({ t with stack := rest } : Tape).write
      (p.conclude frame.node t.supply e (Flow.departure a settings e state).1).1
      (p.conclude frame.node t.supply e (Flow.departure a settings e state).1).2).Joined
        past := by
  have hrest := h.unstacked hs
  have hflow := List.mem_of_getElem? (page?_eq_some_iff.1 hp).1
  obtain ⟨hsound, hb⟩ := (ht.unstacked hs).sound hp
  obtain ⟨hplain, hkeys⟩ := h.opened frame.shape (by rw [hs]; exact List.mem_cons_self)
  obtain ⟨hj, hcalls⟩ := hsound.joined_conclude (a := a) (s := t.supply) hb
    (hrest.flows p.flow hflow) hn
    (hargs ▸ hplain) hv fun c hc => hargs ▸ hkeys p.flow hflow c hc
  refine hrest.write hp hj fun x hx c hc => hcalls x.2.1 (fun heq => ?_) c hc
  rw [map_node_seats] at hseat
  obtain ⟨f, hf, rfl⟩ := List.mem_map.1 hx
  exact hseat (heq ▸ List.mem_map_of_mem hf)

end Tape

/-- Every return carries the arguments of the call that it ends; some calls are open already. -/
def Faithful : List Invocation → List Event → Prop
  | _, [] => True
  | opened, .call c :: rest => Faithful (c :: opened) rest
  | [], .ret _ :: rest => Faithful [] rest
  | c :: opened, .ret r :: rest =>
    (c.fullName = r.call.fullName → r.call.arguments = c.arguments) ∧ Faithful opened rest

namespace Recorder

variable {σ : Type} {r : Recorder σ} {events : List Event} {past : List Happening}

/-- The calls that are open, innermost first. -/
def opened (r : Recorder σ) : List Invocation := (r.tape.stack.map Frame.shape).map Prod.fst

/-- One event keeps the references joined, if a return carries the arguments of its call. -/
theorem joined_push (h : r.tape.Valid) (hj : r.tape.Joined past) {e : Event} (he : e ∈ events)
    (hpast : (r.happening? e).toList ⊆ past)
    {later : List Event} (hf : Faithful r.opened (e :: later))
    (hp : ∀ c, .call c ∈ events → Flow.Plain c.arguments)
    (hv : ∀ x, .ret x ∈ events → Flow.Countable x.value) :
    (r.push e).2.tape.Joined past ∧ Faithful (r.push e).2.opened later := by
  cases e with
  | call c =>
    obtain ⟨p, hpage, -⟩ := h.exists_page
    rw [happening?_call h hpage] at hpast
    rw [push, begin_eq h hpage c]
    refine ⟨hj.entered h hpage (hpast List.mem_cons_self) (hp c he), ?_⟩
    unfold opened
    dsimp only
    rw [Tape.map_shape_entered]
    exact hf
  | ret x =>
    rw [push, Tape.pop]
    unfold opened at hf
    cases hs : r.tape.stack with
    | nil =>
      rw [hs] at hf
      unfold opened
      dsimp only
      rw [hs]
      exact ⟨hj, hf⟩
    | cons frame rest =>
      rw [hs] at hf
      obtain ⟨hargs, hlater⟩ := hf
      dsimp only
      by_cases hname : frame.event.fullName = x.call.fullName
      · obtain ⟨p, hpage, hpend, hseat⟩ := pending_top h hs
        have heq := finish_eq (r := { r with tape := { r.tape with stack := rest } })
          (h.unstacked hs) hpage hpend x
        rw [if_pos hname]
        dsimp only
        rw [heq]
        refine ⟨hj.concluded h hs hpage hpend hseat (hargs hname) (hv x he), ?_⟩
        unfold opened
        dsimp only
        rw [Tape.map_shape_write]
        exact hlater
      · rw [if_neg hname]
        exact ⟨hj.unstacked hs, hlater⟩

/-- A run of events keeps the references joined, if returns carry the arguments of their calls. -/
theorem joined_absorb (h : r.tape.Valid) (hj : r.tape.Joined past) {later : List Event}
    (hsub : later ⊆ events) (hpast : r.history later ⊆ past) (hf : Faithful r.opened later)
    (hp : ∀ c, .call c ∈ events → Flow.Plain c.arguments)
    (hv : ∀ x, .ret x ∈ events → Flow.Countable x.value) :
    (r.absorb later).tape.Joined past := by
  induction later generalizing r with
  | nil => exact hj
  | cons e later ih =>
    obtain ⟨he, hsub⟩ := List.cons_subset.1 hsub
    rw [history, List.append_subset] at hpast
    obtain ⟨hj₁, hf₁⟩ := joined_push h hj he hpast.1 hf hp hv
    exact ih (push_spec h e).1 hj₁ hsub hpast.2 hf₁

/--
Whatever the annotator answers, where the names of arguments are plain and returns carry the
arguments of their calls, every reference of a recorded graph leaves by an output pin that has its
object and enters by an input pin that has it, or that has a container which holds it and which the
call at the pin was given.
-/
theorem absorb_joined (a : Annotator σ) (state : σ) (settings : Settings) (s : Supply)
    (events : List Event) (hf : Faithful [] events)
    (hp : ∀ c, .call c ∈ events → Flow.Plain c.arguments)
    (hv : ∀ x, .ret x ∈ events → Flow.Countable x.value) :
    let r := start a state settings s
    ∀ f ∈ (r.absorb events).tape.recording.graphs, f.Joined (r.history events) :=
  (joined_absorb (valid_start a state settings s) (Tape.joined_empty s) (List.Subset.refl _)
    (List.Subset.refl _) hf hp hv).flows

/-! ## One call that changes its argument

The assumption on names cannot be left out. The pin of a changed argument `a.b` is looked up by a
path, as the part `b` of an argument `a`, and there is none. So the pin goes without the object that
its edge bears. -/

/-- An annotator that notes of every function that it changes an argument. -/
def changing (argument : String) : Annotator Unit where
  function _ s := (some ⟨"python", "m", "f", .morphism, some "f", none, [], none, [],
    [.path argument], []⟩, s)
  object _ s := (none, s)

/-- A call that is given an object. -/
def given (argument : String) : Invocation :=
  ⟨⟨"m", "f", none⟩, true, [(argument, .object ⟨"o"⟩ ⟨"m", "T", []⟩ [])]⟩

/-- The call begins and returns nothing. -/
def changed (argument : String) : List Event :=
  [.call (given argument), .ret ⟨given argument, .none⟩]

/-- The return carries the argument of the call. -/
theorem faithful_changed (argument : String) : Faithful [] (changed argument) :=
  ⟨fun _ => rfl, trivial⟩

/-- What is returned is no tuple. -/
theorem countable_changed (argument : String) :
    ∀ x, .ret x ∈ changed argument → Flow.Countable x.value := by
  rintro x hx items hitems
  simp only [changed, List.mem_cons, reduceCtorEq, List.not_mem_nil, or_false, false_or,
    Event.ret.injEq] at hx
  rw [hx] at hitems
  cases hitems

/-- The assumptions hold of a call that changes its argument. -/
theorem absorb_joined_changed :
    (∀ c, .call c ∈ changed "x" → Flow.Plain c.arguments) ∧
    let r := start (changing "x") () {} ⟨0⟩
    ∀ f ∈ (r.absorb (changed "x")).tape.recording.graphs,
      f.Joined (r.history (changed "x")) := by
  have hplain : ∀ c, .call c ∈ changed "x" → Flow.Plain c.arguments := by
    intro c hc
    simp only [changed, List.mem_cons, reduceCtorEq, List.not_mem_nil, or_false,
      Event.call.injEq] at hc
    rw [hc]
    exact ⟨by decide, by decide, by decide, by decide⟩
  exact ⟨hplain, absorb_joined (changing "x") () {} ⟨0⟩ (changed "x") (faithful_changed "x") hplain
    (countable_changed "x")⟩

/-- A changed argument with a point in its name is not found again by the pin that it leaves by. -/
theorem pointed_argument_unjoined :
    Faithful [] (changed "a.b") ∧ (∀ x, .ret x ∈ changed "a.b" → Flow.Countable x.value) ∧
    ∃ f ∈ ((start (changing "a.b") () {} ⟨0⟩).absorb (changed "a.b")).tape.recording.graphs,
      ¬ f.Joined ((start (changing "a.b") () {} ⟨0⟩).history (changed "a.b")) := by
  obtain ⟨f, hf, e, he, ⟨n, c⟩, hc, hs, ho, hp, hpin⟩ :
      ∃ f ∈ ((start (changing "a.b") () {} ⟨0⟩).absorb (changed "a.b")).tape.recording.graphs,
        ∃ e ∈ f.graph.edges, ∃ c ∈ f.calls, e.source = c.1 ∧ e.data.object.id = some ⟨"o"⟩ ∧
          e.data.sourcePin = some "a.b!" ∧ (Table.at? c.2.pins "a.b!").bind Flow.Pin.id = none := by
    decide +kernel
  refine ⟨faithful_changed "a.b", countable_changed "a.b", f, hf, fun hj => ?_⟩
  obtain ⟨x, pin, hx, hat, -, hid⟩ := hj.gives e he c (hs ▸ hc)
  obtain rfl : "a.b!" = x := Option.some.inj (hp.symm.trans hx)
  rw [hat, Option.bind_some, hid, ho] at hpin
  cases hpin

end Recorder

end ObjectFlow
