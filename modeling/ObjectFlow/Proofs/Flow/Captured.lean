import ObjectFlow.Proofs.Flow.Document
import ObjectFlow.Proofs.Flow.Recorder

/-!
# What a recorder captures

No value is captured as null, neither of an argument or result nor in a slot, so no recorded graph
holds a null that would be read back as no value (`Recorder.null_not_mem_payloads_absorb`).

A value that is nothing has no representation at all, and the representation of any other value is
not null (`Snapshot.captured?_ne_null`). The rest follows a captured value to where it is kept: in
the pins and slots that the description of an event holds, from there in the calls of a page, and in
the graphs of a tape. References hold no value.
-/

namespace ObjectFlow

theorem Graph.removeNode_subset {N E : Type} (g : Graph N E) (id : NodeId) :
    (g.removeNode id).nodes ⊆ g.nodes ∧ (g.removeNode id).edges ⊆ g.edges := by
  unfold removeNode
  split
  · exact ⟨List.filter_subset_self _, List.filter_subset_self _⟩
  · exact ⟨List.Subset.refl _, List.Subset.refl _⟩

/-- A value that is nothing is not captured, and no other one is written as null. -/
theorem Snapshot.captured?_ne_null (v : Snapshot) : v.captured? ≠ some .null := by
  cases v with
  | float x => cases h : x.isFinite <;> simp [captured?, payload, h]
  | tuple items => cases h : payloads items <;> simp [captured?, payload, Except.map, h]
  | list items => cases h : payloads items <;> simp [captured?, payload, Except.map, h]
  | set items => cases h : payloads items <;> simp [captured?, payload, Except.map, h]
  | dict entries => cases h : payloadEntries [] entries <;> simp [captured?, payload, Except.map, h]
  | _ => simp [captured?, payload]

/-- The payloads of a profile are its own and those of its slots. -/
theorem Profile.payloads_eq (p : Profile) :
    p.payloads = p.value.toList ++ slotPayloads p.slots := by
  cases p
  rfl

/-- What is kept of a value beside its identity is not null. -/
theorem Profile.null_not_mem_of_captured {p : Profile} {v : Snapshot} (hv : p.value = v.captured?)
    (hs : p.slots = []) : .null ∉ p.payloads := by
  rw [payloads_eq, hv, hs, slotPayloads, List.append_nil, Option.mem_toList]
  exact v.captured?_ne_null

namespace Flow

variable {σ : Type} {a : Annotator σ} {settings : Settings} {state : σ}

/-! ## What an event brings

The description of an event is the only source of values. -/

/-- No pin is described with a null. -/
theorem null_not_mem_pinFor (a : Annotator σ) (side : Side) (argument : String)
    (position : Option Nat) (value : Option Snapshot) (state : σ) :
    .null ∉ (pinFor a side argument position value state).1.payloads := by
  cases value with
  | none => exact List.not_mem_nil
  | some v => exact Profile.null_not_mem_of_captured (v := v) rfl rfl

/-- No slot is described with a null. -/
theorem null_not_mem_slotsOf {o : TrackedObject} {slots : Table String Profile}
    (h : slots ∈ (slotsOf a o state).1) : .null ∉ Profile.slotPayloads slots := by
  unfold slotsOf at h
  cases hn : a.object o.type state with
  | mk note state' =>
    simp only [bind, StateT.bind, hn] at h
    cases note with
    | none => cases h
    | some n =>
      dsimp only at h
      split at h
      · cases h
      · obtain rfl := Option.some.inj h
        rw [Profile.slotPayloads_eq_flatMap, List.mem_flatMap]
        rintro ⟨e, he, hnull⟩
        obtain ⟨x, -, s, rfl⟩ := exists_of_mem_mapM he
        exact Profile.null_not_mem_of_captured (v := x.2) rfl rfl hnull

/-- No pin and no reference of a call that begins holds a null. -/
structure Entrance.NullFree (e : Entrance) : Prop where
  pins : ∀ p ∈ e.pins, .null ∉ p.2.payloads
  arrivals : ∀ x ∈ e.arrivals, x.reference.value = none

/-- No pin, slot and reference of a call that ends holds a null. -/
structure Departure.NullFree (d : Departure) : Prop where
  pins : ∀ p ∈ d.pins, .null ∉ p.2.payloads
  productions : ∀ q ∈ d.productions, q.reference.value = none ∧
    ∀ slots ∈ q.slots, .null ∉ Profile.slotPayloads slots

/-- A call that begins brings no null. -/
theorem nullFree_entrance (c : Invocation) : (entrance a settings c state).1.NullFree where
  pins p hp := by
    obtain ⟨e, -, s, rfl⟩ := exists_of_mem_mapM hp
    exact null_not_mem_pinFor a .input e.1 _ (some e.2) s
  arrivals x hx := by
    obtain ⟨e, -, s, rfl⟩ := exists_of_mem_mapM hx
    rfl

/-- A call that ends brings no null. -/
theorem nullFree_departure (r : Completion) : (departure a settings r state).1.NullFree where
  pins p hp := by
    obtain ⟨n, -, s, rfl⟩ := exists_of_mem_mapM hp
    exact null_not_mem_pinFor a .output n.1 _ _ s
  productions q hq := by
    obtain ⟨p, -, s, rfl⟩ := exists_of_mem_mapM hq
    cases hslots : settings.storeSlots with
    | false => exact ⟨rfl, fun slots hs => nomatch hs⟩
    | true => exact ⟨rfl, fun slots hs => null_not_mem_slotsOf hs⟩

/-! ## Graphs

A graph has no null among its payloads just if no node and no edge has one, and this goes over to
graphs with fewer nodes and edges. -/

/-- No node and no edge holds a null. -/
structure NullFree (f : Flow) : Prop where
  nodes : ∀ n ∈ f.graph.nodes, .null ∉ n.2.payloads
  edges : ∀ e ∈ f.graph.edges, .null ∉ e.data.payloads

/-- Nodes and edges hold all payloads of a graph. -/
theorem nullFree_iff {f : Flow} : f.NullFree ↔ .null ∉ f.payloads := by
  simp only [payloads, Graph.payloads, List.mem_append, List.mem_flatMap, not_or, not_exists,
    not_and]
  exact ⟨fun h => ⟨h.nodes, h.edges⟩, fun h => ⟨h.1, h.2⟩⟩

theorem nullFree_empty (s : Supply) : (Flow.empty s).1.NullFree := by
  refine ⟨fun n hn => ?_, fun e he => nomatch he⟩
  rcases List.mem_cons.1 hn with rfl | hn
  · exact List.not_mem_nil
  · obtain rfl := List.mem_singleton.1 hn
    exact List.not_mem_nil

theorem NullFree.of_subset {f f' : Flow} (h : f.NullFree) (hn : f'.graph.nodes ⊆ f.graph.nodes)
    (he : f'.graph.edges ⊆ f.graph.edges) : f'.NullFree :=
  ⟨fun n hmem => h.nodes n (hn hmem), fun e hmem => h.edges e (he hmem)⟩

/-- A call may change as long as no null comes into it. -/
theorem NullFree.adjustCall {f : Flow} (h : f.NullFree) (n : NodeId) {g : Call → Call}
    (hg : ∀ c, .null ∉ c.payloads → .null ∉ (g c).payloads) : (f.adjustCall n g).NullFree := by
  refine ⟨fun m hm => ?_, h.edges⟩
  obtain hm | ⟨x, hx, rfl⟩ := Table.mem_adjust hm
  · exact h.nodes m hm
  · cases x with
    | call c => exact hg c (h.nodes (n, .call c) hx)
    | input => exact List.not_mem_nil
    | output => exact List.not_mem_nil

/-- Pins of a call, one by one. -/
theorem Call.null_not_mem_payloads_iff {c : Call} :
    .null ∉ c.payloads ↔ ∀ p ∈ c.pins, .null ∉ p.2.payloads := by
  simp only [payloads, List.mem_flatMap, not_exists, not_and]

theorem null_not_mem_of_reference {l : Link} (h : l.object.value = none) : .null ∉ l.payloads := by
  rw [Link.payloads, h]
  exact List.not_mem_nil

end Flow

namespace Page

open ObjectFlow.Flow

variable {p : Page}

/-! ## Pages

What is put on a page comes from the description of the event. -/

/-- A call that begins puts no null on the page. -/
theorem nullFree_enter (h : p.flow.NullFree) (c : Invocation) {e : Entrance} (he : e.NullFree)
    (body : Option Handle) (s : Supply) : (p.enter c e body s).1.flow.NullFree := by
  refine ⟨fun n hn => ?_, fun x hx => ?_⟩
  · rcases List.mem_append.1 hn with hn | hn
    · exact h.nodes n hn
    · obtain rfl := List.mem_singleton.1 hn
      exact Call.null_not_mem_payloads_iff.2 he.pins
  · rcases List.mem_append.1 hx with hx | hx
    · exact h.edges x hx
    · obtain ⟨-, -, y, hy, -, hobject, -⟩ := mem_arrivalEdges hx
      exact null_not_mem_of_reference (hobject ▸ he.arrivals y hy)

theorem edges_released_subset (p : Page) (o : ObjectId) :
    (p.released o).edges ⊆ p.flow.graph.edges := by
  unfold released
  split
  · exact List.filter_subset_self _
  · exact List.Subset.refl _

/-- Noting slots without a null puts none into the call. -/
theorem null_not_mem_noteSlots {q : Production}
    (hq : ∀ slots ∈ q.slots, .null ∉ Profile.slotPayloads slots) {c : Call}
    (hc : .null ∉ c.payloads) : .null ∉ (noteSlots q c).payloads := by
  unfold noteSlots
  split
  · exact hc
  · rename_i slots hslots
    rw [Call.null_not_mem_payloads_iff] at hc ⊢
    intro x hx
    obtain hx | ⟨pin, hpin, rfl⟩ := Table.mem_adjust hx
    · exact hc x hx
    · have hold := hc _ hpin
      rw [Pin.payloads, Profile.payloads_eq, List.mem_append, not_or] at hold ⊢
      exact ⟨hold.1, hq slots hslots⟩

/-- What comes out of a call puts no null on the page. -/
theorem nullFree_produceAll (h : p.flow.NullFree) (n : NodeId) (s : Supply) {qs : List Production}
    (hq : ∀ q ∈ qs, q.reference.value = none ∧
      ∀ slots ∈ q.slots, .null ∉ Profile.slotPayloads slots) :
    (p.produceAll n s qs).1.flow.NullFree := by
  induction qs generalizing p s with
  | nil => exact h
  | cons q qs ih =>
    obtain ⟨href, hslots⟩ := hq q List.mem_cons_self
    have hclaim : (p.claim n s.edge.1 q).flow.NullFree := by
      refine ⟨fun m hm => h.nodes m (p.nodes_released q.object ▸ hm), fun e he => ?_⟩
      rcases List.mem_append.1 he with he | he
      · exact h.edges e (p.edges_released_subset q.object he)
      · obtain rfl := List.mem_singleton.1 he
        exact null_not_mem_of_reference href
    have hproduce : (p.produce n s.edge.1 q).flow.NullFree :=
      hclaim.adjustCall n fun c hc => null_not_mem_noteSlots hslots hc
    exact ih hproduce s.edge.2 fun q' hq' => hq q' (List.mem_cons_of_mem _ hq')

/-- A call that ends puts no null on the page. -/
theorem nullFree_conclude (h : p.flow.NullFree) (n : NodeId) (s : Supply) (r : Completion)
    {d : Departure} (hd : d.NullFree) : (p.conclude n s r d).1.flow.NullFree := by
  unfold conclude
  split
  · obtain ⟨hnodes, hedges⟩ := p.flow.graph.removeNode_subset n
    exact h.of_subset hnodes hedges
  · have hnamed : (p.adjustCall n (nameSlot r)).flow.NullFree := by
      refine h.adjustCall n fun c hc => ?_
      unfold nameSlot
      split <;> exact hc
    refine nullFree_produceAll (hnamed.adjustCall n fun c hc => ?_) n s hd.productions
    rw [Call.null_not_mem_payloads_iff] at hc ⊢
    intro x hx
    rcases Table.mem_putAll hx with hx | hx
    · exact hc x hx
    · exact hd.pins x hx

end Page

/-! ## Recorders

The tape holds the graphs, and each event changes one of them and adds an empty one at most. -/

namespace Tape

variable {t : Tape}

theorem nullFree_write (h : ∀ f ∈ t.recording.graphs, f.NullFree) {p : Page} (hp : p.flow.NullFree)
    (s : Supply) : ∀ f ∈ (t.write p s).recording.graphs, f.NullFree := by
  intro f hf
  rw [recording_write] at hf
  rcases List.mem_or_eq_of_mem_set hf with hf | rfl
  · exact h f hf
  · exact hp

theorem nullFree_openBody (h : ∀ f ∈ t.recording.graphs, f.NullFree) (c : Invocation) :
    ∀ f ∈ (t.openBody c).2.recording.graphs, f.NullFree := by
  unfold openBody
  split
  · exact h
  · intro f hf
    rcases List.mem_append.1 hf with hf | hf
    · exact h f hf
    · obtain rfl := List.mem_singleton.1 hf
      exact Flow.nullFree_empty t.supply

end Tape

namespace Recorder

variable {σ : Type} {r : Recorder σ}

/-- No event puts a null on the tape. -/
theorem nullFree_push (h : r.tape.Valid) (hf : ∀ f ∈ r.tape.recording.graphs, f.NullFree)
    (e : Event) : ∀ f ∈ (r.push e).2.tape.recording.graphs, f.NullFree := by
  cases e with
  | call c =>
    obtain ⟨p, hp, -⟩ := h.exists_page
    have hopened := Tape.nullFree_openBody hf c
    have hpage := hopened p.flow
      (List.mem_of_getElem? (Tape.page?_eq_some_iff.1 (Tape.page?_openBody hp c)).1)
    rw [push, begin_eq h hp c]
    exact Tape.nullFree_write hopened
      (Page.nullFree_enter hpage c (Flow.nullFree_entrance c) _ _) _
  | ret x =>
    rw [push, Tape.pop]
    cases hs : r.tape.stack with
    | nil => exact hf
    | cons frame rest =>
      dsimp only
      by_cases hname : frame.event.fullName = x.call.fullName
      · obtain ⟨p, hp, hpend, -⟩ := pending_top h hs
        have heq := finish_eq (r := { r with tape := { r.tape with stack := rest } })
          (h.unstacked hs) hp hpend x
        have hpage := hf p.flow (List.mem_of_getElem? (Tape.page?_eq_some_iff.1 hp).1)
        rw [if_pos hname]
        dsimp only
        rw [heq]
        exact Tape.nullFree_write (t := { r.tape with stack := rest }) hf
          (Page.nullFree_conclude hpage _ _ x (Flow.nullFree_departure x)) _
      · rw [if_neg hname]
        exact hf

/-- No run of events puts a null on the tape. -/
theorem nullFree_absorb (h : r.tape.Valid) (hf : ∀ f ∈ r.tape.recording.graphs, f.NullFree)
    (events : List Event) : ∀ f ∈ (r.absorb events).tape.recording.graphs, f.NullFree := by
  induction events generalizing r with
  | nil => exact hf
  | cons e events ih => exact ih (push_spec h e).1 (nullFree_push h hf e)

/-- Whatever is recorded, no value is captured as null. -/
theorem null_not_mem_payloads_absorb (a : Annotator σ) (state : σ) (settings : Settings)
    (s : Supply) (events : List Event) :
    .null ∉ ((start a state settings s).absorb events).tape.recording.payloads := by
  have hstart : ∀ f ∈ (start a state settings s).tape.recording.graphs, f.NullFree := by
    intro f hf
    obtain rfl := List.mem_singleton.1 hf
    exact Flow.nullFree_empty s
  rw [Recording.payloads, List.mem_flatMap]
  rintro ⟨f, hf, hnull⟩
  have hf := nullFree_absorb (valid_start a state settings s) hstart events f hf
  exact Flow.nullFree_iff.1 hf hnull

end Recorder

end ObjectFlow
