import ObjectFlow.Flow.Document
import ObjectFlow.Proofs.Graph.Document
import ObjectFlow.Proofs.Profile

/-!
# Documents of flow graphs and recordings

A call names its variant beside its own members, and what is left of it is read from aside. A flow
graph and a recording are read just if all of their members are (`Flow.ofJson_eq_ok_iff`,
`Recording.ofJson_eq_ok_iff`).

For each kind of record there are three statements. The first tells when it is read, member by
member. The second says that its writer puts the members that are there in the order of its reader.
From these two follows the third, that what was written is read again (`readsBack`), for what is
`Exact`. This splits into what the types do not say of numbers and names (`Typed`) and the absence
of null among the captured values, since a null member reads as none at all.
-/

namespace ObjectFlow

open Document Outcome

/-- The side of a pin is read again. -/
theorem Side.readsBack (origin : Origin) :
    ReadsBack toJson (oneOf origin names) fun _ => True :=
  readsBack_oneOf origin fun s => by cases s <;> exact ⟨_, rfl, rfl⟩

namespace Flow

/-! ## Pins

A pin holds a profile of its object beside its own members. -/

namespace Pin

/-- The values that are captured at a pin and in the slots of its object. -/
def payloads (p : Pin) : List Json := p.profile.payloads

/-- Positions are unsigned numbers of 64 bits. -/
structure Typed (p : Pin) : Prop where
  position_lt : ∀ i ∈ p.position, i < 18446744073709551616
  profile : p.profile.Typed

def Exact (p : Pin) : Prop := p.Typed ∧ .null ∉ p.payloads

theorem exact_iff {p : Pin} :
    p.Exact ↔ (∀ i ∈ p.position, i < 18446744073709551616) ∧ p.profile.Exact :=
  ⟨fun h => ⟨h.1.position_lt, h.1.profile, h.2⟩, fun h => ⟨⟨h.1, h.2.1⟩, h.2.2⟩⟩

theorem ofJson_eq_ok_iff {origin : Origin} {j : Json} {p : Pin} :
    ofJson origin j = .ok p ↔ ∃ fs, record
      ["portkind", "argname", "annotation_index", "annotation", "id", "value", "slots"] j = .ok fs ∧
      required fs "portkind" (oneOf origin Side.names) = .ok p.side ∧
      optional fs "argname" text = .ok p.argument ∧
      optional fs "annotation_index" (natBelow 18446744073709551616) = .ok p.position ∧
      optional fs "annotation" NoteKey.ofJson = .ok p.note ∧
      optional fs "id" objectId = .ok p.id ∧ optional fs "value" anything = .ok p.value ∧
      defaulted fs "slots" [] (table Profile.ofJson) = .ok p.slots := by
  simp only [ofJson, bind_eq_ok_iff]
  constructor
  · rintro ⟨fs, hfs, _, hside, _, hargument, _, hposition, _, hnote, _, hid, _, hvalue, _, hslots,
      ⟨⟩⟩
    exact ⟨fs, hfs, hside, hargument, hposition, hnote, hid, hvalue, hslots⟩
  · rintro ⟨fs, hfs, hside, hargument, hposition, hnote, hid, hvalue, hslots⟩
    exact ⟨fs, hfs, _, hside, _, hargument, _, hposition, _, hnote, _, hid, _, hvalue, _, hslots,
      rfl⟩

theorem inOrder_toJson (p : Pin) : InOrder
    ["portkind", "argname", "annotation_index", "annotation", "id", "value", "slots"]
    (("portkind", p.side.toJson) :: given "argname" Json.str p.argument
      ++ given "annotation_index" (fun (i : Nat) => Json.int i) p.position
      ++ given "annotation" NoteKey.toJson p.note ++ given "id" writeObject p.id
      ++ given "value" (fun j => j) p.value
      ++ unlessEmpty "slots" (writeTable Profile.toJson) p.slots) :=
  ((((((inOrder_singleton "portkind" p.side.toJson).append
    (inOrder_given "argname" p.argument)).append
    (inOrder_given "annotation_index" p.position)).append
    (inOrder_given "annotation" p.note)).append (inOrder_given "id" p.id)).append
    (inOrder_given "value" p.value)).append (inOrder_unlessEmpty "slots" _ p.slots)

theorem readsBack (origin : Origin) : ReadsBack toJson (ofJson origin) Exact where
  read_write p hp := by
    obtain ⟨hposition, hprofile⟩ := exact_iff.1 hp
    obtain ⟨hmerged, hnull, hslots⟩ := Profile.exact_iff.1 hprofile
    exact ofJson_eq_ok_iff.2 ⟨_, (inOrder_toJson p).record_eq (by simp),
      (Side.readsBack origin).required (by simp) trivial,
      readsBack_text.optional (by simp) (by simp) fun _ _ => trivial,
      (readsBack_natBelow _).optional (by simp) (by simp) hposition,
      NoteKey.readsBack.optional (by simp) (by simp [NoteKey.toJson]) fun _ _ => trivial,
      readsBack_objectId.optional (by simp) (by simp [writeObject]) fun _ _ => trivial,
      readsBack_anything.optional (by simp) hnull hmerged,
      (readsBack_table Profile.readsBack).defaulted (by simp) hslots⟩
  exact_read j p h := by
    obtain ⟨fs, -, -, -, hposition, -, -, hvalue, hslots⟩ := ofJson_eq_ok_iff.1 h
    exact exact_iff.2 ⟨(readsBack_natBelow _).exact_optional hposition, Profile.exact_iff.2
      ⟨readsBack_anything.exact_optional hvalue, ne_null_of_optional hvalue,
        (readsBack_table Profile.readsBack).exact_defaulted exactTable_nil hslots⟩⟩

end Pin

/-! ## Calls

The members of a call are read from what is left when its variant has been read, so they are stated
for the members alone (`Call.fields`). -/

namespace Call

def payloads (c : Call) : List Json := c.pins.flatMap fun e => e.2.payloads

/-- Pins have distinct names, and the handle of a body is an unsigned number of 32 bits. -/
structure Typed (c : Call) : Prop where
  pins : ExactTable Pin.Typed c.pins
  body_lt : ∀ h ∈ c.body, h.index < 2 ^ 32

def Exact (c : Call) : Prop := c.Typed ∧ .null ∉ c.payloads

theorem exact_iff {c : Call} :
    c.Exact ↔ ExactTable Pin.Exact c.pins ∧ ∀ h ∈ c.body, h.index < 2 ^ 32 := by
  have hpins : ExactTable Pin.Exact c.pins ↔ ExactTable Pin.Typed c.pins ∧ .null ∉ c.payloads :=
    exactTable_and_iff
  rw [hpins]
  exact ⟨fun h => ⟨⟨h.1.pins, h.2⟩, h.1.body_lt⟩, fun h => ⟨⟨h.1.1, h.2⟩, h.1.2⟩⟩

theorem ofJson_eq_ok_iff {origin : Origin} {j : Json} {c : Call} :
    ofJson origin j = .ok c ↔ ∃ fs,
      record ["module", "qualified_name", "ports", "slot", "annotation", "graph"] j = .ok fs ∧
      required fs "module" text = .ok c.module ∧
      required fs "qualified_name" text = .ok c.qualifiedName ∧
      defaulted fs "ports" [] (table (Pin.ofJson origin)) = .ok c.pins ∧
      optional fs "slot" text = .ok c.slot ∧
      optional fs "annotation" NoteKey.ofJson = .ok c.note ∧
      optional fs "graph" handle = .ok c.body := by
  simp only [ofJson, bind_eq_ok_iff]
  constructor
  · rintro ⟨fs, hfs, _, hmodule, _, hname, _, hpins, _, hslot, _, hnote, _, hbody, ⟨⟩⟩
    exact ⟨fs, hfs, hmodule, hname, hpins, hslot, hnote, hbody⟩
  · rintro ⟨fs, hfs, hmodule, hname, hpins, hslot, hnote, hbody⟩
    exact ⟨fs, hfs, _, hmodule, _, hname, _, hpins, _, hslot, _, hnote, _, hbody, rfl⟩

theorem inOrder_fields (c : Call) :
    InOrder ["module", "qualified_name", "ports", "slot", "annotation", "graph"] c.fields :=
  (((inOrder_of_keys rfl).append (inOrder_given "slot" c.slot)).append
    (inOrder_given "annotation" c.note)).append (inOrder_given "graph" c.body)

theorem readsBack (origin : Origin) : ReadsBack toJson (ofJson origin) Exact where
  read_write c hc := by
    obtain ⟨hpins, hbody⟩ := exact_iff.1 hc
    exact ofJson_eq_ok_iff.2 ⟨_, (inOrder_fields c).record_eq (by simp),
      readsBack_text.required (by simp [fields]) trivial,
      readsBack_text.required (by simp [fields]) trivial,
      (readsBack_table (Pin.readsBack origin)).defaulted_of_some (by simp [fields]) hpins,
      readsBack_text.optional (by simp [fields]) (by simp) fun _ _ => trivial,
      NoteKey.readsBack.optional (by simp [fields]) (by simp [NoteKey.toJson]) fun _ _ => trivial,
      readsBack_handle.optional (by simp [fields]) (by simp [writeHandle]) hbody⟩
  exact_read j c h := by
    obtain ⟨fs, -, -, -, hpins, -, -, hbody⟩ := ofJson_eq_ok_iff.1 h
    exact exact_iff.2
      ⟨(readsBack_table (Pin.readsBack origin)).exact_defaulted exactTable_nil hpins,
        readsBack_handle.exact_optional hbody⟩

end Call

/-! ## Nodes and links

A node is read by its variant. A link is read from aside, so members that it does not know are
passed over. -/

namespace Node

def payloads : Node → List Json
  | .call c => c.payloads
  | .input | .output => []

def Typed : Node → Prop
  | .call c => c.Typed
  | .input | .output => True

def Exact (n : Node) : Prop := n.Typed ∧ .null ∉ n.payloads

/-- A marker has nothing to be told. -/
theorem exact_marker {n m : Node} {j : Json} (hn : n.Exact) (h : marker n j = .ok m) : m.Exact := by
  unfold marker at h
  split at h
  · cases h
  · cases h
    exact hn

theorem readsBack : ReadsBack toJson ofJson Exact where
  read_write n hn := by
    cases n with
    | input => rfl
    | output => rfl
    | call c =>
      have hrole : "role" ∉ Table.keys c.fields := c.inOrder_fields.not_mem (by simp)
      rw [toJson, ofJson, variant_obj hrole, ok_bind]
      exact congrArg (Except.map Node.call) ((Call.readsBack .aside).read_write c hn)
  exact_read j n h := by
    rw [ofJson, bind_eq_ok_iff] at h
    obtain ⟨⟨role, rest⟩, -, h⟩ := h
    dsimp only at h
    split at h
    · exact exact_marker (n := .input) ⟨trivial, List.not_mem_nil⟩ h
    · exact exact_marker (n := .output) ⟨trivial, List.not_mem_nil⟩ h
    · obtain ⟨c, hc, rfl⟩ := map_eq_ok_iff.1 h
      exact (Call.readsBack .aside).exact_read _ c hc
    · cases h

end Node

namespace Link

def payloads (l : Link) : List Json := l.object.value.toList

def Typed (l : Link) : Prop := ∀ j ∈ l.object.value, j.Merged

def Exact (l : Link) : Prop := l.Typed ∧ .null ∉ l.payloads

theorem exact_iff {l : Link} :
    l.Exact ↔ (∀ j ∈ l.object.value, j.Merged) ∧ ∀ j ∈ l.object.value, j ≠ .null := by
  have hnull : Json.null ∉ l.payloads ↔ ∀ j ∈ l.object.value, j ≠ .null := by
    rw [payloads]
    cases l.object.value <;> simp [eq_comm]
  rw [← hnull]
  rfl

theorem ofJson_eq_ok_iff {j : Json} {l : Link} : ofJson j = .ok l ↔ ∃ ms fs, j = .obj ms ∧
    members ["id", "value", "class", "annotation", "source_port", "target_port"] ms = .ok fs ∧
    optional fs "id" objectId = .ok l.object.id ∧
    optional fs "value" anything = .ok l.object.value ∧
    optional fs "class" RuntimeType.ofJson = .ok l.object.type ∧
    optional fs "annotation" NoteKey.ofJson = .ok l.object.note ∧
    optional fs "source_port" text = .ok l.sourcePin ∧
    optional fs "target_port" text = .ok l.targetPin := by
  constructor
  · intro h
    unfold ofJson at h
    split at h
    · simp only [bind_eq_ok_iff] at h
      obtain ⟨fs, hfs, _, hid, _, hvalue, _, htype, _, hnote, _, hsource, _, htarget, ⟨⟩⟩ := h
      exact ⟨_, fs, rfl, hfs, hid, hvalue, htype, hnote, hsource, htarget⟩
    · cases h
  · rintro ⟨ms, fs, rfl, hfs, hid, hvalue, htype, hnote, hsource, htarget⟩
    simp only [ofJson, bind_eq_ok_iff]
    exact ⟨fs, hfs, _, hid, _, hvalue, _, htype, _, hnote, _, hsource, _, htarget, rfl⟩

theorem inOrder_toJson (l : Link) : InOrder
    ["id", "value", "class", "annotation", "source_port", "target_port"]
    (given "id" writeObject l.object.id ++ given "value" (fun j => j) l.object.value
      ++ given "class" RuntimeType.toJson l.object.type
      ++ given "annotation" NoteKey.toJson l.object.note ++ given "source_port" Json.str l.sourcePin
      ++ given "target_port" Json.str l.targetPin) :=
  (((((inOrder_given "id" l.object.id).append (inOrder_given "value" l.object.value)).append
    (inOrder_given "class" l.object.type)).append (inOrder_given "annotation" l.object.note)).append
    (inOrder_given "source_port" l.sourcePin)).append (inOrder_given "target_port" l.targetPin)

theorem readsBack : ReadsBack toJson ofJson Exact where
  read_write l hl := by
    obtain ⟨hmerged, hnull⟩ := exact_iff.1 hl
    exact ofJson_eq_ok_iff.2 ⟨_, _, rfl, (inOrder_toJson l).members_eq (by simp),
      readsBack_objectId.optional (by simp) (by simp [writeObject]) fun _ _ => trivial,
      readsBack_anything.optional (by simp) hnull hmerged,
      RuntimeType.readsBack.optional (by simp) (by simp [RuntimeType.toJson]) fun _ _ => trivial,
      NoteKey.readsBack.optional (by simp) (by simp [NoteKey.toJson]) fun _ _ => trivial,
      readsBack_text.optional (by simp) (by simp) fun _ _ => trivial,
      readsBack_text.optional (by simp) (by simp) fun _ _ => trivial⟩
  exact_read j l h := by
    obtain ⟨ms, fs, -, -, -, hvalue, -⟩ := ofJson_eq_ok_iff.1 h
    exact exact_iff.2 ⟨readsBack_anything.exact_optional hvalue, ne_null_of_optional hvalue⟩

end Link

/-! ## Flow graphs

The graph is read as any graph is, with the readers of nodes and links. -/

/-- The values that are captured at pins, in slots of objects and on edges. -/
def payloads (f : Flow) : List Json := f.graph.payloads Node.payloads Link.payloads

/-- Identities are distinct numbers of 128 bits, and so are those of the markers. -/
structure Typed (f : Flow) : Prop where
  graph : f.graph.Exact Node.Typed Link.Typed
  input_lt : f.input.value < 2 ^ 128
  output_lt : f.output.value < 2 ^ 128

/-- The flow graph as it is read again: only the places of its nodes are taken anew. -/
def reseated (f : Flow) : Flow := { f with graph := f.graph.reseated }

theorem exact_graph_iff {f : Flow} : f.graph.Exact Node.Exact Link.Exact ↔
    f.graph.Exact Node.Typed Link.Typed ∧ .null ∉ f.payloads :=
  Graph.exact_and_iff

/-- A flow graph is read just if its graph and the identities of its markers are. -/
theorem ofJson_eq_ok_iff {j : Json} {f : Flow} :
    ofJson j = .ok f ↔ ∃ fs, record ["graph", "input", "output"] j = .ok fs ∧
      required fs "graph" (Graph.ofJson Node.ofJson Link.ofJson) = .ok f.graph ∧
      required fs "input" nodeId = .ok f.input ∧ required fs "output" nodeId = .ok f.output := by
  simp only [ofJson, record, bind_eq_ok_iff]
  constructor
  · rintro ⟨fs, hfs, h⟩
    split at h
    · rename_i hgraph hinput houtput
      split at h
      · cases h
      · rename_i hon
        cases h
        exact ⟨fs, by rw [if_neg hon, hfs], hgraph, hinput, houtput⟩
    · cases h
  · rintro ⟨fs, hfs, hgraph, hinput, houtput⟩
    split at hfs
    · cases hfs
    · rename_i hon
      refine ⟨fs, hfs, ?_⟩
      rw [hgraph, hinput, houtput]
      exact if_neg hon

theorem ofJson_toJson {f : Flow} (h : f.Typed) (hn : .null ∉ f.payloads) :
    ofJson f.toJson = .ok f.reseated :=
  ofJson_eq_ok_iff.2 ⟨_, (inOrder_of_keys (by rfl)).record_eq (by simp),
    Graph.ofJson_toJson Node.readsBack Link.readsBack (exact_graph_iff.2 ⟨h.graph, hn⟩),
    readsBack_nodeId.required (by simp [reseated]) h.input_lt,
    readsBack_nodeId.required (by simp [reseated]) h.output_lt⟩

/-- Flow graphs that can be told from their documents. -/
structure Exact (f : Flow) : Prop where
  typed : f.Typed
  payloads_ne_null : .null ∉ f.payloads
  seated : f.graph.seating = .inOrder f.graph.nodeIds

theorem Exact.reseated_eq_self {f : Flow} (h : f.Exact) : f.reseated = f := by
  rw [reseated, Graph.reseated_eq_self h.seated]

theorem readsBack : ReadsBack toJson ofJson Exact where
  read_write f hf := by rw [ofJson_toJson hf.typed hf.payloads_ne_null, hf.reseated_eq_self]
  exact_read j f h := by
    obtain ⟨fs, -, hgraph, hinput, houtput⟩ := ofJson_eq_ok_iff.1 h
    obtain ⟨hexact, hseated⟩ :=
      (Graph.readsBack Node.readsBack Link.readsBack).exact_required hgraph
    obtain ⟨htyped, hnull⟩ := exact_graph_iff.1 hexact
    exact ⟨⟨htyped, readsBack_nodeId.exact_required hinput,
      readsBack_nodeId.exact_required houtput⟩, hnull, hseated⟩

end Flow

/-! ## Recordings

A recording is the list of its graphs, and handles are places in this list. -/

namespace Recording

/-- The values that are captured in the graphs of all scopes. -/
def payloads (r : Recording) : List Json := r.graphs.flatMap Flow.payloads

/-- Handles are unsigned numbers of 32 bits. -/
structure Typed (r : Recording) : Prop where
  graphs : ∀ f ∈ r.graphs, f.Typed
  root_lt : r.root.index < 2 ^ 32

/-- The recording as it is read again: only the places of nodes are taken anew. -/
def reseated (r : Recording) : Recording := { r with graphs := r.graphs.map Flow.reseated }

/-- A recording is read just if all of its graphs and the handle of its root are. -/
theorem ofJson_eq_ok_iff {j : Json} {r : Recording} :
    ofJson j = .ok r ↔ ∃ fs, record ["graphs", "root"] j = .ok fs ∧
      required fs "graphs" (list Flow.ofJson) = .ok r.graphs ∧
      required fs "root" handle = .ok r.root := by
  simp only [ofJson, record, bind_eq_ok_iff]
  constructor
  · rintro ⟨fs, hfs, h⟩
    split at h
    · rename_i hgraphs hroot
      split at h
      · cases h
      · rename_i hon
        cases h
        exact ⟨fs, by rw [if_neg hon, hfs], hgraphs, hroot⟩
    · cases h
  · rintro ⟨fs, hfs, hgraphs, hroot⟩
    split at hfs
    · cases hfs
    · rename_i hon
      refine ⟨fs, hfs, ?_⟩
      rw [hgraphs, hroot]
      exact if_neg hon

/-- Recordings that can be told from their documents. -/
structure Exact (r : Recording) : Prop where
  graphs : ∀ f ∈ r.graphs, f.Exact
  root_lt : r.root.index < 2 ^ 32

theorem readsBack : ReadsBack toJson ofJson Exact where
  read_write r hr := ofJson_eq_ok_iff.2 ⟨_, (inOrder_of_keys (by rfl)).record_eq (by simp),
    (readsBack_list Flow.readsBack).required (by simp) hr.graphs,
    readsBack_handle.required (by simp) hr.root_lt⟩
  exact_read j r h := by
    obtain ⟨fs, -, hgraphs, hroot⟩ := ofJson_eq_ok_iff.1 h
    exact ⟨(readsBack_list Flow.readsBack).exact_required hgraphs,
      readsBack_handle.exact_required hroot⟩

/-- The places of nodes are not written. -/
theorem toJson_reseated (r : Recording) : r.reseated.toJson = r.toJson := by
  rw [toJson, reseated, List.map_map]
  rfl

theorem ofJson_toJson {r : Recording} (h : r.Typed) (hn : .null ∉ r.payloads) :
    ofJson r.toJson = .ok r.reseated := by
  have hexact : r.reseated.Exact := by
    refine ⟨fun f hf => ?_, h.root_lt⟩
    obtain ⟨f, hmem, rfl⟩ := List.mem_map.1 hf
    have hnull : .null ∉ f.payloads := fun hnull => hn (List.mem_flatMap.2 ⟨f, hmem, hnull⟩)
    exact Flow.readsBack.exact_read _ _ (Flow.ofJson_toJson (h.graphs f hmem) hnull)
  rw [← toJson_reseated]
  exact readsBack.read_write _ hexact

end Recording

end ObjectFlow
