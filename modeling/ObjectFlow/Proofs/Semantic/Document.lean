import ObjectFlow.Proofs.Flow.Document
import ObjectFlow.Semantic.Document

/-!
# Documents of semantic graphs

The slots of a node may be missing, which is not the same as being empty; both are read back as they
were written.

As elsewhere, it is first said which values a document can show (`Exact`), and then that reading
undoes writing on those and accepts nothing else (`readsBack`). A captured `null` is the one value
that is written and not read back, since an optional member that is `null` counts as missing. It is
kept out by its own condition, apart from the types (`exact_iff`).
-/

namespace ObjectFlow

open Document Outcome

/-- A root kind is read back from its label. -/
theorem RootKind.readsBack (origin : Origin) :
    ReadsBack toJson (oneOf origin names) fun _ => True :=
  readsBack_oneOf origin fun r => ⟨r.label, rfl, by cases r <;> rfl⟩

namespace Semantic

/-! ## Nodes

A node has two members that must be there and three that may be missing. -/

namespace Node

/-- The values that are captured of a node and in its slots. -/
def payloads (n : Node) : List Json :=
  n.value.toList ++ n.slots.toList.flatMap Profile.slotPayloads

/-- Slots have distinct names to any depth, and so have the members of captured values. -/
structure Typed (n : Node) : Prop where
  value : ∀ j ∈ n.value, j.Merged
  slots : ∀ t ∈ n.slots, ExactTable Profile.Typed t

/-- Nothing that a node captures is `null`, and everything has its type. -/
def Exact (n : Node) : Prop := n.Typed ∧ .null ∉ n.payloads

/-- What is asked of a node is asked of its value and of every slot. -/
theorem exact_iff {n : Node} :
    n.Exact ↔ (∀ j ∈ n.value, j.Merged) ∧ (∀ j ∈ n.value, j ≠ .null) ∧
      ∀ t ∈ n.slots, ExactTable Profile.Exact t := by
  have hvalue : Json.null ∉ n.value.toList ↔ ∀ j ∈ n.value, j ≠ .null := by
    cases n.value <;> simp [eq_comm]
  have hslots : Json.null ∉ n.slots.toList.flatMap Profile.slotPayloads ↔
      ∀ t ∈ n.slots, .null ∉ Profile.slotPayloads t := by
    cases n.slots <;> simp
  rw [Exact, payloads, List.mem_append, not_or, hvalue, hslots]
  constructor
  · rintro ⟨ht, hnull, hs⟩
    exact ⟨ht.value, hnull, fun t hmem => Profile.exactSlots_iff.2 ⟨ht.slots t hmem, hs t hmem⟩⟩
  · rintro ⟨hmerged, hnull, hs⟩
    exact ⟨⟨hmerged, fun t hmem => (Profile.exactSlots_iff.1 (hs t hmem)).1⟩, hnull,
      fun t hmem => (Profile.exactSlots_iff.1 (hs t hmem)).2⟩

/-- A node is read where each of its members is. -/
theorem ofJson_eq_ok_iff {j : Json} {n : Node} :
    ofJson j = .ok n ↔ ∃ fs, record ["type", "root", "id", "value", "slots"] j = .ok fs ∧
      required fs "type" text = .ok n.type ∧
      required fs "root" (oneOf .document RootKind.names) = .ok n.root ∧
      optional fs "id" objectId = .ok n.id ∧ optional fs "value" anything = .ok n.value ∧
      optional fs "slots" (table Profile.ofJson) = .ok n.slots := by
  simp only [ofJson, bind_eq_ok_iff]
  constructor
  · rintro ⟨fs, hfs, _, htype, _, hroot, _, hid, _, hvalue, _, hslots, ⟨⟩⟩
    exact ⟨fs, hfs, htype, hroot, hid, hvalue, hslots⟩
  · rintro ⟨fs, hfs, htype, hroot, hid, hvalue, hslots⟩
    exact ⟨fs, hfs, _, htype, _, hroot, _, hid, _, hvalue, _, hslots, rfl⟩

/-- A node is read back from its document. -/
theorem readsBack : ReadsBack toJson ofJson Exact where
  read_write n hn := by
    obtain ⟨hmerged, hnull, hslots⟩ := exact_iff.1 hn
    have horder : InOrder ["type", "root", "id", "value", "slots"]
        ([("type", .str n.type), ("root", n.root.toJson)] ++ given "id" writeObject n.id
          ++ given "value" (fun j => j) n.value
          ++ given "slots" (writeTable Profile.toJson) n.slots) :=
      (((inOrder_of_keys rfl).append (inOrder_given "id" n.id)).append
        (inOrder_given "value" n.value)).append (inOrder_given "slots" n.slots)
    exact ofJson_eq_ok_iff.2 ⟨_, horder.record_eq (by simp),
      readsBack_text.required (by simp) trivial,
      (RootKind.readsBack .document).required (by simp) trivial,
      readsBack_objectId.optional (by simp) (by simp [writeObject]) fun _ _ => trivial,
      readsBack_anything.optional (by simp) hnull hmerged,
      (readsBack_table Profile.readsBack).optional (by simp) (by simp [writeTable]) hslots⟩
  exact_read j n h := by
    obtain ⟨fs, -, -, -, -, hvalue, hslots⟩ := ofJson_eq_ok_iff.1 h
    exact exact_iff.2 ⟨readsBack_anything.exact_optional hvalue, ne_null_of_optional hvalue,
      (readsBack_table Profile.readsBack).exact_optional hslots⟩

end Node

/-! ## Links

Neither member of a link must be there. -/

namespace Link

/-- A link is read where both of its members are. -/
theorem ofJson_eq_ok_iff {j : Json} {l : Link} :
    ofJson j = .ok l ↔ ∃ fs, record ["aspect", "role"] j = .ok fs ∧
      optional fs "aspect" text = .ok l.aspect ∧
      optional fs "role" (oneOf .document Side.names) = .ok l.role := by
  simp only [ofJson, bind_eq_ok_iff]
  constructor
  · rintro ⟨fs, hfs, _, haspect, _, hrole, ⟨⟩⟩
    exact ⟨fs, hfs, haspect, hrole⟩
  · rintro ⟨fs, hfs, haspect, hrole⟩
    exact ⟨fs, hfs, _, haspect, _, hrole, rfl⟩

/-- A link is read back from its document, whatever it carries. -/
theorem readsBack : ReadsBack toJson ofJson fun _ => True where
  read_write l _ := ofJson_eq_ok_iff.2 ⟨_, InOrder.record_eq
    ((inOrder_given "aspect" l.aspect).append (inOrder_given "role" l.role)) (by simp),
    readsBack_text.optional (by simp) (by simp) fun _ _ => trivial,
    (Side.readsBack .document).optional (by simp)
      (fun s _ => by cases s <;> simp [Side.toJson]) fun _ _ => trivial⟩
  exact_read _ _ _ := trivial

end Link

end Semantic

/-! ## Graphs

The general lemma about graph documents is applied to these nodes and links. How a graph seats its
nodes is not in a document, so it is read back with the nodes seated in order. -/

namespace SemanticGraph

/-- The values that are captured of nodes and in their slots. -/
def payloads (g : SemanticGraph) : List Json :=
  Graph.payloads Semantic.Node.payloads (fun _ => []) g

/-- Identities are distinct numbers of 128 bits. -/
def Typed (g : SemanticGraph) : Prop := Graph.Exact Semantic.Node.Typed (fun _ => True) g

/-- A graph is exact if its members have their types and no captured value in it is `null`. -/
theorem exact_iff {g : SemanticGraph} :
    Graph.Exact Semantic.Node.Exact (fun _ => True) g ↔ Typed g ∧ .null ∉ payloads g :=
  Graph.exact_and_true_iff

/-- A graph is read back from its document, with its nodes seated anew. -/
theorem ofJson_toJson {g : SemanticGraph} (h : Typed g) (hn : .null ∉ payloads g) :
    ofJson (toJson g) = .ok g.reseated :=
  Graph.ofJson_toJson Semantic.Node.readsBack Semantic.Link.readsBack (exact_iff.2 ⟨h, hn⟩)

end SemanticGraph

end ObjectFlow
