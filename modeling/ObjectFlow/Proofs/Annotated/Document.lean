import ObjectFlow.Annotated.Document
import ObjectFlow.Proofs.Graph.Document
import ObjectFlow.Proofs.Profile

/-!
# Documents of annotated graphs

Actions and entities name their variant beside their own members, and are read back as they were
written (`Annotated.Node.readsBack`); so is a graph of them (`AnnotatedGraph.ofJson_toJson`).
-/

namespace ObjectFlow

open Document Outcome

namespace Annotated

/-! ## Actions

The flag of an action is only written when it is set, and a missing one is read as not set. -/

namespace Action

theorem ofJson_eq_ok_iff {j : Json} {a : Action} :
    ofJson j = .ok a ↔ ∃ fs, record ["annotation", "label", "collapsed"] j = .ok fs ∧
      optional fs "annotation" NoteKey.ofJson = .ok a.note ∧
      required fs "label" text = .ok a.label ∧
      defaulted fs "collapsed" false flag = .ok a.collapsed := by
  simp only [ofJson, bind_eq_ok_iff]
  constructor
  · rintro ⟨fs, hfs, _, hnote, _, hlabel, _, hcollapsed, ⟨⟩⟩
    exact ⟨fs, hfs, hnote, hlabel, hcollapsed⟩
  · rintro ⟨fs, hfs, hnote, hlabel, hcollapsed⟩
    exact ⟨fs, hfs, _, hnote, _, hlabel, _, hcollapsed, rfl⟩

theorem inOrder_fields (a : Action) : InOrder ["annotation", "label", "collapsed"] a.fields := by
  have hcollapsed : InOrder ["collapsed"]
      (if a.collapsed then [("collapsed", Json.bool true)] else []) := by
    split
    · exact inOrder_of_keys rfl
    · exact List.nil_sublist _
  exact ((inOrder_given "annotation" a.note).append
    (inOrder_singleton "label" (.str a.label))).append hcollapsed

/-- The flag is found if it is set. -/
@[simp] theorem at?_collapsed (c : Bool) (name : String) :
    Table.at? (if c then [("collapsed", Json.bool true)] else []) name =
      if "collapsed" = name then if c then some (.bool true) else none else none := by
  cases c <;> simp

theorem readsBack : ReadsBack toJson ofJson fun _ => True where
  read_write a _ := by
    have hcollapsed : defaulted a.fields "collapsed" false flag = .ok a.collapsed := by
      cases h : a.collapsed <;> simp [defaulted, fields, flag, h]
    exact ofJson_eq_ok_iff.2 ⟨_, a.inOrder_fields.record_eq (by simp),
      NoteKey.readsBack.optional (by simp [fields]) (by simp [NoteKey.toJson]) fun _ _ => trivial,
      readsBack_text.required (by simp [fields]) trivial, hcollapsed⟩
  exact_read _ _ _ := trivial

end Action

/-! ## Entities

The profile of an entity has its members among those of the entity. -/

namespace Entity

def payloads (e : Entity) : List Json := e.profile.payloads

def Exact (e : Entity) : Prop := e.profile.Exact

theorem ofJson_eq_ok_iff {j : Json} {e : Entity} :
    ofJson j = .ok e ↔ ∃ fs,
      record ["annotation", "label", "id", "value", "type", "slots"] j = .ok fs ∧
      optional fs "annotation" NoteKey.ofJson = .ok e.profile.note ∧
      required fs "label" text = .ok e.label ∧ optional fs "id" objectId = .ok e.profile.id ∧
      optional fs "value" anything = .ok e.profile.value ∧
      optional fs "type" text = .ok e.profile.type ∧
      defaulted fs "slots" [] (table Profile.ofJson) = .ok e.profile.slots := by
  obtain ⟨⟨id, note, value, type, slots⟩, label⟩ := e
  simp only [ofJson, bind_eq_ok_iff]
  constructor
  · rintro ⟨fs, hfs, _, hnote, _, hlabel, _, hid, _, hvalue, _, htype, _, hslots, ⟨⟩⟩
    exact ⟨fs, hfs, hnote, hlabel, hid, hvalue, htype, hslots⟩
  · rintro ⟨fs, hfs, hnote, hlabel, hid, hvalue, htype, hslots⟩
    exact ⟨fs, hfs, _, hnote, _, hlabel, _, hid, _, hvalue, _, htype, _, hslots, rfl⟩

theorem inOrder_fields (e : Entity) :
    InOrder ["annotation", "label", "id", "value", "type", "slots"] e.fields :=
  (((((inOrder_given "annotation" e.profile.note).append
    (inOrder_singleton "label" (.str e.label))).append
    (inOrder_given "id" e.profile.id)).append (inOrder_given "value" e.profile.value)).append
    (inOrder_given "type" e.profile.type)).append (inOrder_unlessEmpty "slots" _ e.profile.slots)

theorem readsBack : ReadsBack toJson ofJson Exact where
  read_write e he := by
    obtain ⟨hmerged, hnull, hslots⟩ := Profile.exact_iff.1 he
    exact ofJson_eq_ok_iff.2 ⟨_, e.inOrder_fields.record_eq (by simp),
      NoteKey.readsBack.optional (by simp [fields]) (by simp [NoteKey.toJson]) fun _ _ => trivial,
      readsBack_text.required (by simp [fields]) trivial,
      readsBack_objectId.optional (by simp [fields]) (by simp [writeObject]) fun _ _ => trivial,
      readsBack_anything.optional (by simp [fields]) hnull hmerged,
      readsBack_text.optional (by simp [fields]) (by simp) fun _ _ => trivial,
      (readsBack_table Profile.readsBack).defaulted (by simp [fields]) hslots⟩
  exact_read j e h := by
    obtain ⟨fs, -, -, -, -, hvalue, -, hslots⟩ := ofJson_eq_ok_iff.1 h
    exact Profile.exact_iff.2 ⟨readsBack_anything.exact_optional hvalue, ne_null_of_optional hvalue,
      (readsBack_table Profile.readsBack).exact_defaulted exactTable_nil hslots⟩

end Entity

/-! ## Nodes and links

A link may be empty. -/

namespace Node

def payloads : Node → List Json
  | .action _ => []
  | .entity e => e.payloads

def Typed : Node → Prop
  | .action _ => True
  | .entity e => e.profile.Typed

def Exact (n : Node) : Prop := n.Typed ∧ .null ∉ n.payloads

theorem readsBack : ReadsBack toJson ofJson Exact where
  read_write n hn := by
    cases n with
    | action a =>
      have hkind : "kind" ∉ Table.keys a.fields := a.inOrder_fields.not_mem (by simp)
      rw [toJson, ofJson, variant_obj hkind, ok_bind]
      exact congrArg (Except.map Node.action) (Action.readsBack.read_write a trivial)
    | entity e =>
      have hkind : "kind" ∉ Table.keys e.fields := e.inOrder_fields.not_mem (by simp)
      rw [toJson, ofJson, variant_obj hkind, ok_bind]
      exact congrArg (Except.map Node.entity) (Entity.readsBack.read_write e hn)
  exact_read j n h := by
    rw [ofJson, bind_eq_ok_iff] at h
    obtain ⟨⟨kind, rest⟩, -, h⟩ := h
    dsimp only at h
    split at h
    · obtain ⟨a, -, rfl⟩ := map_eq_ok_iff.1 h
      exact ⟨trivial, List.not_mem_nil⟩
    · obtain ⟨e, he, rfl⟩ := map_eq_ok_iff.1 h
      exact Entity.readsBack.exact_read _ e he
    · cases h

end Node

namespace Link

theorem ofJson_eq_ok_iff {j : Json} {l : Link} :
    ofJson j = .ok l ↔ ∃ fs, record ["id", "port"] j = .ok fs ∧
      optional fs "id" objectId = .ok l.id ∧ optional fs "port" text = .ok l.pin := by
  simp only [ofJson, bind_eq_ok_iff]
  constructor
  · rintro ⟨fs, hfs, _, hid, _, hpin, ⟨⟩⟩
    exact ⟨fs, hfs, hid, hpin⟩
  · rintro ⟨fs, hfs, hid, hpin⟩
    exact ⟨fs, hfs, _, hid, _, hpin, rfl⟩

theorem readsBack : ReadsBack toJson ofJson fun _ => True where
  read_write l _ := ofJson_eq_ok_iff.2 ⟨_,
    InOrder.record_eq ((inOrder_given "id" l.id).append (inOrder_given "port" l.pin)) (by simp),
    readsBack_objectId.optional (by simp) (by simp [writeObject]) fun _ _ => trivial,
    readsBack_text.optional (by simp) (by simp) fun _ _ => trivial⟩
  exact_read _ _ _ := trivial

end Link

end Annotated

/-! ## Graphs

The only values that are captured are those of entities. -/

namespace AnnotatedGraph

/-- The values that are captured of entities and in their slots. -/
def payloads (g : AnnotatedGraph) : List Json :=
  Graph.payloads Annotated.Node.payloads (fun _ => []) g

/-- Identities are distinct numbers of 128 bits. -/
def Typed (g : AnnotatedGraph) : Prop := Graph.Exact Annotated.Node.Typed (fun _ => True) g

theorem exact_iff {g : AnnotatedGraph} :
    Graph.Exact Annotated.Node.Exact (fun _ => True) g ↔ Typed g ∧ .null ∉ payloads g :=
  Graph.exact_and_true_iff

/-- Annotated graphs come back from their documents. -/
theorem ofJson_toJson {g : AnnotatedGraph} (h : Typed g) (hn : .null ∉ payloads g) :
    ofJson (toJson g) = .ok g.reseated :=
  Graph.ofJson_toJson Annotated.Node.readsBack Annotated.Link.readsBack (exact_iff.2 ⟨h, hn⟩)

end AnnotatedGraph

end ObjectFlow
