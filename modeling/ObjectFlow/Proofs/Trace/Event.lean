import ObjectFlow.Proofs.Trace.Document
import ObjectFlow.Trace.Event

/-!
# Reading events back

An event is read back from its document, unless a number in it cannot be written. A document that
does not say which kind of event it holds is refused for that, and no other document is
(`ofJson_exact`).

A return holds the members of its call and one more. So the members of a call are read with any
others behind them (`Invocation.ofFields_append`), and this serves both kinds of event. What an
event asks of its arguments is `Tabular`, and what may get lost in it is `isWritable`. Both are
those of the values in it, taken together.
-/

namespace ObjectFlow

open Document Outcome

/-! ## Callees

All members of a callee but the last must be there. -/

/-- A callee is read where each of its members is. -/
theorem Callee.ofJson_eq_ok_iff {j : Json} {f : Callee} :
    ofJson j = .ok f ↔ ∃ fs, record ["module", "qualified_name", "bound_type"] j = .ok fs ∧
      required fs "module" text = .ok f.module ∧
      required fs "qualified_name" text = .ok f.qualifiedName ∧
      optional fs "bound_type" RuntimeType.ofJson = .ok f.boundType := by
  simp only [ofJson, bind_eq_ok_iff]
  constructor
  · rintro ⟨fs, hfs, module, hmodule, qualifiedName, hname, boundType, hbound, ⟨⟩⟩
    exact ⟨fs, hfs, hmodule, hname, hbound⟩
  · rintro ⟨fs, hfs, hmodule, hname, hbound⟩
    exact ⟨fs, hfs, _, hmodule, _, hname, _, hbound, rfl⟩

/-- A callee is read back from its document. -/
theorem Callee.readsBack : ReadsBack toJson ofJson fun _ => True where
  read_write f _ := ofJson_eq_ok_iff.2 ⟨_,
    InOrder.record_eq ((inOrder_of_keys (by rfl)).append (inOrder_given "bound_type" f.boundType))
      (by simp),
    readsBack_text.required (by simp) trivial, readsBack_text.required (by simp) trivial,
    RuntimeType.readsBack.optional (by simp) (by simp [RuntimeType.toJson]) fun _ _ => trivial⟩
  exact_read _ _ _ := trivial

/-! ## Calls and their ends

The members of a document are read in whatever order they stand, but writing fixes one. -/

namespace Invocation

/-- Arguments have distinct names, and so have the attributes of each object in them. -/
structure Tabular (c : Invocation) : Prop where
  names : (Table.keys c.arguments).Nodup
  values : Snapshot.everyAttribute Snapshot.isTabular c.arguments

/-- All numbers in the arguments can be written. -/
def isWritable (c : Invocation) : Bool :=
  Snapshot.everyAttribute Snapshot.isWritable c.arguments

/-- The members are written in the order of their names in the record. -/
theorem inOrder_fields (c : Invocation) : InOrder names c.fields := inOrder_of_keys rfl

/-- Further members do not matter, if they stand behind. -/
theorem ofFields_append {c : Invocation} (hc : c.Tabular) (origin : Origin)
    (more : List (String × Json)) : ofFields origin (c.fields ++ more) = readIf c.isWritable c := by
  have hfunction : required (c.fields ++ more) "function" Callee.ofJson = .ok c.function :=
    Callee.readsBack.required (by simp [fields]) trivial
  have hatomic : defaulted (c.fields ++ more) "atomic" true flag = .ok c.atomic := by
    simp [defaulted, fields, flag]
  have harguments : defaulted (c.fields ++ more) "arguments" [] (table (Snapshot.ofJson origin)) =
      readIf c.isWritable c.arguments := by
    have hat : Table.at? (c.fields ++ more) "arguments" =
        some (writeTable Snapshot.toJson c.arguments) := by
      simp [fields]
    rw [defaulted, hat]
    exact Snapshot.table_writeTable hc.names hc.values
  rw [ofFields, hfunction, ok_bind, hatomic, ok_bind, harguments]
  exact readIf_bind_pure _ _ (Invocation.mk c.function c.atomic)

end Invocation

namespace Completion

/-- Names are distinct in the call and in the value that it returns. -/
structure Tabular (r : Completion) : Prop where
  call : r.call.Tabular
  value : r.value.every Snapshot.isTabular

/-- All numbers in the arguments and in the returned value can be written. -/
def isWritable (r : Completion) : Bool := r.call.isWritable && r.value.every Snapshot.isWritable

/-- A completion is read back from the members of its call and its value. -/
theorem ofFields_eq {r : Completion} (hr : r.Tabular) :
    ofFields (r.call.fields ++ [("return_value", r.value.toJson)]) = readIf r.isWritable r := by
  have hvalue : defaulted (r.call.fields ++ [("return_value", r.value.toJson)]) "return_value" .none
      (Snapshot.ofJson .aside) = readIf (r.value.every Snapshot.isWritable) r.value := by
    have hat : Table.at? (r.call.fields ++ [("return_value", r.value.toJson)]) "return_value" =
        some r.value.toJson := by
      simp [Invocation.fields]
    rw [defaulted, hat]
    exact Snapshot.ofJson_toJson r.value hr.value
  rw [ofFields, Invocation.ofFields_append hr.call, hvalue]
  exact readIf_bind (readIf_bind_pure _ _ (Completion.mk r.call))

end Completion

/-! ## Events

Which kind of event a document holds is read first. All errors after that are told as one. -/

namespace Event

/-- No two arguments of the event have the same name, nor two attributes of an object in it. -/
def Tabular : Event → Prop
  | .call c => c.Tabular
  | .ret r => r.Tabular

/-- All numbers in the event can be written. -/
def isWritable : Event → Bool
  | .call c => c.isWritable
  | .ret r => r.isWritable

variable {j : Json}

/-- A document that says so is read as a call. -/
theorem ofJson_of_call (h : j.member? "event" = some (.str "call")) :
    ofJson j = Except.mapError (fun _ => .malformed) do
      let fs ← record Invocation.names j
      let c ← Invocation.ofFields .aside fs
      return .call c := by
  rw [ofJson, h]
  rfl

/-- A document that says so is read as a return. -/
theorem ofJson_of_return (h : j.member? "event" = some (.str "return")) :
    ofJson j = Except.mapError (fun _ => .malformed) do
      let fs ← record (Invocation.names ++ ["return_value"]) j
      let r ← Completion.ofFields fs
      return .ret r := by
  rw [ofJson, h]
  rfl

/-- A document that is not whole is malformed. -/
theorem mapError_readIf (whole : Bool) (e : Event) :
    (readIf whole e).mapError (fun _ => EventError.malformed) =
      if whole then .ok e else .error .malformed := by
  cases whole <;> rfl

/-- Either kind of event is read back if it could be written. -/
theorem ofJson_toJson {e : Event} (he : e.Tabular) :
    ofJson e.toJson = if e.isWritable then .ok e else .error .malformed := by
  cases e with
  | call c =>
    have hrecord : record Invocation.names (.obj (("event", .str "call") :: c.fields)) =
        .ok c.fields := by
      rw [record_cons_of_not_mem (by decide), c.inOrder_fields.record_eq (by decide)]
    have hfields := Invocation.ofFields_append he .aside []
    rw [List.append_nil] at hfields
    rw [ofJson_of_call rfl, toJson, hrecord, ok_bind, hfields, readIf_bind_pure]
    exact mapError_readIf _ _
  | ret r =>
    have hrecord : record (Invocation.names ++ ["return_value"])
        (.obj (("event", .str "return") :: r.call.fields ++ [("return_value", r.value.toJson)])) =
        .ok (r.call.fields ++ [("return_value", r.value.toJson)]) := by
      rw [List.cons_append, record_cons_of_not_mem (by decide),
        (r.call.inOrder_fields.append (inOrder_singleton "return_value" _)).record_eq (by decide)]
    rw [ofJson_of_return rfl, toJson, hrecord, ok_bind, Completion.ofFields_eq he, readIf_bind_pure]
    exact mapError_readIf _ _

/-- Only a document of neither kind is not recognized. -/
theorem unrecognized_iff :
    (∃ kind, ofJson j = .error (.unrecognized kind)) ↔
      j.member? "event" ≠ some (.str "call") ∧ j.member? "event" ≠ some (.str "return") := by
  constructor
  · rintro ⟨kind, h⟩
    constructor
    · intro hcall
      obtain ⟨_, -, heq⟩ := mapError_eq_error_iff.1 ((ofJson_of_call hcall).symm.trans h)
      cases heq
    · intro hreturn
      obtain ⟨_, -, heq⟩ := mapError_eq_error_iff.1 ((ofJson_of_return hreturn).symm.trans h)
      cases heq
  · rintro ⟨hcall, hreturn⟩
    unfold ofJson
    split
    · exact absurd ‹_› hcall
    · exact absurd ‹_› hreturn
    all_goals exact ⟨_, rfl⟩

/--
An event is read back from its document just if all numbers in it can be written, and a document is
refused as one of no known kind just if it does not say that it holds a call or a return.
-/
theorem ofJson_exact {e : Event} (he : e.Tabular) (j : Json) :
    (ofJson e.toJson = if e.isWritable then .ok e else .error .malformed) ∧
      ((∃ kind, ofJson j = .error (.unrecognized kind)) ↔
        j.member? "event" ≠ some (.str "call") ∧ j.member? "event" ≠ some (.str "return")) :=
  ⟨ofJson_toJson he, unrecognized_iff⟩

/-- A method of a base class ends: its argument is an object that holds a table by pairs. -/
def fitted : Event :=
  let frame : RuntimeType := ⟨"frames", "Frame", ["frames.Table", "builtins.object"]⟩
  let half : Snapshot := .float ⟨false, 1022, 0⟩
  let entries : List (Snapshot × Snapshot) :=
    [(.tuple [.int 1, .none], .list [half, .bytes [0, 255]]),
      (.str "half", .set [.method "scale" none, .untracked frame])]
  .ret ⟨⟨⟨"frames", "Table.fit", some frame⟩, false,
    [("self", .object ⟨"7"⟩ frame [("cells", .dict entries), ("empty", .bool true)]),
      ("rows", .dict [])]⟩, .object ⟨"8"⟩ ⟨"builtins", "int", []⟩ []⟩

/-- The end of the method is read back, and a third kind of event is not recognized. -/
theorem ofJson_exact_fitted :
    fitted.Tabular ∧ ofJson fitted.toJson = .ok fitted ∧
      ∃ kind, ofJson (.obj [("event", .str "yield")]) = .error (.unrecognized kind) := by
  have hnames : fitted.Tabular := ⟨⟨by decide, by decide⟩, by decide⟩
  obtain ⟨hread, hkind⟩ := ofJson_exact hnames (.obj [("event", .str "yield")])
  exact ⟨hnames, hread, hkind.2 (by simp [Json.member?, Table.at?])⟩

end Event

end ObjectFlow
