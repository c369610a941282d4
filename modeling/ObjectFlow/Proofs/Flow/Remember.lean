import ObjectFlow.Proofs.Flow.Steady
import ObjectFlow.Proofs.Table
import ObjectFlow.Store.Memory

/-!
# Recording with an annotator that remembers its answers

An annotator whose answers do not change may be asked once or every time: the recordings are the
same, as long as the functions that share a key share their answer (`remembering_absorb`). A method
of two classes of one name but of different ancestors does not, and then what is recorded of the
second class is told by the first (`remembering_confuses_heirs`).

## Outline

The recorder that remembers runs with another state than the one that asks afresh, but with the same
tape. So it is enough to find a relation of the two states that every answer keeps up
(`Flow.Concur`). This is `Memory.Recalls`: both annotators are in states that can be reached, and
every entry of the memory is the answer that the annotator gave at first. A question that is in the
memory is answered from it, any other one is asked and entered; in both cases the answer is the
first one, since the annotator is steady (`Memory.concur_function`, `Memory.concur_object`). For
functions this needs `Annotator.Keyed`, because an entry may have been made for another function
with the same key. Types are their own keys. The rest is the induction over events that holds for
any two such annotators (`Recorder.Concur.absorb`).
-/

namespace ObjectFlow

variable {σ : Type}

/-- Functions with the same key are answered alike. -/
def Annotator.Keyed (a : Annotator σ) (s : σ) (asked : List Callee) : Prop :=
  ∀ c ∈ asked, ∀ c' ∈ asked, c.key = c'.key → (a.function c s).1 = (a.function c' s).1

namespace Annotator.Keyed

variable {a : Annotator σ} {s t : σ} {asked asked' : List Callee}

/-- Fewer functions have fewer keys in common. -/
theorem mono (h : a.Keyed s asked) (hsub : asked' ⊆ asked) : a.Keyed s asked' :=
  fun c hc c' hc' => h c (hsub hc) c' (hsub hc')

/-- Steady answers keep on agreeing wherever they agreed at first. -/
theorem reached (h : a.Keyed s asked) (ha : a.Steady s) (ht : a.Reaches s t) : a.Keyed t asked := by
  intro c hc c' hc' hkey
  rw [ha.function_eq t ht c, ha.function_eq t ht c']
  exact h c hc c' hc' hkey

end Annotator.Keyed

namespace Memory

variable {a : Annotator σ} {s : σ} {asked : List Callee}

/-- What is remembered is what the annotator would say. -/
structure Recalls (a : Annotator σ) (s : σ) (asked : List Callee) (t : σ) (m : Memory σ) :
    Prop where
  reaches : a.Reaches s t
  reaches_state : a.Reaches s m.state
  functions : ∀ c ∈ asked, ∀ note, Table.at? m.functions c.key = some note →
    note = (a.function c s).1
  types : ∀ type note, Table.at? m.types type = some note → note = (a.object type s).1

/-- At first nothing is remembered. -/
theorem recalls_nothing (a : Annotator σ) (s : σ) (asked : List Callee) :
    Recalls a s asked s ⟨s, [], []⟩ :=
  ⟨.refl, .refl, fun _ _ _ h => (nomatch h), fun _ _ h => (nomatch h)⟩

/-- A function gets its first answer, from memory or not. -/
theorem concur_function (ha : a.Steady s) (hkeyed : a.Keyed s asked) {c : Callee}
    (hc : c ∈ asked) : Flow.Concur (Recalls a s asked) (a.function c) (function a c) := by
  intro t m h
  unfold function
  split
  · rename_i note hnote
    exact ⟨(ha.function_eq t h.reaches c).trans (h.functions c hc note hnote).symm,
      h.reaches.function c, h.reaches_state, h.functions, h.types⟩
  · refine ⟨(ha.function_eq t h.reaches c).trans (ha.function_eq m.state h.reaches_state c).symm,
      h.reaches.function c, h.reaches_state.function c, fun c' hc' note hnote => ?_, h.types⟩
    change Table.at? (Table.put m.functions c.key (a.function c m.state).1) c'.key = _ at hnote
    rw [Table.at?_put, ha.function_eq m.state h.reaches_state c] at hnote
    split at hnote
    · rename_i hkey
      exact (Option.some.inj hnote).symm.trans (hkeyed c hc c' hc' hkey.symm)
    · exact h.functions c' hc' note hnote

/-- A type gets its first answer, from memory or not. -/
theorem concur_object (ha : a.Steady s) (type : RuntimeType) :
    Flow.Concur (Recalls a s asked) (a.object type) (object a type) := by
  intro t m h
  unfold object
  split
  · rename_i note hnote
    exact ⟨(ha.object_eq t h.reaches type).trans (h.types type note hnote).symm,
      h.reaches.object type, h.reaches_state, h.functions, h.types⟩
  · refine ⟨(ha.object_eq t h.reaches type).trans (ha.object_eq m.state h.reaches_state type).symm,
      h.reaches.object type, h.reaches_state.object type, h.functions, fun type' note hnote => ?_⟩
    change Table.at? (Table.put m.types type (a.object type m.state).1) type' = _ at hnote
    rw [Table.at?_put, ha.object_eq m.state h.reaches_state type] at hnote
    split at hnote
    · rename_i heq
      exact heq ▸ (Option.some.inj hnote).symm
    · exact h.types type' note hnote

/-- Remembering changes no answer. -/
theorem concur (ha : a.Steady s) (hkeyed : a.Keyed s asked) :
    a.Concur (Recalls a s asked) asked a.remembering :=
  ⟨fun _ hc => concur_function ha hkeyed hc, concur_object ha⟩

end Memory

namespace Recorder

/-- With nothing remembered, a recorder starts like one that asks afresh. -/
theorem concur_start {a : Annotator σ} {state : σ} (ha : a.Steady state) {asked : List Callee}
    (hkeyed : a.Keyed state asked) (settings : Settings) (s : Supply) :
    (start a state settings s).Concur (Memory.Recalls a state asked) asked
      (start a.remembering ⟨state, [], []⟩ settings s) :=
  ⟨Memory.concur ha hkeyed, rfl, rfl, Memory.recalls_nothing a state asked⟩

/-- The tape is that of a recorder which asks afresh. -/
theorem tape_absorb_remembering {a : Annotator σ} {state : σ} (ha : a.Steady state)
    (settings : Settings) (s : Supply) {events : List Event}
    (hkeyed : a.Keyed state (events.map Event.callee)) :
    ((start a.remembering ⟨state, [], []⟩ settings s).absorb events).tape =
      ((start a state settings s).absorb events).tape :=
  ((concur_start ha hkeyed settings s).absorb fun _ he => List.mem_map_of_mem he).tape.symm

/-- What is recorded does not depend on what is remembered, wherever functions that share a key
share their answer. -/
theorem remembering_absorb (a : Annotator σ) {state : σ} (ha : a.Steady state)
    (settings : Settings) (s : Supply) (events : List Event)
    (hkeyed : a.Keyed state (events.map Event.callee)) :
    let cached := start a.remembering ⟨state, [], []⟩ settings s
    let fresh := start a state settings s
    (cached.absorb events).tape = (fresh.absorb events).tape ∧
      (cached.extend events).1 = (fresh.extend events).1 ∧
      (cached.extend events).2.tape = (fresh.extend events).2.tape := by
  obtain ⟨hval, hnext⟩ := (concur_start ha hkeyed settings s).extend fun _ he =>
    List.mem_map_of_mem he
  exact ⟨tape_absorb_remembering ha settings s hkeyed, hval.symm, hnext.tape.symm⟩

/-! ## A method of two classes of the same name

The key of a function holds the module and the name of the class it is bound to, and not the classes
that this one descends from, by which the annotator decides. -/

/-- Knows the methods of the classes that descend from a class. -/
def heirs (ancestor : String) (note : Note) : Annotator Unit :=
  ⟨fun c s => (if c.boundType.any (·.lineage.contains ancestor) then some note else none, s),
    fun _ s => (none, s)⟩

/-- What is known of the heirs of a class does not change. -/
theorem steady_heirs (ancestor : String) (note : Note) : (heirs ancestor note).Steady () :=
  ⟨fun _ _ _ => rfl, fun _ _ _ => rfl⟩

/-- A note on the method of `m.B`. -/
def fitting : Note := ⟨"python", "m", "fit", .morphism, none, some "fit", ["m.B"], none, [], [], []⟩

/-- A call of the method by a receiver whose class has the ancestors given. -/
def fit (bases : List String) : List Event :=
  let c : Invocation := ⟨⟨"m", "C.fit", some ⟨"m", "C", bases⟩⟩, true, []⟩
  [.call c, .ret ⟨c, .none⟩]

/-- The notes on the calls that are recorded at the top. -/
def notesOf (r : Recorder σ) : Option (List (Option NoteKey)) :=
  r.tape.recording.rootGraph?.map fun f => f.calls.map fun c => c.2.note

/-- Both calls of one class get their note, from memory or not. -/
theorem remembering_absorb_fit :
    let a := heirs "m.B" fitting
    let events := fit ["m.B"] ++ fit ["m.B"]
    a.Keyed () (events.map Event.callee) ∧
      notesOf ((start a.remembering ⟨(), [], []⟩ {} ⟨0⟩).absorb events) =
        some [some fitting.key, some fitting.key] := by
  intro a events
  have hkeyed : a.Keyed () (events.map Event.callee) := by
    unfold Annotator.Keyed
    decide +kernel
  have h := (remembering_absorb a (steady_heirs _ _) {} ⟨0⟩ events hkeyed).1
  refine ⟨hkeyed, ?_⟩
  unfold notesOf
  rw [h]
  decide +kernel

/-- The second class of a name is taken for the first, which has no such ancestor: its method goes
without the note that it gets when it is asked for. -/
theorem remembering_confuses_heirs :
    let a := heirs "m.B" fitting
    let events := fit [] ++ fit ["m.B"]
    a.Steady () ∧
      notesOf ((start a.remembering ⟨(), [], []⟩ {} ⟨0⟩).absorb events) = some [none, none] ∧
      notesOf ((start a () {} ⟨0⟩).absorb events) = some [none, some fitting.key] :=
  ⟨steady_heirs _ _, by decide +kernel, by decide +kernel⟩

end Recorder

end ObjectFlow
