import ObjectFlow.Proofs.Flow.Exchange
import ObjectFlow.Flow.Recorder

/-!
# Annotators that answer alike

Two annotators may keep different states and still give the same answers. A relation between their
states that every answer keeps up is enough: what goes into a call and what comes out is then the
same (`Annotator.Concur.entrance`, `Annotator.Concur.departure`), and so is all that is recorded of
a run of events (`Recorder.Concur.absorb`).

The proofs follow the definitions. `Flow.Concur` is closed under `pure`, `>>=` and `mapM`, which are
all that the description of an event is made of, and asks of the annotators only the functions that
are called. A recorder passes on the state that it is left with, also where it refuses an event, so
related recorders stay related whatever happens (`Recorder.Concur.push`).

The relation is a parameter, as it is another one for every pair: a recorder that remembers its
answers beside one that does not (`Memory.Recalls`), or one annotator at two times
(`Annotator.Steady.concur`).
-/

namespace ObjectFlow

variable {σ τ α β : Type}

namespace Flow

/-- From related states both give the same result and leave related states. -/
def Concur (R : σ → τ → Prop) (m : StateM σ α) (m' : StateM τ α) : Prop :=
  ∀ s t, R s t → (m s).1 = (m' t).1 ∧ R (m s).2 (m' t).2

variable {R : σ → τ → Prop}

theorem concur_pure (x : α) : Concur R (pure x : StateM σ α) (pure x) := fun _ _ h => ⟨rfl, h⟩

/-- What is asked next may depend on what was answered. -/
theorem Concur.bind {m : StateM σ α} {m' : StateM τ α} {f : α → StateM σ β} {f' : α → StateM τ β}
    (hm : Concur R m m') (hf : ∀ x, Concur R (f x) (f' x)) : Concur R (m >>= f) (m' >>= f') := by
  intro s t h
  obtain ⟨hval, hnext⟩ := hm s t h
  have hend := hf (m s).1 (m s).2 (m' t).2 hnext
  have hstart : f' (m s).1 = f' (m' t).1 := congrArg f' hval
  rw [hstart] at hend
  exact hend

/-- The same is asked of every member of a list. -/
theorem concur_mapM {f : α → StateM σ β} {f' : α → StateM τ β} (hf : ∀ x, Concur R (f x) (f' x))
    (xs : List α) : Concur R (xs.mapM f) (xs.mapM f') := by
  induction xs with
  | nil => exact concur_pure []
  | cons x xs ih =>
    rw [List.mapM_cons, List.mapM_cons]
    exact (hf x).bind fun _ => ih.bind fun _ => concur_pure _

end Flow

/-- The answers about some functions, and about all types, are the same. -/
structure Annotator.Concur (R : σ → τ → Prop) (asked : List Callee) (a : Annotator σ)
    (b : Annotator τ) : Prop where
  function : ∀ c ∈ asked, Flow.Concur R (a.function c) (b.function c)
  object : ∀ type, Flow.Concur R (a.object type) (b.object type)

namespace Annotator.Concur

open ObjectFlow.Flow

variable {R : σ → τ → Prop} {asked : List Callee} {a : Annotator σ} {b : Annotator τ}

/-- Values are noted alike. -/
theorem noteOn (h : a.Concur R asked b) (v : Snapshot) :
    Flow.Concur R (noteOn a v) (noteOn b v) := by
  unfold Flow.noteOn
  split
  · exact (h.object _).bind fun _ => concur_pure _
  · exact concur_pure _

/-- Pins are described alike. -/
theorem pinFor (h : a.Concur R asked b) (side : Side) (argument : String) (position : Option Nat)
    (value : Option Snapshot) :
    Flow.Concur R (pinFor a side argument position value) (pinFor b side argument position value) := by
  unfold Flow.pinFor
  split
  · exact (h.noteOn _).bind fun _ => concur_pure _
  · exact concur_pure _

/-- References are described alike. -/
theorem referenceTo (h : a.Concur R asked b) (o : TrackedObject) :
    Flow.Concur R (referenceTo a o) (referenceTo b o) :=
  (h.noteOn _).bind fun _ => concur_pure _

/-- The slots of an object are described alike. -/
theorem slotsOf (h : a.Concur R asked b) (o : TrackedObject) :
    Flow.Concur R (slotsOf a o) (slotsOf b o) := by
  refine (h.object _).bind fun note => ?_
  split
  · exact concur_pure _
  · split
    · exact concur_pure _
    · exact (concur_mapM (fun _ => (h.noteOn _).bind fun _ => concur_pure _) _).bind
        fun _ => concur_pure _

/-- What goes into a call is described alike. -/
theorem entrance (h : a.Concur R asked b) (settings : Settings) {c : Invocation}
    (hc : c.function ∈ asked) :
    Flow.Concur R (entrance a settings c) (entrance b settings c) :=
  (h.function _ hc).bind fun _ =>
    (concur_mapM (fun _ => (h.pinFor _ _ _ _).bind fun _ => concur_pure _) _).bind
      fun _ => (concur_mapM (fun _ => (h.referenceTo _).bind fun _ => concur_pure _) _).bind
        fun _ => concur_pure _

/-- What comes out of a call is described alike. -/
theorem departure (h : a.Concur R asked b) (settings : Settings) {r : Completion}
    (hr : r.call.function ∈ asked) :
    Flow.Concur R (departure a settings r) (departure b settings r) := by
  refine (h.function _ hr).bind fun note =>
    (concur_mapM (fun _ => (h.pinFor _ _ _ _).bind fun _ => concur_pure _) _).bind
      fun _ => (concur_mapM (fun p => ?_) _).bind fun _ => concur_pure _
  refine (h.referenceTo _).bind fun _ => ?_
  split
  · exact (h.slotsOf _).bind fun _ => concur_pure _
  · exact (concur_pure _).bind fun _ => concur_pure _

end Annotator.Concur

/-- The function that an event calls or returns from. -/
def Event.callee : Event → Callee
  | .call c => c.function
  | .ret e => e.call.function

/-! ## Recorders

The tapes of the two recorders are equal. An outcome that depends on the tape and on a description
is then the same for both. -/

/-- The same is recorded, by annotators that answer alike and are in related states. -/
structure Recorder.Concur (R : σ → τ → Prop) (asked : List Callee) (r : Recorder σ)
    (r' : Recorder τ) : Prop where
  annotators : r.annotator.Concur R asked r'.annotator
  settings : r.settings = r'.settings
  tape : r.tape = r'.tape
  state : R r.state r'.state

namespace Recorder.Concur

variable {R : σ → τ → Prop} {asked : List Callee} {r : Recorder σ} {r' : Recorder τ}

/-- Both may go on from another tape, and from any related states. -/
theorem move (h : r.Concur R asked r') (t : Tape) {s : σ} {s' : τ} (hs : R s s') :
    Recorder.Concur R asked { r with tape := t, state := s }
      { r' with settings := r.settings, tape := t, state := s' } :=
  ⟨h.annotators, rfl, rfl, hs⟩

/-- Both take the outcome, or stay where they are. -/
theorem settle (h : r.Concur R asked r') (outcome : Except FlowError Tape) :
    (r.settle outcome).1 = (r'.settle outcome).1 ∧
      (r.settle outcome).2.Concur R asked (r'.settle outcome).2 := by
  cases outcome with
  | ok t => exact ⟨rfl, h.annotators, h.settings, rfl, h.state⟩
  | error e => exact ⟨rfl, h⟩

/-- A call begins alike. -/
theorem begin (h : r.Concur R asked r') {c : Invocation} (hc : c.function ∈ asked) :
    (r.begin c).1 = (r'.begin c).1 ∧ (r.begin c).2.Concur R asked (r'.begin c).2 := by
  obtain ⟨hval, hnext⟩ := h.annotators.entrance r.settings hc _ _ h.state
  unfold Recorder.begin
  rw [← h.settings, ← h.tape]
  generalize Flow.entrance r.annotator r.settings c r.state = x at hval hnext ⊢
  generalize Flow.entrance r'.annotator r.settings c r'.state = y at hval hnext ⊢
  obtain ⟨⟨e, s⟩, ⟨_, t⟩⟩ := x, y
  obtain rfl : e = _ := hval
  exact (h.move r.tape hnext).settle _

/-- A call ends alike. -/
theorem finish (h : r.Concur R asked r') (node : NodeId) {e : Completion}
    (he : e.call.function ∈ asked) :
    (r.finish node e).1 = (r'.finish node e).1 ∧
      (r.finish node e).2.Concur R asked (r'.finish node e).2 := by
  unfold Recorder.finish
  rw [← h.tape]
  split
  · exact h.settle _
  dsimp only
  split
  · exact ⟨rfl, h⟩
  · obtain ⟨hval, hnext⟩ := h.annotators.departure r.settings he _ _ h.state
    rw [← h.settings]
    generalize Flow.departure r.annotator r.settings e r.state = x at hval hnext ⊢
    generalize Flow.departure r'.annotator r.settings e r'.state = y at hval hnext ⊢
    obtain ⟨⟨d, s⟩, ⟨_, t⟩⟩ := x, y
    obtain rfl : d = _ := hval
    exact (h.move _ hnext).settle _

/-- An event is recorded alike, or refused alike. -/
theorem push (h : r.Concur R asked r') {e : Event} (he : e.callee ∈ asked) :
    (r.push e).1 = (r'.push e).1 ∧ (r.push e).2.Concur R asked (r'.push e).2 := by
  cases e with
  | call c => exact h.begin he
  | ret e =>
    simp only [Recorder.push, ← h.tape, ← h.settings]
    rcases r.tape.pop e with ⟨cause | node, tape⟩
    · exact ⟨rfl, h.move tape h.state⟩
    · exact (h.move tape h.state).finish node he

/-- A run of events is recorded alike, whether some of them are refused or not. -/
theorem absorb (h : r.Concur R asked r') {events : List Event}
    (hasked : ∀ e ∈ events, e.callee ∈ asked) :
    (r.absorb events).Concur R asked (r'.absorb events) := by
  induction events generalizing r r' with
  | nil => exact h
  | cons e events ih =>
    exact ih (h.push (hasked e List.mem_cons_self)).2
      fun e' he' => hasked e' (List.mem_cons_of_mem e he')

/-- A run of events up to the first that is refused is recorded alike. -/
theorem extend (h : r.Concur R asked r') {events : List Event}
    (hasked : ∀ e ∈ events, e.callee ∈ asked) :
    (r.extend events).1 = (r'.extend events).1 ∧
      (r.extend events).2.Concur R asked (r'.extend events).2 := by
  induction events generalizing r r' with
  | nil => exact ⟨rfl, h⟩
  | cons e events ih =>
    obtain ⟨hval, hnext⟩ := h.push (hasked e List.mem_cons_self)
    unfold Recorder.extend
    generalize r.push e = x at hval hnext ⊢
    generalize r'.push e = y at hval hnext ⊢
    obtain ⟨⟨outcome, s⟩, ⟨_, t⟩⟩ := x, y
    obtain rfl : outcome = _ := hval
    rcases outcome with cause | ⟨⟩
    · exact ⟨rfl, hnext⟩
    · exact ih hnext fun e' he' => hasked e' (List.mem_cons_of_mem e he')

end Recorder.Concur

end ObjectFlow
