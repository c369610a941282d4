import ObjectFlow.Flow.Exchange
import ObjectFlow.Proofs.Table

/-!
# Answers of an annotator

Whatever an annotator answers, the references to an object carry its identity, and the pins of a
call have the names and the objects that the event gives them.

The description of an event is a chain of questions to the annotator, in which each answer may
depend on the state that the former ones left. What is stated here are the parts that do not depend
on answers: `map_mapM` reads them off the questions, and `exists_of_mem_mapM` brings each result
back to one question, asked in some state. All later proofs use the description through these
statements only.
-/

namespace ObjectFlow.Flow

variable {σ α β γ : Type}

/-- The first question is asked first, and the others in the state that it leaves. -/
theorem mapM_cons_apply (f : α → StateM σ β) (a : α) (as : List α) (s : σ) :
    (a :: as).mapM f s = ((f a s).1 :: (as.mapM f (f a s).2).1, (as.mapM f (f a s).2).2) := by
  rw [List.mapM_cons]
  rfl

/-- Each result of a chain of questions answers one of them, asked at some time. -/
theorem exists_of_mem_mapM {f : α → StateM σ β} {as : List α} {s : σ} {b : β}
    (h : b ∈ (as.mapM f s).1) : ∃ a ∈ as, ∃ s', b = (f a s').1 := by
  induction as generalizing s with
  | nil => cases h
  | cons a as ih =>
    rw [mapM_cons_apply] at h
    rcases List.mem_cons.1 h with rfl | h
    · exact ⟨a, List.mem_cons_self, s, rfl⟩
    · obtain ⟨a', ha', s', rfl⟩ := ih h
      exact ⟨a', List.mem_cons_of_mem _ ha', s', rfl⟩

/-- What depends on the questions alone can be read off the answers in their order. -/
theorem map_mapM {f : α → StateM σ β} {g : β → γ} {h : α → γ} (hf : ∀ a s, g (f a s).1 = h a)
    (as : List α) (s : σ) : (as.mapM f s).1.map g = as.map h := by
  induction as generalizing s with
  | nil => rfl
  | cons a as ih => rw [mapM_cons_apply, List.map_cons, List.map_cons, hf, ih]

/-- A pin has the side that it is made for. -/
theorem side_pinFor (a : Annotator σ) (side : Side) (argument : String) (position : Option Nat)
    (value : Option Snapshot) (s : σ) : (pinFor a side argument position value s).1.side = side := by
  cases value <;> rfl

/-- A pin has the identity of its value. -/
theorem id_pinFor (a : Annotator σ) (side : Side) (argument : String) (position : Option Nat)
    (value : Option Snapshot) (s : σ) :
    (pinFor a side argument position value s).1.id = value.bind Snapshot.objectId? := by
  cases value <;> rfl

/-! ## What goes in

An argument that is an object arrives itself, and with hidden members tracked also the objects that
a container holds, each of them once. -/

/-- Of several members with one identity the first is taken. -/
theorem ids_distinctObjects (os : List TrackedObject) (seen : List ObjectId) :
    (Snapshot.distinctObjects os seen).map TrackedObject.id =
      ((os.map TrackedObject.id).filter fun o => !seen.contains o).eraseDups := by
  induction os generalizing seen with
  | nil => rfl
  | cons o os ih =>
    rw [Snapshot.distinctObjects, List.map_cons]
    by_cases h : seen.contains o.id = true
    · rw [if_pos h, ih, List.filter_cons_of_neg (by rw [h]; exact Bool.false_ne_true)]
    · rw [if_neg h, List.map_cons, ih, List.filter_cons_of_pos (by simpa using h),
        List.eraseDups_cons, List.filter_filter]
      congr 2
      refine List.filter_congr fun o' _ => ?_
      rw [List.contains_cons, Bool.not_or]

/-- The objects that a value is or, if it is a container, may hold directly, each of them once. -/
def referred (held : Bool) (v : Snapshot) : List ObjectId :=
  v.objectId?.toList ++ if held then (v.members.filterMap Snapshot.objectId?).eraseDups else []

/-- Which objects arrive by which arguments is told by the values. -/
theorem map_arriving (settings : Settings) (c : Invocation) :
    (arriving settings c).map (fun x => (x.1, x.2.id)) =
      c.arguments.flatMap fun e => (referred settings.trackHidden e.2).map fun o => (e.1, o) := by
  have hheld : ∀ v : Snapshot, v.heldObjects.map TrackedObject.id =
      (v.members.filterMap Snapshot.objectId?).eraseDups := by
    intro v
    rw [Snapshot.heldObjects, ids_distinctObjects, List.map_filterMap]
    exact congrArg List.eraseDups (List.filter_eq_self.2 fun _ _ => rfl)
  rw [arriving, List.map_flatMap]
  refine congrArg (fun f => c.arguments.flatMap f) (funext fun e => ?_)
  rw [List.map_map, referred, ← hheld, List.map_append, List.map_append]
  have hself : ∀ v : Snapshot, v.objectId?.toList = v.object?.toList.map TrackedObject.id := by
    intro v
    rw [Snapshot.objectId?]
    cases v.object? <;> rfl
  rw [hself, List.map_map]
  cases settings.trackHidden with
  | true => simp only [if_true, List.map_map]; rfl
  | false => rfl

/-- There is a pin for every argument. -/
theorem keys_entrance_pins (a : Annotator σ) (settings : Settings) (c : Invocation) (s : σ) :
    Table.keys (entrance a settings c s).1.pins = Table.keys c.arguments :=
  map_mapM (g := Prod.fst) (h := Prod.fst) (fun _ _ => rfl) c.arguments _

/-- An input pin has the object of its argument. -/
theorem mem_entrance_pins {a : Annotator σ} {settings : Settings} {c : Invocation} {s : σ}
    {x : String} {pin : Pin} (h : (x, pin) ∈ (entrance a settings c s).1.pins) :
    ∃ v, (x, v) ∈ c.arguments ∧ pin.side = .input ∧ pin.id = v.objectId? := by
  obtain ⟨⟨x', v⟩, hv, s', heq⟩ := exists_of_mem_mapM h
  cases heq
  exact ⟨v, hv, rfl, rfl⟩

/-- A value that holds objects is none itself. -/
theorem objectId?_eq_none_of_held {v : Snapshot} {o : TrackedObject} (h : o ∈ v.heldObjects) :
    v.objectId? = none := by
  cases v <;> first | rfl | cases h

/-- What arrives is an argument or is held by one. -/
theorem mem_entrance_arrivals {a : Annotator σ} {settings : Settings} {c : Invocation} {s : σ}
    {x : Arrival} (h : x ∈ (entrance a settings c s).1.arrivals) :
    ∃ v, (x.argument, v) ∈ c.arguments ∧ (v.objectId? = some x.object ∨
      v.objectId? = none ∧ x.object ∈ v.heldObjects.map TrackedObject.id) := by
  obtain ⟨⟨name, o⟩, ho, s', rfl⟩ := exists_of_mem_mapM h
  obtain ⟨⟨name', v⟩, hv, hmem⟩ := List.mem_flatMap.1 ho
  obtain ⟨o', ho', heq⟩ := List.mem_map.1 hmem
  cases heq
  refine ⟨v, hv, ?_⟩
  rcases List.mem_append.1 ho' with ho' | ho'
  · exact .inl (congrArg (Option.map TrackedObject.id) (Option.mem_toList.1 ho'))
  · have hheld : o ∈ v.heldObjects := by
      split at ho'
      · exact ho'
      · cases ho'
    exact .inr ⟨objectId?_eq_none_of_held hheld, List.mem_map_of_mem hheld⟩

/-- What arrives does not depend on the annotator. -/
theorem map_entrance_arrivals (a : Annotator σ) (settings : Settings) (c : Invocation) (s : σ) :
    (entrance a settings c s).1.arrivals.map (fun x => (x.argument, x.object)) =
      (arriving settings c).map fun x => (x.1, x.2.id) :=
  map_mapM (g := fun x : Arrival => (x.argument, x.object))
    (h := fun x : String × TrackedObject => (x.1, x.2.id)) (fun _ _ => rfl) _ _

/-- A reference that arrives carries the identity of its object. -/
theorem entrance_identified (a : Annotator σ) (settings : Settings) (c : Invocation) (s : σ) :
    ∀ x ∈ (entrance a settings c s).1.arrivals, x.reference.id = some x.object := by
  intro x hx
  obtain ⟨e, -, s', rfl⟩ := exists_of_mem_mapM hx
  rfl

/-! ## What comes out

Which arguments a call leaves as they are is told by the note on its function, so what comes out
depends on this answer, and on no other one. -/

/-- An object is a value again. -/
theorem eq_value_of_object? {v : Snapshot} {o : TrackedObject} (h : v.object? = some o) :
    v = o.value := by
  cases v <;> cases h
  rfl

/--
An object comes out as the result, as a member of a tuple that is the result, or as an argument that
the call does not leave as it is.
-/
theorem mem_produced {r : Completion} {note : Option Note} {pin : String} {o : TrackedObject} :
    (pin, o) ∈ produced r note ↔ r.value = o.value ∧ pin = resultPin ∨
      (∃ items i, r.value = .tuple items ∧ items[i]? = some o.value ∧ pin = memberPin i) ∨
      ∃ x, (x, o.value) ∈ r.call.arguments ∧ isPure r.call note x = false ∧ pin = changedPin x := by
  rw [produced, List.mem_append, ← or_assoc]
  refine or_congr ?_ ?_
  · split
    · rename_i items hr
      rw [hr]
      simp only [List.mem_filterMap, Option.map_eq_some_iff, Prod.mk.injEq, Prod.exists,
        List.mk_mem_zipIdx_iff_getElem?, Snapshot.tuple.injEq]
      constructor
      · rintro ⟨v, i, hi, o', ho, rfl, rfl⟩
        exact .inr ⟨items, i, rfl, eq_value_of_object? ho ▸ hi, rfl⟩
      · rintro (⟨hv, -⟩ | ⟨_, i, rfl, hi, rfl⟩)
        · cases hv
        · exact ⟨_, i, hi, o, rfl, rfl, rfl⟩
    · rename_i hno
      simp only [List.mem_map, Option.mem_toList, Prod.mk.injEq]
      constructor
      · rintro ⟨o', ho, rfl, rfl⟩
        exact .inl ⟨eq_value_of_object? ho, rfl⟩
      · rintro (⟨hv, rfl⟩ | ⟨items, i, hv, -⟩)
        · exact ⟨o, by rw [hv]; rfl, rfl, rfl⟩
        · exact absurd hv (hno items)
  · simp only [List.mem_filterMap, List.mem_filter, Option.map_eq_some_iff, Prod.mk.injEq,
      Prod.exists, Bool.not_eq_true']
    constructor
    · rintro ⟨x, v, ⟨hx, hp⟩, o', ho, rfl, rfl⟩
      exact ⟨x, eq_value_of_object? ho ▸ hx, hp, rfl⟩
    · rintro ⟨x, hx, hp, rfl⟩
      exact ⟨x, o.value, ⟨hx, hp⟩, o, rfl, rfl, rfl⟩

/-- There is a pin for everything that comes out. -/
theorem keys_departure_pins (a : Annotator σ) (settings : Settings) (r : Completion) (s : σ) :
    Table.keys (departure a settings r s).1.pins =
      (outputNames r (a.function r.call.function s).1).map Prod.snd :=
  map_mapM (g := Prod.fst) (h := Prod.snd) (fun _ _ => rfl) _ _

/-- An output pin has the object that its name stands for. -/
theorem mem_departure_pins {a : Annotator σ} {settings : Settings} {r : Completion} {s : σ}
    {k : String} {pin : Pin} (h : (k, pin) ∈ (departure a settings r s).1.pins) :
    ∃ x, (x, k) ∈ outputNames r (a.function r.call.function s).1 ∧ pin.side = .output ∧
      pin.id = (exchanged? r x).bind Snapshot.objectId? := by
  obtain ⟨⟨x, k'⟩, hx, s', heq⟩ := exists_of_mem_mapM h
  cases heq
  exact ⟨x, hx, side_pinFor _ _ _ _ _ s', id_pinFor _ _ _ _ _ s'⟩

/-- What is produced is told by the note on the function. -/
theorem mem_departure_productions {a : Annotator σ} {settings : Settings} {r : Completion} {s : σ}
    {q : Production} (h : q ∈ (departure a settings r s).1.productions) :
    ∃ p ∈ produced r (a.function r.call.function s).1, q.pin = p.1 ∧ q.object = p.2.id := by
  obtain ⟨p, hp, s', rfl⟩ := exists_of_mem_mapM h
  refine ⟨p, hp, ?_⟩
  cases settings.storeSlots <;> exact ⟨rfl, rfl⟩

/-- What is produced depends on the annotator by that note only. -/
theorem map_departure_productions (a : Annotator σ) (settings : Settings) (r : Completion) (s : σ) :
    (departure a settings r s).1.productions.map (fun q => (q.object, q.pin)) =
      (produced r (a.function r.call.function s).1).map fun p => (p.2.id, p.1) := by
  refine map_mapM (g := fun q : Production => (q.object, q.pin))
    (h := fun p : String × TrackedObject => (p.2.id, p.1)) (fun p s' => ?_) _ _
  cases settings.storeSlots <;> rfl

/-- A reference that is produced carries the identity of its object. -/
theorem departure_identified (a : Annotator σ) (settings : Settings) (r : Completion) (s : σ) :
    ∀ x ∈ (departure a settings r s).1.productions, x.reference.id = some x.object := by
  intro x hx
  obtain ⟨e, -, s', rfl⟩ := exists_of_mem_mapM hx
  cases hslots : settings.storeSlots <;> rfl

end ObjectFlow.Flow
