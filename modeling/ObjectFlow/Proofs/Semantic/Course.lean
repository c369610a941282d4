import ObjectFlow.Semantic.Build
import ObjectFlow.Proofs.Outcome

/-!
# Courses that end, and what is known of their results

A course need not end. What is known of its result if there is one (`Ensures`) is told apart from
what is known of it because there is one (`Yields`). What one step ensures is ensured by a loop
(`Ensures.foldlM`), and by a merger with all that it leads to (`merge_ensures`); a loop whose steps
yield something yields something (`Yields.foldlM`).

A merger calls itself at one place only, where it meets two entities under one aspect. For induction
the body is therefore written with the further mergers as a parameter (`advance`), and `merge_succ`
says that one level more of depth is one such step. What holds of `advance` under the assumption
that it holds of the further mergers then holds of all of them, and nobody has to open `merge`
again.
-/

namespace ObjectFlow.Semantic

namespace Course

variable {α β : Type}

/-- If the course ends with a result, this has the property. -/
def Ensures (c : Course α) (Q : α → Prop) : Prop := ∀ a, c.run = some (.ok a) → Q a

theorem ensures_pure {a : α} {Q : α → Prop} (h : Q a) : Ensures (pure a) Q := by
  intro b hb
  cases hb
  exact h

/-- Two courses after each other end with a result if both do. -/
theorem run_bind_eq_some_ok {c : Course α} {f : α → Course β} {b : β} :
    (c >>= f).run = some (.ok b) ↔ ∃ a, c.run = some (.ok a) ∧ (f a).run = some (.ok b) := by
  rcases h : c.run with _ | ⟨e | a⟩
  · simp [ExceptT.run_bind, h]
  · simp [ExceptT.run_bind, h]
  · simp [ExceptT.run_bind, h]

/-- What the first course ensures may be assumed of what comes after it. -/
theorem Ensures.bind {c : Course α} {Q : α → Prop} (h : c.Ensures Q) {f : α → Course β}
    {R : β → Prop} (hf : ∀ a, Q a → (f a).Ensures R) : (c >>= f).Ensures R := by
  intro b hb
  obtain ⟨a, ha, hb⟩ := run_bind_eq_some_ok.1 hb
  exact hf a (h a ha) b hb

/-- A course that ends at once ensures what holds of its result. -/
theorem ensures_ofExcept {r : Except GraphError α} {Q : α → Prop} (h : ∀ a, r = .ok a → Q a) :
    Ensures (.ofExcept r) Q := by
  intro a ha
  exact h a (Option.some.inj ha)

/-- What every step keeps, a loop keeps. -/
theorem Ensures.foldlM {P : β → Prop} {f : β → α → Course β} {as : List α}
    (hf : ∀ b, P b → ∀ a ∈ as, (f b a).Ensures P) {b : β} (hb : P b) :
    (as.foldlM f b).Ensures P := by
  induction as generalizing b with
  | nil => exact ensures_pure hb
  | cons a as ih =>
    rw [List.foldlM_cons]
    exact (hf b hb a List.mem_cons_self).bind fun b' hb' =>
      ih (fun b hb a ha => hf b hb a (List.mem_cons_of_mem _ ha)) hb'

/-- The course ends, and its result has the property. -/
def Yields (c : Course α) (Q : α → Prop) : Prop := ∃ a, c.run = some (.ok a) ∧ Q a

theorem yields_pure {a : α} {Q : α → Prop} (h : Q a) : Yields (pure a) Q := ⟨a, rfl, h⟩

/-- What is yielded may be weakened. -/
theorem Yields.imp {c : Course α} {Q R : α → Prop} (h : c.Yields Q) (hQR : ∀ a, Q a → R a) :
    c.Yields R := by
  obtain ⟨a, ha, hQ⟩ := h
  exact ⟨a, ha, hQR a hQ⟩

/-- Two courses after each other end if the first does and what comes after its result does. -/
theorem Yields.bind {c : Course α} {Q : α → Prop} (h : c.Yields Q) {f : α → Course β}
    {R : β → Prop} (hf : ∀ a, Q a → (f a).Yields R) : (c >>= f).Yields R := by
  obtain ⟨a, ha, hQ⟩ := h
  obtain ⟨b, hb, hR⟩ := hf a hQ
  exact ⟨b, run_bind_eq_some_ok.2 ⟨a, ha, hb⟩, hR⟩

theorem yields_ofExcept {r : Except GraphError α} {a : α} (hr : r = .ok a) {Q : α → Prop}
    (h : Q a) : Yields (.ofExcept r) Q := ⟨a, congrArg some hr, h⟩

/-- A loop ends if every step does, given what is still to be done. -/
theorem Yields.foldlM {I : List α → β → Prop} {f : β → α → Course β}
    (hf : ∀ a l b, I (a :: l) b → (f b a).Yields (I l)) {l : List α} {b : β} (hb : I l b) :
    (l.foldlM f b).Yields (I []) := by
  induction l generalizing b with
  | nil => exact yields_pure hb
  | cons a l ih =>
    rw [List.foldlM_cons]
    exact (hf a l b hb).bind fun b' hb' => ih hb'

/-- Nothing comes after a course that goes too deep. -/
theorem run_bind_eq_none {c : Course α} {f : α → Course β} (h : c.run = none) :
    (c >>= f).run = none := by
  simp [ExceptT.run_bind, h]

/-- What comes after a course that ends may still go too deep. -/
theorem Yields.bind_eq_none {c : Course α} {Q : α → Prop} (h : c.Yields Q) {f : α → Course β}
    (hf : ∀ a, Q a → (f a).run = none) : (c >>= f).run = none := by
  obtain ⟨a, ha, hQ⟩ := h
  simp [ExceptT.run_bind, ha, hf a hQ]

/-- The outcome of a course is a result where the course ends with it. -/
theorem outcome_eq_ok_iff {c : Course α} {a : α} : c.outcome = .ok a ↔ c.run = some (.ok a) := by
  unfold outcome
  rcases c.run with _ | ⟨e | b⟩ <;> simp

end Course

namespace Merging

section Follow

variable {forwarded : Table NodeId NodeId} {steps : Nat} {id id' next : NodeId}

/-- A node that went nowhere stands for itself. -/
theorem follow_of_none (h : Table.at? forwarded id = none) :
    follow forwarded steps id = some id := by
  cases steps <;> simp [follow, h]

/-- Without steps left, a node that went elsewhere leads nowhere. -/
theorem follow_zero (h : Table.at? forwarded id = some next) : follow forwarded 0 id = none := by
  simp [follow, h]

/-- One step goes to where the node went. -/
theorem follow_succ (h : Table.at? forwarded id = some next) :
    follow forwarded (steps + 1) id = follow forwarded steps next := by
  simp [follow, h]

/-- What a node leads to is the node itself or the end of some forwarding. -/
theorem follow_cases (h : follow forwarded steps id = some id') :
    id' = id ∨ ∃ k, Table.at? forwarded k = some id' := by
  induction steps generalizing id with
  | zero =>
    cases hat : Table.at? forwarded id with
    | none => exact .inl (Option.some.inj ((follow_of_none hat).symm.trans h)).symm
    | some next => cases (follow_zero hat).symm.trans h
  | succ steps ih =>
    cases hat : Table.at? forwarded id with
    | none => exact .inl (Option.some.inj ((follow_of_none hat).symm.trans h)).symm
    | some next =>
      rcases ih ((follow_succ hat).symm.trans h) with rfl | hk
      · exact .inr ⟨id, hat⟩
      · exact .inr hk

/-- A node that is found is found in more steps as well. -/
theorem follow_add (h : follow forwarded steps id = some id') (more : Nat) :
    follow forwarded (more + steps) id = some id' := by
  induction steps generalizing id with
  | zero =>
    cases hat : Table.at? forwarded id with
    | none => rw [follow_of_none hat, ← h, follow_of_none hat]
    | some next => cases (follow_zero hat).symm.trans h
  | succ steps ih =>
    cases hat : Table.at? forwarded id with
    | none => rw [follow_of_none hat, ← h, follow_of_none hat]
    | some next => exact (follow_succ hat).trans (ih ((follow_succ hat).symm.trans h))

end Follow

/-- To know what a node leads to it is enough to know it of every number of steps. -/
theorem ensures_resolve {m : Merging} {id : NodeId} {Q : NodeId → Prop}
    (h : ∀ steps id', follow m.forwarded steps id = some id' → Q id') :
    (m.resolve id).Ensures Q := by
  intro id' hid
  refine h (deepest + m.forwarded.length) id' ?_
  rcases hfollow : follow m.forwarded (deepest + m.forwarded.length) id with _ | x
  · simp [resolve, ExceptT.lift, hfollow] at hid
  · simp [resolve, ExceptT.lift, hfollow] at hid
    rw [hid]

/-- A node that is found within as many steps as there are entries is found. -/
theorem yields_resolve {m : Merging} {id id' : NodeId} {Q : NodeId → Prop}
    (h : follow m.forwarded m.forwarded.length id = some id') (hQ : Q id') :
    (m.resolve id).Yields Q :=
  ⟨id', by simp [resolve, ExceptT.lift, follow_add h deepest], hQ⟩

/--
What becomes of an edge that leaves the merged node, where it is given what becomes of further
mergers.
-/
def transfer (further : NodeId → NodeId → Merging → Course Merging) (dest : NodeId)
    (aspects : Table String NodeId) (m : Merging) (e : Edge Link) : Course Merging := do
  let target ← m.resolve e.target
  if target = dest || !m.graph.hasNode target then return m
  match e.data.aspect.bind (Table.at? aspects) with
  | some existing => further target existing m
  | none => m.addEdge dest target e.data

/-- One step of a merger, where it is given what becomes of further ones. -/
def advance (o : Ontology) (further : NodeId → NodeId → Merging → Course Merging)
    (src dest : NodeId) (m : Merging) : Course Merging := do
  let src ← m.resolve src
  let dest ← m.resolve dest
  if src = dest then return m
  match m.graph.node? src, m.graph.node? dest with
  | some srcNode, some destNode => do
    let m := m.joinTypes o srcNode destNode dest
    let m ← ((m.graph.inEdges src).filter fun e => e.source ≠ dest).foldlM
      (fun (m : Merging) e => m.addEdge e.source dest e.data) m
    let aspects := aspectTargets m.graph dest
    let m ← ((m.graph.outEdges src).filter fun e => e.target ≠ dest).foldlM
      (transfer further dest aspects) m
    return m.retire src dest
  | _, _ => return m

/-- A merger is one step with the mergers of one level less behind it. -/
theorem merge_succ (o : Ontology) (depth : Nat) (src dest : NodeId) (m : Merging) :
    merge o (depth + 1) src dest m = advance o (merge o depth) src dest m := rfl

/-- What a step ensures if further mergers do, mergers ensure. -/
theorem merge_ensures {o : Ontology} {P : NodeId → NodeId → Merging → Prop}
    {Q : NodeId → NodeId → Merging → Merging → Prop}
    (hstep : ∀ further : NodeId → NodeId → Merging → Course Merging,
      (∀ src dest m, P src dest m → (further src dest m).Ensures (Q src dest m)) →
        ∀ src dest m, P src dest m → (advance o further src dest m).Ensures (Q src dest m))
    (depth : Nat) (src dest : NodeId) (m : Merging) (h : P src dest m) :
    (merge o depth src dest m).Ensures (Q src dest m) := by
  induction depth generalizing src dest m with
  | zero => exact fun _ hnone => nomatch hnone
  | succ depth ih =>
    rw [merge_succ]
    exact hstep (merge o depth) ih src dest m h

end Merging

end ObjectFlow.Semantic
