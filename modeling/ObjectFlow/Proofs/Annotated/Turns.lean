import Mathlib.Logic.Relation
import ObjectFlow.Annotated.Collapse
import ObjectFlow.Proofs.Outcome

/-!
# Collapsing turn by turn

Collapsing is a loop. In each turn one action is taken from the stack and passed over or made one
with an action that follows it (`LoopState.next`). The answer is the same from every state that the
loop visits (`LoopState.Visits.rest_eq`), and the loop ends (`LoopState.exists_last`).

The program is a recursive function whose arguments are the draft, the closure, the supply and the
stack. With these put in one record its body becomes a step, and the states which it goes through
can be spoken of. `rest_eq` says that the function is the iteration of this step, so nothing that is
proved of states is about another program.
-/

namespace ObjectFlow.Annotated.Draft

/-- What is kept from one turn to the next. -/
structure LoopState where
  draft : Draft
  closure : Graph Unit Unit
  supply : Supply
  stack : List NodeId

namespace LoopState

/-- An action and one that follows it become one, in the graph and in the closure. -/
def merge (t : LoopState) (parent child : NodeId) : Except AnnotateError LoopState := do
  let (merged, s) := t.supply.node
  let g ← (t.draft.graph.contract [parent, child] merged (.action { collapsed := true })).mapError
    fun i => .graph i.cause
  let closure ← (t.closure.contract [parent, child] merged ()).mapError fun i => .graph i.cause
  let (closure, s) ← (saturate closure s merged).mapError .graph
  return ⟨{ t.draft with graph := g }, closure, s, merged :: t.stack⟩

/-- One turn; there is none when the stack is empty. -/
def next (t : LoopState) : Except AnnotateError (Option LoopState) :=
  match t.stack with
  | [] => .ok none
  | parent :: stack =>
    match t.draft.partner? t.closure parent with
    | none => .ok (some { t with stack := stack })
    | some child => ({ t with stack := stack }.merge parent child).map some

/-- The answer of the loop when it goes on from a state. -/
def rest (t : LoopState) : Except AnnotateError (Draft × Supply) :=
  t.draft.collapseFrom t.closure t.supply t.stack

/-- One turn, and the loop from there. -/
theorem rest_eq (t : LoopState) : t.rest = t.next >>= fun
    | none => .ok (t.draft, t.supply)
    | some t' => t'.rest := by
  obtain ⟨d, c, s, stack⟩ := t
  cases stack with
  | nil =>
    rw [rest, collapseFrom]
    rfl
  | cons parent stack =>
    rw [rest, collapseFrom, next]
    dsimp only
    split
    · rename_i hnone
      rw [hnone]
      rfl
    · rename_i child hsome
      rw [hsome]
      dsimp only [merge]
      split
      · rename_i i hg
        rw [hg]
        rfl
      · rename_i g hg
        rw [hg]
        cases c.contract [parent, child] s.node.1 () with
        | error i => rfl
        | ok c₁ =>
          simp only [Outcome.mapError_ok, Outcome.ok_bind]
          cases saturate c₁ s.node.2 s.node.1 <;> rfl

/-- A merger succeeds if both contractions and saturating do. -/
theorem merge_eq_ok_iff {t t' : LoopState} {parent child : NodeId} :
    t.merge parent child = .ok t' ↔ ∃ g c₁ c₂ s₂,
      t.draft.graph.contract [parent, child] t.supply.node.1 (.action { collapsed := true }) =
        .ok g ∧
      t.closure.contract [parent, child] t.supply.node.1 () = .ok c₁ ∧
      saturate c₁ t.supply.node.2 t.supply.node.1 = .ok (c₂, s₂) ∧
      ⟨{ t.draft with graph := g }, c₂, s₂, t.supply.node.1 :: t.stack⟩ = t' := by
  simp only [merge, Outcome.bind_eq_ok_iff, Outcome.mapError_eq_ok_iff, Outcome.pure_eq_ok,
    Except.ok.injEq, Prod.exists, exists_and_left]

/-! ## All turns

A turn has one successor, so the states visited are a sequence. -/

/-- A turn that the loop takes. -/
def Turn (t t' : LoopState) : Prop := t.next = .ok (some t')

/-- The states to which the loop comes from a state, that one among them. -/
def Visits : LoopState → LoopState → Prop := Relation.ReflTransGen Turn

/-- From every state that is visited the answer is the same. -/
theorem Visits.rest_eq {t t' : LoopState} (h : t.Visits t') : t'.rest = t.rest := by
  induction h with
  | refl => rfl
  | @tail t₁ t₂ _ hturn ih =>
    have hturn : t₁.next = .ok (some t₂) := hturn
    rw [← ih, t₁.rest_eq, hturn]
    rfl

/-- A merger takes a node away, and any other turn takes an action from the stack. -/
def size (t : LoopState) : Nat := t.draft.graph.nodes.length + t.stack.length

/-- Every turn makes the state smaller. -/
theorem Turn.size_lt {t t' : LoopState} (h : t.Turn t') : t'.size < t.size := by
  obtain ⟨d, c, s, stack⟩ := t
  unfold Turn next at h
  cases stack with
  | nil => cases h
  | cons parent stack =>
    dsimp only at h
    split at h
    · cases h
      simp [size]
    · rename_i child hsome
      obtain ⟨t₁, hmerge, heq⟩ := Outcome.map_eq_ok_iff.1 h
      obtain rfl := Option.some.inj heq
      obtain ⟨g, c₁, c₂, s₂, hg, -, -, rfl⟩ := merge_eq_ok_iff.1 hmerge
      have hlt : g.nodes.length < d.graph.nodes.length :=
        Graph.length_contract_lt (ne_of_partner? hsome) hg
      simp only [size, List.length_cons]
      omega

/-- The loop ends. -/
theorem exists_last (t : LoopState) : ∃ t', t.Visits t' ∧ ∀ t'', ¬ t'.Turn t'' := by
  induction hn : t.size using Nat.strongRecOn generalizing t with
  | ind n ih =>
    by_cases h : ∃ t', t.Turn t'
    · obtain ⟨t', hturn⟩ := h
      obtain ⟨t'', hvisits, hlast⟩ := ih _ (hn ▸ hturn.size_lt) t' rfl
      exact ⟨t'', hvisits.head hturn, hlast⟩
    · exact ⟨t, .refl, fun t' hturn => h ⟨t', hturn⟩⟩

end LoopState

/-- The state before the first turn. -/
def start (d : Draft) (s : Supply) : Except AnnotateError LoopState := do
  let (closure, s) ← (d.graph.closure s).mapError .graph
  let order ← d.graph.topologicalOrder.mapError .graph
  return ⟨d, closure, s, order.reverse⟩

/-- Collapsing is the loop from the state before the first turn. -/
theorem collapse_eq (d : Draft) (s : Supply) : d.collapse s = d.start s >>= LoopState.rest := by
  rw [collapse, start]
  cases d.graph.closure s with
  | error e => rfl
  | ok cs =>
    cases d.graph.topologicalOrder <;> rfl

end ObjectFlow.Annotated.Draft
