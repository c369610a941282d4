import ObjectFlow.Proofs.Flow.Recorded
import ObjectFlow.Proofs.Flow.Valid
import ObjectFlow.Proofs.Graph.Order

/-!
# Recordings without defects

In a recording that is kept up, the graphs have no node and no edge in common, and each body belongs
to one call, which stands in an earlier graph. Such a recording passes its check
(`Kept.validate_eq_ok`).

The invariant speaks of pairs of graphs, and one graph is changed at a time. When a graph is
replaced by one that follows it, new identities are new for all graphs, as all are older than the
supply (`Kept.nodes_apart_of_follows`, `Kept.edges_apart_of_follows`). Bodies need a condition of
their own: a graph may only get a body that no other call has (`Adopts`). The new graph of a body is
such a one when it has just been opened (`Kept.push_empty`).
-/

namespace ObjectFlow.Recording

/-- What the list of graphs is like, at any time while events are recorded. -/
structure Kept (r : Recording) (s : Supply) : Prop where
  root_eq : r.root = ⟨0⟩
  root_lt : 0 < r.graphs.length
  recorded : ∀ (i : Nat) (f : Flow), r.graphs[i]? = some f → f.Recorded
  before : ∀ (i : Nat) (f : Flow), r.graphs[i]? = some f → f.graph.Before s
  nodes_apart : ∀ (i j : Nat) (f g : Flow), r.graphs[i]? = some f → r.graphs[j]? = some g →
    ∀ n ∈ f.graph.nodeIds, n ∈ g.graph.nodeIds → i = j
  edges_apart : ∀ (i j : Nat) (f g : Flow), r.graphs[i]? = some f → r.graphs[j]? = some g →
    ∀ e ∈ f.graph.edges, ∀ e' ∈ g.graph.edges, e.id = e'.id → i = j
  body_after : ∀ (i : Nat) (f : Flow), r.graphs[i]? = some f →
    ∀ b ∈ bodies f, i < b.2.index ∧ b.2.index < r.graphs.length
  body_once : ∀ (i j : Nat) (f g : Flow), r.graphs[i]? = some f → r.graphs[j]? = some g →
    ∀ b ∈ bodies f, ∀ c ∈ bodies g, b.2 = c.2 → b.1 = c.1

/-- No call has the body. -/
def Spare (r : Recording) (h : Handle) : Prop :=
  ∀ (i : Nat) (f : Flow), r.graphs[i]? = some f → ∀ b ∈ bodies f, b.2 ≠ h

variable {r : Recording} {s : Supply}

/-- The supply may have gone on. -/
theorem Kept.mono (h : r.Kept s) {s' : Supply} (hs : s.next ≤ s'.next) : r.Kept s' :=
  { h with before := fun i f hf => (h.before i f hf).mono hs }

theorem mem_nodeIds_of_mem_bodies {f : Flow} {b : NodeId × Handle} (hb : b ∈ bodies f) :
    b.1 ∈ f.graph.nodeIds := by
  obtain ⟨c, hc, -⟩ := Flow.mem_bodies.1 hb
  exact Flow.mem_nodeIds_of_mem_calls hc

/-- Two calls with one body are one call of one graph. -/
theorem Kept.body_index (h : r.Kept s) {i j : Nat} {f g : Flow} (hf : r.graphs[i]? = some f)
    (hg : r.graphs[j]? = some g) {b c : NodeId × Handle} (hb : b ∈ bodies f) (hc : c ∈ bodies g)
    (heq : b.2 = c.2) : i = j := by
  refine h.nodes_apart i j f g hf hg b.1 (mem_nodeIds_of_mem_bodies hb) ?_
  rw [h.body_once i j f g hf hg b hb c hc heq]
  exact mem_nodeIds_of_mem_bodies hc

theorem nodup_keys_bodies {f : Flow} (hf : f.graph.WellFormed) :
    (Table.keys (bodies f)).Nodup := by
  have hsub : (Table.keys (bodies f)).Sublist (Table.keys f.calls) := by
    unfold bodies
    induction f.calls with
    | nil => exact List.Sublist.slnil
    | cons c cs ih =>
      rw [List.filterMap_cons]
      cases c.2.body with
      | none => exact ih.cons c.1
      | some h => exact ih.cons_cons c.1
  exact hf.nodes_nodup.sublist (hsub.trans f.keys_calls_sublist)

/-- A call has a body just if it is listed with it. -/
theorem not_mem_keys_bodies {f : Flow} (hf : f.graph.WellFormed) {n : NodeId} {c : Flow.Call}
    (hc : (n, c) ∈ f.calls) : n ∉ Table.keys (bodies f) ↔ c.body = none := by
  rw [Option.eq_none_iff_forall_ne_some, Table.mem_keys, not_exists]
  refine forall_congr' fun b => not_congr ?_
  rw [Flow.mem_bodies]
  constructor
  · rintro ⟨c', hc', hb⟩
    have hd : (Table.keys f.calls).Nodup := hf.nodes_nodup.sublist f.keys_calls_sublist
    obtain rfl := Option.some.inj ((Table.at?_of_mem hd hc).symm.trans (Table.at?_of_mem hd hc'))
    exact hb
  · exact fun hb => ⟨c, hc, hb⟩

/-- The calls of one graph have different bodies. -/
theorem Kept.nodup_bodies (h : r.Kept s) {i : Nat} {f : Flow} (hf : r.graphs[i]? = some f) :
    ((bodies f).map Prod.snd).Nodup := by
  have hkeys := nodup_keys_bodies (h.recorded i f hf).wellFormed
  refine List.Nodup.map_on (fun b hb c hc heq => ?_) (List.Nodup.of_map _ hkeys)
  exact Prod.ext (h.body_once i i f f hf hf b hb c hc heq) heq

/-! ## The check

Every part of the invariant that the check asks for is there, and the check asks for nothing
else. -/

/-- A recording that is kept up is as the check asks. -/
theorem Kept.checked (h : r.Kept s) : r.Checked := by
  refine ⟨h.root_eq ▸ h.root_lt, fun i f hf => ?_, nodup_bodies_iff.2 ⟨fun i f hf =>
    h.nodup_bodies hf, fun i j f g b hf hg hbf hbg => ?_⟩⟩
  · have hrec := h.recorded i f hf
    refine ⟨Graph.hasNode_iff.2 hrec.input_mem, Graph.hasNode_iff.2 hrec.output_mem,
      (Graph.isAcyclic_iff hrec.wellFormed).2 (hrec.acyclic (h.before i f hf)), fun b hb => ?_⟩
    obtain ⟨hlt, hlen⟩ := h.body_after i f hf b hb
    refine ⟨hlt, hlen, fun heq => ?_⟩
    rw [heq, h.root_eq] at hlt
    exact Nat.not_lt_zero _ hlt
  · obtain ⟨c, hc, rfl⟩ := List.mem_map.1 hbf
    obtain ⟨c', hc', heq⟩ := List.mem_map.1 hbg
    exact h.body_index hf hg hc hc' heq.symm

/-- A recording that is kept up passes its check. -/
theorem Kept.validate_eq_ok (h : r.Kept s) : r.validate = .ok () := validate_eq_ok_iff.2 h.checked

/-! ## Keeping a recording up

Two things are done to a list of graphs: an empty one is put behind it, and one is replaced. -/

/-- A recording begins with one empty graph. -/
theorem kept_empty (s : Supply) : (Recording.empty s).1.Kept (Recording.empty s).2 := by
  have hone : ∀ (i : Nat) (f : Flow), (Recording.empty s).1.graphs[i]? = some f →
      i = 0 ∧ f = (Flow.empty s).1 := by
    intro i f hf
    cases i with
    | zero => exact ⟨rfl, (Option.some.inj hf).symm⟩
    | succ i => cases hf
  have hnone : bodies (Flow.empty s).1 = [] := rfl
  refine ⟨rfl, Nat.zero_lt_one, fun i f hf => ?_, fun i f hf => ?_, fun i j f g hf hg _ _ _ => ?_,
    fun i j f g hf hg _ _ _ _ _ => ?_, fun i f hf b hb => ?_, fun i j f g hf _ b hb => ?_⟩
  · exact (hone i f hf).2 ▸ Flow.recorded_empty s
  · exact (hone i f hf).2 ▸ Flow.before_empty s
  · exact (hone i f hf).1.trans (hone j g hg).1.symm
  · exact (hone i f hf).1.trans (hone j g hg).1.symm
  · rw [(hone i f hf).2, hnone] at hb
    cases hb
  · rw [(hone i f hf).2, hnone] at hb
    cases hb

/-- A graph was there or is the new one. -/
theorem push_cases {f g : Flow} {i : Nat} (hg : (r.push f).2.graphs[i]? = some g) :
    r.graphs[i]? = some g ∨ i = r.graphs.length ∧ g = f := by
  have hg : (r.graphs ++ [f])[i]? = some g := hg
  rcases Nat.lt_trichotomy i r.graphs.length with hi | hi | hi
  · rw [List.getElem?_append_left hi] at hg
    exact .inl hg
  · subst hi
    rw [List.getElem?_append_right (Nat.le_refl _)] at hg
    exact .inr ⟨rfl, by simpa using hg.symm⟩
  · rw [List.getElem?_eq_none (by simpa using Nat.succ_le_of_lt hi)] at hg
    cases hg

/-- A new empty graph, to which no call refers yet. -/
theorem Kept.push_empty (h : r.Kept s) :
    (r.push (Flow.empty s).1).2.Kept (Flow.empty s).2 ∧
      (r.push (Flow.empty s).1).2.Spare ⟨r.graphs.length⟩ := by
  have hnone : bodies (Flow.empty s).1 = [] := rfl
  have hedges : (Flow.empty s).1.graph.edges = [] := rfl
  have hnode := Flow.next_le_of_mem_empty s
  have hlen : (r.push (Flow.empty s).1).2.graphs.length = r.graphs.length + 1 := by
    simp [push]
  refine ⟨⟨h.root_eq, by omega, fun i f hf => ?_, fun i f hf => ?_,
    fun i j f g hf hg n hn hn' => ?_, fun i j f g hf hg e he e' he' hid => ?_,
    fun i f hf b hb => ?_, fun i j f g hf hg b hb c hc heq => ?_⟩, fun i f hf b hb heq => ?_⟩
  · rcases push_cases hf with hf | ⟨-, rfl⟩
    · exact h.recorded i f hf
    · exact Flow.recorded_empty s
  · rcases push_cases hf with hf | ⟨-, rfl⟩
    · exact (h.before i f hf).mono (Nat.le_add_right _ 2)
    · exact Flow.before_empty s
  · rcases push_cases hf with hf | ⟨rfl, rfl⟩ <;> rcases push_cases hg with hg | ⟨rfl, rfl⟩
    · exact h.nodes_apart i j f g hf hg n hn hn'
    · exact absurd ((h.before i f hf).node_lt n hn) (Nat.not_lt.2 (hnode n hn'))
    · exact absurd ((h.before j g hg).node_lt n hn') (Nat.not_lt.2 (hnode n hn))
    · rfl
  · rcases push_cases hf with hf | ⟨-, rfl⟩ <;> rcases push_cases hg with hg | ⟨-, rfl⟩
    · exact h.edges_apart i j f g hf hg e he e' he' hid
    · cases hedges ▸ he'
    · cases hedges ▸ he
    · cases hedges ▸ he
  · rcases push_cases hf with hf | ⟨-, rfl⟩
    · have := h.body_after i f hf b hb
      omega
    · cases hnone ▸ hb
  · rcases push_cases hf with hf | ⟨-, rfl⟩ <;> rcases push_cases hg with hg | ⟨-, rfl⟩
    · exact h.body_once i j f g hf hg b hb c hc heq
    · cases hnone ▸ hc
    · cases hnone ▸ hb
    · cases hnone ▸ hb
  · rcases push_cases hf with hf | ⟨-, rfl⟩
    · have := (h.body_after i f hf b hb).2
      rw [heq] at this
      exact Nat.lt_irrefl _ this
    · cases hnone ▸ hb

/-- A graph is another one and stays, or is the one that was replaced. -/
theorem set_cases {this : Handle} {f' g : Flow} {i : Nat}
    (hg : (r.set this f').graphs[i]? = some g) :
    i ≠ this.index ∧ r.graphs[i]? = some g ∨ i = this.index ∧ g = f' := by
  have hg : (r.graphs.set this.index f')[i]? = some g := hg
  by_cases hi : i = this.index
  · rw [hi, List.getElem?_set_self'] at hg
    cases hx : r.graphs[this.index]? with
    | none => rw [hx] at hg; cases hg
    | some x =>
      rw [hx] at hg
      exact .inr ⟨hi, (Option.some.inj hg).symm⟩
  · rw [List.getElem?_set_ne (Ne.symm hi)] at hg
    exact .inl ⟨hi, hg⟩

/-- The bodies that the calls of a graph may have in the place of another one. -/
def Adopts (r : Recording) (this : Handle) (f f' : Flow) : Prop :=
  ∀ b ∈ bodies f', b ∈ bodies f ∨
    r.Spare b.2 ∧ this.index < b.2.index ∧ b.2.index < r.graphs.length ∧
      ∀ c ∈ bodies f', c.2 = b.2 → c.1 = b.1

/-- A graph that follows has no node of another graph. -/
theorem Kept.nodes_apart_of_follows (h : r.Kept s) {this : Handle} {p p' : Page} {s' : Supply}
    (hp : r.graph? this = some p.flow) (hfollows : p.Follows p' s s') {j : Nat} {g : Flow}
    (hg : r.graphs[j]? = some g) (hj : j ≠ this.index) :
    ∀ n ∈ p'.flow.graph.nodeIds, n ∉ g.graph.nodeIds := by
  intro n hn hn'
  rcases hfollows.node_new n hn with hn | hn
  · exact hj (h.nodes_apart j _ g _ hg hp n hn' hn)
  · exact absurd ((h.before j g hg).node_lt n hn') (Nat.not_lt.2 hn)

/-- A graph that follows has no edge of another graph. -/
theorem Kept.edges_apart_of_follows (h : r.Kept s) {this : Handle} {p p' : Page} {s' : Supply}
    (hp : r.graph? this = some p.flow) (hfollows : p.Follows p' s s') {j : Nat} {g : Flow}
    (hg : r.graphs[j]? = some g) (hj : j ≠ this.index) :
    ∀ e ∈ p'.flow.graph.edges, ∀ e' ∈ g.graph.edges, e.id ≠ e'.id := by
  intro e he e' he' hid
  rcases hfollows.edge_new e he with he | he
  · exact hj (h.edges_apart j _ g _ hg hp e' he' e he hid.symm)
  · rw [hid] at he
    exact absurd ((h.before j g hg).edge_lt e' he') (Nat.not_lt.2 he)

/-- A body that a graph adopts is an old one of it, or no call of the recording has it. -/
theorem Kept.body_once_of_adopts (h : r.Kept s) {this : Handle} {f f' : Flow}
    (hp : r.graph? this = some f) (hbodies : r.Adopts this f f') {j : Nat} {g : Flow}
    (hg : r.graphs[j]? = some g) : ∀ b ∈ bodies f', ∀ c ∈ bodies g, b.2 = c.2 → b.1 = c.1 := by
  intro b hb c hc heq
  rcases hbodies b hb with hb | ⟨hspare, -⟩
  · exact h.body_once _ j _ g hp hg b hb c hc heq
  · exact absurd heq.symm (hspare j g hg c hc)

theorem Kept.body_once_of_adopts_self (h : r.Kept s) {this : Handle} {f f' : Flow}
    (hp : r.graph? this = some f) (hbodies : r.Adopts this f f') :
    ∀ b ∈ bodies f', ∀ c ∈ bodies f', b.2 = c.2 → b.1 = c.1 := by
  intro b hb c hc heq
  rcases hbodies b hb with hb' | ⟨-, -, -, hone⟩
  · rcases hbodies c hc with hc' | ⟨-, -, -, hone⟩
    · exact h.body_once _ _ _ _ hp hp b hb' c hc' heq
    · exact hone b hb heq
  · exact (hone c hc heq.symm).symm

/-- A graph may be replaced by one that follows it. -/
theorem Kept.set (h : r.Kept s) {this : Handle} {p p' : Page} {s' : Supply}
    (hp : r.graph? this = some p.flow) (hfollows : p.Follows p' s s')
    (hbodies : r.Adopts this p.flow p'.flow) : (r.set this p'.flow).Kept s' := by
  have hlen : (r.set this p'.flow).graphs.length = r.graphs.length := by simp [Recording.set]
  refine ⟨h.root_eq, hlen ▸ h.root_lt, fun i f hf => ?_, fun i f hf => ?_,
    fun i j f g hf hg n hn hn' => ?_, fun i j f g hf hg e he e' he' hid => ?_,
    fun i f hf b hb => ?_, fun i j f g hf hg b hb c hc heq => ?_⟩
  · rcases set_cases hf with ⟨-, hf⟩ | ⟨-, rfl⟩
    · exact h.recorded i f hf
    · exact hfollows.sound.recorded
  · rcases set_cases hf with ⟨-, hf⟩ | ⟨-, rfl⟩
    · exact (h.before i f hf).mono hfollows.next_le
    · exact hfollows.before
  · rcases set_cases hf with ⟨hi, hf⟩ | ⟨rfl, rfl⟩ <;>
      rcases set_cases hg with ⟨hj, hg⟩ | ⟨rfl, rfl⟩
    · exact h.nodes_apart i j f g hf hg n hn hn'
    · exact absurd hn (h.nodes_apart_of_follows hp hfollows hf hi n hn')
    · exact absurd hn' (h.nodes_apart_of_follows hp hfollows hg hj n hn)
    · rfl
  · rcases set_cases hf with ⟨hi, hf⟩ | ⟨rfl, rfl⟩ <;>
      rcases set_cases hg with ⟨hj, hg⟩ | ⟨rfl, rfl⟩
    · exact h.edges_apart i j f g hf hg e he e' he' hid
    · exact absurd hid.symm (h.edges_apart_of_follows hp hfollows hf hi e' he' e he)
    · exact absurd hid (h.edges_apart_of_follows hp hfollows hg hj e he e' he')
    · rfl
  · rw [hlen]
    rcases set_cases hf with ⟨-, hf⟩ | ⟨rfl, rfl⟩
    · exact h.body_after i f hf b hb
    · rcases hbodies b hb with hb | ⟨-, hlt, hlt', -⟩
      · exact h.body_after _ _ hp b hb
      · exact ⟨hlt, hlt'⟩
  · rcases set_cases hf with ⟨-, hf⟩ | ⟨rfl, rfl⟩ <;>
      rcases set_cases hg with ⟨-, hg⟩ | ⟨rfl, rfl⟩
    · exact h.body_once i j f g hf hg b hb c hc heq
    · exact (h.body_once_of_adopts hp hbodies hf c hc b hb heq.symm).symm
    · exact h.body_once_of_adopts hp hbodies hg b hb c hc heq
    · exact h.body_once_of_adopts_self hp hbodies b hb c hc heq

/-! ## Identities from a supply

For two recordings to have nothing in common it is enough that the second was begun with the supply
that the first one left. -/

/-- All identities in the recording have been handed out since a supply. -/
def Since (r : Recording) (s : Supply) : Prop :=
  ∀ (i : Nat) (f : Flow), r.graphs[i]? = some f →
    (∀ n ∈ f.graph.nodeIds, s.next ≤ n.value) ∧ ∀ e ∈ f.graph.edges, s.next ≤ e.id.value

/-- A new recording takes its identities from the supply. -/
theorem since_empty (s : Supply) : (Recording.empty s).1.Since s := by
  intro i f hf
  obtain rfl : (Flow.empty s).1 = f := by
    cases i with
    | zero => exact Option.some.inj hf
    | succ i => cases hf
  exact ⟨Flow.next_le_of_mem_empty s, fun e he => by cases he⟩

theorem Since.push_empty {s₀ : Supply} (h : r.Since s₀) (hs : s₀.next ≤ s.next) :
    (r.push (Flow.empty s).1).2.Since s₀ := by
  intro i f hf
  rcases push_cases hf with hf | ⟨-, rfl⟩
  · exact h i f hf
  · exact ⟨fun n hn => Nat.le_trans hs (Flow.next_le_of_mem_empty s n hn), fun e he => by cases he⟩

theorem Since.set {s₀ : Supply} (h : r.Since s₀) (hs : s₀.next ≤ s.next) {this : Handle}
    {p p' : Page} {s' : Supply} (hp : r.graph? this = some p.flow)
    (hfollows : p.Follows p' s s') : (r.set this p'.flow).Since s₀ := by
  intro i f hf
  rcases set_cases hf with ⟨-, hf⟩ | ⟨-, rfl⟩
  · exact h i f hf
  · obtain ⟨hnodes, hedges⟩ := h _ _ hp
    refine ⟨fun n hn => ?_, fun e he => ?_⟩
    · rcases hfollows.node_new n hn with hn | hn
      · exact hnodes n hn
      · exact Nat.le_trans hs hn
    · rcases hfollows.edge_new e he with he | he
      · exact hedges e he
      · exact Nat.le_trans hs he

end ObjectFlow.Recording
