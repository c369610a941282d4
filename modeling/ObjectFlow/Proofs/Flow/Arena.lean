import Mathlib.Logic.Relation
import ObjectFlow.Proofs.Flow.Insert
import ObjectFlow.Proofs.Flow.Recording

/-!
# The sweep over nested graphs

In a recording that passes its check and whose graphs have nothing in common, each body has its
place (`Arena.parent`). Flattening meets a graph when all its bodies are flat. So what can be told
of a graph with flat bodies in the places of its calls, if it can be told of the bodies, is true of
what is left in the end (`Nests.flatten_spec`).

## Outline

Flattening goes over the graphs from the last to the first. A graph is met after all of its bodies,
because a body has a greater index than the graph in which its call stands. The bodies are flat then
and are put in the places of their calls one by one.

Two inductions are done here once for all that is to be proved of flattening. They are over a
property as a parameter.

1. *Within one graph* (`Flow.inlineAll_spec`). `Persists` asks of a property of the graph and of the
   calls which are still to be replaced that one replacement keeps it. The bodies must have nothing
   in common with the graph and with each other, and it is part of the induction that they keep to
   that.
2. *Over all graphs* (`flattenAll_spec`). `Nests` asks of a property of flat graphs that it goes
   over from the bodies to the graph. `Flattened` is the invariant: of the graphs from an index on,
   those that are no body of another one among them are in the table of flat graphs. In the end this
   is the root alone.
-/

namespace ObjectFlow

namespace Flow

variable {s : Supply}

/-- A property of a graph and of the calls that are to be replaced, which no replacement breaks. -/
structure Persists (body : Handle → Flow) (I : List (NodeId × Handle) → Flow → Prop) : Prop where
  fenced : ∀ rest f, I rest f → f.Fenced
  mem : ∀ b rest f, I (b :: rest) f → b.1 ∈ f.graph.nodeIds
  step : ∀ b rest f f' s s', I (b :: rest) f → f.Apart (body b.2) →
    f.Inserted (body b.2) b.1 s f' s' → I rest f'

/-- Bodies that have nothing in common take the places of calls one after the other. -/
theorem inlineAll_spec {body : Handle → Flow} {I : List (NodeId × Handle) → Flow → Prop}
    (hI : Persists body I) {rest : List (NodeId × Handle)} {f : Flow} {flat : Table Handle Flow}
    (h : I rest f) (hbf : f.graph.Before s)
    (hat : ∀ b ∈ rest, Table.at? flat b.2 = some (body b.2))
    (hfenced : ∀ b ∈ rest, (body b.2).Fenced) (hbefore : ∀ b ∈ rest, (body b.2).graph.Before s)
    (hself : ∀ b ∈ rest, f.Apart (body b.2))
    (hapart : rest.Pairwise fun b b' => b.2 ≠ b'.2 ∧ (body b.2).Apart (body b'.2)) :
    ∃ f' s', f.inlineAll s flat rest =
        .ok (f', s', rest.foldl (fun t b => Table.without t b.2) flat) ∧
      I [] f' ∧ f'.graph.Before s' ∧ s.next ≤ s'.next ∧
      ∀ x : Flow, x.graph.Before s → x.Apart f → (∀ b ∈ rest, x.Apart (body b.2)) →
        x.Apart f' := by
  induction rest generalizing f s flat with
  | nil => exact ⟨f, s, rfl, h, hbf, Nat.le_refl _, fun x _ hx _ => hx⟩
  | cons b rest ih =>
    have hb := List.mem_cons_self (a := b) (l := rest)
    have hrest : ∀ b' ∈ rest, b' ∈ b :: rest := fun b' => List.mem_cons_of_mem b
    obtain ⟨haparts, hapart⟩ := List.pairwise_cons.1 hapart
    have hf := hI.fenced _ _ h
    obtain ⟨f₁, s₁, hok, hins⟩ := insert_spec hf.wellFormed hf.input_mem (hfenced b hb) (hself b hb)
      hbf (hbefore b hb) (hI.mem _ _ _ h)
    obtain ⟨f', s', hok', h', hbf', hle, hx⟩ := ih (hI.step _ _ _ _ _ _ h (hself b hb) hins)
      hins.before
      (fun b' hb' => by
        rw [Table.at?_without_of_ne _ (haparts b' hb').1.symm]
        exact hat b' (hrest b' hb'))
      (fun b' hb' => hfenced b' (hrest b' hb'))
      (fun b' hb' => (hbefore b' (hrest b' hb')).mono hins.next_le)
      (fun b' hb' => (hins.apart (hbefore b' (hrest b' hb')) (hself b' (hrest b' hb')).symm
        (haparts b' hb').2.symm).symm)
      hapart
    refine ⟨f', s', ?_, h', hbf', Nat.le_trans hins.next_le hle, fun x hxb hxf hxs => ?_⟩
    · rw [inlineAll, hat b hb]
      dsimp only
      rw [hok, Outcome.mapError_ok, Outcome.ok_bind]
      exact hok'
    · exact hx x (hxb.mono hins.next_le) (hins.apart hxb hxf (hxs b hb))
        fun b' hb' => hxs b' (hrest b' hb')

end Flow

namespace Recording

/-- A call of the one graph has the other graph as its body. -/
def Encloses (r : Recording) (h k : Handle) : Prop :=
  ∃ g, r.graph? h = some g ∧ ∃ m, (m, k) ∈ bodies g

/-- The second graph is the first, or the body of a call in it at any depth. -/
def Within (r : Recording) : Handle → Handle → Prop := Relation.ReflTransGen r.Encloses

/-- The recording passes its check, and its graphs have no node and no edge in common. -/
structure Arena (r : Recording) : Prop where
  checked : r.Checked
  wellFormed : ∀ h g, r.graph? h = some g → g.graph.WellFormed
  apart : ∀ h h' g g', r.graph? h = some g → r.graph? h' = some g' → h ≠ h' → g.Apart g'

variable {r : Recording} {s : Supply}

/-! ## Graphs and their nodes

A node tells its graph, and a body its call, so "the graph in which the call stands" is a
function. -/

theorem handle_ext {h h' : Handle} (heq : h.index = h'.index) : h = h' := by
  obtain ⟨i⟩ := h
  exact congrArg Handle.mk heq

namespace Arena

/-- A node belongs to one graph. -/
theorem home (ha : r.Arena) {h h' : Handle} {g g' : Flow} (hg : r.graph? h = some g)
    (hg' : r.graph? h' = some g') {n : NodeId} (hn : n ∈ g.graph.nodeIds)
    (hn' : n ∈ g'.graph.nodeIds) : h = h' ∧ g = g' := by
  by_cases heq : h = h'
  · subst heq
    exact ⟨rfl, Option.some.inj (hg.symm.trans hg')⟩
  · exact absurd hn' ((ha.apart h h' g g' hg hg' heq).nodes n hn)

/-- A body lies behind the graph of its call. -/
theorem exists_body (ha : r.Arena) {h b : Handle} {g : Flow} (hg : r.graph? h = some g)
    {m : NodeId} (hm : (m, b) ∈ bodies g) : h.index < b.index ∧ ∃ k, r.graph? b = some k := by
  have hn := (ha.checked.passable h.index g hg).nestable _ hm
  exact ⟨hn.after, _, List.getElem?_eq_getElem hn.lt⟩

/-- A body belongs to one call. -/
theorem parent (ha : r.Arena) {h h' b : Handle} {g g' : Flow} (hg : r.graph? h = some g)
    (hg' : r.graph? h' = some g') {m m' : NodeId} (hm : (m, b) ∈ bodies g)
    (hm' : (m', b) ∈ bodies g') : h = h' ∧ g = g' ∧ m = m' := by
  obtain ⟨hd, hone⟩ := nodup_bodies_iff.1 ha.checked.bodies_nodup
  obtain rfl : h = h' := handle_ext (hone h.index h'.index g g' b hg hg' (List.mem_map_of_mem hm)
    (List.mem_map_of_mem hm'))
  obtain rfl := Option.some.inj (hg.symm.trans hg')
  have heq := List.inj_on_of_nodup_map (hd h.index g hg) hm hm' rfl
  exact ⟨rfl, rfl, congrArg Prod.fst heq⟩

/-- What lies within a graph lies behind it. -/
theorem index_le (ha : r.Arena) {h k : Handle} (hw : r.Within h k) : h.index ≤ k.index := by
  induction hw with
  | refl => exact Nat.le_refl _
  | tail _ hk ih =>
    obtain ⟨g, hg, m, hm⟩ := hk
    exact Nat.le_trans ih (Nat.le_of_lt (ha.exists_body hg hm).1)

/-- What lies around a body lies within whatever the body lies in. -/
theorem within_parent (ha : r.Arena) {h h' b : Handle} {g : Flow} (hw : r.Within h b)
    (hne : b ≠ h) (hg : r.graph? h' = some g) {m : NodeId} (hm : (m, b) ∈ bodies g) :
    r.Within h h' := by
  rcases Relation.ReflTransGen.cases_tail hw with heq | ⟨h'', hw', g', hg', m', hm'⟩
  · exact absurd heq.symm hne.symm
  · obtain ⟨rfl, -⟩ := ha.parent hg hg' hm hm'
    exact hw'

end Arena

/-- What lies within a graph is the graph, or lies within the body of one of its calls. -/
theorem within_iff {h k : Handle} {g : Flow} (hg : r.graph? h = some g) :
    r.Within h k ↔ k = h ∨ ∃ b ∈ bodies g, r.Within b.2 k := by
  rw [Within, Relation.ReflTransGen.cases_head_iff]
  refine or_congr eq_comm ⟨?_, ?_⟩
  · rintro ⟨b, ⟨g', hg', m, hm⟩, hw⟩
    obtain rfl := Option.some.inj (hg.symm.trans hg')
    exact ⟨(m, b), hm, hw⟩
  · rintro ⟨b, hb, hw⟩
    exact ⟨b.2, ⟨g, hg, b.1, hb⟩, hw⟩

/-- The graphs of a recording that was kept from its beginning have nothing in common. -/
theorem Kept.apart (hr : r.Kept s) {h h' : Handle} {g g' : Flow} (hg : r.graph? h = some g)
    (hg' : r.graph? h' = some g') (hne : h ≠ h') : g.Apart g' := by
  have hidx : h.index ≠ h'.index := fun heq => hne (handle_ext heq)
  exact ⟨fun n hn hn' => hidx (hr.nodes_apart h.index h'.index g g' hg hg' n hn hn'),
    fun e he e' he' heq => hidx (hr.edges_apart h.index h'.index g g' hg hg' e he e' he' heq)⟩

/-- A recording that was kept from its beginning can be flattened. -/
theorem Kept.arena (hr : r.Kept s) : r.Arena :=
  ⟨hr.checked, fun h g hg => (hr.recorded h.index g hg).wellFormed,
    fun _ _ _ _ hg hg' hne => hr.apart hg hg' hne⟩

/-! ## Flattening all graphs

A flat graph is taken from the table when it is put in the place of its call. That it is still there
at that moment is because no other call has it as its body. -/

/--
A property of a flat graph and of the graph that it was made from: if the bodies have it, the graph
with the bodies in the places of its calls has it.
-/
structure Nests (r : Recording) (P : Handle → Flow → Prop) : Prop where
  fenced : ∀ h f, P h f → f.Fenced
  exists_persists : ∀ h g (body : Handle → Flow), r.graph? h = some g →
    (∀ b ∈ bodies g, P b.2 (body b.2)) → (∀ b ∈ bodies g, g.Apart (body b.2)) →
      ∃ I, Flow.Persists body I ∧ I (bodies g) g ∧ ∀ f, I [] f → P h f

/-- What is used up is not in the table any more. -/
theorem at?_foldl_without (bs : List (NodeId × Handle)) (t : Table Handle Flow) (k : Handle) :
    Table.at? (bs.foldl (fun t b => Table.without t b.2) t) k =
      if k ∈ bs.map Prod.snd then none else Table.at? t k := by
  induction bs generalizing t with
  | nil => simp
  | cons b bs ih =>
    rw [List.foldl_cons, ih]
    by_cases hk : k = b.2
    · subst hk
      simp
    · simp only [Table.at?_without_of_ne t hk, List.map_cons, List.mem_cons, hk, false_or]

/-- The flat graphs that are not used up, once all graphs from an index on are flattened. -/
structure Flattened (r : Recording) (P : Handle → Flow → Prop) (s : Supply) (i : Nat)
    (flat : Table Handle Flow) : Prop where
  holds : ∀ h f, Table.at? flat h = some f → i ≤ h.index ∧ P h f ∧ f.graph.Before s
  exists_flat : ∀ h g, i ≤ h.index → r.graph? h = some g →
    (∀ j k m, i ≤ j.index → r.graph? j = some k → (m, h) ∉ bodies k) →
    ∃ f, Table.at? flat h = some f
  apart : ∀ h h' f f', Table.at? flat h = some f → Table.at? flat h' = some f' → h ≠ h' →
    f.Apart f'
  apart_recorded : ∀ j g h f, j.index < i → r.graph? j = some g → Table.at? flat h = some f →
    g.Apart f

variable {P : Handle → Flow → Prop}

/-- The flat graphs that are left are the new one and those that are no bodies in it. -/
theorem at?_put_without_cases {bs : List (NodeId × Handle)} {flat : Table Handle Flow}
    {h k : Handle} {f f' : Flow}
    (hk : Table.at? (Table.put (bs.foldl (fun t b => Table.without t b.2) flat) h f) k = some f') :
    k = h ∧ f' = f ∨ Table.at? flat k = some f' ∧ ∀ b ∈ bs, b.2 ≠ k := by
  rw [Table.at?_put, at?_foldl_without] at hk
  split at hk
  · exact .inl ⟨‹_›, (Option.some.inj hk).symm⟩
  · split at hk
    · cases hk
    · rename_i hnot
      exact .inr ⟨hk, fun b hb heq => hnot (heq ▸ List.mem_map_of_mem hb)⟩

/-- When a graph is met, all its bodies are flat and not used up. -/
theorem Flattened.exists_body (ha : r.Arena) {i : Nat} {flat : Table Handle Flow}
    (h : r.Flattened P s (i + 1) flat) {g : Flow} (hg : r.graph? ⟨i⟩ = some g) :
    ∃ body : Handle → Flow, ∀ b ∈ bodies g, Table.at? flat b.2 = some (body b.2) := by
  refine ⟨fun b => (Table.at? flat b).getD g, fun b hb => ?_⟩
  obtain ⟨hlt, k, hk⟩ := ha.exists_body hg hb
  obtain ⟨f, hf⟩ := h.exists_flat b.2 k hlt hk fun j l m hj hl hm => by
    obtain ⟨rfl, -⟩ := ha.parent hg hl hb hm
    exact Nat.lt_irrefl _ hj
  dsimp only
  rw [hf, Option.getD_some]

/-- One more graph is flattened, and the bodies of its calls are used up. -/
theorem Flattened.step (ha : r.Arena) (hP : r.Nests P)
    (hbefore : ∀ h g, r.graph? h = some g → g.graph.Before s) {i : Nat}
    {flat : Table Handle Flow} (h : r.Flattened P s (i + 1) flat) {g : Flow}
    (hg : r.graph? ⟨i⟩ = some g) :
    ∃ f s' flat', g.inlineAll s flat (bodies g) = .ok (f, s', flat') ∧ s.next ≤ s'.next ∧
      r.Flattened P s' i (Table.put flat' ⟨i⟩ f) := by
  obtain ⟨body, hat⟩ := h.exists_body ha hg
  have hflat : ∀ b ∈ bodies g, P b.2 (body b.2) := fun b hb => (h.holds _ _ (hat b hb)).2.1
  have hself : ∀ b ∈ bodies g, g.Apart (body b.2) := fun b hb =>
    h.apart_recorded ⟨i⟩ g _ _ (Nat.lt_succ_self i) hg (hat b hb)
  have hnd : (bodies g).Pairwise fun b b' => b.2 ≠ b'.2 :=
    List.pairwise_map.1 ((nodup_bodies_iff.1 ha.checked.bodies_nodup).1 i g hg)
  have hapart : (bodies g).Pairwise fun b b' => b.2 ≠ b'.2 ∧ (body b.2).Apart (body b'.2) :=
    hnd.imp_of_mem fun hb hb' hne => ⟨hne, h.apart _ _ _ _ (hat _ hb) (hat _ hb') hne⟩
  obtain ⟨I, hI, hstart, hdone⟩ := hP.exists_persists ⟨i⟩ g body hg hflat hself
  obtain ⟨f, s', hok, hf, hbf, hle, hx⟩ := Flow.inlineAll_spec hI hstart (hbefore ⟨i⟩ g hg) hat
    (fun b hb => hP.fenced _ _ (hflat b hb)) (fun b hb => (h.holds _ _ (hat b hb)).2.2) hself hapart
  -- whatever is left over stays apart from the graph that was flattened last
  have hnew : ∀ k f', Table.at? flat k = some f' → (∀ b ∈ bodies g, b.2 ≠ k) → f'.Apart f := by
    intro k f' hk hnot
    exact hx f' (h.holds k f' hk).2.2
      (h.apart_recorded ⟨i⟩ g k f' (Nat.lt_succ_self i) hg hk).symm
      fun b hb => h.apart _ _ _ _ hk (hat b hb) (hnot b hb).symm
  refine ⟨f, s', _, hok, hle,
    { holds := fun k f' hk => ?_
      exists_flat := fun k l hi hl hno => ?_
      apart := fun k k' f₁ f₂ hk hk' hne => ?_
      apart_recorded := fun j l k f' hj hl hk => ?_ }⟩
  · rcases at?_put_without_cases hk with ⟨rfl, rfl⟩ | ⟨hk, -⟩
    · exact ⟨Nat.le_refl i, hdone f' hf, hbf⟩
    · obtain ⟨hi, hf, hb⟩ := h.holds k f' hk
      exact ⟨Nat.le_of_succ_le hi, hf, hb.mono hle⟩
  · rw [Table.at?_put, at?_foldl_without]
    by_cases hki : k = ⟨i⟩
    · exact ⟨f, if_pos hki⟩
    · have hlt : i + 1 ≤ k.index := Nat.lt_of_le_of_ne hi fun heq => hki (by rw [heq])
      have hnot : k ∉ (bodies g).map Prod.snd := by
        intro hm
        obtain ⟨b, hb, rfl⟩ := List.mem_map.1 hm
        exact hno ⟨i⟩ g b.1 (Nat.le_refl i) hg hb
      rw [if_neg hki, if_neg hnot]
      exact h.exists_flat k l hlt hl fun j k' m hj => hno j k' m (Nat.le_of_succ_le hj)
  · rcases at?_put_without_cases hk with ⟨rfl, rfl⟩ | ⟨hat₁, hnot⟩ <;>
      rcases at?_put_without_cases hk' with ⟨rfl, rfl⟩ | ⟨hat₂, hnot'⟩
    · exact absurd rfl hne
    · exact (hnew k' f₂ hat₂ hnot').symm
    · exact hnew k f₁ hat₁ hnot
    · exact h.apart k k' f₁ f₂ hat₁ hat₂ hne
  · rcases at?_put_without_cases hk with ⟨rfl, rfl⟩ | ⟨hk, -⟩
    · refine hx l (hbefore j l hl) (ha.apart j ⟨i⟩ l g hl hg fun heq => ?_) fun b hb => ?_
      · rw [heq] at hj
        exact Nat.lt_irrefl _ hj
      · exact h.apart_recorded j l _ _ (Nat.lt_succ_of_lt hj) hl (hat b hb)
    · exact h.apart_recorded j l k f' (Nat.lt_succ_of_lt hj) hl hk

/-- All graphs from an index on can be flattened. -/
theorem flattenAll_spec (ha : r.Arena) (hP : r.Nests P)
    (hbefore : ∀ h g, r.graph? h = some g → g.graph.Before s) {i : Nat} {rest : List Flow}
    (h : r.graphs.drop i = rest) :
    ∃ s' flat, flattenAll s ((rest.zipIdx i).map fun g => (⟨g.2⟩, g.1)) = .ok (s', flat) ∧
      s.next ≤ s'.next ∧ r.Flattened P s' i flat := by
  induction rest generalizing i with
  | nil =>
    refine ⟨s, [], rfl, Nat.le_refl _, nofun, fun k g hi hg _ => ?_, nofun, nofun⟩
    have hlt : k.index < r.graphs.length := (List.getElem?_eq_some_iff.1 hg).1
    exact absurd (Nat.le_trans (List.drop_eq_nil_iff.1 h) hi) (Nat.not_le.2 hlt)
  | cons g rest ih =>
    have hg : r.graph? ⟨i⟩ = some g := by
      have hhead : (r.graphs.drop i)[0]? = r.graphs[i + 0]? := List.getElem?_drop
      rw [h] at hhead
      exact hhead.symm
    have hdrop : r.graphs.drop (i + 1) = rest := by
      rw [← List.drop_drop, h]
      rfl
    obtain ⟨s₁, flat, hok, hle, hflat⟩ := ih hdrop
    obtain ⟨f, s', flat', hok', hle', hflat'⟩ :=
      hflat.step ha hP (fun h g hg => (hbefore h g hg).mono hle) hg
    refine ⟨s', Table.put flat' ⟨i⟩ f, ?_, Nat.le_trans hle hle', hflat'⟩
    rw [List.zipIdx_cons, List.map_cons, flattenAll, hok, Outcome.ok_bind]
    dsimp only
    rw [hok']
    rfl

/-- Flattening succeeds, and what holds of every graph whose bodies are flat holds of the root. -/
theorem Nests.flatten_spec (hP : r.Nests P) (ha : r.Arena)
    (hbefore : ∀ h g, r.graph? h = some g → g.graph.Before s) :
    ∃ f s', r.flatten s = .ok (f, s') ∧ P r.root f := by
  obtain ⟨s', flat, hok, -, hflat⟩ :=
    flattenAll_spec ha hP hbefore (List.drop_zero : r.graphs.drop 0 = _)
  have hg : r.graph? r.root = some _ := List.getElem?_eq_getElem ha.checked.root_lt
  obtain ⟨f, hf⟩ := hflat.exists_flat r.root _ (Nat.zero_le _) hg fun j k m _ hk hm =>
    ((ha.checked.passable j.index k hk).nestable _ hm).ne_root rfl
  refine ⟨f, s', ?_, (hflat.holds _ _ hf).2.1⟩
  rw [flatten, validate_eq_ok_iff.2 ha.checked, Outcome.ok_bind, handles, hok, Outcome.ok_bind]
  dsimp only
  rw [hf]
  rfl

end Recording

end ObjectFlow
