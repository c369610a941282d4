import Mathlib.Data.List.Chain
import ObjectFlow.Proofs.Graph.Rewire

/-!
# What thinning leaves

Of the edges into a node thinning keeps the first from each source, and of the edges out of it the
first to each target (`thin_eq_filter`). So an edge is left wherever there was one (`step_thin`),
and no two at the node run side by side. A loop is met on both sides of its node: the answer counts
it twice, unless the two places are next to each other (`thin_exact`).

The answer is the length of a list that is made of two: the later edges into the node and then the
later edges out of it, where repetitions that are side by side are left out. Neither list repeats
anything, so there is one place at most where something is left out, at the seam (`Meet`). What is
in both lists are the later loops. For the two to meet, the last of the one must be the first of the
other, and as both are in the order of the edges there can only be one such loop.
-/

namespace ObjectFlow.Graph

variable {N E : Type} {g : Graph N E} {id : NodeId}

/-! ## Repetitions that are side by side

Leaving out repetitions is a function on lists that looks at neighbours only. -/

section Repetitions

variable {α : Type} [DecidableEq α]

theorem eraseRepsBy_loop_eq (a : α) (as acc : List α) :
    List.eraseRepsBy.loop (· == ·) a as acc = acc.reverse ++ (a :: as).eraseReps := by
  induction as generalizing a acc with
  | nil => simp [List.eraseReps, List.eraseRepsBy, List.eraseRepsBy.loop]
  | cons b as ih =>
    rw [List.eraseReps, List.eraseRepsBy, List.eraseRepsBy.loop, List.eraseRepsBy.loop]
    split
    · rw [ih, ih, List.reverse_nil, List.nil_append]
    · rw [ih, ih]
      simp

/-- An element goes if the next one is the same. -/
theorem eraseReps_cons_cons (a b : α) (l : List α) : (a :: b :: l).eraseReps =
    if a = b then (b :: l).eraseReps else a :: (b :: l).eraseReps := by
  rw [List.eraseReps, List.eraseRepsBy, List.eraseRepsBy.loop]
  by_cases hab : a = b
  · subst hab
    simp [eraseRepsBy_loop_eq]
  · rw [beq_eq_false_iff_ne.2 hab, if_neg hab]
    exact eraseRepsBy_loop_eq b l [a]

@[simp] theorem mem_eraseReps {x : α} {l : List α} : x ∈ l.eraseReps ↔ x ∈ l := by
  match l with
  | [] => rfl
  | [a] => rfl
  | a :: b :: l =>
    rw [eraseReps_cons_cons]
    have ih := mem_eraseReps (x := x) (l := b :: l)
    split
    · rename_i hab
      rw [ih, hab]
      simp
    · rw [List.mem_cons, List.mem_cons, ih]

/-- Where no neighbours are the same nothing goes. -/
theorem eraseReps_eq_self {l : List α} (h : l.IsChain (· ≠ ·)) : l.eraseReps = l := by
  match l with
  | [] => rfl
  | [a] => rfl
  | a :: b :: l =>
    obtain ⟨hab, hrest⟩ := List.isChain_cons_cons.1 h
    rw [eraseReps_cons_cons, if_neg hab, eraseReps_eq_self hrest]

/-- An element that stands twice in a row may stand once. -/
theorem eraseReps_append_twice (l : List α) (a : α) (l' : List α) :
    (l ++ a :: a :: l').eraseReps = (l ++ a :: l').eraseReps := by
  match l with
  | [] => rw [List.nil_append, eraseReps_cons_cons, if_pos rfl, List.nil_append]
  | [b] =>
    have ih := eraseReps_append_twice [] a l'
    simp only [List.nil_append] at ih
    simp only [List.cons_append, List.nil_append, eraseReps_cons_cons b, ih]
  | b :: c :: l =>
    have ih := eraseReps_append_twice (c :: l) a l'
    simp only [List.cons_append] at ih
    simp only [List.cons_append, eraseReps_cons_cons b, ih]

/-- The last of one list and the first of another one are the same. -/
def Meet (l l' : List α) : Prop := ∃ a, l.getLast? = some a ∧ l'.head? = some a

/-- Where two lists meet one element goes. -/
theorem length_eraseReps_of_meet {l l' : List α} (hd : l.Nodup) (hd' : l'.Nodup)
    (h : Meet l l') : (l ++ l').eraseReps.length + 1 = l.length + l'.length := by
  obtain ⟨a, hl, hl'⟩ := h
  obtain ⟨l, rfl⟩ := List.getLast?_eq_some_iff.1 hl
  obtain ⟨l', rfl⟩ := List.head?_eq_some_iff.1 hl'
  have hchain : (l ++ a :: l').IsChain (· ≠ ·) :=
    List.isChain_split.2 ⟨hd.isChain, hd'.isChain⟩
  rw [List.append_assoc, List.singleton_append, eraseReps_append_twice, eraseReps_eq_self hchain]
  simp only [List.length_append, List.length_cons, List.length_nil]
  omega

/-- Where they do not meet none does. -/
theorem length_eraseReps_of_not_meet {l l' : List α} (hd : l.Nodup) (hd' : l'.Nodup)
    (h : ¬ Meet l l') : (l ++ l').eraseReps.length = l.length + l'.length := by
  have hchain : (l ++ l').IsChain (· ≠ ·) := by
    refine List.isChain_append.2 ⟨hd.isChain, hd'.isChain, ?_⟩
    rintro a ha _ hb rfl
    exact h ⟨a, ha, hb⟩
  rw [eraseReps_eq_self hchain, List.length_append]

end Repetitions

/-! ## The first with a far end

At one side of a node edges are told by their other end. -/

/-- The edge is the first of a list with its far end. -/
def First (far : Edge E → NodeId) (es : List (Edge E)) (e : Edge E) : Prop :=
  (es.find? fun e' => far e' = far e).map Edge.id = some e.id

instance (far : Edge E → NodeId) (es : List (Edge E)) : DecidablePred (First far es) :=
  fun _ => inferInstanceAs (Decidable (_ = _))

/-- An edge behind another one is the first only if the two have different far ends. -/
theorem first_cons_iff {far : Edge E → NodeId} {e e' : Edge E} {es : List (Edge E)}
    (hne : e.id ≠ e'.id) : First far (e :: es) e' ↔ far e ≠ far e' ∧ First far es e' := by
  unfold First
  by_cases hfar : far e = far e'
  · simp [hfar, hne]
  · simp [hfar]

/-- What is repeated has a far end that was seen before the list or within it. -/
theorem repeated_eq {far : Edge E → NodeId} {es : List (Edge E)} (hd : (es.map Edge.id).Nodup)
    (seen : List NodeId) : repeated far es seen =
      (es.filter fun e => far e ∈ seen ∨ ¬ First far es e).map Edge.id := by
  induction es generalizing seen with
  | nil => rfl
  | cons e es ih =>
    obtain ⟨hnew, hd⟩ := List.nodup_cons.1 hd
    have hfirst : First far (e :: es) e := by simp [First]
    have hrest : ∀ e' ∈ es, First far (e :: es) e' ↔ far e ≠ far e' ∧ First far es e' :=
      fun e' he' => first_cons_iff fun hid => hnew (hid ▸ List.mem_map_of_mem he')
    rw [repeated]
    split
    · rename_i hseen
      have hseen : far e ∈ seen := by simpa using hseen
      rw [List.filter_cons_of_pos (by simp [hseen]), List.map_cons, ih hd]
      refine congrArg (fun es : List (Edge E) => e.id :: es.map Edge.id)
        (List.filter_congr fun e' he' => ?_)
      refine decide_eq_decide.2 ?_
      rw [hrest e' he']
      by_cases hfar : far e = far e'
      · simp [hfar ▸ hseen]
      · simp [hfar]
    · rename_i hseen
      have hseen : far e ∉ seen := by simpa using hseen
      rw [List.filter_cons_of_neg (by simp [hseen, hfirst]), ih hd]
      refine congrArg (List.map Edge.id) (List.filter_congr fun e' he' => ?_)
      refine decide_eq_decide.2 ?_
      rw [hrest e' he', List.mem_cons]
      by_cases hfar : far e = far e'
      · simp [hfar]
      · simp [hfar, Ne.symm hfar]

/-- What is repeated is all that is not the first with its far end. -/
theorem repeated_nil_eq {far : Edge E → NodeId} {es : List (Edge E)}
    (hd : (es.map Edge.id).Nodup) :
    repeated far es [] = (es.filter fun e => ¬ First far es e).map Edge.id := by
  simp [repeated_eq hd]

/-! ## The edges that stay

An edge may be at the node with one of its ends or with both. It has to be the first at each of
them. -/

/--
Where the edge ends at the node it is the first that does from its source, and where it starts there
it is the first that does to its target.
-/
def Foremost (g : Graph N E) (id : NodeId) (e : Edge E) : Prop :=
  (e.target = id → First Edge.source (g.inEdges id) e) ∧
    (e.source = id → First Edge.target (g.outEdges id) e)

instance (g : Graph N E) (id : NodeId) : DecidablePred (g.Foremost id) :=
  fun _ => inferInstanceAs (Decidable (_ ∧ _))

/-- Among the edges into the node the first from a source is the first between the two nodes. -/
theorem first_inEdges_iff {e : Edge E} (ht : e.target = id) :
    First Edge.source (g.inEdges id) e ↔
      (g.edges.find? fun e' => e'.source = e.source ∧ e'.target = e.target).map Edge.id =
        some e.id := by
  simp [First, inEdges, List.find?_filter, ht, and_comm]

/-- Among the edges out of the node the first to a target is the first between the two nodes. -/
theorem first_outEdges_iff {e : Edge E} (hs : e.source = id) :
    First Edge.target (g.outEdges id) e ↔
      (g.edges.find? fun e' => e'.source = e.source ∧ e'.target = e.target).map Edge.id =
        some e.id := by
  simp [First, outEdges, List.find?_filter, hs]

/-- An edge at the node is the first of those that run beside it. -/
theorem foremost_iff {e : Edge E} : g.Foremost id e ↔ e.source = id ∨ e.target = id →
    (g.edges.find? fun e' => e'.source = e.source ∧ e'.target = e.target).map Edge.id =
      some e.id := by
  constructor
  · rintro ⟨hin, hout⟩ (hs | ht)
    · exact (first_outEdges_iff hs).1 (hout hs)
    · exact (first_inEdges_iff ht).1 (hin ht)
  · exact fun h => ⟨fun ht => (first_inEdges_iff ht).2 (h (.inr ht)),
      fun hs => (first_outEdges_iff hs).2 (h (.inl hs))⟩

/-- The edge ends at the node, and so does one before it from the same source. -/
def LaterIn (g : Graph N E) (id : NodeId) (e : Edge E) : Prop :=
  e.target = id ∧ ¬ First Edge.source (g.inEdges id) e

/-- The edge starts at the node, and so does one before it to the same target. -/
def LaterOut (g : Graph N E) (id : NodeId) (e : Edge E) : Prop :=
  e.source = id ∧ ¬ First Edge.target (g.outEdges id) e

instance (g : Graph N E) (id : NodeId) : DecidablePred (g.LaterIn id) :=
  fun _ => inferInstanceAs (Decidable (_ ∧ _))

instance (g : Graph N E) (id : NodeId) : DecidablePred (g.LaterOut id) :=
  fun _ => inferInstanceAs (Decidable (_ ∧ _))

/-- An edge that goes is later on one of the two sides. -/
theorem not_foremost_iff {e : Edge E} : ¬ g.Foremost id e ↔ g.LaterIn id e ∨ g.LaterOut id e := by
  unfold Foremost LaterIn LaterOut
  tauto

/-- The later edges into the node. -/
def laterIn (g : Graph N E) (id : NodeId) : List (Edge E) := g.edges.filter fun e => g.LaterIn id e

/-- The later edges out of the node. -/
def laterOut (g : Graph N E) (id : NodeId) : List (Edge E) :=
  g.edges.filter fun e => g.LaterOut id e

/-- The repeated edges on one side of a node, where `near` is the end at the node. -/
theorem repeated_filter (h : g.WellFormed) (near far : Edge E → NodeId) (id : NodeId) :
    repeated far (g.edges.filter fun e => near e = id) [] = (g.edges.filter fun e =>
      near e = id ∧ ¬ First far (g.edges.filter fun e => near e = id) e).map Edge.id := by
  rw [repeated_nil_eq (h.edges_nodup.sublist (List.filter_sublist.map _)), List.filter_filter]
  refine congrArg _ (List.filter_congr fun e _ => ?_)
  rw [← Bool.decide_and]
  exact decide_eq_decide.2 and_comm

theorem repeated_inEdges (h : g.WellFormed) (id : NodeId) :
    repeated Edge.source (g.inEdges id) [] = (g.laterIn id).map Edge.id :=
  repeated_filter h Edge.target Edge.source id

theorem repeated_outEdges (h : g.WellFormed) (id : NodeId) :
    repeated Edge.target (g.outEdges id) [] = (g.laterOut id).map Edge.id :=
  repeated_filter h Edge.source Edge.target id

theorem mem_superfluous_iff (h : g.WellFormed) {e : Edge E} (he : e ∈ g.edges) :
    e.id ∈ g.superfluous id ↔ ¬ g.Foremost id e := by
  rw [superfluous, repeated_inEdges h, repeated_outEdges h, mem_eraseReps, List.mem_append, laterIn,
    laterOut, h.id_mem_iff List.filter_sublist.subset he,
    h.id_mem_iff List.filter_sublist.subset he, not_foremost_iff]
  simp [he]

theorem thin_eq_filter (h : g.WellFormed) (id : NodeId) :
    (g.thin id).2 = { g with edges := g.edges.filter fun e => g.Foremost id e } := by
  rw [thin_eq]
  refine congrArg (fun es => (⟨g.nodes, es, g.metadata, g.seating⟩ : Graph N E))
    (List.filter_congr fun e he => decide_eq_decide.2 ?_)
  rw [mem_superfluous_iff h he, not_not]

theorem mem_edges_thin (h : g.WellFormed) {e : Edge E} :
    e ∈ (g.thin id).2.edges ↔ e ∈ g.edges ∧ g.Foremost id e := by
  simp [thin_eq_filter h]

/-- Thinning leaves an edge wherever there was one. -/
theorem step_thin (h : g.WellFormed) {u v : NodeId} : (g.thin id).2.Step u v ↔ g.Step u v := by
  constructor
  · rintro ⟨e, he, hs, ht⟩
    exact ⟨e, ((mem_edges_thin h).1 he).1, hs, ht⟩
  · rintro ⟨e, he, rfl, rfl⟩
    have hsome : (g.edges.find? fun e' => e'.source = e.source ∧ e'.target = e.target).isSome :=
      List.find?_isSome.2 ⟨e, he, by simp⟩
    obtain ⟨e₁, hfirst⟩ := Option.isSome_iff_exists.1 hsome
    obtain ⟨hs, ht⟩ : e₁.source = e.source ∧ e₁.target = e.target := by
      simpa using List.find?_some hfirst
    refine ⟨e₁, (mem_edges_thin h).2 ⟨List.mem_of_find?_eq_some hfirst, ?_⟩, hs, ht⟩
    rw [foremost_iff, hs, ht, hfirst]
    exact fun _ => rfl

/-- After thinning no two edges at a node run side by side. -/
theorem eq_of_mem_thin (h : g.WellFormed) {e e' : Edge E} (he : e ∈ (g.thin id).2.edges)
    (he' : e' ∈ (g.thin id).2.edges) (hs : e.source = e'.source) (ht : e.target = e'.target)
    (hid : e.source = id ∨ e.target = id) : e = e' := by
  obtain ⟨he, hfirst⟩ := (mem_edges_thin h).1 he
  obtain ⟨he', hfirst'⟩ := (mem_edges_thin h).1 he'
  have heq := foremost_iff.1 hfirst hid
  rw [hs, ht, foremost_iff.1 hfirst' (hs ▸ ht ▸ hid)] at heq
  exact (h.edge_ext he' he (Option.some.inj heq)).symm

/-! ## The edges that are counted

The edges that go are the union of the two lists, and the later loops are what they share. -/

/-- Of two properties, those that have either and those that have both are as many as those that
have each. -/
theorem countP_or_add_countP_and {α : Type} (p q : α → Bool) (l : List α) :
    l.countP (fun a => p a || q a) + l.countP (fun a => p a && q a) = l.countP p + l.countP q := by
  induction l with
  | nil => rfl
  | cons a l ih =>
    simp only [List.countP_cons]
    cases p a <;> cases q a <;> simp <;> omega

/-- The first edge of a list is told by its identity. -/
theorem tail_eq_filter {es : List (Edge E)} (hd : (es.map Edge.id).Nodup) :
    es.tail = es.filter fun e => es.head?.map Edge.id ≠ some e.id := by
  cases es with
  | nil => rfl
  | cons e es =>
    have hnew := (List.nodup_cons.1 hd).1
    rw [List.filter_cons_of_neg (by simp), List.tail_cons]
    refine (List.filter_eq_self.2 fun e' he' => ?_).symm
    have hne : e.id ≠ e'.id := fun hid => hnew (hid ▸ List.mem_map_of_mem he')
    simp [hne]

/-- What is later on both sides are the loops but the first. -/
theorem filter_later_both (h : g.WellFormed) (id : NodeId) :
    (g.edges.filter fun e => g.LaterIn id e && g.LaterOut id e) = (g.between id id).tail := by
  have hloops : g.between id id = g.edges.filter fun e => e.source = id ∧ e.target = id := by
    rw [between, outEdges, List.filter_filter]
    exact List.filter_congr fun e _ => by simp [Bool.and_comm]
  have hd : ((g.between id id).map Edge.id).Nodup :=
    h.edges_nodup.sublist ((List.filter_sublist.trans List.filter_sublist).map _)
  rw [tail_eq_filter hd, hloops, List.head?_filter, List.filter_filter]
  refine List.filter_congr fun e _ => ?_
  by_cases hloop : e.source = id ∧ e.target = id
  · obtain ⟨hs, ht⟩ := hloop
    simp [LaterIn, LaterOut, first_inEdges_iff ht, first_outEdges_iff hs, hs, ht]
  · rw [Bool.eq_iff_iff]
    simp only [Bool.and_eq_true, decide_eq_true_eq]
    unfold LaterIn LaterOut
    tauto

/-- Each edge that goes is later on one side, and just the loops are on both. -/
theorem length_later_add (h : g.WellFormed) (id : NodeId) :
    (g.laterIn id).length + (g.laterOut id).length + (g.thin id).2.edges.length =
      g.edges.length + ((g.between id id).length - 1) := by
  have hgone : (fun e => decide (g.LaterIn id e) || decide (g.LaterOut id e)) =
      fun e => decide (¬ g.Foremost id e) := by
    funext e
    rw [← Bool.decide_or]
    exact decide_eq_decide.2 not_foremost_iff.symm
  have hcount := countP_or_add_countP_and (fun e => decide (g.LaterIn id e))
    (fun e => decide (g.LaterOut id e)) g.edges
  have hall := g.edges.length_eq_countP_add_countP fun e => decide (g.Foremost id e)
  rw [hgone] at hcount
  simp only [List.countP_eq_length_filter, filter_later_both h, List.length_tail] at hcount hall
  simp only [laterIn, laterOut, thin_eq_filter h, decide_eq_true_eq] at hall ⊢
  omega

/-- That the two sides meet can be told by the identities. -/
theorem meet_ids_iff (h : g.WellFormed) (id : NodeId) :
    Meet ((g.laterIn id).map Edge.id) ((g.laterOut id).map Edge.id) ↔
      Meet (g.laterIn id) (g.laterOut id) := by
  simp only [Meet, List.getLast?_map, List.head?_map]
  constructor
  · rintro ⟨i, hlast, hhead⟩
    obtain ⟨e, he, rfl⟩ := Option.map_eq_some_iff.1 hlast
    obtain ⟨e', he', hid⟩ := Option.map_eq_some_iff.1 hhead
    have hmem : e ∈ g.edges := List.filter_sublist.subset (List.mem_of_getLast? he)
    have hmem' : e' ∈ g.edges := List.filter_sublist.subset (List.mem_of_head? he')
    exact ⟨e, he, h.edge_ext hmem' hmem hid ▸ he'⟩
  · rintro ⟨e, he, he'⟩
    exact ⟨e.id, by rw [he]; rfl, by rw [he']; rfl⟩

/-- A list whose first and last are the same has no other members. -/
theorem eq_singleton_of_ends {α : Type} {l : List α} (hd : l.Nodup) {a : α}
    (hhead : l.head? = some a) (hlast : l.getLast? = some a) : l = [a] := by
  obtain ⟨l, rfl⟩ := List.head?_eq_some_iff.1 hhead
  cases l with
  | nil => rfl
  | cons b l =>
    rw [List.getLast?_cons_cons] at hlast
    exact absurd (List.mem_of_getLast? hlast) (List.nodup_cons.1 hd).1

/-- Where the two sides meet there is a second loop and no third one. -/
theorem length_between_of_meet (h : g.WellFormed)
    (hm : Meet (g.laterIn id) (g.laterOut id)) : (g.between id id).length = 2 := by
  obtain ⟨e, hlast, hhead⟩ := hm
  have hin : g.LaterIn id e :=
    of_decide_eq_true (List.mem_filter.1 (List.mem_of_getLast? hlast)).2
  have hout : g.LaterOut id e :=
    of_decide_eq_true (List.mem_filter.1 (List.mem_of_head? hhead)).2
  have hd : (g.between id id).tail.Nodup := by
    rw [← filter_later_both h]
    exact (List.Nodup.of_map _ h.edges_nodup).filter _
  have hlast' : (g.between id id).tail.getLast? = some e := by
    have hsides : (g.between id id).tail = (g.laterIn id).filter fun e => g.LaterOut id e := by
      rw [← filter_later_both h, laterIn, List.filter_filter]
      exact List.filter_congr fun e _ => Bool.and_comm ..
    obtain ⟨l, hl⟩ := List.getLast?_eq_some_iff.1 hlast
    simp [hsides, hl, hout]
  have hhead' : (g.between id id).tail.head? = some e := by
    have hsides : (g.between id id).tail = (g.laterOut id).filter fun e => g.LaterIn id e := by
      rw [← filter_later_both h, laterOut, List.filter_filter]
    obtain ⟨l, hl⟩ := List.head?_eq_some_iff.1 hhead
    simp [hsides, hl, hin]
  have htail := congrArg List.length (eq_singleton_of_ends hd hhead' hlast')
  rw [List.length_tail, List.length_singleton] at htail
  omega

/--
Thinning keeps the edges at the node that are the first from their source and the first to their
target, and all edges elsewhere; nothing else changes. The answer is the number of edges that went
where the node has at most one loop, or where the last of the later edges into it is the first of
the later edges out of it (then it has two); else each loop but the first counts twice.
-/
theorem thin_exact (h : g.WellFormed) (id : NodeId) :
    (g.thin id).2 = { g with edges := g.edges.filter fun e => g.Foremost id e } ∧
      (Meet (g.laterIn id) (g.laterOut id) →
        (g.thin id).1 + (g.thin id).2.edges.length = g.edges.length) ∧
      (¬ Meet (g.laterIn id) (g.laterOut id) →
        (g.thin id).1 + (g.thin id).2.edges.length =
          g.edges.length + ((g.between id id).length - 1)) := by
  have hanswer : (g.thin id).1 =
      ((g.laterIn id).map Edge.id ++ (g.laterOut id).map Edge.id).eraseReps.length := by
    rw [← repeated_inEdges h, ← repeated_outEdges h]
    rfl
  have hdin : ((g.laterIn id).map Edge.id).Nodup :=
    h.edges_nodup.sublist (List.filter_sublist.map _)
  have hdout : ((g.laterOut id).map Edge.id).Nodup :=
    h.edges_nodup.sublist (List.filter_sublist.map _)
  have hsides := length_later_add h id
  refine ⟨thin_eq_filter h id, fun hm => ?_, fun hm => ?_⟩
  · have hcount := length_eraseReps_of_meet hdin hdout ((meet_ids_iff h id).2 hm)
    have hloops := length_between_of_meet h hm
    rw [← hanswer, List.length_map, List.length_map] at hcount
    omega
  · have hcount := length_eraseReps_of_not_meet hdin hdout (hm ∘ (meet_ids_iff h id).1)
    rw [← hanswer, List.length_map, List.length_map] at hcount
    omega

/-- Two edges to another node and one back, and two loops in between. -/
def bundled : Graph Unit Unit :=
  ((({} : Graph Unit Unit).attachNode ⟨1⟩ ()).attachNode ⟨2⟩ ()).withEdges
    [⟨⟨3⟩, ⟨1⟩, ⟨2⟩, ()⟩, ⟨⟨4⟩, ⟨2⟩, ⟨1⟩, ()⟩, ⟨⟨5⟩, ⟨1⟩, ⟨1⟩, ()⟩, ⟨⟨6⟩, ⟨1⟩, ⟨1⟩, ()⟩,
      ⟨⟨7⟩, ⟨1⟩, ⟨2⟩, ()⟩]

/-- The second loop is met on both sides, but counted once. -/
theorem thin_exact_bundled :
    bundled.WellFormed ∧ Meet (bundled.laterIn ⟨1⟩) (bundled.laterOut ⟨1⟩) ∧
      (bundled.thin ⟨1⟩).2.edges.map Edge.id = [⟨3⟩, ⟨4⟩, ⟨5⟩] ∧ (bundled.thin ⟨1⟩).1 = 2 := by
  have hw : bundled.WellFormed :=
    ((WellFormed.empty.attachNode () (by decide)).attachNode () (by decide)).withEdges
      (by decide) (by decide) (by decide) (by decide)
  have hm : Meet (bundled.laterIn ⟨1⟩) (bundled.laterOut ⟨1⟩) :=
    ⟨⟨⟨6⟩, ⟨1⟩, ⟨1⟩, ()⟩, by decide, by decide⟩
  obtain ⟨hedges, hcount, -⟩ := thin_exact hw ⟨1⟩
  have hleft : (bundled.thin ⟨1⟩).2.edges.map Edge.id = [⟨3⟩, ⟨4⟩, ⟨5⟩] := by
    rw [hedges]
    decide
  have hlength := congrArg List.length hleft
  rw [List.length_map] at hlength
  have hcount := hcount hm
  rw [hlength] at hcount
  exact ⟨hw, hm, hleft, Nat.add_right_cancel hcount⟩

/-- Two of three loops go, and four are counted. -/
theorem thin_counts_twice :
    ∃ g : Graph Unit Unit, g.WellFormed ∧ g.edges.length = 3 ∧
      (g.thin ⟨1⟩).2.edges.length = 1 ∧ (g.thin ⟨1⟩).1 = 4 := by
  refine ⟨(({} : Graph Unit Unit).attachNode ⟨1⟩ ()).withEdges
    [⟨⟨2⟩, ⟨1⟩, ⟨1⟩, ()⟩, ⟨⟨3⟩, ⟨1⟩, ⟨1⟩, ()⟩, ⟨⟨4⟩, ⟨1⟩, ⟨1⟩, ()⟩], ?_, by decide, by decide,
    by decide⟩
  exact (WellFormed.empty.attachNode () (by decide)).withEdges (by decide) (by decide) (by decide)
    (by decide)

end ObjectFlow.Graph
