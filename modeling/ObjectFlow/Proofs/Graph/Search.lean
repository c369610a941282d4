import Mathlib.Data.List.Perm.Basic
import Mathlib.Data.Nat.Find
import Mathlib.Order.Bounds.Basic
import ObjectFlow.Graph.Search
import ObjectFlow.Proofs.Graph.Reachability

/-!
# A breadth-first search goes by distance

The nodes in the queue of a search stand by their depths, which differ by one at most, and whatever
is beyond a visited node that lets the search pass was visited or stands in the queue (`Searching`).
So a node is visited at the length of the shortest walk to it, and a search that nothing stops
visits all nodes that have one (`search_visits`).

## Outline

A visit may look at the depth, so whether a node lets the search pass depends on when it is met,
which is to say on the shortest walk to it. Walks are therefore defined by recursion on their length
(`Walk`): to go on beyond a node it must let the search pass at its own distance, and that is
shorter than the walk.

1. Each visit keeps `Searching` (`Searching.step`). The invariant says where the nodes are: met,
   queued or unseen.
2. From the order of the depths in the queue it follows that the head of the queue stands at its
   distance (`Searching.distance_head`), and so does whatever was met (`Searching.distance_met`).
3. A search ends with an empty queue or at a node that stops it (`Ending`). In the first case the
   invariant says that whatever can be reached was met. In the second one it says so of all that is
   nearer (`Searching.mem_met_of_distance`).

Up to the third section neither graphs nor the search are mentioned, but only a relation that leads
from node to node.
-/

namespace ObjectFlow.Graph

variable {N E T : Type}

/-! ## Walks

An edge may be followed in one direction or in both, and only if it is accepted. -/

/-- An edge that may be followed leads from the one node to the other. -/
def Leads (g : Graph N E) (d : Direction) (follow : Edge E → Bool) (u v : NodeId) : Prop :=
  ∃ e ∈ g.edges, follow e = true ∧
    ((d ≠ .reverse ∧ e.source = u ∧ e.target = v) ∨ (d ≠ .forward ∧ e.target = u ∧ e.source = v))

section

variable {leads : NodeId → NodeId → Prop} {visit : NodeId → Nat → Verdict T} {start u v : NodeId}
  {j k : Nat}

/--
A walk of so many steps from the start, beyond nodes that let it pass. Every node is asked once,
when it is first met: that is, with the length of the shortest walk to it.
-/
def Walk (leads : NodeId → NodeId → Prop) (visit : NodeId → Nat → Verdict T) (start : NodeId) :
    Nat → NodeId → Prop
  | 0, v => v = start
  | k + 1, v => ∃ u, Walk leads visit start k u ∧ leads u v ∧ ∃ j : Fin (k + 1),
      Walk leads visit start j u ∧ (∀ i : Fin j, ¬ Walk leads visit start i u) ∧
        visit u j = .expand
termination_by k => k

/-- The length of the shortest walk to a node. -/
def Distance (leads : NodeId → NodeId → Prop) (visit : NodeId → Nat → Verdict T) (start v : NodeId)
    (k : Nat) : Prop := IsLeast {j | Walk leads visit start j v} k

/-- A walk of no steps stays at the start. -/
theorem walk_zero_iff : Walk leads visit start 0 v ↔ v = start := by rw [Walk]

/-- Where there is a walk there is a shortest one. -/
theorem Walk.exists_distance (h : Walk leads visit start k v) :
    ∃ j ≤ k, Distance leads visit start v j := by
  classical
  have hex : ∃ j, Walk leads visit start j v := ⟨k, h⟩
  exact ⟨Nat.find hex, Nat.find_le h, Nat.find_spec hex, fun i hi => Nat.find_le hi⟩

/-- A walk is longer by one step if the node at its end lets it pass. -/
theorem walk_succ_iff : Walk leads visit start (k + 1) v ↔
    ∃ u, Walk leads visit start k u ∧ leads u v ∧
      ∃ j, Distance leads visit start u j ∧ visit u j = .expand := by
  rw [Walk]
  refine exists_congr fun u => and_congr_right fun hu => and_congr_right fun _ => ?_
  constructor
  · rintro ⟨j, hj, hleast, hvisit⟩
    exact ⟨j, ⟨hj, fun i hi => Nat.le_of_not_lt fun hlt => hleast ⟨i, hlt⟩ hi⟩, hvisit⟩
  · rintro ⟨j, hj, hvisit⟩
    have hle : j ≤ k := hj.2 hu
    exact ⟨⟨j, Nat.lt_succ_of_le hle⟩, hj.1, fun i hi => Nat.not_le_of_lt i.2 (hj.2 hi), hvisit⟩

/-- The shortest walk is one. -/
theorem Distance.walk (h : Distance leads visit start v k) : Walk leads visit start k v := h.1

/-- From a node at its distance the walk goes on by one step. -/
theorem Distance.walk_succ (h : Distance leads visit start u k) (hvisit : visit u k = .expand)
    (hlead : leads u v) : Walk leads visit start (k + 1) v :=
  walk_succ_iff.2 ⟨u, h.walk, hlead, k, h, hvisit⟩

/-- Where the answers do not depend on the depth, each node of a walk but the last lets it pass. -/
theorem walk_succ_iff_of_const {answer : NodeId → Verdict T} :
    Walk leads (fun n _ => answer n) start (k + 1) v ↔
      ∃ u, Walk leads (fun n _ => answer n) start k u ∧ answer u = .expand ∧ leads u v := by
  rw [walk_succ_iff]
  refine exists_congr fun u => and_congr_right fun hu => ?_
  constructor
  · rintro ⟨hlead, -, -, hvisit⟩
    exact ⟨hvisit, hlead⟩
  · rintro ⟨hvisit, hlead⟩
    obtain ⟨j, -, hj⟩ := hu.exists_distance
    exact ⟨hlead, j, hj, hvisit⟩

/-! ## What one visit keeps

The order of the depths over all that was seen, met or queued, is one list. This is shorter to keep
than one order for each part. -/

/--
A search on its way: some nodes were met with their depths, others stand in the queue, and the rest
was not seen.
-/
structure Searching (leads : NodeId → NodeId → Prop) (visit : NodeId → Nat → Verdict T)
    (start : NodeId) (nodes : List NodeId) (met : List (NodeId × Nat)) (unseen : List NodeId)
    (queue : List (NodeId × Nat)) : Prop where
  nodes_perm : ((met ++ queue).map Prod.fst ++ unseen).Perm nodes
  start_mem : (start, 0) ∈ met ++ queue
  walk : ∀ e ∈ met ++ queue, Walk leads visit start e.2 e.1
  sorted : ((met ++ queue).map Prod.snd).Pairwise (· ≤ ·)
  spread : ∀ e ∈ queue, ∀ e' ∈ queue, e.2 ≤ e'.2 + 1
  beyond : ∀ e ∈ met, visit e.1 e.2 = .expand → ∀ v, leads e.1 v →
    ∃ j ≤ e.2 + 1, (v, j) ∈ met ++ queue
  unstopped : ∀ e ∈ met, ∀ t, visit e.1 e.2 ≠ .stop t

namespace Searching

variable {nodes unseen unseen' new : List NodeId} {met queue rest : List (NodeId × Nat)}
  {q : NodeId}

/-- At first the start is queued. -/
theorem init (hs : start ∈ nodes) :
    Searching leads visit start nodes [] (nodes.erase start) [(start, 0)] where
  nodes_perm := (List.perm_cons_erase hs).symm
  start_mem := List.mem_singleton_self _
  walk := by simp [walk_zero_iff]
  sorted := by simp
  spread := by simp
  beyond := by simp
  unstopped := by simp

/-- No node was seen twice. -/
theorem nodup (hs : Searching leads visit start nodes met unseen queue) (hd : nodes.Nodup) :
    ((met ++ queue).map Prod.fst).Nodup := (List.nodup_append.1 (hs.nodes_perm.symm.nodup hd)).1

/-- No node was seen at two depths. -/
theorem depth_eq (hs : Searching leads visit start nodes met unseen queue) (hd : nodes.Nodup)
    (hj : (v, j) ∈ met ++ queue) (hk : (v, k) ∈ met ++ queue) : j = k :=
  congrArg Prod.snd (List.inj_on_of_nodup_map (hs.nodup hd) hj hk rfl)

/-- Whatever is not farther than the queue was seen, at its distance or before. -/
theorem seen_of_walk (hs : Searching leads visit start nodes met unseen queue)
    (h : Walk leads visit start k v) (hk : ∀ e ∈ queue, k ≤ e.2) :
    ∃ j ≤ k, (v, j) ∈ met ++ queue := by
  induction k using Nat.strong_induction_on generalizing v with
  | _ k ih =>
    cases k with
    | zero =>
      rw [walk_zero_iff] at h
      exact ⟨0, Nat.le_refl 0, h ▸ hs.start_mem⟩
    | succ k =>
      obtain ⟨u, hu, hlead, j, hj, hvisit⟩ := walk_succ_iff.1 h
      have hjk : j ≤ k := hj.2 hu
      -- the node before the end was seen at its distance, and nearer than anything in the queue
      obtain ⟨i, hij, hi⟩ := ih j (Nat.lt_succ_of_le hjk) hj.walk fun e he =>
        Nat.le_trans (Nat.le_succ_of_le hjk) (hk e he)
      obtain rfl : i = j := Nat.le_antisymm hij (hj.2 (hs.walk _ hi))
      have hmet : (u, i) ∈ met := (List.mem_append.1 hi).resolve_right fun hq =>
        Nat.not_succ_le_self k (Nat.le_trans (hk _ hq) hjk)
      obtain ⟨m, hm, hv⟩ := hs.beyond _ hmet hvisit v hlead
      exact ⟨m, Nat.le_trans hm (Nat.succ_le_succ hjk), hv⟩

/-- So what was seen, and is not farther than the queue, was seen at its distance. -/
theorem distance (hs : Searching leads visit start nodes met unseen queue) (hd : nodes.Nodup)
    (h : (v, k) ∈ met ++ queue) (hk : ∀ e ∈ queue, k ≤ e.2) :
    Distance leads visit start v k := by
  refine ⟨hs.walk _ h, fun i hi => Nat.le_of_not_lt fun hlt => ?_⟩
  obtain ⟨j, hji, hj⟩ := hs.seen_of_walk hi fun e he => Nat.le_trans hlt.le (hk e he)
  have := hs.depth_eq hd hj h
  omega

/-- What was met is not farther than the queue. -/
theorem le_of_mem_met (hs : Searching leads visit start nodes met unseen queue)
    (h : (v, k) ∈ met) : ∀ e ∈ queue, k ≤ e.2 := fun e he => by
  have hsorted := hs.sorted
  rw [List.map_append] at hsorted
  exact (List.pairwise_append.1 hsorted).2.2 k (List.mem_map_of_mem (f := Prod.snd) h) e.2
    (List.mem_map_of_mem he)

/-- Nothing in the queue is nearer than its head. -/
theorem head_le (hs : Searching leads visit start nodes met unseen ((q, k) :: rest)) :
    ∀ e ∈ (q, k) :: rest, k ≤ e.2 := by
  have hsorted := hs.sorted
  rw [List.map_append] at hsorted
  refine List.forall_mem_cons.2 ⟨Nat.le_refl k, fun e he => ?_⟩
  exact List.rel_of_pairwise_cons (List.pairwise_append.1 hsorted).2.1 (List.mem_map_of_mem he)

/-- What was met was met at its distance. -/
theorem distance_met (hs : Searching leads visit start nodes met unseen queue) (hd : nodes.Nodup)
    (h : (v, k) ∈ met) : Distance leads visit start v k :=
  hs.distance hd (List.mem_append_left _ h) (hs.le_of_mem_met h)

/-- The head of the queue stands at its distance. -/
theorem distance_head (hs : Searching leads visit start nodes met unseen ((q, k) :: rest))
    (hd : nodes.Nodup) : Distance leads visit start q k :=
  hs.distance hd (List.mem_append_right _ List.mem_cons_self) hs.head_le

/-- Whatever is nearer than the queue was met. -/
theorem mem_met_of_distance (hs : Searching leads visit start nodes met unseen queue)
    (hd : nodes.Nodup) (h : Distance leads visit start v k) (hk : ∀ e ∈ queue, k < e.2) :
    (v, k) ∈ met := by
  obtain ⟨j, hjk, hj⟩ := hs.seen_of_walk h.walk fun e he => (hk e he).le
  have hmet : (v, j) ∈ met := (List.mem_append.1 hj).resolve_right fun hq =>
    Nat.not_lt_of_le hjk (hk _ hq)
  exact (hs.distance_met hd hmet).unique h ▸ hmet

/-- All that was seen is nearer than what the head of the queue leads to, or as near. -/
theorem seen_le (hs : Searching leads visit start nodes met unseen ((q, k) :: rest)) :
    ∀ e ∈ met ++ (q, k) :: rest, e.2 ≤ k + 1 := by
  refine List.forall_mem_append.2 ⟨fun e he => ?_, fun e he => ?_⟩
  · exact Nat.le_succ_of_le (hs.le_of_mem_met he _ List.mem_cons_self)
  · exact hs.spread e he _ List.mem_cons_self

/--
The head of the queue is visited, and what it leads to and was not seen yet goes to the end of the
queue.
-/
theorem step (hs : Searching leads visit start nodes met unseen ((q, k) :: rest))
    (hd : nodes.Nodup) (hends : ∀ u v, leads u v → v ∈ nodes)
    (hperm : (new ++ unseen').Perm unseen)
    (hnew : ∀ n ∈ new, visit q k = .expand ∧ leads q n)
    (hall : visit q k = .expand → ∀ v, leads q v → v ∉ unseen')
    (hstop : ∀ t, visit q k ≠ .stop t) :
    Searching leads visit start nodes (met ++ [(q, k)]) unseen'
      (rest ++ new.map fun n => (n, k + 1)) := by
  have hseen : (met ++ [(q, k)]) ++ (rest ++ new.map fun n => (n, k + 1)) =
      (met ++ (q, k) :: rest) ++ new.map fun n => (n, k + 1) := by simp
  -- All that is queued now is at the depth of the head or one step beyond.
  have hlevel : ∀ e ∈ rest ++ new.map (fun n => (n, k + 1)), k ≤ e.2 ∧ e.2 ≤ k + 1 := by
    refine List.forall_mem_append.2 ⟨fun e he => ?_, List.forall_mem_map.2 fun n _ => ?_⟩
    · have hq := List.mem_cons_of_mem (q, k) he
      exact ⟨hs.head_le e hq, hs.seen_le e (List.mem_append_right met hq)⟩
    · exact ⟨Nat.le_succ k, Nat.le_refl _⟩
  have hperm' : (((met ++ [(q, k)]) ++ (rest ++ new.map fun n => (n, k + 1))).map Prod.fst ++
      unseen').Perm nodes := by
    refine List.Perm.trans ?_ hs.nodes_perm
    have hfst : (new.map fun n => (n, k + 1)).map Prod.fst = new := by simp [Function.comp_def]
    rw [hseen, List.map_append, hfst, List.append_assoc]
    exact hperm.append_left _
  refine
    { nodes_perm := hperm'
      start_mem := ?_
      walk := ?_
      sorted := ?_
      spread := fun e he e' he' => ?_
      beyond := ?_
      unstopped := ?_ }
  · rw [hseen]
    exact List.mem_append_left _ hs.start_mem
  · rw [hseen]
    refine List.forall_mem_append.2 ⟨hs.walk, List.forall_mem_map.2 fun n hn => ?_⟩
    exact (hs.distance_head hd).walk_succ (hnew n hn).1 (hnew n hn).2
  · rw [hseen, List.map_append, List.map_map]
    refine List.pairwise_append.2 ⟨hs.sorted, ?_, ?_⟩
    · exact List.pairwise_map.2 (List.pairwise_of_forall fun _ _ => Nat.le_refl _)
    · rintro a ha b hb
      obtain ⟨e, he, rfl⟩ := List.mem_map.1 ha
      obtain ⟨n, -, rfl⟩ := List.mem_map.1 hb
      exact hs.seen_le e he
  · exact Nat.le_trans (hlevel e he).2 (Nat.succ_le_succ (hlevel e' he').1)
  · refine List.forall_mem_append.2 ⟨fun e he hvisit v hlead => ?_,
      List.forall_mem_singleton.2 fun hvisit v hlead => ?_⟩
    · obtain ⟨j, hj, hmem⟩ := hs.beyond e he hvisit v hlead
      rw [hseen]
      exact ⟨j, hj, List.mem_append_left _ hmem⟩
    · -- what the head leads to was seen, or is among the new nodes
      have hmem := (List.mem_append.1 (hperm'.symm.subset (hends q v hlead))).resolve_right
        (hall hvisit v hlead)
      obtain ⟨⟨_, j⟩, he, rfl⟩ := List.mem_map.1 hmem
      refine ⟨j, ?_, he⟩
      rw [hseen, List.mem_append] at he
      rcases he with he | he
      · exact hs.seen_le _ he
      · obtain ⟨n, -, heq⟩ := List.mem_map.1 he
        exact (congrArg Prod.snd heq).ge
  · exact List.forall_mem_append.2 ⟨hs.unstopped, List.forall_mem_singleton.2 hstop⟩

end Searching

end

/-! ## What a whole search visits

Here the search itself comes in. One visit finds new nodes among those that were not seen
(`discover`), and the induction over the whole search is on how many are left. -/

/-- Of the nodes that are led to, those that were not seen yet go to the end of the queue. -/
theorem discover_spec (depth : Nat) (ids : List NodeId) {unseen : List NodeId}
    (hd : unseen.Nodup) (queue : List (NodeId × Nat)) :
    ∃ new, (discover depth ids unseen queue).2 = queue ++ new.map (fun n => (n, depth)) ∧
      (new ++ (discover depth ids unseen queue).1).Perm unseen ∧ (∀ n ∈ new, n ∈ ids) ∧
      ∀ n ∈ ids, n ∉ (discover depth ids unseen queue).1 := by
  induction ids generalizing unseen queue with
  | nil => exact ⟨[], by simp [discover], List.Perm.refl _, by simp, by simp⟩
  | cons id ids ih =>
    rw [discover]
    split
    · rename_i hid
      have hid : id ∈ unseen := List.contains_iff_mem.1 hid
      obtain ⟨new, hqueue, hperm, hsub, hall⟩ := ih (hd.erase id) (queue ++ [(id, depth)])
      refine ⟨id :: new, ?_, ?_, ?_, List.forall_mem_cons.2 ⟨fun hm => ?_, hall⟩⟩
      · rw [hqueue]
        simp
      · exact (hperm.cons id).trans (List.perm_cons_erase hid).symm
      · exact List.forall_mem_cons.2
          ⟨List.mem_cons_self, fun n hn => List.mem_cons_of_mem _ (hsub n hn)⟩
      · exact hd.not_mem_erase (hperm.subset (List.mem_append_right _ hm))
    · rename_i hid
      have hid : id ∉ unseen := fun hm => hid (List.contains_iff_mem.2 hm)
      obtain ⟨new, hqueue, hperm, hsub, hall⟩ := ih hd queue
      refine ⟨new, hqueue, hperm, fun n hn => List.mem_cons_of_mem _ (hsub n hn),
        List.forall_mem_cons.2 ⟨fun hm => ?_, hall⟩⟩
      exact hid (hperm.subset (List.mem_append_right _ hm))

variable {g : Graph N E} {d : Direction} {visit : NodeId → Nat → Verdict T}
  {follow : Edge E → Bool} {start : NodeId}

/-- What one visit leads to is what the edges lead to. -/
theorem mem_reached {u v : NodeId} :
    v ∈ ((g.onward d u).filter fun n => follow n.1).map Prod.snd ↔ g.Leads d follow u v := by
  have hout : ∀ x : Edge E × NodeId, x ∈ (g.outEdges u).map (fun e => (e, e.target)) ↔
      x.1 ∈ g.edges ∧ x.1.source = u ∧ x.1.target = x.2 := by
    rintro ⟨e, w⟩
    simp only [List.mem_map, mem_outEdges, Prod.mk.injEq]
    constructor
    · rintro ⟨e, he, rfl, rfl⟩
      exact ⟨he.1, he.2, rfl⟩
    · rintro ⟨he, hs, ht⟩
      exact ⟨e, ⟨he, hs⟩, rfl, ht⟩
  have hin : ∀ x : Edge E × NodeId, x ∈ (g.inEdges u).map (fun e => (e, e.source)) ↔
      x.1 ∈ g.edges ∧ x.1.target = u ∧ x.1.source = x.2 := by
    rintro ⟨e, w⟩
    simp only [List.mem_map, mem_inEdges, Prod.mk.injEq]
    constructor
    · rintro ⟨e, he, rfl, rfl⟩
      exact ⟨he.1, he.2, rfl⟩
    · rintro ⟨he, ht, hs⟩
      exact ⟨e, ⟨he, ht⟩, rfl, hs⟩
  simp only [List.mem_map, List.mem_filter, Prod.exists, exists_eq_right, Leads]
  refine exists_congr fun e => ?_
  cases d <;> simp only [onward, List.mem_append, hout, hin] <;> simp <;> tauto

/-- In a well-formed graph nothing leads out of it. -/
theorem WellFormed.mem_of_leads (h : g.WellFormed) {u v : NodeId} (hl : g.Leads d follow u v) :
    v ∈ g.nodeIds := by
  obtain ⟨e, he, -, ⟨-, -, rfl⟩ | ⟨-, -, rfl⟩⟩ := hl
  · exact h.target_mem e he
  · exact h.source_mem e he

/-- How a search ends: with an empty queue, or at a node that stops it. -/
inductive Ending (leads : NodeId → NodeId → Prop) (visit : NodeId → Nat → Verdict T)
    (start : NodeId) (nodes : List NodeId) (met : List (NodeId × Nat)) : Option T → Prop where
  | exhausted {unseen : List NodeId} :
    Searching leads visit start nodes met unseen [] → Ending leads visit start nodes met none
  | stopped {before rest : List (NodeId × Nat)} {unseen : List NodeId} {n : NodeId} {k : Nat}
    {t : T} : met = before ++ [(n, k)] → visit n k = .stop t →
    Searching leads visit start nodes before unseen ((n, k) :: rest) →
    Ending leads visit start nodes met (some t)

/-- A search goes on until its queue is empty or a node stops it. -/
theorem Searching.ends {met queue : List (NodeId × Nat)} {unseen : List NodeId} (h : g.WellFormed)
    (hs : Searching (g.Leads d follow) visit start g.nodeIds met unseen queue) :
    Ending (g.Leads d follow) visit start g.nodeIds
      (met ++ (g.searchFrom d visit follow unseen queue).visited)
      (g.searchFrom d visit follow unseen queue).found := by
  induction unseen, queue using searchFrom.induct g d visit follow generalizing met with
  | case1 unseen =>
    rw [searchFrom, List.append_nil]
    exact .exhausted hs
  | case2 unseen n k queue t hvisit =>
    rw [searchFrom, hvisit]
    exact .stopped rfl hvisit hs
  | case3 unseen n k queue hvisit ih =>
    have hstep : Searching (g.Leads d follow) visit start g.nodeIds (met ++ [(n, k)]) unseen
        (queue ++ [].map fun n => (n, k + 1)) :=
      hs.step h.nodes_nodup (fun _ _ => h.mem_of_leads) (List.Perm.refl unseen) (by simp)
        (by simp [hvisit]) (by simp [hvisit])
    rw [List.map_nil, List.append_nil] at hstep
    rw [searchFrom, hvisit]
    simpa using ih hstep
  | case4 unseen n k queue hvisit next reached state =>
    rename_i ih
    have hd : unseen.Nodup :=
      (List.nodup_append.1 (hs.nodes_perm.symm.nodup h.nodes_nodup)).2.1
    obtain ⟨new, hqueue, hperm, hsub, hall⟩ := discover_spec (k + 1) reached hd queue
    have hstep := hs.step h.nodes_nodup (fun _ _ => h.mem_of_leads) hperm
      (fun n hn => ⟨hvisit, mem_reached.1 (hsub n hn)⟩)
      (fun _ v hlead => hall v (mem_reached.2 hlead)) (by simp [hvisit])
    rw [← hqueue] at hstep
    rw [searchFrom, hvisit]
    simpa using ih hstep

/-- A search from the start comes to a node that stops it. -/
def Stops (leads : NodeId → NodeId → Prop) (visit : NodeId → Nat → Verdict T) (start n : NodeId)
    (k : Nat) (t : T) : Prop := Distance leads visit start n k ∧ visit n k = .stop t

/--
The visits of a search are to different nodes, each with the length of the shortest walk to it, the
nearer ones first.
-/
structure ByDistance (leads : NodeId → NodeId → Prop) (visit : NodeId → Nat → Verdict T)
    (start : NodeId) (r : Search T) : Prop where
  nodup : (r.visited.map Prod.fst).Nodup
  sorted : (r.visited.map Prod.snd).Pairwise (· ≤ ·)
  distance : ∀ n k, (n, k) ∈ r.visited → Distance leads visit start n k
  unstopped : (∀ n k t, ¬ Stops leads visit start n k t) →
    r.found = none ∧ ∀ n, n ∈ r.visited.map Prod.fst ↔ ∃ k, Walk leads visit start k n
  stopped : (∃ n k t, Stops leads visit start n k t) →
    ∃ n k t, Stops leads visit start n k t ∧ r.found = some t ∧
      r.visited.getLast? = some (n, k) ∧
      (∀ n' k' t', Stops leads visit start n' k' t' → k ≤ k') ∧
      ∀ n' k', Distance leads visit start n' k' → k' < k → (n', k') ∈ r.visited

/-- However it ends, its visits are by distance. -/
theorem Ending.byDistance {leads : NodeId → NodeId → Prop} {nodes : List NodeId} {r : Search T}
    (hd : nodes.Nodup) (h : Ending leads visit start nodes r.visited r.found) :
    ByDistance leads visit start r := by
  obtain ⟨visited, asked, found⟩ := r
  cases h with
  | @exhausted unseen hs =>
    have hmet : ∀ {n k}, Distance leads visit start n k → (n, k) ∈ visited := fun hdist =>
      hs.mem_met_of_distance hd hdist (by simp)
    refine
      { nodup := by simpa using hs.nodup hd
        sorted := by simpa using hs.sorted
        distance := fun n k => hs.distance_met hd
        unstopped := fun _ => ⟨rfl, fun n => ⟨fun hn => ?_, fun ⟨k, hk⟩ => ?_⟩⟩
        stopped := fun ⟨n, k, t, hdist, ht⟩ => absurd ht (hs.unstopped _ (hmet hdist) t) }
    · obtain ⟨⟨_, k⟩, he, rfl⟩ := List.mem_map.1 hn
      exact ⟨k, (hs.distance_met hd he).walk⟩
    · obtain ⟨j, -, hj⟩ := hk.exists_distance
      exact List.mem_map_of_mem (hmet hj)
  | @stopped before rest unseen n k t heq hvisit hs =>
    subst heq
    have hstop : Stops leads visit start n k t := ⟨hs.distance_head hd, hvisit⟩
    have hsub : (before ++ [(n, k)]).Sublist (before ++ (n, k) :: rest) :=
      (List.singleton_sublist.2 List.mem_cons_self).append_left before
    have hmet : ∀ {n' k'}, Distance leads visit start n' k' → k' < k → (n', k') ∈ before :=
      fun hdist hlt => hs.mem_met_of_distance hd hdist fun e he =>
        Nat.lt_of_lt_of_le hlt (hs.head_le e he)
    refine
      { nodup := (hs.nodup hd).sublist (hsub.map _)
        sorted := hs.sorted.sublist (hsub.map _)
        distance := fun n' k' he => ?_
        unstopped := fun hnone => absurd hstop (hnone n k t)
        stopped := fun _ => ⟨n, k, t, hstop, rfl, by simp, fun n' k' t' hstop' => ?_,
          fun n' k' hdist hlt => List.mem_append_left _ (hmet hdist hlt)⟩ }
    · rcases List.mem_append.1 he with he | he
      · exact hs.distance_met hd he
      · cases List.mem_singleton.1 he
        exact hs.distance_head hd
    · -- a nearer node that stops the search would have been met before
      by_contra hlt
      exact hs.unstopped _ (hmet hstop'.1 (Nat.lt_of_not_le hlt)) t' hstop'.2

/--
A search visits nodes by the lengths of the shortest walks from its start to them, where a walk
follows accepted edges beyond nodes that let it pass: all of them, or up to a nearest one that stops
it. Without its start in the graph it visits nothing.
-/
theorem search_visits (h : g.WellFormed) (start : NodeId) (d : Direction)
    (visit : NodeId → Nat → Verdict T) (follow : Edge E → Bool) :
    (start ∉ g.nodeIds → g.search start d visit follow = ⟨[], [], none⟩) ∧
      (start ∈ g.nodeIds →
        ByDistance (g.Leads d follow) visit start (g.search start d visit follow)) := by
  constructor
  · intro hs
    rw [search, if_neg (by rwa [hasNode_iff])]
  · intro hs
    rw [search, if_pos (hasNode_iff.2 hs)]
    exact ((Searching.init hs).ends h).byDistance h.nodes_nodup

/-- Looks for one node, and gives the depth at which it is met. -/
def lookout (goal n : NodeId) (k : Nat) : Verdict Nat := if n = goal then .stop k else .expand

/-- Two steps against the edges lead to the one goal, and none to the other. -/
theorem search_visits_looped :
    History.looped.plain.WellFormed ∧ (⟨3⟩ : NodeId) ∈ History.looped.plain.nodeIds ∧
      Distance (History.looped.plain.Leads .reverse fun _ => true) (lookout ⟨1⟩) ⟨3⟩ ⟨1⟩ 2 ∧
      ∀ k, ¬ Walk (History.looped.plain.Leads .reverse fun _ => true) (lookout ⟨4⟩) ⟨3⟩ k ⟨4⟩ := by
  have hw : History.looped.plain.WellFormed :=
    History.wellFormed (by simp [History.looped, History.Fresh, Command.Fresh])
  have hmem : (⟨3⟩ : NodeId) ∈ History.looped.plain.nodeIds := by decide
  have hseen : (⟨1⟩, 2) ∈ (History.looped.plain.search ⟨3⟩ .reverse (lookout ⟨1⟩)
      fun _ => true).visited := by decide +kernel
  have hmissed : (History.looped.plain.search ⟨3⟩ .reverse (lookout ⟨4⟩) fun _ => true).found =
        none ∧
      ⟨4⟩ ∉ (History.looped.plain.search ⟨3⟩ .reverse (lookout ⟨4⟩)
        fun _ => true).visited.map Prod.fst := by decide +kernel
  refine ⟨hw, hmem, ((search_visits hw ⟨3⟩ .reverse (lookout ⟨1⟩) _).2 hmem).distance _ _ hseen,
    fun k hk => ?_⟩
  have hall := (search_visits hw ⟨3⟩ .reverse (lookout ⟨4⟩) fun _ => true).2 hmem
  by_cases hstop : ∃ n k t, Stops (History.looped.plain.Leads .reverse fun _ => true)
      (lookout ⟨4⟩) ⟨3⟩ n k t
  · obtain ⟨n, k, t, -, hfound, -⟩ := hall.stopped hstop
    rw [hmissed.1] at hfound
    cases hfound
  · have hnone := hall.unstopped fun n k t hs => hstop ⟨n, k, t, hs⟩
    exact hmissed.2 ((hnone.2 _).2 ⟨k, hk⟩)

end ObjectFlow.Graph
