import ObjectFlow.Proofs.Ontology.Declared
import ObjectFlow.Proofs.Table

/-!
# The walk up through the supertypes

The queue of the walk holds types with the numbers of steps that lead to them. These never fall
along the queue and differ by one at most, so that a type is first met at its distance (`Walking`).
A walk that ends has met all types that can be reached, and one that fails has met a reference to no
type.

A breadth-first walk is used as it is in any graph. The declarations are read as a list, though, and
one name may be queued several times over, from different types and from one. `Walking` therefore
says nothing of how often a name is in the queue; what was met is taken out of `fresh`, and that
alone keeps the list of supertypes free of repetitions (`Walking.skip`).
-/

namespace ObjectFlow

namespace Inherited

/-- Of an aspect the first declaration counts. -/
theorem at?_declare (aspects : Table String Aspect) (new : List Aspect) (name : String) :
    Table.at? (declare aspects new) name =
      (Table.at? aspects name).or (new.find? fun a => a.name = name) := by
  induction new generalizing aspects with
  | nil => simp [declare]
  | cons a new ih =>
    rw [declare, List.foldl_cons, ← declare, ih, List.find?_cons]
    by_cases hheld : Table.holds aspects a.name = true
    · rw [if_pos hheld]
      by_cases hname : a.name = name
      · obtain ⟨b, hb⟩ := Option.isSome_iff_exists.1 hheld
        rw [hname] at hb
        simp [hb]
      · simp [hname]
    · rw [if_neg hheld, Table.at?_put]
      by_cases hname : a.name = name
      · have hnone : Table.at? aspects name = none := by
          simpa [Table.holds, hname] using hheld
        simp [hname, hnone]
      · simp [hname, Ne.symm hname]

/-- A type is added behind the supertypes that were met. -/
theorem mem_add {i : Inherited} {T : OntologyType} {s : String} :
    s ∈ (i.add T).supertypes ↔ s ∈ i.supertypes ∨ s = T.name := by
  rw [add, List.mem_append, List.mem_singleton]

theorem forall_add {i : Inherited} {T : OntologyType} {P : String → Prop}
    (h : ∀ s ∈ i.supertypes, P s) (hT : P T.name) : ∀ s ∈ (i.add T).supertypes, P s :=
  fun s hs => (mem_add.1 hs).elim (h s) fun heq => heq ▸ hT

end Inherited

namespace Ontology

variable {o : Ontology} {start : String} {fresh : List String} {found i : Inherited}
  {queue rest : List (String × Nat)} {q : String} {k : Nat}

/-- The first aspect of a name that a type itself declares. -/
def declared? (o : Ontology) (type name : String) : Option Aspect :=
  (o.type? type).bind fun T => T.aspects.find? fun a => a.name = name

/-- The aspects are those that the supertypes declare; of one name the first counts. -/
def Gathered (o : Ontology) (i : Inherited) : Prop :=
  ∀ a, Table.at? i.aspects a = i.supertypes.findSome? fun s => o.declared? s a

/-- The roots are those of the supertypes that declare no supertype. -/
structure Rooted (o : Ontology) (i : Inherited) : Prop where
  nodup : i.roots.Nodup
  mem_iff : ∀ kind, kind ∈ i.roots ↔ ∃ s ∈ i.supertypes, o.IsTop kind s

/-- The aspects of a type are declared behind those that were gathered. -/
theorem Gathered.declare (hg : o.Gathered found) {T : OntologyType} (h : o.type? T.name = some T)
    (hs : i.supertypes = found.supertypes ++ [T.name])
    (ha : i.aspects = Inherited.declare found.aspects T.aspects) : o.Gathered i := by
  intro a
  have hT : o.declared? T.name a = T.aspects.find? fun x => x.name = a := by simp [declared?, h]
  rw [ha, hs, Inherited.at?_declare, hg a, List.findSome?_append, List.findSome?_singleton, hT]

/-- A root is noted when the first type of its kind is met that declares no supertype. -/
theorem Rooted.add (hr : o.Rooted found) {T : OntologyType} (h : o.type? T.name = some T) :
    o.Rooted (found.add T) := by
  have htop : ∀ kind, o.IsTop kind T.name ↔ T.supertypes = [] ∧ T.root = kind := by
    intro kind
    simp [IsTop, h]
  have hmem : ∀ kind, (∃ s ∈ (found.add T).supertypes, o.IsTop kind s) ↔
      kind ∈ found.roots ∨ T.supertypes = [] ∧ T.root = kind := by
    intro kind
    simp only [Inherited.add, List.mem_append, List.mem_singleton, or_and_right, exists_or,
      exists_eq_left, htop, hr.mem_iff]
  by_cases hsup : T.supertypes = [] ∧ T.root ∉ found.roots
  · have hroots : (found.add T).roots = found.roots ++ [T.root] := by
      simp [Inherited.add, hsup]
    refine ⟨?_, fun kind => ?_⟩
    · rw [hroots]
      exact hr.nodup.append (List.nodup_singleton _) (by simpa using hsup.2)
    · rw [hmem, hroots, List.mem_append, List.mem_singleton, eq_comm (a := kind)]
      simp [hsup.1]
  · have hroots : (found.add T).roots = found.roots := by
      by_cases hnil : T.supertypes = []
      · have hin : T.root ∈ found.roots := by
          by_contra hn
          exact hsup ⟨hnil, hn⟩
        simp [Inherited.add, hin]
      · simp [Inherited.add, hnil]
    refine ⟨hroots ▸ hr.nodup, fun kind => ?_⟩
    rw [hmem, hroots]
    refine ⟨.inl, fun h => h.elim id ?_⟩
    rintro ⟨hnil, rfl⟩
    by_contra hn
    exact hsup ⟨hnil, hn⟩

/-- A type that is met for the first time is added, and its supertypes wait behind all others. -/
theorem climb_visit {name : String} {T : OntologyType} {queue : List String}
    (hfresh : fresh.contains name = true) (hT : o.type? name = some T)
    (hnone : (T.supertypes.find? fun s => (o.type? s).isNone) = none) :
    o.climb fresh found (name :: queue) =
      o.climb (fresh.erase name) (found.add T) (queue ++ T.supertypes) := by
  rw [climb, if_pos hfresh, hT]
  simp only [hnone]

/-- A type that was met before is passed over. -/
theorem climb_skip {name : String} {queue : List String} (h : ¬ fresh.contains name = true) :
    o.climb fresh found (name :: queue) = o.climb fresh found queue := by
  rw [climb, if_neg h]

/-- The walk ends where the queue does. -/
theorem climb_nil : o.climb fresh found [] = .ok found := by
  rw [climb]

/-- What a type inherits is what the walk has met, with the roots behind. -/
theorem inherited_of_climb {s : String} {T : OntologyType} (hT : o.type? s = some T)
    (h : o.climb o.names {} [T.name] = .ok i) : o.inherited s = .ok (o.addRoots i) := by
  rw [inherited, hT]
  dsimp only
  rw [h]
  rfl

/-- Whatever waits in the queue, the walk gathers the aspects and roots of what it meets. -/
theorem gathered_climb {names : List String} (hg : o.Gathered found) (hr : o.Rooted found)
    (h : o.climb fresh found names = .ok i) : o.Gathered i ∧ o.Rooted i := by
  fun_induction climb o fresh found names with
  | case1 fresh found =>
    cases h
    exact ⟨hg, hr⟩
  | case2 => cases h
  | case3 => cases h
  | case4 fresh found name queue hfresh T hT hnone ih =>
    have hT' : o.type? T.name = some T := by rw [name_of_type? hT, hT]
    exact ih (hg.declare hT' rfl rfl) (hr.add hT') h
  | case5 fresh found name queue hfresh ih => exact ih hg hr h

/-! ## What one visit keeps

The numbers in the queue are for the proof only. The walk itself works on the names. -/

/--
A walk on its way from a type: what was met stands in the order of its distances, and whatever
follows on it was met too or waits in the queue, not later than one step further.
-/
structure Walking (o : Ontology) (start : String) (fresh : List String) (found : Inherited)
    (queue : List (String × Nat)) : Prop where
  fresh_nodup : fresh.Nodup
  mem_fresh_iff : ∀ s, s ∈ fresh ↔ s ∈ o.names ∧ s ∉ found.supertypes
  nodup : found.supertypes.Nodup
  mem_names : ∀ s ∈ found.supertypes, s ∈ o.names
  reaches : ∀ s ∈ found.supertypes, o.Reaches start s
  closed : ∀ s ∈ found.supertypes, ∀ t, o.Extends s t → t ∈ o.names
  next : ∀ s ∈ found.supertypes, ∀ t, o.Extends s t →
    t ∈ found.supertypes ∨ ∃ n ≤ o.distance start s + 1, (t, n) ∈ queue
  start_met : start ∈ found.supertypes ∨ (start, 0) ∈ queue
  queue_mem : ∀ e ∈ queue, e.1 ∈ o.names
  queue_ascends : ∀ e ∈ queue, o.Ascends e.2 start e.1
  sorted : (found.supertypes.map (o.distance start) ++ queue.map Prod.snd).Pairwise (· ≤ ·)
  spread : ∀ e ∈ queue, ∀ e' ∈ queue, e.2 ≤ e'.2 + 1

namespace Walking

/-- At first the type itself waits, at no distance. -/
theorem init (hs : start ∈ o.names) (hn : o.names.Nodup) :
    Walking o start o.names {} [(start, 0)] where
  fresh_nodup := hn
  mem_fresh_iff s := by simp
  nodup := List.nodup_nil
  mem_names := by simp
  reaches := by simp
  closed := by simp
  next := by simp
  start_met := .inr (List.mem_singleton_self _)
  queue_mem := by simpa using hs
  queue_ascends := by simpa using .refl start
  sorted := by simp
  spread := by simp

/-- Nothing in the queue is nearer than its head. -/
theorem head_le (hw : Walking o start fresh found ((q, k) :: rest)) {e : String × Nat}
    (he : e ∈ (q, k) :: rest) : k ≤ e.2 := by
  have hsorted := (List.pairwise_append.1 hw.sorted).2.1
  rcases List.mem_cons.1 he with rfl | he
  · exact Nat.le_refl _
  · exact List.rel_of_pairwise_cons hsorted (List.mem_map_of_mem he)

/-- Whatever is nearer than the head of the queue was met. -/
theorem met_of_lt (hw : Walking o start fresh found ((q, k) :: rest)) {n : Nat} {s : String}
    (h : o.Ascends n start s) (hn : n < k) : s ∈ found.supertypes := by
  generalize hstart : start = a at h
  induction h with
  | refl =>
    subst hstart
    refine hw.start_met.resolve_right fun hq => ?_
    have : k ≤ 0 := hw.head_le hq
    omega
  | @step n a t u ha he ih =>
    subst hstart
    refine (hw.next t (ih (by omega) rfl) u he).resolve_right fun ⟨m, hm, hq⟩ => ?_
    have hk : k ≤ m := hw.head_le hq
    have := ha.distance_le
    omega

/-- So the head of the queue, if it was not met, stands there with its distance. -/
theorem distance_head (hw : Walking o start fresh found ((q, k) :: rest))
    (hq : q ∉ found.supertypes) : o.distance start q = k := by
  have hasc := hw.queue_ascends _ List.mem_cons_self
  refine Nat.le_antisymm hasc.distance_le (Nat.le_of_not_lt fun hlt => hq ?_)
  exact hw.met_of_lt (Reaches.ascends ⟨_, hasc⟩) hlt

/-- A type that was met before is passed over. -/
theorem skip (hw : Walking o start fresh found ((q, k) :: rest)) (hq : q ∈ found.supertypes) :
    Walking o start fresh found rest := by
  have hmet : ∀ {t n}, (t, n) ∈ (q, k) :: rest → t ∈ found.supertypes ∨ (t, n) ∈ rest := by
    intro t n h
    rcases List.mem_cons.1 h with heq | h
    · cases heq
      exact .inl hq
    · exact .inr h
  exact
    { fresh_nodup := hw.fresh_nodup
      mem_fresh_iff := hw.mem_fresh_iff
      nodup := hw.nodup
      mem_names := hw.mem_names
      reaches := hw.reaches
      closed := hw.closed
      next := fun s hs t he => (hw.next s hs t he).elim .inl fun ⟨n, hn, h⟩ =>
        (hmet h).imp_right fun h => ⟨n, hn, h⟩
      start_met := hw.start_met.elim .inl hmet
      queue_mem := fun e he => hw.queue_mem e (List.mem_cons_of_mem _ he)
      queue_ascends := fun e he => hw.queue_ascends e (List.mem_cons_of_mem _ he)
      sorted := hw.sorted.sublist ((List.sublist_cons_self k _).append_left _)
      spread := fun e he e' he' =>
        hw.spread e (List.mem_cons_of_mem _ he) e' (List.mem_cons_of_mem _ he') }

/-- Behind the head of the queue stands what is as far as it or one step further. -/
theorem level_le (hw : Walking o start fresh found ((q, k) :: rest)) {new : List String}
    {e : String × Nat} (he : e ∈ rest ++ new.map fun t => (t, k + 1)) : k ≤ e.2 ∧ e.2 ≤ k + 1 := by
  rcases List.mem_append.1 he with he | he
  · have he' := List.mem_cons_of_mem (q, k) he
    exact ⟨hw.head_le he', hw.spread e he' _ List.mem_cons_self⟩
  · obtain ⟨t, -, rfl⟩ := List.mem_map.1 he
    exact ⟨Nat.le_succ k, Nat.le_refl _⟩

/-- The distances stay in order when the head of the queue is met and types behind it are queued. -/
theorem sorted_push (hw : Walking o start fresh found ((q, k) :: rest)) (new : List String) :
    ((found.supertypes.map (o.distance start) ++ [k]) ++
      (rest ++ new.map fun t => (t, k + 1)).map Prod.snd).Pairwise (· ≤ ·) := by
  have hlast : (new.map fun t => (t, k + 1)).map Prod.snd = new.map fun _ => k + 1 :=
    List.map_map
  have hold : ((found.supertypes.map (o.distance start) ++ [k]) ++ rest.map Prod.snd).Pairwise
      (· ≤ ·) := by simpa using hw.sorted
  rw [List.map_append, hlast, ← List.append_assoc]
  refine List.pairwise_append.2 ⟨hold, ?_, fun a ha b hb => ?_⟩
  · exact List.pairwise_map.2 (List.pairwise_of_forall fun _ _ => le_rfl)
  · obtain ⟨t, -, rfl⟩ := List.mem_map.1 hb
    rcases List.mem_append.1 ha with ha | ha
    · rcases List.mem_append.1 ha with ha | ha
      · exact Nat.le_succ_of_le ((List.pairwise_append.1 hw.sorted).2.2 a ha k List.mem_cons_self)
      · exact (List.mem_singleton.1 ha) ▸ Nat.le_succ k
    · obtain ⟨e, he, rfl⟩ := List.mem_map.1 ha
      exact (hw.level_le (List.mem_append_left (new.map fun t => (t, k + 1)) he)).2

/-- A type that is met for the first time is the next in the order, and its supertypes wait one step
further. -/
theorem visit {T : OntologyType} (hw : Walking o start fresh found ((T.name, k) :: rest))
    (hq : T.name ∈ fresh) (hT : o.type? T.name = some T) (hsup : ∀ t ∈ T.supertypes, t ∈ o.names) :
    Walking o start (fresh.erase T.name) (found.add T)
      (rest ++ T.supertypes.map fun t => (t, k + 1)) := by
  have hnew : T.name ∉ found.supertypes := ((hw.mem_fresh_iff _).1 hq).2
  have hasc := hw.queue_ascends _ List.mem_cons_self
  have hext : ∀ {t}, o.Extends T.name t ↔ t ∈ T.supertypes := by simp [Extends, hT]
  -- An entry of the old queue is the type that is met, or is queued still.
  have hmet : ∀ {t n}, (t, n) ∈ (T.name, k) :: rest → t ∈ (found.add T).supertypes ∨
      (t, n) ∈ rest ++ T.supertypes.map fun t => (t, k + 1) := by
    intro t n h
    rcases List.mem_cons.1 h with heq | h
    · cases heq
      exact .inl (Inherited.mem_add.2 (.inr rfl))
    · exact .inr (List.mem_append_left _ h)
  have hqueued : ∀ {P : String × Nat → Prop}, (∀ e ∈ (T.name, k) :: rest, P e) →
      (∀ t ∈ T.supertypes, P (t, k + 1)) →
      ∀ e ∈ rest ++ T.supertypes.map fun t => (t, k + 1), P e := fun hP hnew =>
    List.forall_mem_append.2 ⟨(List.forall_mem_cons.1 hP).2, List.forall_mem_map.2 hnew⟩
  refine
    { fresh_nodup := hw.fresh_nodup.erase T.name
      mem_fresh_iff := fun s => ?_
      nodup := hw.nodup.append (List.nodup_singleton _) (by simpa using hnew)
      mem_names := Inherited.forall_add hw.mem_names (mem_names_of_type? hT)
      reaches := Inherited.forall_add hw.reaches ⟨k, hasc⟩
      closed := Inherited.forall_add hw.closed fun t he => hsup t (hext.1 he)
      next := Inherited.forall_add (fun s hs t he => ?_) fun t he => .inr ⟨k + 1, ?_, ?_⟩
      start_met := hw.start_met.elim (fun h => .inl (Inherited.mem_add.2 (.inl h))) hmet
      queue_mem := hqueued hw.queue_mem hsup
      queue_ascends := hqueued hw.queue_ascends fun t ht => hasc.step (hext.2 ht)
      sorted := ?_
      spread := fun e he e' he' => ?_ }
  · rw [hw.fresh_nodup.mem_erase_iff, hw.mem_fresh_iff, Inherited.mem_add, not_or]
    tauto
  · rcases hw.next s hs t he with h | ⟨n, hn, h⟩
    · exact .inl (Inherited.mem_add.2 (.inl h))
    · exact (hmet h).imp_right fun h => ⟨n, hn, h⟩
  · exact Nat.succ_le_succ (hw.distance_head hnew).ge
  · exact List.mem_append_right _ (List.mem_map_of_mem (hext.1 he))
  · have hdist : (found.add T).supertypes.map (o.distance start) =
        found.supertypes.map (o.distance start) ++ [k] := by
      rw [← hw.distance_head hnew, Inherited.add, List.map_append, List.map_singleton]
    exact hdist ▸ hw.sorted_push T.supertypes
  · have := hw.level_le he
    have := hw.level_le he'
    omega

end Walking

/-! ## What a whole walk meets

The induction is that of the walk itself, in which either a type is met or the queue gets
shorter. -/

/-- A walk that ends has nothing in its queue; one that fails has met a reference to no type. -/
theorem Walking.climb (hw : Walking o start fresh found queue) :
    match o.climb fresh found (queue.map Prod.fst) with
    | .ok i => ∃ fresh, Walking o start fresh i []
    | .error e => ∃ s t, o.Reaches start s ∧ o.Extends s t ∧ t ∉ o.names ∧ e = .typeNotFound t := by
  generalize hnames : queue.map Prod.fst = names
  induction fresh, found, names using climb.induct o generalizing queue with
  | case1 fresh found =>
    rw [List.map_eq_nil_iff] at hnames
    subst hnames
    rw [climb_nil]
    exact ⟨fresh, hw⟩
  | case2 fresh found name names hfresh hnone =>
    obtain ⟨e, rest, rfl, rfl, -⟩ := List.map_eq_cons_iff.1 hnames
    exact absurd (hw.queue_mem e List.mem_cons_self) (type?_eq_none_iff.1 hnone)
  | case3 fresh found name names hfresh T hT missing hmissing =>
    obtain ⟨e, rest, rfl, rfl, -⟩ := List.map_eq_cons_iff.1 hnames
    rw [Ontology.climb, if_pos hfresh, hT]
    simp only [hmissing]
    have hnone := List.find?_some hmissing
    rw [Option.isNone_iff_eq_none, type?_eq_none_iff] at hnone
    exact ⟨e.1, missing, ⟨_, hw.queue_ascends e List.mem_cons_self⟩,
      ⟨T, hT, List.mem_of_find?_eq_some hmissing⟩, hnone, rfl⟩
  | case4 fresh found name names hfresh T hT hnone ih =>
    obtain ⟨⟨name, k⟩, rest, rfl, rfl, rfl⟩ := List.map_eq_cons_iff.1 hnames
    rw [climb_visit hfresh hT hnone]
    have hsup : ∀ t ∈ T.supertypes, t ∈ o.names := by
      intro t ht
      by_contra hn
      exact List.find?_eq_none.1 hnone t ht (by rw [type?_eq_none_iff.2 hn]; rfl)
    obtain rfl := name_of_type? hT
    exact ih (hw.visit (List.contains_iff_mem.1 hfresh) hT hsup)
      (by simp [Function.comp_def])
  | case5 fresh found name names hfresh ih =>
    obtain ⟨⟨name, k⟩, rest, rfl, rfl, rfl⟩ := List.map_eq_cons_iff.1 hnames
    rw [climb_skip hfresh]
    have hmet : name ∈ found.supertypes := by
      by_contra hn
      exact hfresh (List.contains_iff_mem.2
        ((hw.mem_fresh_iff name).2 ⟨hw.queue_mem _ List.mem_cons_self, hn⟩))
    exact ih (hw.skip hmet) rfl

/-- What a walk has met at its end is all that can be reached. -/
theorem Walking.mem_iff (hw : Walking o start fresh found []) {s : String} :
    s ∈ found.supertypes ↔ o.Reaches start s := by
  refine ⟨hw.reaches s, ?_⟩
  rintro ⟨n, h⟩
  generalize hstart : start = a at h
  induction h with
  | refl => exact hstart ▸ hw.start_met.resolve_right List.not_mem_nil
  | step _ he ih => exact (hw.next _ (ih hstart) _ he).resolve_right (by simp)

end Ontology

end ObjectFlow
