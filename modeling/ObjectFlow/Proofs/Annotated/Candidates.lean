import ObjectFlow.Annotated.Reify
import ObjectFlow.Proofs.Graph.WellFormed
import ObjectFlow.Proofs.Table

/-!
# Objects that are to become entities

The pins of a call are sorted by the objects that they take in or give out, and a pin without an
identity gets one of its own (`candidates_spec`). The objects along the edges at an action are added
to those of its pins without any change to these (`listing_gather`).

A table of candidates has an entry for each object, with the pins that it stands at. To tell what is
in it after many pins have been put in, the table is read as a list of pairs of an object and a pin
(`listing`), up to order. Then each pin adds one pair, whether its object was there already or not.
The table itself is only known to be `Tabled`: no object twice, each entry bearing the identity of
its object, and none without pins.
-/

namespace ObjectFlow.Annotated.Draft

/-! ## New identities

The supply is threaded through the pins, so which identity a pin gets depends on how many before it
had none. `identities` is this computation on the references alone. -/

/-- The identity of a reference, or a new one. -/
def ask (s : Supply) : Option ObjectId → ObjectId × Supply
  | some o => (o, s)
  | none => s.object

/-- The identities of references, each without one getting its own. -/
def identities (s : Supply) : List (Option ObjectId) → List ObjectId
  | [] => []
  | o? :: os => (ask s o?).1 :: identities (ask s o?).2 os

/-- The supply after references have got their identities. -/
def afterIdentities (s : Supply) : List (Option ObjectId) → Supply
  | [] => s
  | o? :: os => afterIdentities (ask s o?).2 os

/-- A reference takes one identity from the supply at most. -/
theorem next_ask_le (s : Supply) (o? : Option ObjectId) :
    s.next ≤ (ask s o?).2.next ∧ (ask s o?).2.next ≤ s.next + 1 := by
  cases o? with
  | none => exact ⟨Nat.le_succ _, Nat.le_refl _⟩
  | some o => exact ⟨Nat.le_refl _, Nat.le_succ _⟩

/-- References take one identity each at most. -/
theorem next_afterIdentities_le (s : Supply) (os : List (Option ObjectId)) :
    s.next ≤ (afterIdentities s os).next ∧ (afterIdentities s os).next ≤ s.next + os.length := by
  induction os generalizing s with
  | nil => exact ⟨Nat.le_refl _, Nat.le_refl _⟩
  | cons o? os ih =>
    have hask := next_ask_le s o?
    have hrest := ih (ask s o?).2
    rw [afterIdentities, List.length_cons]
    omega

@[simp] theorem length_identities (s : Supply) (os : List (Option ObjectId)) :
    (identities s os).length = os.length := by
  induction os generalizing s with
  | nil => rfl
  | cons o? os ih => rw [identities, List.length_cons, ih, List.length_cons]

/-! ## Tables of candidates

Putting an entry in the place of another one rearranges the listing, so statements about it are up
to order. -/

/-- A table of the objects at pins, of which nothing is known but what the pins say. -/
structure Tabled (t : Candidates) : Prop where
  keys_nodup : (Table.keys t).Nodup
  profile_id : ∀ x ∈ t, x.2.profile.id = some x.1
  pins_ne : ∀ x ∈ t, x.2.pins ≠ []
  sourceless : ∀ x ∈ t, x.2.sources = []

/-- The pins of all objects. -/
def listing (t : Candidates) : List (ObjectId × String) :=
  t.flatMap fun x => x.2.pins.map fun pin => (x.1, pin)

theorem listing_append (t u : Candidates) : listing (t ++ u) = listing t ++ listing u :=
  List.flatMap_append

theorem listing_cons (o : ObjectId) (p : Candidate) (t : Candidates) :
    listing ((o, p) :: t) = (p.pins.map fun pin => (o, pin)) ++ listing t :=
  List.flatMap_cons

/-- At first nothing is in the table. -/
theorem Tabled.nil : Tabled [] := ⟨List.nodup_nil, by simp, by simp, by simp⟩

/-- A pair is listed if the pin stands at an entry of the object. -/
theorem mem_listing {t : Candidates} {o : ObjectId} {pin : String} :
    (o, pin) ∈ listing t ↔ ∃ x ∈ t, x.1 = o ∧ pin ∈ x.2.pins := by
  simp only [listing, List.mem_flatMap, List.mem_map, Prod.mk.injEq]
  constructor
  · rintro ⟨x, hx, pin', hpin, rfl, rfl⟩
    exact ⟨x, hx, rfl, hpin⟩
  · rintro ⟨x, hx, rfl, hpin⟩
    exact ⟨x, hx, pin, hpin, rfl, rfl⟩

theorem mem_keys_of_mem_listing {t : Candidates} {o : ObjectId} {pin : String}
    (h : (o, pin) ∈ listing t) : o ∈ Table.keys t := by
  obtain ⟨x, hx, rfl, -⟩ := mem_listing.1 h
  exact List.mem_map_of_mem hx

/-- The objects of the listing are those of the table. -/
theorem Tabled.mem_keys_iff {t : Candidates} (h : Tabled t) {o : ObjectId} :
    o ∈ Table.keys t ↔ ∃ pin, (o, pin) ∈ listing t := by
  rw [Table.mem_keys]
  constructor
  · rintro ⟨p, hp⟩
    obtain ⟨pin, hpin⟩ := List.exists_mem_of_ne_nil _ (h.pins_ne _ hp)
    exact ⟨pin, mem_listing.2 ⟨_, hp, rfl, hpin⟩⟩
  · rintro ⟨pin, hpin⟩
    exact Table.mem_keys.1 (mem_keys_of_mem_listing hpin)

/-- An entry that is put in a table with further pins adds these to the listing. -/
theorem listing_put_perm (t : Candidates) (o : ObjectId) (new : Candidate) (pins : List String)
    (hpins : new.pins = ((Table.at? t o).map Candidate.pins).getD [] ++ pins) :
    (listing (Table.put t o new)).Perm (listing t ++ pins.map fun pin => (o, pin)) := by
  cases hat : Table.at? t o with
  | none =>
    have hnew : new.pins = pins := by simpa [hat] using hpins
    rw [Table.put_eq_append (Table.at?_eq_none_iff.1 hat), listing_append, listing_cons, hnew]
    exact .of_eq (congrArg (listing t ++ ·) (List.append_nil _))
  | some old =>
    have hnew : new.pins = old.pins ++ pins := by simpa [hat] using hpins
    obtain ⟨l, u, rfl, hput⟩ := Table.exists_split_of_at? hat
    rw [hput, listing_append, listing_append, listing_cons, listing_cons, hnew, List.map_append]
    simp only [List.append_assoc]
    exact (List.perm_append_comm.append_left _).append_left _

/-- What stands under an object, or else what is known about it from elsewhere. -/
def seen (t : Candidates) (o : ObjectId) (p : Profile) : Candidate :=
  (Table.at? t o).getD ⟨p, [], []⟩

/-- What is seen is new, or stands in the table. -/
theorem seen_cases (t : Candidates) (o : ObjectId) (p : Profile) :
    o ∉ Table.keys t ∧ seen t o p = ⟨p, [], []⟩ ∨ (o, seen t o p) ∈ t := by
  rw [seen]
  cases hat : Table.at? t o with
  | none => exact .inl ⟨Table.at?_eq_none_iff.1 hat, rfl⟩
  | some old => exact .inr (Table.mem_of_at? hat)

/-- What is new has no pins yet. -/
theorem pins_seen (t : Candidates) (o : ObjectId) (p : Profile) :
    (seen t o p).pins = ((Table.at? t o).map Candidate.pins).getD [] := by
  rw [seen]
  cases Table.at? t o <;> rfl

/-- A pin adds what it is shown as to what stands under its object. -/
theorem addPin_eq (s : Supply) (t : Candidates) (name : String) (p : Flow.Pin) :
    ∃ old : Candidate, addPin s t name p = (Table.put t (ask s p.id).1
        ⟨old.profile, old.pins ++ [p.argument.getD name], old.sources⟩, (ask s p.id).2) ∧
      old.pins = ((Table.at? t (ask s p.id).1).map Candidate.pins).getD [] ∧
      (old.profile.id = some (ask s p.id).1 ∧ old.sources = [] ∨ ((ask s p.id).1, old) ∈ t) := by
  refine ⟨seen t (ask s p.id).1 { p.profile with id := some (ask s p.id).1 }, ?_,
    pins_seen _ _ _, ?_⟩
  · rw [addPin]
    cases p.id <;> rfl
  · refine (seen_cases _ _ _).imp_left fun h => ?_
    rw [h.2]
    exact ⟨rfl, rfl⟩

/-- One pin adds one pair to the listing. -/
theorem addPin_spec {s : Supply} {t : Candidates} (ht : Tabled t) (name : String) (p : Flow.Pin) :
    ∃ t', addPin s t name p = (t', (ask s p.id).2) ∧ Tabled t' ∧
      (listing t').Perm (listing t ++ [((ask s p.id).1, p.argument.getD name)]) := by
  obtain ⟨old, heq, hpins, hold⟩ := addPin_eq s t name p
  refine ⟨_, heq, ⟨Table.nodup_keys_put ht.keys_nodup _ _, ?_, ?_, ?_⟩,
    listing_put_perm t _ _ [p.argument.getD name] (congrArg (· ++ _) hpins)⟩
  · intro x hx
    rcases Table.mem_put hx with hx | rfl
    · exact ht.profile_id x hx
    · exact hold.elim And.left (ht.profile_id (_, old))
  · intro x hx
    rcases Table.mem_put hx with hx | rfl
    · exact ht.pins_ne x hx
    · simp
  · intro x hx
    rcases Table.mem_put hx with hx | rfl
    · exact ht.sourceless x hx
    · exact hold.elim And.right (ht.sourceless (_, old))

/-- The pins on one side that have a place in the call's note. -/
def ports (side : Side) (ps : List (String × Flow.Pin)) : List (String × Flow.Pin) :=
  ps.filter fun p => p.2.side = side && p.2.position.isSome

/-- What a pin is shown as. -/
def shown (p : String × Flow.Pin) : String := p.2.argument.getD p.1

/-- The pins stand under their objects. -/
theorem candidates_spec {s : Supply} {t : Candidates} (ht : Tabled t) (side : Side)
    (ps : List (String × Flow.Pin)) :
    ∃ t', candidates s side t ps = (t', afterIdentities s ((ports side ps).map (·.2.id))) ∧
      Tabled t' ∧ (listing t').Perm (listing t ++
        (identities s ((ports side ps).map (·.2.id))).zip ((ports side ps).map shown)) := by
  induction ps generalizing s t with
  | nil => exact ⟨t, rfl, ht, by simp [ports, identities]⟩
  | cons p ps ih =>
    obtain ⟨name, p⟩ := p
    rw [candidates, ports, List.filter_cons]
    by_cases h : (p.side = side && p.position.isSome) = true
    · obtain ⟨t₁, hadd, ht₁, hperm₁⟩ := addPin_spec (s := s) ht name p
      obtain ⟨t', hok, ht', hperm⟩ := ih (s := (ask s p.id).2) ht₁
      rw [if_pos h, if_pos h, hadd]
      refine ⟨t', hok, ht', hperm.trans ?_⟩
      rw [List.map_cons, identities, List.map_cons, List.zip_cons_cons]
      exact (hperm₁.append_right _).trans (by rw [List.append_assoc]; rfl)
    · obtain ⟨t', hok, ht', hperm⟩ := ih (s := s) ht
      rw [if_neg h, if_neg h]
      exact ⟨t', hok, ht', hperm⟩

/-- What the pins of an action take in or give out. -/
def listed (d : Draft) : Side → NodeId → Candidates
  | .input, n => (Table.at? d.inputs n).getD []
  | .output, n => (Table.at? d.outputs n).getD []

/-! ## Objects along edges

What edges add to a candidate are the nodes that hand over its object. Its pins and its profile
stay. -/

/-- An entry without further pins leaves the listing as it is. -/
theorem listing_put (t : Candidates) (o : ObjectId) (new : Candidate)
    (hpins : new.pins = ((Table.at? t o).map Candidate.pins).getD []) :
    listing (Table.put t o new) = listing t := by
  cases hat : Table.at? t o with
  | none =>
    have hnew : new.pins = [] := by simpa [hat] using hpins
    rw [Table.put_eq_append (Table.at?_eq_none_iff.1 hat), listing_append, listing_cons, hnew]
    exact List.append_nil _
  | some old =>
    have hnew : new.pins = old.pins := by simpa [hat] using hpins
    obtain ⟨l, u, rfl, hput⟩ := Table.exists_split_of_at? hat
    rw [hput, listing_append, listing_append, listing_cons, listing_cons, hnew]

section Gather

variable {d : Draft} {extend : Candidate → Edge Thread → Candidate} {t : Candidates}

/-- The edges are gathered one after the other. -/
theorem gather_concat (es : List (Edge Thread)) (e : Edge Thread) :
    d.gather extend t (es ++ [e]) = Table.put (d.gather extend t es) e.data.id
      (extend (seen (d.gather extend t es) e.data.id (d.profile e.data.id)) e) := by
  rw [gather, List.foldl_append]
  rfl

/-- Gathering adds no object twice. -/
theorem nodup_keys_gather (ht : (Table.keys t).Nodup) (es : List (Edge Thread)) :
    (Table.keys (d.gather extend t es)).Nodup := by
  induction es using List.reverseRecOn with
  | nil => exact ht
  | append_singleton es e ih =>
    rw [gather_concat]
    exact Table.nodup_keys_put ih _ _

/-- The objects are those that were there and those of the edges. -/
theorem mem_keys_gather {es : List (Edge Thread)} {o : ObjectId} :
    o ∈ Table.keys (d.gather extend t es) ↔ o ∈ Table.keys t ∨ ∃ e ∈ es, e.data.id = o := by
  induction es using List.reverseRecOn with
  | nil => simp [gather]
  | append_singleton es e ih =>
    rw [gather_concat, ← Table.holds_iff, Table.holds, Table.at?_put]
    by_cases h : o = e.data.id
    · simp [h]
    · rw [if_neg h, ← Table.holds, Table.holds_iff, ih]
      simp [List.mem_append, or_and_right, exists_or, Ne.symm h]

/-- What is added to a candidate for an edge leaves its profile and its pins alone. -/
structure Extends (extend : Candidate → Edge Thread → Candidate) : Prop where
  profile_eq : ∀ p e, (extend p e).profile = p.profile
  pins_eq : ∀ p e, (extend p e).pins = p.pins

/-- Every entry bears the identity of its object. -/
theorem profile_id_gather (hd : ∀ o, (d.profile o).id = some o) (he : Extends extend)
    (ht : ∀ x ∈ t, x.2.profile.id = some x.1) (es : List (Edge Thread)) :
    ∀ x ∈ d.gather extend t es, x.2.profile.id = some x.1 := by
  induction es using List.reverseRecOn with
  | nil => exact ht
  | append_singleton es e ih =>
    intro x hx
    rw [gather_concat] at hx
    rcases Table.mem_put hx with hx | rfl
    · exact ih x hx
    · rw [he.profile_eq]
      rcases seen_cases (d.gather extend t es) e.data.id (d.profile e.data.id) with
        ⟨-, hold⟩ | hold
      · rw [hold]
        exact hd _
      · exact ih _ hold

/-- The pins stay as they are. -/
theorem listing_gather (he : Extends extend) (es : List (Edge Thread)) :
    listing (d.gather extend t es) = listing t := by
  induction es using List.reverseRecOn with
  | nil => rfl
  | append_singleton es e ih =>
    rw [gather_concat, listing_put _ _ _ (by rw [he.pins_eq, pins_seen]), ih]

end Gather

theorem extends_id : Extends fun p _ => p := ⟨fun _ _ => rfl, fun _ _ => rfl⟩

theorem extends_addSource : Extends fun p e => p.addSource e.source := by
  constructor <;> intro p e <;> dsimp only [Candidate.addSource] <;> split <;> rfl

/-- A source is added unless it is there. -/
theorem mem_addSource {p : Candidate} {n m : NodeId} :
    m ∈ (p.addSource n).sources ↔ m ∈ p.sources ∨ m = n := by
  rw [Candidate.addSource]
  split
  · rename_i hmem
    have hmem : n ∈ p.sources := by simpa using hmem
    exact ⟨.inl, fun h => h.elim id fun heq => heq ▸ hmem⟩
  · simp

/-- No source is there twice. -/
theorem nodup_addSource {p : Candidate} (h : p.sources.Nodup) (n : NodeId) :
    (p.addSource n).sources.Nodup := by
  rw [Candidate.addSource]
  split
  · exact h
  · rename_i hmem
    rw [List.nodup_append']
    refine ⟨h, List.nodup_singleton n, ?_⟩
    rw [List.disjoint_singleton]
    simpa using hmem

/-- An input comes only from nodes that hand the object over. -/
theorem handed_of_sources (d : Draft) {t : Candidates} (ht : ∀ x ∈ t, x.2.sources = [])
    {es : List (Edge Thread)} : ∀ x ∈ d.gather (fun p e => p.addSource e.source) t es,
      ∀ n ∈ x.2.sources, ∃ e ∈ es, e.source = n ∧ e.data.id = x.1 := by
  induction es using List.reverseRecOn with
  | nil =>
    intro x hx n hn
    rw [ht x hx] at hn
    cases hn
  | append_singleton es e ih =>
    have hweak : ∀ {n o}, (∃ e ∈ es, e.source = n ∧ e.data.id = o) →
        ∃ e' ∈ es ++ [e], e'.source = n ∧ e'.data.id = o := fun ⟨e', he', h⟩ =>
      ⟨e', List.mem_append_left _ he', h⟩
    intro x hx n hn
    rw [gather_concat] at hx
    rcases Table.mem_put hx with hx | rfl
    · exact hweak (ih x hx n hn)
    · rcases mem_addSource.1 hn with hn | rfl
      · rcases seen_cases (d.gather (fun p e => p.addSource e.source) t es) e.data.id
          (d.profile e.data.id) with ⟨-, hold⟩ | hold
        · rw [hold] at hn
          cases hn
        · exact hweak (ih _ hold n hn)
      · exact ⟨e, by simp, rfl, rfl⟩

/-- An input comes from every node that hands the object over, once from each. -/
theorem sources_of_handed (d : Draft) {t : Candidates} (hd : (Table.keys t).Nodup)
    (ht : ∀ x ∈ t, x.2.sources = []) {es : List (Edge Thread)} :
    ∀ x ∈ d.gather (fun p e => p.addSource e.source) t es, x.2.sources.Nodup ∧
      ∀ e ∈ es, e.data.id = x.1 → e.source ∈ x.2.sources := by
  induction es using List.reverseRecOn with
  | nil => exact fun x hx => by simp [ht x hx]
  | append_singleton es e ih =>
    intro x hx
    have hat := Table.at?_of_mem (nodup_keys_gather hd _) hx
    rw [gather_concat, Table.at?_put] at hat
    split at hat
    · rename_i heq
      have hold : (seen (d.gather (fun p e => p.addSource e.source) t es) e.data.id
          (d.profile e.data.id)).sources.Nodup ∧ ∀ e' ∈ es, e'.data.id = e.data.id →
            e'.source ∈ (seen (d.gather (fun p e => p.addSource e.source) t es) e.data.id
              (d.profile e.data.id)).sources := by
        rcases seen_cases (d.gather (fun p e => p.addSource e.source) t es) e.data.id
          (d.profile e.data.id) with ⟨hno, hold⟩ | hold
        · rw [hold]
          exact ⟨List.nodup_nil, fun e' he' hid =>
            absurd (mem_keys_gather.2 (.inr ⟨e', he', hid⟩)) hno⟩
        · exact ih _ hold
      rw [← Option.some.inj hat, heq]
      refine ⟨nodup_addSource hold.1 _, fun e' he' hid => mem_addSource.2 ?_⟩
      rcases List.mem_append.1 he' with he' | he'
      · exact .inl (hold.2 e' he' hid)
      · exact .inr (congrArg Edge.source (List.mem_singleton.1 he'))
    · rename_i hne
      have hold := ih x (Table.mem_of_at? hat)
      refine ⟨hold.1, fun e' he' hid => ?_⟩
      rcases List.mem_append.1 he' with he' | he'
      · exact hold.2 e' he' hid
      · exact absurd ((List.mem_singleton.1 he') ▸ hid.symm) hne

end ObjectFlow.Annotated.Draft
