import ObjectFlow.Proofs.Annotated.Collapsed
import Mathlib.Data.List.Pairwise

/-!
# New identities

Objects without an identity get one each when a flow graph is drafted. Where these are not in use
yet, two references get one identity just when both had it before (`identities_pairwise`), and a
call that got every object from one place still does (`Issued.sole`).

Identities are written as text, from the number that the supply gives out. So two steps are needed
to know that new identities are distinct: numbers of 128 bits are told apart by their digits
(`Text.Uuid.simple_inj`), and the supply stays below that bound, which is part of the assumption
(`Supply.Spares.room`). That new identities differ from those in use cannot be proved, as an
identity in a document may be any text; it is the other part (`Supply.Spares.unused`).
-/

namespace ObjectFlow

/-- So many digits tell two numbers apart. -/
theorem Text.Uuid.hex_inj {width m n : Nat} (hm : m < 16 ^ width) (hn : n < 16 ^ width)
    (h : hex width m = hex width n) : m = n := by
  induction width generalizing m n with
  | zero => omega
  | succ width ih =>
    have hdigit : ∀ k, hexValue? (hexDigit (k % 16)) = some (k % 16) := fun k =>
      hexValue?_hexDigit ⟨k % 16, Nat.mod_lt _ (by decide)⟩
    obtain ⟨hrest, hlast⟩ := List.append_inj' h rfl
    have hmod : m % 16 = n % 16 :=
      Option.some.inj ((hdigit m).symm.trans ((List.singleton_inj.1 hlast) ▸ hdigit n))
    have hdiv : m / 16 = n / 16 := ih (by omega) (by omega) hrest
    omega

theorem Text.Uuid.simple_inj {m n : Nat} (hm : m < 2 ^ 128) (hn : n < 2 ^ 128)
    (h : simple m = simple n) : m = n :=
  @hex_inj 32 m n (by omega) (by omega) (String.ofList_inj.1 h)

/-- The objects that are referred to by their identities at the pins of calls and along edges. -/
def Flow.references (f : Flow) : List ObjectId :=
  (f.graph.nodes.flatMap fun n =>
    (n.2.call?.map fun c => c.pins.filterMap fun p => p.2.id).getD []) ++
    f.graph.edges.filterMap fun e => e.data.object.id

/-- All edges with one object into one call come from one source. -/
def Flow.SingleSource (f : Flow) : Prop :=
  ∀ e ∈ f.graph.edges, ∀ e' ∈ f.graph.edges, e.target = e'.target → e.target ≠ f.output →
    e.data.object.id.isSome → e.data.object.id = e'.data.object.id → e.source = e'.source

/-- None of the identities that the one supply gives out before it is the other is in use. -/
structure Supply.Spares (s s' : Supply) (used : List ObjectId) : Prop where
  room : s'.next ≤ 2 ^ 128
  unused : ∀ i, s.next ≤ i → i < s'.next → (Supply.object ⟨i⟩).1 ∉ used

/-- Fewer identities are unused as well. -/
theorem Supply.Spares.mono {s s' s₁ s₁' : Supply} {used : List ObjectId} (h : s.Spares s' used)
    (hs : s.next ≤ s₁.next) (hs' : s₁'.next ≤ s'.next) : s₁.Spares s₁' used :=
  ⟨Nat.le_trans hs' h.room, fun i hi hi' =>
    h.unused i (Nat.le_trans hs hi) (Nat.lt_of_lt_of_le hi' hs')⟩

/-- Different numbers make different objects. -/
theorem Supply.object_inj {i j : Nat} (hi : i < 2 ^ 128) (hj : j < 2 ^ 128)
    (h : (Supply.object ⟨i⟩).1 = (Supply.object ⟨j⟩).1) : i = j :=
  Text.Uuid.simple_inj hi hj (congrArg ObjectId.text h)

namespace Annotated.Draft

/-- A reference keeps its identity, and one without gets one from the supply. -/
theorem mem_zip_identities {s : Supply} {os : List (Option ObjectId)} {o? : Option ObjectId}
    {o : ObjectId} (h : (o?, o) ∈ os.zip (identities s os)) : o? = some o ∨
      o? = none ∧ ∃ i, s.next ≤ i ∧ i < (afterIdentities s os).next ∧
        o = (Supply.object ⟨i⟩).1 := by
  induction os generalizing s with
  | nil => cases h
  | cons o?' os ih =>
    rw [identities, List.zip_cons_cons, List.mem_cons, Prod.mk.injEq] at h
    rcases h with ⟨rfl, rfl⟩ | h
    · cases o? with
      | some o => exact .inl rfl
      | none => exact .inr ⟨rfl, s.next, Nat.le_refl _, (next_afterIdentities_le _ os).1, rfl⟩
    · have hask := next_ask_le s o?'
      rcases ih h with hsome | ⟨hnone, i, hi, hi', ho⟩
      · exact .inl hsome
      · exact .inr ⟨hnone, i, Nat.le_trans hask.1 hi, hi', ho⟩

/-- Two references have one identity in the end just when both had it before. -/
theorem identities_pairwise {s : Supply} {os : List (Option ObjectId)} {used : List ObjectId}
    (h : s.Spares (afterIdentities s os) used) (hu : ∀ o, some o ∈ os → o ∈ used) :
    (os.zip (identities s os)).Pairwise fun x y => (x.2 = y.2 ↔ x.1.isSome ∧ x.1 = y.1) := by
  induction os generalizing s with
  | nil => exact .nil
  | cons o? os ih =>
    have hask := next_ask_le s o?
    have hrest := next_afterIdentities_le (ask s o?).2 os
    rw [afterIdentities] at h
    rw [identities, List.zip_cons_cons, List.pairwise_cons]
    refine ⟨fun y hmem => ?_,
      ih (h.mono hask.1 (Nat.le_refl _)) fun o ho => hu o (List.mem_cons_of_mem _ ho)⟩
    obtain ⟨o?', o'⟩ := y
    have hold : ∀ o'', some o'' ∈ o? :: os → ∀ i, s.next ≤ i →
        i < (afterIdentities (ask s o?).2 os).next → o'' ≠ (Supply.object ⟨i⟩).1 :=
      fun o'' ho i hi hi' heq => h.unused i hi hi' (heq ▸ hu o'' ho)
    cases o? with
    | some o =>
      rcases mem_zip_identities hmem with rfl | ⟨rfl, i, hi, hi', rfl⟩
      · simp [ask]
      · simpa [ask] using hold o List.mem_cons_self i (by omega) hi'
    | none =>
      have hnext : (ask s none).2.next = s.next + 1 := rfl
      rcases mem_zip_identities hmem with rfl | ⟨rfl, i, hi, hi', rfl⟩
      · have hne := hold o' (List.mem_cons_of_mem _ (List.of_mem_zip hmem).1) s.next
          (Nat.le_refl _) (by omega)
        simpa [ask] using Ne.symm hne
      · have hne : (Supply.object ⟨s.next⟩).1 ≠ (Supply.object ⟨i⟩).1 := fun heq => by
          have hroom := h.room
          have heq := Supply.object_inj (by omega) (by omega) heq
          omega
        simpa [ask] using hne

variable {d : Draft} {f : Flow} {s s₁ : Supply}

/-- The object of an edge is referred to. -/
theorem mem_references_of_edge {e : Edge Flow.Link} (he : e ∈ f.graph.edges) {o : ObjectId}
    (ho : e.data.object.id = some o) : o ∈ f.references :=
  List.mem_append_right _ (List.mem_filterMap.2 ⟨e, he, ho⟩)

/-- The object of a pin is referred to. -/
theorem mem_references_of_port {n : NodeId} {c : Flow.Call} (hc : (n, .call c) ∈ f.graph.nodes)
    {side : Side} {p : String × Flow.Pin} (hp : p ∈ ports side c.pins) {o : ObjectId}
    (ho : p.2.id = some o) : o ∈ f.references :=
  List.mem_append_left _ (List.mem_flatMap.2 ⟨_, hc,
    List.mem_filterMap.2 ⟨p, List.mem_of_mem_filter hp, ho⟩⟩)

/-- The supply when a flow graph has got as many identities as drafting it may take. -/
def afterDraft (f : Flow) (s : Supply) : Supply :=
  ⟨s.next + pinCount f.graph.nodes + f.graph.edges.length⟩

/-- The identities for either side of a call are taken while it is drafted. -/
theorem next_supplyAt (s : Supply) {c : Flow.Call} (hc : c.note.isSome = true) (side : Side) :
    s.next ≤ (supplyAt s c side).next ∧ (afterIdentities (supplyAt s c side)
      ((ports side c.pins).map fun p => p.2.id)).next ≤ (afterCall s c).next := by
  have hin := next_afterIdentities_le s ((ports .input c.pins).map fun p => p.2.id)
  have hout := next_afterIdentities_le (supplyAt s c .output)
    ((ports .output c.pins).map fun p => p.2.id)
  rw [afterCall, if_neg (by rw [Option.isNone_eq_false_iff.2 hc]; exact Bool.false_ne_true)]
  cases side with
  | input => exact ⟨Nat.le_refl _, hout.1⟩
  | output => exact ⟨hin.1, Nat.le_refl _⟩

/-- In the draft an action with a note gets every object from one place. -/
theorem Issued.sole (hi : d.Issued f s s₁) (hd : d.DraftOf f) (hf : f.Flat)
    (hone : f.SingleSource) (hs : s.Spares (afterDraft f s) f.references) : d.Sole := by
  set es := f.graph.edges.filter (counts f) with hes
  set os := identities s₁ (es.map fun e => e.data.object.id) with hos
  have hthreads : d.graph.edges =
      (es.zip os).map fun x => ⟨x.1.id, x.1.source, x.1.target, ⟨x.2, none⟩⟩ := by
    rw [hi.edges_eq, threads, List.zip, List.map_zipWith]
  have hlen : es.length ≤ f.graph.edges.length := List.length_filter_le _ _
  have hsub : ∀ e ∈ es, e ∈ f.graph.edges := fun e => List.mem_of_mem_filter
  have hspares : s₁.Spares (afterIdentities s₁ (es.map fun e => e.data.object.id))
      f.references := by
    refine hs.mono hi.le_next ?_
    have hnext := next_afterIdentities_le s₁ (es.map fun e => e.data.object.id)
    have hle := hi.next_le
    rw [List.length_map] at hnext
    simp only [afterDraft]
    omega
  have hpairs : (es.zip os).Pairwise fun x y => (x.2 = y.2 ↔
      x.1.data.object.id.isSome ∧ x.1.data.object.id = y.1.data.object.id) := by
    have hall := identities_pairwise hspares fun o ho => by
      obtain ⟨e, he, heq⟩ := List.mem_map.1 ho
      exact mem_references_of_edge (hsub e he) heq
    rw [← hos, ← List.map_id os, List.zip_map, List.pairwise_map] at hall
    exact hall
  -- of two edges with one object either is the other, or both had it before
  have hsource : ∀ x ∈ es.zip os, ∀ y ∈ es.zip os, x.1.target ≠ f.output →
      x.1.target = y.1.target → x.2 = y.2 → x.1.source = y.1.source := by
    let R (x y : Edge Flow.Link × ObjectId) : Prop := x.1.target ≠ f.output →
      x.1.target = y.1.target → x.2 = y.2 → x.1.source = y.1.source
    have hsymm : Std.Symm R := ⟨fun x y hxy hne ht ho => (hxy (ht ▸ hne) ht.symm ho.symm).symm⟩
    have hall : (es.zip os).Pairwise R := hpairs.imp_of_mem fun {x y} hx hy hxy hne ht ho =>
      hone x.1 (hsub _ (List.of_mem_zip hx).1) y.1 (hsub _ (List.of_mem_zip hy).1) ht hne
        (hxy.1 ho).1 (hxy.1 ho).2
    exact fun x hx y hy => hall.forall_of_forall (fun _ _ _ _ _ => rfl) hx hy
  rintro v hv u u' o ⟨t, ht, rfl, rfl, rfl⟩ ⟨t', ht', rfl, htarget, ho⟩
  rw [hthreads, List.mem_map] at ht ht'
  obtain ⟨x, hx, rfl⟩ := ht
  obtain ⟨y, hy, rfl⟩ := ht'
  rw [hd.isNotedNode_eq] at hv
  exact hsource x hx y hy (hf.ne_of_isNoted hv).2 htarget.symm ho.symm

end Annotated.Draft

end ObjectFlow
