import ObjectFlow.Flow.Recorder
import ObjectFlow.Proofs.Flow.Exchange
import ObjectFlow.Proofs.Flow.Tape

/-!
# What is recorded is sound

Whatever events arrive, in whatever order, the tape stays valid (`valid_absorb`), and only a return
that is not that of the innermost open call is refused (`push_spec`).

## Outline

An event is one write on the page of the innermost scope, with a frame put on the stack or taken
from it (`begin_eq`, `finish_eq`). What is written follows the page (`Page.Sound.enter_follows`,
`Page.Sound.conclude_follows`), so the tape stays valid (`Tape.Valid.entered`,
`Tape.Valid.concluded`). A call that ends must be pending on the page of the scope around it, and
this is where the stack comes in (`pending_top`). From these one event is settled, whether it is
recorded or refused (`push_spec`), and any run of events by induction.

The answers of the annotator are nowhere restricted. All that is used of them is that references
carry the identities of their objects, which holds of any answers.
-/

namespace ObjectFlow

namespace Page

/-- Notes the attribute that a getter is asked for. -/
def nameSlot (e : Completion) (c : Flow.Call) : Flow.Call :=
  match Recorder.attribute? e with
  | some name => { c with slot := some name }
  | none => c

/-- The page on which a call has ended, or is taken back because it only got a method. -/
def conclude (p : Page) (n : NodeId) (s : Supply) (e : Completion) (d : Flow.Departure) :
    Page × Supply :=
  if Recorder.isMethodLookup e then (p.withGraph (p.flow.graph.removeNode n), s)
  else (p.adjustCall n (nameSlot e)).finish n s d

/-- Noting an attribute leaves the body. -/
theorem nameSlot_body (e : Completion) (c : Flow.Call) : (nameSlot e c).body = c.body := by
  unfold nameSlot
  split <;> rfl

/-- A page with a call that has ended, or was taken back, follows. -/
theorem Sound.conclude_follows {p : Page} {s : Supply} (h : p.Sound) (hb : p.flow.graph.Before s)
    {n : NodeId} (hn : p.flow.Pending n) (e : Completion) {d : Flow.Departure}
    (hd : ∀ q ∈ d.productions, q.reference.id = some q.object) :
    p.Follows (p.conclude n s e d).1 s (p.conclude n s e d).2 ∧
      (∀ b ∈ Recording.bodies (p.conclude n s e d).1.flow, b ∈ Recording.bodies p.flow) ∧
      ∀ m, p.flow.Pending m → m ≠ n → (p.conclude n s e d).1.flow.Pending m := by
  unfold conclude
  split
  · exact ⟨h.drop_follows hb hn, fun b hb => h.recorded.mem_bodies_removeNode hn.1 hb,
      fun m hm hne => h.pending_drop hn hm hne⟩
  · have hname := h.adjustCall_follows hb n (nameSlot e)
    have hpend := fun m hm => h.pending_adjustCall (m := m) hm n (nameSlot e)
    obtain ⟨hall, hbodies, hall_pend⟩ :=
      hname.sound.finish_follows hname.before (hpend n hn).1 hd
    refine ⟨hname.trans hall, fun b hb => ?_, fun m hm hne => hall_pend m (hpend m hm) hne⟩
    rw [hbodies] at hb
    exact (h.recorded.bodies_adjustCall n (nameSlot_body e)) ▸ hb

end Page

namespace Tape

/-- A write adds no scope. -/
theorem exists_scope_of_mem_write {t : Tape} {p : Page} {s : Supply} {sc : Scope}
    (h : sc ∈ (t.write p s).scopes) : ∃ sc' ∈ t.scopes, sc'.graph = sc.graph := by
  obtain ⟨rest, hrest⟩ := t.exists_scopes_eq
  rw [scopes_write t p s hrest] at h
  rcases List.mem_cons.1 h with rfl | h
  · exact ⟨t.scope, t.scope_mem, rfl⟩
  · exact ⟨sc, hrest ▸ List.mem_cons_of_mem _ h, rfl⟩

/-- A valid tape stays so when a call begins. -/
theorem Valid.entered {t : Tape} (h : t.Valid) {p : Page} (hp : t.page? = some p) (c : Invocation)
    {e : Flow.Entrance} (he : ∀ a ∈ e.arrivals, a.reference.id = some a.object) :
    (t.entered p c e).Valid := by
  have h₁ := h.openBody c
  have hp₁ := page?_openBody hp c
  have hspec := h.openBody_spec c
  have hscopes := scopes_openBody t c
  unfold Tape.entered
  generalize t.openBody c = o at h₁ hp₁ hspec hscopes
  obtain ⟨body, t₁⟩ := o
  dsimp only at h₁ hp₁ hspec hscopes ⊢
  obtain ⟨hsound, hb⟩ := h₁.sound hp₁
  have hfollows := hsound.enter_follows hb c body he
  obtain ⟨hflow, -⟩ := page?_eq_some_iff.1 hp₁
  -- The only body that the page gets is the one that was just opened for it.
  have hadopts : t₁.recording.Adopts t₁.scope.graph p.flow
      (p.enter c e body t₁.supply).1.flow := by
    intro b hb
    rw [Page.bodies_enter, List.mem_append] at hb
    rcases hb with hb | hb
    · exact .inl hb
    · obtain ⟨h', hh', rfl⟩ := Option.map_eq_some_iff.1 (Option.mem_toList.1 hb)
      obtain ⟨hspare, hafter, hempty⟩ := hspec h' hh'
      refine .inr ⟨hspare, hafter _ (hscopes ▸ t₁.scope_mem),
        (List.getElem?_eq_some_iff.1 hempty).1, fun b' hb' heq => ?_⟩
      rw [Page.bodies_enter, List.mem_append] at hb'
      rcases hb' with hb' | hb'
      · exact absurd heq (hspare _ _ hflow b' hb')
      · obtain ⟨h'', -, rfl⟩ := Option.map_eq_some_iff.1 (Option.mem_toList.1 hb')
        rfl
  have hw := h₁.write hp₁ hfollows hadopts fun n _ hn =>
    hsound.pending_enter_of_pending hn c e body t₁.supply
  refine hw.stacked (page?_write hp₁ _ _) c (hsound.pending_enter hb c e body) ?_
    (s := t.supply) fun b hb => ?_
  · -- the new node has no seat yet, since all that have one are older
    rw [seats_write]
    intro hm
    obtain ⟨x, hx, hxn⟩ := List.mem_map.1 hm
    obtain ⟨f, hf, hpend⟩ := h₁.seated x hx
    have hlt := (h₁.kept.before _ f hf).node_lt x.2
      ((h₁.kept.recorded _ f hf).mem_of_call hpend.1)
    rw [hxn] at hlt
    exact Nat.lt_irrefl _ hlt
  · obtain ⟨-, hafter, hempty⟩ := hspec b hb
    refine ⟨fun sc hsc heq => ?_, ?_⟩
    · obtain ⟨sc', hsc', heq'⟩ := exists_scope_of_mem_write hsc
      have := hafter sc' (hscopes ▸ hsc')
      rw [heq', heq] at this
      exact Nat.lt_irrefl _ this
    · rw [recording_write]
      exact (List.getElem?_set_ne (Nat.ne_of_lt (hafter _ (hscopes ▸ t₁.scope_mem)))).trans hempty

/-- A valid tape stays so when a call ends. -/
theorem Valid.concluded {t : Tape} (h : t.Valid) {p : Page} (hp : t.page? = some p) {n : NodeId}
    (hn : p.flow.Pending n) (hseat : n ∉ t.seats.map Prod.snd) (e : Completion)
    {d : Flow.Departure} (hd : ∀ q ∈ d.productions, q.reference.id = some q.object) :
    (t.write (p.conclude n t.supply e d).1 (p.conclude n t.supply e d).2).Valid := by
  obtain ⟨hsound, hb⟩ := h.sound hp
  obtain ⟨hfollows, hbodies, hpend⟩ := hsound.conclude_follows hb hn e hd
  refine h.write hp hfollows (adopts_of_subset hbodies) fun m hm hpm => hpend m hpm ?_
  rintro rfl
  exact hseat (List.mem_map_of_mem hm)

/-- All identities on the tape have been handed out since a supply. -/
def Since (t : Tape) (s : Supply) : Prop := t.recording.Since s ∧ s.next ≤ t.supply.next

/-- A page that follows has no older identities. -/
theorem Since.write {t : Tape} {s₀ : Supply} (h : t.Since s₀) {p p' : Page} {s' : Supply}
    (hp : t.page? = some p) (hfollows : p.Follows p' t.supply s') : (t.write p' s').Since s₀ := by
  refine ⟨?_, ?_⟩
  · rw [recording_write]
    exact h.1.set h.2 (page?_eq_some_iff.1 hp).1 hfollows
  · rw [supply_write]
    exact Nat.le_trans h.2 hfollows.next_le

theorem Since.openBody {t : Tape} {s₀ : Supply} (h : t.Since s₀) (c : Invocation) :
    (t.openBody c).2.Since s₀ := by
  unfold Tape.openBody
  split
  · exact h
  · exact ⟨h.1.push_empty h.2, Nat.le_trans h.2 (Nat.le_add_right _ 2)⟩

/-- A call that begins has no older identities. -/
theorem Since.entered {t : Tape} {s₀ : Supply} (h : t.Since s₀) (ht : t.Valid) {p : Page}
    (hp : t.page? = some p) (c : Invocation) {e : Flow.Entrance}
    (he : ∀ a ∈ e.arrivals, a.reference.id = some a.object) : (t.entered p c e).Since s₀ := by
  have h₁ := h.openBody c
  have hp₁ := page?_openBody hp c
  obtain ⟨hsound, hb⟩ := (ht.openBody c).sound hp₁
  exact h₁.write hp₁ (hsound.enter_follows hb c (t.openBody c).1 he)

/-- A call that ends brings no older identities. -/
theorem Since.concluded {t : Tape} {s₀ : Supply} (h : t.Since s₀) (ht : t.Valid) {p : Page}
    (hp : t.page? = some p) {n : NodeId} (hn : p.flow.Pending n) (e : Completion)
    {d : Flow.Departure} (hd : ∀ q ∈ d.productions, q.reference.id = some q.object) :
    (t.write (p.conclude n t.supply e d).1 (p.conclude n t.supply e d).2).Since s₀ := by
  obtain ⟨hsound, hb⟩ := ht.sound hp
  exact h.write hp (hsound.conclude_follows hb hn e hd).1

end Tape

namespace Recorder

variable {σ : Type}

/-! ## What an event does to a valid tape

On a valid tape there is always a page to write on, so nothing but the name of the call is
checked. -/

/-- A call that begins is recorded, and the recorder goes on with the state in which the annotator
was left. -/
theorem begin_eq {r : Recorder σ} (h : r.tape.Valid) {p : Page} (hp : r.tape.page? = some p)
    (c : Invocation) :
    r.begin c = (.ok (), { r with
      state := (Flow.entrance r.annotator r.settings c r.state).2
      tape := r.tape.entered p c (Flow.entrance r.annotator r.settings c r.state).1 }) := by
  obtain ⟨hsound, hb⟩ := h.sound hp
  rw [begin]
  generalize Flow.entrance r.annotator r.settings c r.state = x
  obtain ⟨e, state⟩ := x
  dsimp only
  rw [Tape.enter_eq_ok hp hsound.rooted hb]
  rfl

/-- A call that ends is recorded, and the recorder goes on with the state in which the annotator was
left. -/
theorem finish_eq {r : Recorder σ} (h : r.tape.Valid) {p : Page} (hp : r.tape.page? = some p)
    {n : NodeId} (hn : p.flow.Pending n) (e : Completion) :
    r.finish n e = (.ok (), { r with
      state := if isMethodLookup e then r.state
        else (Flow.departure r.annotator r.settings e r.state).2
      tape := r.tape.write
        (p.conclude n r.tape.supply e (Flow.departure r.annotator r.settings e r.state).1).1
        (p.conclude n r.tape.supply e (Flow.departure r.annotator r.settings e r.state).1).2 }) := by
  obtain ⟨hsound, hb⟩ := h.sound hp
  unfold finish Page.conclude
  by_cases hlookup : isMethodLookup e = true
  · rw [if_pos hlookup, if_pos hlookup, if_pos hlookup, Tape.drop_eq_ok hp]
    rfl
  · rw [if_neg hlookup, if_neg hlookup, if_neg hlookup]
    obtain ⟨call, hcall⟩ := hsound.recorded.exists_call_iff.2 hn.1
    have hname := hsound.adjustCall_follows hb n (Page.nameSlot e)
    have hleave := Tape.leave_eq_ok
      (Tape.page?_write hp (p.adjustCall n (Page.nameSlot e)) r.tape.supply)
      (by rw [Tape.supply_write]; exact hname.before)
      (Page.exists_call_adjustCall ⟨call, hcall⟩ n (Page.nameSlot e))
      hname.sound.recorded.output_mem
      (Flow.departure r.annotator r.settings e r.state).1
    rw [Tape.supply_write, Tape.write_write] at hleave
    generalize Flow.departure r.annotator r.settings e r.state = x at hleave
    obtain ⟨d, state⟩ := x
    -- The slot is named by an adjustment that does nothing where there is no name.
    cases hattr : attribute? e with
    | some name =>
      have hslot : Page.nameSlot e = fun c => { c with slot := some name } := by
        unfold Page.nameSlot
        rw [hattr]
      rw [hslot] at hleave ⊢
      dsimp only at hleave ⊢
      rw [Tape.adjustCall_eq_ok hp hcall]
      dsimp only
      rw [hleave]
      rfl
    | none =>
      have hslot : Page.nameSlot e = fun c => c := by
        unfold Page.nameSlot
        rw [hattr]
      rw [hslot, Page.adjustCall_id, Tape.write_self hp] at hleave
      rw [hslot, Page.adjustCall_id]
      dsimp only at hleave ⊢
      rw [hleave]
      rfl

/-- A call that was begun in the innermost scope left of a stack is pending on its page. -/
theorem pending_top {t : Tape} (h : t.Valid) {frame : Frame} {rest : List Frame}
    (hs : t.stack = frame :: rest) :
    ∃ p, ({ t with stack := rest } : Tape).page? = some p ∧ p.flow.Pending frame.node ∧
      frame.node ∉ ({ t with stack := rest } : Tape).seats.map Prod.snd := by
  have hrest := h.unstacked hs
  have hseats : t.seats = (({ t with stack := rest } : Tape).scope.graph, frame.node) ::
      ({ t with stack := rest } : Tape).seats := by
    rw [Tape.seats, hs]
    rfl
  obtain ⟨p, hp, -⟩ := hrest.exists_page
  refine ⟨p, hp, ?_, ?_⟩
  · obtain ⟨f, hf, hpend⟩ := h.seated _ (hseats ▸ List.mem_cons_self)
    obtain rfl := Option.some.inj (hf.symm.trans (Tape.page?_eq_some_iff.1 hp).1)
    exact hpend
  · have hnd := h.seats_nodup
    rw [hseats, List.map_cons, List.nodup_cons] at hnd
    exact hnd.1

/-- The name of the innermost open call. -/
def expected? (r : Recorder σ) : Option String := r.tape.stack.head?.map fun f => f.event.fullName

/-- One event keeps the tape valid, and a return that is not expected is all that is refused. -/
theorem push_spec {r : Recorder σ} (h : r.tape.Valid) (e : Event) :
    (r.push e).2.tape.Valid ∧ ∀ cause, (r.push e).1 = .error cause ↔
      ∃ x, e = .ret x ∧ r.expected? ≠ some x.call.fullName ∧
        cause = .mismatch r.expected? x.call.fullName := by
  cases e with
  | call c =>
    obtain ⟨p, hp, hsound, hb⟩ := h.exists_page
    have heq := begin_eq h hp c
    rw [push, heq]
    exact ⟨h.entered hp c (Flow.entrance_identified _ _ _ _), fun cause => by simp⟩
  | ret x =>
    rw [push, Tape.pop]
    cases hs : r.tape.stack with
    | nil =>
      have hnone : r.expected? = none := by rw [expected?, hs]; rfl
      rw [hnone]
      refine ⟨h, fun cause => ?_⟩
      simp [eq_comm]
    | cons frame rest =>
      have hsome : r.expected? = some frame.event.fullName := by rw [expected?, hs]; rfl
      rw [hsome]
      dsimp only
      by_cases hname : frame.event.fullName = x.call.fullName
      · obtain ⟨p, hp, hpend, hseat⟩ := pending_top h hs
        have heq := finish_eq (r := { r with tape := { r.tape with stack := rest } })
          (h.unstacked hs) hp hpend x
        rw [if_pos hname]
        dsimp only
        rw [heq]
        refine ⟨(h.unstacked hs).concluded hp hpend hseat x
          (Flow.departure_identified _ _ _ _), fun cause => ?_⟩
        simp [hname]
      · rw [if_neg hname]
        refine ⟨h.unstacked hs, fun cause => ?_⟩
        simp [hname, eq_comm]

/-! ## What any events do

A refused event leaves the recorder as it was, so runs may contain any number of them. -/

/-- Whatever events arrive, the tape stays valid. -/
theorem valid_absorb {r : Recorder σ} (h : r.tape.Valid) (events : List Event) :
    (r.absorb events).tape.Valid := by
  induction events generalizing r with
  | nil => exact h
  | cons e events ih => exact ih (push_spec h e).1

theorem since_push {r : Recorder σ} (h : r.tape.Valid) {s₀ : Supply} (hs : r.tape.Since s₀)
    (e : Event) : (r.push e).2.tape.Since s₀ := by
  cases e with
  | call c =>
    obtain ⟨p, hp, -⟩ := h.exists_page
    rw [push, begin_eq h hp c]
    exact hs.entered h hp c (Flow.entrance_identified _ _ _ _)
  | ret x =>
    rw [push, Tape.pop]
    cases hstack : r.tape.stack with
    | nil => exact hs
    | cons frame rest =>
      have hrest : ({ r.tape with stack := rest } : Tape).Since s₀ := hs
      dsimp only
      by_cases hname : frame.event.fullName = x.call.fullName
      · obtain ⟨p, hp, hpend, -⟩ := pending_top h hstack
        have heq := finish_eq (r := { r with tape := { r.tape with stack := rest } })
          (h.unstacked hstack) hp hpend x
        rw [if_pos hname]
        dsimp only
        rw [heq]
        exact hrest.concluded (h.unstacked hstack) hp hpend x (Flow.departure_identified _ _ _ _)
      · rw [if_neg hname]
        exact hrest

/-- Whatever events arrive, new identities come from the supply. -/
theorem since_absorb {r : Recorder σ} (h : r.tape.Valid) {s₀ : Supply} (hs : r.tape.Since s₀)
    (events : List Event) : (r.absorb events).tape.Since s₀ := by
  induction events generalizing r with
  | nil => exact hs
  | cons e events ih => exact ih (push_spec h e).1 (since_push h hs e)

theorem since_start (a : Annotator σ) (state : σ) (settings : Settings) (s : Supply) :
    (start a state settings s).tape.Since s :=
  ⟨Recording.since_empty s, Nat.le_add_right _ 2⟩

/-- A tape begins valid. -/
theorem valid_start (a : Annotator σ) (state : σ) (settings : Settings) (s : Supply) :
    (start a state settings s).tape.Valid := Tape.valid_empty s

/--
At any time the recording passes its check and no edge enters an input marker, leaves an output
marker or joins the two; each object has at most one edge to the output marker of a graph, and the
open scopes know just these edges. A return is refused just if it is not that of the innermost open
call, and nothing else is.
-/
theorem absorb_sound (a : Annotator σ) (state : σ) (settings : Settings) (s : Supply)
    (events : List Event) :
    let r := (start a state settings s).absorb events
    r.tape.recording.validate = .ok () ∧
    (∀ f ∈ r.tape.recording.graphs, ∀ e ∈ f.graph.edges, e.target ≠ f.input ∧
      e.source ≠ f.output ∧ ¬ (e.source = f.input ∧ e.target = f.output)) ∧
    (∀ f ∈ r.tape.recording.graphs, ∀ o,
      ((f.graph.inEdges f.output).filter fun e => e.data.carries (some o)).length ≤ 1) ∧
    (∀ sc ∈ r.tape.scopes, ∃ f, r.tape.recording.graph? sc.graph = some f ∧
      ∀ o q, Table.at? sc.producers o = some q ↔
        ∃ e ∈ f.graph.edges, e.id = q.edge ∧ e.source = q.node ∧ e.target = f.output ∧
          e.data.carries (some o) ∧ e.data.sourcePin = some q.pin) ∧
    ∀ e cause, (r.push e).1 = .error cause ↔
      ∃ x, e = .ret x ∧ r.expected? ≠ some x.call.fullName ∧
        cause = .mismatch r.expected? x.call.fullName := by
  intro r
  have hvalid : r.tape.Valid := valid_absorb (valid_start a state settings s) events
  have hrecorded : ∀ f ∈ r.tape.recording.graphs, f.Recorded := by
    intro f hf
    obtain ⟨i, hi⟩ := List.mem_iff_getElem?.1 hf
    exact hvalid.kept.recorded i f hi
  have hcarries : ∀ (l : Flow.Link) (o : ObjectId), l.carries (some o) = true ↔
      l.object.id = some o := by
    intro l o
    simp [Flow.Link.carries]
  refine ⟨hvalid.kept.validate_eq_ok, fun f hf e he => ?_, fun f hf o => ?_, fun sc hsc => ?_,
    fun e => (push_spec hvalid e).2⟩
  · have h := hrecorded f hf
    exact ⟨h.target_ne_input e he, h.source_ne_output e he, h.not_across e he⟩
  · have h := hrecorded f hf
    have hnd : ((f.graph.inEdges f.output).filter fun e => e.data.carries (some o)).Nodup :=
      ((List.Nodup.of_map _ h.wellFormed.edges_nodup).filter _).filter _
    refine (length_le_one_iff hnd).2 fun e he e' he' => ?_
    rw [List.mem_filter, Graph.mem_inEdges, hcarries] at he he'
    exact h.last e he.1.1 e' he'.1.1 he.1.2 he'.1.2 (he.2.trans he'.2.symm)
  · obtain ⟨f, hf, hsound⟩ := hvalid.pages sc hsc
    refine ⟨f, hf, fun o q => ?_⟩
    simp only [hcarries]
    exact hsound.producers_iff o q

end Recorder

end ObjectFlow
