import ObjectFlow.Proofs.Flow.Recording

/-!
# Tapes without defects

The pages of the open scopes are sound, and every open call stands on the page of the scope around
it and has produced nothing yet. So there is always a page to record on, and nothing that is
recorded is refused.

## Outline

A tape holds its graphs once, in the recording, and its stack refers to them by handles. Three lists
are read off the stack: the open scopes, the calls that are open with the graph in which each stands
(`Tape.seats`), and the shape of every frame (`Frame.shape`), from which the seats can be told
(`Tape.seatsOf_congr`). `Tape.Valid` is the invariant, stated about these lists, so that a change to
the producers of a scope, which is in none of them, keeps it.

Every event is made of the same few changes, and there is one lemma for each: another page in the
place of the innermost one (`Tape.Valid.write`), a new graph for a body (`Tape.Valid.openBody`), a
frame on the stack (`Tape.Valid.stacked`) or from it (`Tape.Valid.unstacked`). What a new page must
satisfy is said by `Page.Follows`, in terms of the page alone.
-/

namespace ObjectFlow

/-- The event, the call and the graph of a frame. -/
def Frame.shape (f : Frame) : Invocation × NodeId × Option Handle :=
  (f.event, f.node, f.scope.map Scope.graph)

namespace Tape

/-- The open scopes, innermost first. -/
def scopes (t : Tape) : List Scope := t.stack.filterMap Frame.scope ++ [t.root]

/-- The open calls of a stack, each with the graph in which it stands. -/
def seatsOf (root : Scope) : List Frame → List (Handle × NodeId)
  | [] => []
  | frame :: rest => ((innermost root rest).graph, frame.node) :: seatsOf root rest

/-- The open calls, innermost first, each with the graph in which it stands. -/
def seats (t : Tape) : List (Handle × NodeId) := seatsOf t.root t.stack

/-- What a tape is like at any time. -/
structure Valid (t : Tape) : Prop where
  kept : t.recording.Kept t.supply
  root_eq : t.root.graph = t.recording.root
  scopes_nodup : (t.scopes.map Scope.graph).Nodup
  pages : ∀ sc ∈ t.scopes, ∃ f, t.recording.graph? sc.graph = some f ∧
    Page.Sound ⟨f, sc.producers⟩
  seated : ∀ x ∈ t.seats, ∃ f, t.recording.graph? x.1 = some f ∧ f.Pending x.2
  seats_nodup : (t.seats.map Prod.snd).Nodup

/-! ## Scopes and seats

The innermost scope is that of the innermost frame that has one, or the outermost scope. A call is
not recorded in its own scope but in the one around it. -/

theorem filterMap_scope_adjustInnermost {f : Scope → Scope} {stack stack' : List Frame}
    (h : adjustInnermost f stack = some stack') :
    ∃ s rest, stack.filterMap Frame.scope = s :: rest ∧
      stack'.filterMap Frame.scope = f s :: rest := by
  obtain ⟨inner, frame, s, outer, rfl, hinner, hs, rfl⟩ := adjustInnermost_eq_some h
  have hnil := List.filterMap_eq_nil_iff.2 hinner
  exact ⟨s, outer.filterMap Frame.scope, by simp [hnil, hs], by simp [hnil]⟩

/-- The innermost scope comes first. -/
theorem exists_scopes_eq (t : Tape) : ∃ rest, t.scopes = t.scope :: rest := by
  unfold scopes
  rw [scope_eq_innermost, innermost, ← List.head?_filterMap]
  cases t.stack.filterMap Frame.scope with
  | nil => exact ⟨[], rfl⟩
  | cons s rest => exact ⟨rest ++ [t.root], rfl⟩

theorem scope_mem (t : Tape) : t.scope ∈ t.scopes := by
  obtain ⟨rest, h⟩ := t.exists_scopes_eq
  exact h ▸ List.mem_cons_self

/-- A change to the innermost scope leaves the others. -/
theorem scopes_adjustScope (t : Tape) (f : Scope → Scope) {rest : List Scope}
    (h : t.scopes = t.scope :: rest) : (t.adjustScope f).scopes = f t.scope :: rest := by
  rw [scope_eq_innermost, innermost, ← List.head?_filterMap] at h ⊢
  unfold adjustScope
  split
  · rename_i stack' hs
    obtain ⟨s, rest', h₁, h₂⟩ := filterMap_scope_adjustInnermost hs
    rw [scopes, h₁] at h
    rw [scopes, h₁, h₂]
    simpa using h
  · rename_i hs
    rw [adjustInnermost_eq_none_iff, ← List.head?_filterMap, List.head?_eq_none_iff] at hs
    rw [scopes, hs] at h
    rw [scopes, hs]
    simpa using h

/-- A page that is written changes the producers of the innermost scope and no other scope. -/
theorem scopes_write (t : Tape) (p : Page) (s : Supply) {rest : List Scope}
    (h : t.scopes = t.scope :: rest) :
    (t.write p s).scopes = { t.scope with producers := p.producers } :: rest :=
  scopes_adjustScope (setFlow { t with supply := s } p.flow) _ h

theorem map_shape_adjustInnermost {f : Scope → Scope} (hf : ∀ s, (f s).graph = s.graph)
    {stack stack' : List Frame} (h : adjustInnermost f stack = some stack') :
    stack'.map Frame.shape = stack.map Frame.shape := by
  obtain ⟨inner, frame, s, outer, rfl, -, hs, rfl⟩ := adjustInnermost_eq_some h
  simp [Frame.shape, hs, hf]

theorem innermost_graph_eq (root : Scope) (stack : List Frame) :
    (innermost root stack).graph =
      ((stack.map Frame.shape).findSome? fun x => x.2.2).getD root.graph := by
  rw [innermost, List.findSome?_map]
  induction stack with
  | nil => rfl
  | cons f rest ih =>
    rw [List.findSome?_cons, List.findSome?_cons, Function.comp_apply, Frame.shape]
    cases hs : f.scope with
    | some s => simp
    | none => simpa using ih

/-- The innermost scope is that of the first frame that has one. -/
theorem scope_graph_eq (t : Tape) :
    t.scope.graph = ((t.stack.map Frame.shape).findSome? fun x => x.2.2).getD t.root.graph :=
  innermost_graph_eq t.root t.stack

/-- The seats can be read off the shapes of the frames. -/
theorem seatsOf_congr {root root' : Scope} (hroot : root'.graph = root.graph)
    {stack stack' : List Frame} (h : stack'.map Frame.shape = stack.map Frame.shape) :
    seatsOf root' stack' = seatsOf root stack := by
  induction stack generalizing stack' with
  | nil =>
    obtain rfl := List.map_eq_nil_iff.1 h
    rfl
  | cons frame stack ih =>
    obtain ⟨frame', stack', rfl, hframe, hrest⟩ := List.map_eq_cons_iff.1 h
    have hnode : frame'.node = frame.node := congrArg (fun x => x.2.1) hframe
    rw [seatsOf, seatsOf, ih hrest, innermost_graph_eq, innermost_graph_eq, hrest, hroot, hnode]

theorem seats_adjustScope (t : Tape) {f : Scope → Scope} (hf : ∀ s, (f s).graph = s.graph) :
    (t.adjustScope f).seats = t.seats := by
  unfold adjustScope
  split
  · rename_i stack' h
    exact seatsOf_congr rfl (map_shape_adjustInnermost hf h)
  · exact seatsOf_congr (hf t.root) rfl

theorem seats_write (t : Tape) (p : Page) (s : Supply) : (t.write p s).seats = t.seats :=
  seats_adjustScope (setFlow { t with supply := s } p.flow)
    (f := fun sc => { sc with producers := p.producers }) fun _ => rfl

theorem root_graph_adjustScope (t : Tape) {f : Scope → Scope} (hf : ∀ s, (f s).graph = s.graph) :
    (t.adjustScope f).root.graph = t.root.graph := by
  unfold adjustScope
  split
  · rfl
  · exact hf t.root

/-- Writing a page leaves the shapes of the frames. -/
theorem map_shape_write (t : Tape) (p : Page) (s : Supply) :
    (t.write p s).stack.map Frame.shape = t.stack.map Frame.shape := by
  unfold write adjustScope
  split
  · rename_i stack h
    exact map_shape_adjustInnermost (f := fun sc => { sc with producers := p.producers })
      (fun _ => rfl) h
  · rfl

theorem map_node_seats (t : Tape) : t.seats.map Prod.snd = t.stack.map Frame.node := by
  rw [seats]
  induction t.stack with
  | nil => rfl
  | cons f rest ih => rw [seatsOf, List.map_cons, List.map_cons, ih]

/-! ## Recording keeps a tape valid

Each lemma takes the invariant and gives it back. What a page promises about its own graph is
`Page.Sound`; here only the relations between graphs remain: no body belongs to two calls, no graph
is the scope of two frames, and no call is open twice. -/

/-- A tape on which nothing is recorded is valid. -/
theorem valid_empty (s : Supply) : (Tape.empty s).Valid := by
  have hk := Recording.kept_empty s
  refine ⟨hk, rfl, List.nodup_singleton _, fun sc hsc => ?_, fun x hx => (by cases hx),
    List.nodup_nil⟩
  obtain rfl := List.mem_singleton.1 hsc
  refine ⟨(Flow.empty s).1, rfl, Flow.recorded_empty s, fun o q => ⟨fun h => (by cases h), ?_⟩⟩
  rintro ⟨e, he, -⟩
  cases he

/-- There is always a page to record on. -/
theorem Valid.exists_page {t : Tape} (h : t.Valid) :
    ∃ p, t.page? = some p ∧ p.Sound ∧ p.flow.graph.Before t.supply := by
  obtain ⟨f, hf, hsound⟩ := h.pages t.scope t.scope_mem
  exact ⟨⟨f, t.scope.producers⟩, page?_eq_some_iff.2 ⟨hf, rfl⟩, hsound,
    h.kept.before t.scope.graph.index f hf⟩

/-- The page to record on is sound, and its identities are all from the supply. -/
theorem Valid.sound {t : Tape} (h : t.Valid) {p : Page} (hp : t.page? = some p) :
    p.Sound ∧ p.flow.graph.Before t.supply := by
  obtain ⟨p', hp', hsound⟩ := h.exists_page
  obtain rfl := Option.some.inj (hp.symm.trans hp')
  exact hsound

/-- A page may be replaced by one that follows it, as long as it takes no body from elsewhere and
keeps the open calls pending. -/
theorem Valid.write {t : Tape} (h : t.Valid) {p p' : Page} {s' : Supply} (hp : t.page? = some p)
    (hfollows : p.Follows p' t.supply s')
    (hbodies : t.recording.Adopts t.scope.graph p.flow p'.flow)
    (hpend : ∀ n, (t.scope.graph, n) ∈ t.seats → p.flow.Pending n → p'.flow.Pending n) :
    (t.write p' s').Valid := by
  obtain ⟨hflow, -⟩ := page?_eq_some_iff.1 hp
  obtain ⟨rest, hrest⟩ := t.exists_scopes_eq
  have hscopes := scopes_write t p' s' hrest
  have hself : (t.write p' s').recording.graph? t.scope.graph = some p'.flow := by
    rw [recording_write]
    exact List.getElem?_set_self (List.getElem?_eq_some_iff.1 hflow).1
  -- Only the graph of the page changes, and no other scope has this graph.
  have hother : ∀ h', h' ≠ t.scope.graph →
      (t.write p' s').recording.graph? h' = t.recording.graph? h' := by
    intro h' hne
    rw [recording_write]
    refine List.getElem?_set_ne fun hi => hne ?_
    cases h'
    exact (congrArg Handle.mk hi).symm
  have hnd := h.scopes_nodup
  rw [hrest, List.map_cons, List.nodup_cons] at hnd
  refine ⟨?_, ?_, ?_, fun sc hsc => ?_, fun x hx => ?_, ?_⟩
  · rw [recording_write, supply_write]
    exact h.kept.set hflow hfollows hbodies
  · rw [recording_write]
    have : (t.write p' s').root.graph = t.root.graph :=
      root_graph_adjustScope (setFlow { t with supply := s' } p'.flow)
        (f := fun sc => { sc with producers := p'.producers }) fun _ => rfl
    exact this.trans h.root_eq
  · rw [hscopes, List.map_cons, List.nodup_cons]
    exact hnd
  · rw [hscopes] at hsc
    rcases List.mem_cons.1 hsc with rfl | hsc
    · exact ⟨p'.flow, hself, hfollows.sound⟩
    · have hne : sc.graph ≠ t.scope.graph := fun heq =>
        hnd.1 (heq ▸ List.mem_map_of_mem hsc)
      obtain ⟨f, hf, hsound⟩ := h.pages sc (hrest ▸ List.mem_cons_of_mem _ hsc)
      exact ⟨f, (hother _ hne).trans hf, hsound⟩
  · rw [seats_write] at hx
    obtain ⟨f, hf, hx'⟩ := h.seated x hx
    by_cases heq : x.1 = t.scope.graph
    · rw [heq] at hf ⊢
      obtain rfl := Option.some.inj (hf.symm.trans hflow)
      exact ⟨p'.flow, hself, hpend x.2 (heq ▸ hx) hx'⟩
    · exact ⟨f, (hother _ heq).trans hf, hx'⟩
  · rw [seats_write]
    exact h.seats_nodup

/-- A change that neither adds nor moves a body. -/
theorem adopts_of_subset {r : Recording} {this : Handle} {f f' : Flow}
    (h : ∀ b ∈ Recording.bodies f', b ∈ Recording.bodies f) : r.Adopts this f f' :=
  fun b hb => .inl (h b hb)

/-- A call that has a body gets a new graph for it. -/
theorem Valid.openBody {t : Tape} (h : t.Valid) (c : Invocation) : (t.openBody c).2.Valid := by
  unfold Tape.openBody
  split
  · exact h
  · have hold : ∀ h' f, t.recording.graph? h' = some f →
        (t.recording.push (Flow.empty t.supply).1).2.graph? h' = some f := fun h' f hf =>
      (List.getElem?_append_left (List.getElem?_eq_some_iff.1 hf).1).trans hf
    refine ⟨h.kept.push_empty.1, h.root_eq, h.scopes_nodup, fun sc hsc => ?_, fun x hx => ?_,
      h.seats_nodup⟩
    · obtain ⟨f, hf, hsound⟩ := h.pages sc hsc
      exact ⟨f, hold _ f hf, hsound⟩
    · obtain ⟨f, hf, hpend⟩ := h.seated x hx
      exact ⟨f, hold _ f hf, hpend⟩

/-- The graph of an opened body is empty, no call has it, and it lies behind the innermost scope. -/
theorem Valid.openBody_spec {t : Tape} (h : t.Valid) (c : Invocation) :
    ∀ b ∈ (t.openBody c).1, (t.openBody c).2.recording.Spare b ∧
      (∀ sc ∈ t.scopes, sc.graph.index < b.index) ∧
      (t.openBody c).2.recording.graph? b = some (Flow.empty t.supply).1 := by
  unfold Tape.openBody
  split
  · intro b hb
    cases hb
  · rintro b hb
    obtain rfl : (⟨t.recording.graphs.length⟩ : Handle) = b := Option.some.inj hb
    refine ⟨h.kept.push_empty.2, fun sc hsc => ?_, ?_⟩
    · obtain ⟨f, hf, -⟩ := h.pages sc hsc
      exact (List.getElem?_eq_some_iff.1 hf).1
    · simp [Recording.push, Recording.graph?]

theorem scopes_openBody (t : Tape) (c : Invocation) : (t.openBody c).2.scopes = t.scopes := by
  unfold openBody
  split <;> rfl

/-- A call that has been recorded is opened. -/
theorem Valid.stacked {t : Tape} (h : t.Valid) {p : Page} (hp : t.page? = some p) (c : Invocation)
    {n : NodeId} (hn : p.flow.Pending n) (hnew : n ∉ t.seats.map Prod.snd) {body : Option Handle}
    {s : Supply}
    (hbody : ∀ b ∈ body, (∀ sc ∈ t.scopes, sc.graph ≠ b) ∧
      t.recording.graph? b = some (Flow.empty s).1) : (t.stacked c n body).Valid := by
  have hscopes : (t.stacked c n body).scopes =
      (body.map fun b => (⟨b, []⟩ : Scope)).toList ++ t.scopes := by
    unfold Tape.stacked scopes
    cases body <;> simp
  have hseats : (t.stacked c n body).seats = (t.scope.graph, n) :: t.seats := rfl
  refine ⟨h.kept, h.root_eq, ?_, fun sc hsc => ?_, fun x hx => ?_, ?_⟩
  · rw [hscopes]
    cases body with
    | none => exact h.scopes_nodup
    | some b =>
      refine List.nodup_cons.2 ⟨fun hm => ?_, h.scopes_nodup⟩
      obtain ⟨sc, hsc, heq⟩ := List.mem_map.1 hm
      exact (hbody b rfl).1 sc hsc heq
  · rw [hscopes] at hsc
    rcases List.mem_append.1 hsc with hsc | hsc
    · obtain ⟨b, hb, rfl⟩ := Option.map_eq_some_iff.1 (Option.mem_toList.1 hsc)
      refine ⟨_, (hbody b hb).2, Flow.recorded_empty s, fun o q => ⟨fun hq => (by cases hq), ?_⟩⟩
      rintro ⟨e, he, -⟩
      cases he
    · exact h.pages sc hsc
  · rw [hseats] at hx
    rcases List.mem_cons.1 hx with rfl | hx
    · exact ⟨p.flow, (page?_eq_some_iff.1 hp).1, hn⟩
    · exact h.seated x hx
  · rw [hseats, List.map_cons, List.nodup_cons]
    exact ⟨hnew, h.seats_nodup⟩

/-- The innermost call is taken from the stack. -/
theorem Valid.unstacked {t : Tape} (h : t.Valid) {frame : Frame} {rest : List Frame}
    (hs : t.stack = frame :: rest) : ({ t with stack := rest } : Tape).Valid := by
  have hscopes : ({ t with stack := rest } : Tape).scopes.Sublist t.scopes := by
    unfold scopes
    rw [hs]
    exact (List.Sublist.filterMap _ (List.sublist_cons_self _ _)).append_right _
  have hseats : t.seats = ((innermost t.root rest).graph, frame.node) ::
      ({ t with stack := rest } : Tape).seats := by
    rw [seats, hs]
    rfl
  have hnd := h.seats_nodup
  rw [hseats] at hnd
  exact ⟨h.kept, h.root_eq, h.scopes_nodup.sublist (hscopes.map _),
    fun sc hsc => h.pages sc (hscopes.subset hsc),
    fun x hx => h.seated x (hseats ▸ List.mem_cons_of_mem _ hx), (List.nodup_cons.1 hnd).2⟩

end Tape

end ObjectFlow
