import ObjectFlow.Proofs.Flow.Flatten
import ObjectFlow.Proofs.Flow.Recorder

/-!
# Arguments in a flattened recording

An argument of a call is still there after flattening just if it came from outside or from a call
that yields it (`flatten_argument_iff`). What a body hands back without having produced it is lost
to those who take it from the call (`flatten_loses_argument`).

In a recorded graph a reference from `x` to an argument says that `x` gave the object out last. If
`x` has a body, the edge must be replaced by one from inside of the body, and there is one if some
call in the body has an edge to the output marker for the object. Otherwise nothing takes the place
of the edge. `Recording.Yields` tells which of the two is the case, and `Recording.Origin` from
where the argument comes if there is a place.
-/

namespace ObjectFlow

namespace Recording

variable {r : Recording} {s : Supply}

/-- What comes from outside of a graph within the root comes from somewhere. -/
theorem Kept.exists_origin (hr : r.Kept s) {h : Handle} (hw : r.Within r.root h) {g : Flow}
    (hg : r.graph? h = some g) (o : ObjectId) : ∃ y, r.Origin r.root o g.input y := by
  induction hw generalizing g with
  | refl => exact ⟨_, .top hg⟩
  | tail _ hb ih =>
    obtain ⟨p, hp, m, hm⟩ := hb
    have hne : ∀ b : Handle, (m, b) ∈ bodies p → b ≠ r.root := by
      rintro b hb rfl
      have hlt := (hr.arena.exists_body hp hb).1
      rw [hr.root_eq] at hlt
      exact Nat.not_lt_zero _ hlt
    by_cases hy : ∃ x pin y, p.Carries x m o pin ∧ r.Yields o x y
    · obtain ⟨x, pin, y, hc, hy⟩ := hy
      exact ⟨y, .argument (hne _ hm) hp hm hg hc hy⟩
    · obtain ⟨y, hy'⟩ := ih hp
      exact ⟨y, .outside (hne _ hm) hp hm hg (fun x pin y' hc hy' => hy ⟨x, pin, y', hc, hy'⟩) hy'⟩

/--
The flattened recording has the calls without bodies, and an argument enters such a call from its
origin. There is one unless the argument was taken from a call with a body that does not yield it.
-/
theorem Kept.flatten_arguments (hr : r.Kept s) : ∃ f s', r.flatten s = .ok (f, s') ∧
    ∀ h g, r.Within r.root h → r.graph? h = some g → ∀ n c, (n, c) ∈ g.calls → c.body = none →
      (n, c) ∈ f.calls ∧ ∀ x o pin, g.Carries x n o pin →
        (∀ y, f.Carries y n o pin ↔ r.Origin r.root o x y) ∧
        ((∃ y, f.Carries y n o pin) ↔ x = g.input ∨ ∃ y, r.Yields o x y) := by
  obtain ⟨f, s', hok, hf⟩ := flatten_spec hr
  refine ⟨f, s', hok, fun h g hw hg n c hc hb => ?_⟩
  have hrec := hr.recorded_of hg
  have hmem : (n, c) ∈ f.calls := (hf.mem_calls_iff n c).2 ⟨hb, h, g, hw, hg, hc⟩
  refine ⟨hmem, fun x o pin hx => ?_⟩
  have horigin : ∀ y, f.Carries y n o pin ↔ r.Origin r.root o x y := by
    intro y
    rw [hf.carries_iff]
    constructor
    · rintro ⟨-, j, g', hg', x', hx', ho⟩
      obtain ⟨-, rfl⟩ := hr.home hg hg' (hx.mem hrec.toFramed).2
        (hx'.mem (hr.recorded_of hg').toFramed).2
      obtain ⟨e, he, rfl, ht, ho₁, -⟩ := hx
      obtain ⟨e', he', rfl, ht', ho₂, -⟩ := hx'
      rwa [hrec.agreed e he e' he' (ht.trans ht'.symm) (ho₁.trans ho₂.symm)]
    · intro ho
      exact ⟨hf.framed.mem_of_call (Table.mem_keys.2 ⟨c, hmem⟩),
        h, g, hg, x, hx, ho⟩
  refine ⟨horigin, (exists_congr horigin).trans ?_⟩
  obtain ⟨e, he, rfl, -⟩ := hx
  rcases hrec.source_cases he with hs | hs
  · rw [hs]
    exact ⟨fun _ => .inl rfl, fun _ => hr.exists_origin hw hg o⟩
  · have hne : e.source ≠ g.input := fun heq => hrec.input_not_mem (heq ▸ hs)
    rw [or_iff_right hne]
    exact exists_congr fun y => hr.origin_call_iff hg hs

end Recording

namespace Recorder

variable {σ : Type}

/--
Whatever events were recorded, flattening succeeds and keeps the calls without bodies. Each of their
arguments comes from its origin; it is lost just if it was taken from a call that does not yield it.
-/
theorem flatten_argument_iff (a : Annotator σ) (state : σ) (settings : Settings) (s : Supply)
    (events : List Event) {s₂ : Supply}
    (hs : ((start a state settings s).absorb events).tape.supply.next ≤ s₂.next) :
    let r := ((start a state settings s).absorb events).tape.recording
    ∃ f s', r.flatten s₂ = .ok (f, s') ∧
      ∀ h g, r.Within r.root h → r.graph? h = some g → ∀ n c, (n, c) ∈ g.calls → c.body = none →
        (n, c) ∈ f.calls ∧ ∀ x o pin, g.Carries x n o pin →
          (∀ y, f.Carries y n o pin ↔ r.Origin r.root o x y) ∧
          ((∃ y, f.Carries y n o pin) ↔ x = g.input ∨ ∃ y, r.Yields o x y) := by
  have hvalid := valid_absorb (valid_start a state settings s) events
  exact (hvalid.kept.mono hs).flatten_arguments

/-! ## One object that passes through two calls

The two runs differ only in whether something in the body of the first call gives the object out. In
both it is returned by the first call and taken by the second. -/

/-- The object. -/
def passed : Snapshot := .object ⟨"o"⟩ ⟨"m", "T", []⟩ []

/-- A call that takes the object, with what happens in its body, and returns it. -/
def passing (name : String) (atomic : Bool) (body : List Event) : List Event :=
  let c : Invocation := ⟨⟨"m", name, none⟩, atomic, [("x", passed)]⟩
  .call c :: body ++ [.ret ⟨c, passed⟩]

/-- The object passes through a call with a body and then through one without. -/
def relayed (body : List Event) : List Event :=
  passing "f" false body ++ passing "g" true []

/-- The tape after the events. -/
def tapeOf (events : List Event) : Tape :=
  ((start Annotator.silent () {} ⟨0⟩).absorb events).tape

/-- A body in which a call returned the object hands it on from there. -/
theorem flatten_argument_relayed :
    let t := tapeOf (relayed (passing "inner" true []))
    ∃ f s', t.recording.flatten t.supply = .ok (f, s') ∧
      f.Carries ⟨6⟩ ⟨10⟩ ⟨"o"⟩ (some "x") := by
  obtain ⟨g, hg, ⟨⟨n, c⟩, hc, rfl, hb⟩, hx, hm⟩ :
      ∃ g ∈ (tapeOf (relayed (passing "inner" true []))).recording.graph? ⟨0⟩,
        (∃ c ∈ g.calls, c.1 = ⟨10⟩ ∧ c.2.body = none) ∧ g.Carries ⟨4⟩ ⟨10⟩ ⟨"o"⟩ (some "x") ∧
          (⟨4⟩, ⟨1⟩) ∈ Recording.bodies g := by
    decide +kernel
  obtain ⟨k, hk, ⟨⟨z, d⟩, hd, rfl, hb'⟩, hz⟩ :
      ∃ k ∈ (tapeOf (relayed (passing "inner" true []))).recording.graph? ⟨1⟩,
        (∃ c ∈ k.calls, c.1 = ⟨6⟩ ∧ c.2.body = none) ∧ k.Carries ⟨6⟩ k.output ⟨"o"⟩ none := by
    decide +kernel
  have hroot : (tapeOf (relayed (passing "inner" true []))).recording.root = ⟨0⟩ := by
    decide +kernel
  have h := flatten_argument_iff Annotator.silent () {} ⟨0⟩
    (relayed (passing "inner" true [])) (Nat.le_refl _)
  simp only [tapeOf] at hg hk hroot ⊢
  obtain ⟨f, s', hok, h⟩ := h
  obtain ⟨-, hargs⟩ := h _ g (hroot ▸ .refl) hg _ c hc hb
  exact ⟨f, s', hok, ((hargs _ _ _ hx).1 _).2 (.call (.body hg hm hk hz (.self hk hd hb')))⟩

/-- An object that a call with a body hands back untouched is lost to the call that uses it. -/
theorem flatten_loses_argument :
    let t := tapeOf (relayed [])
    t.stack.length = 0 ∧ ∃ f s', t.recording.flatten t.supply = .ok (f, s') ∧
      ∃ g, t.recording.graph? t.recording.root = some g ∧ ∃ n c x o pin, (n, c) ∈ g.calls ∧
        c.body = none ∧ g.Carries x n o pin ∧ ∀ y, ¬ f.Carries y n o pin := by
  obtain ⟨g, hg, ⟨⟨n, c⟩, hc, rfl, hb⟩, hx, hm, hne⟩ :
      ∃ g ∈ (tapeOf (relayed [])).recording.graph? (tapeOf (relayed [])).recording.root,
        (∃ c ∈ g.calls, c.1 = ⟨7⟩ ∧ c.2.body = none) ∧ g.Carries ⟨4⟩ ⟨7⟩ ⟨"o"⟩ (some "x") ∧
          (⟨4⟩, ⟨1⟩) ∈ Recording.bodies g ∧ ⟨4⟩ ≠ g.input := by
    decide +kernel
  obtain ⟨k, hk, hnone⟩ : ∃ k ∈ (tapeOf (relayed [])).recording.graph? ⟨1⟩,
      k.graph.edges.length = 0 := by
    decide +kernel
  have hstack : (tapeOf (relayed [])).stack.length = 0 := by decide +kernel
  have hkept : ∀ es, (tapeOf es).recording.Kept (tapeOf es).supply := fun es =>
    (valid_absorb (valid_start Annotator.silent () {} ⟨0⟩) es).kept
  obtain ⟨f, s', hok, h⟩ := (hkept (relayed [])).flatten_arguments
  refine ⟨hstack, f, s', hok, g, hg, ⟨7⟩, c, ⟨4⟩, ⟨"o"⟩, some "x", hc, hb, hx, fun y hy => ?_⟩
  rcases ((h _ g .refl hg _ c hc hb).2 _ _ _ hx).2.1 ⟨y, hy⟩ with heq | ⟨y', hy'⟩
  · exact hne heq
  · -- the body of the call leaves nothing
    obtain ⟨z, pin, ⟨e, he, -⟩, -⟩ := ((hkept _).yields_body_iff hg hm hk).1 hy'
    rw [List.length_eq_zero_iff.1 hnone] at he
    cases he

end Recorder

end ObjectFlow
