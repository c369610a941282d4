import ObjectFlow.Interpretation
import ObjectFlow.Proofs.Table

/-!
# Looking up types again

What was found stays found, so that asking again gives the same answer and changes nothing
(`Replays`). That holds of everything that is asked for a semantic graph, and so a second graph is
built from the same annotated graph with the same outcome (`outcome_again`), unless a package failed
to load. Such a package counts as loaded, and its notes are passed over the next time
(`outcome_forgets_failure`).

`Replays f t` is made to be put together. An answer has to come again not only right after it was
given but also when more was found in between, or else a list of questions would not replay. A
failure ends the list, so for it right after is enough. From `noteType`, the only question that
touches the database, it is carried through everything that asks it (`replays_declared`,
`replays_typed`, `replays_child`, `replays_forEach`).
-/

namespace ObjectFlow

/-! ## Failing to load

Loading a package fails for three causes, all of them of the files. None of them is met where
something is looked up. -/

/-- The causes for which a package is not loaded. -/
inductive StorageError.OfLoading : StorageError → Prop where
  | unreadable (path : String) : OfLoading (.unreadable path)
  | undecodable : OfLoading .undecodable
  | missingField (field : String) (doc : Json) : OfLoading (.missingField field doc)

namespace Database

variable {e : StorageError}

/-- A document without a key is not loaded. -/
theorem keyOf_ofLoading {doc : Json} (h : keyOf doc = .error e) : e.OfLoading := by
  unfold keyOf at h
  dsimp only at h
  -- each of the three fields is there or is the cause
  split at h
  · split at h
    · split at h
      · cases h
      · cases h
        exact .missingField _ _
    · cases h
      exact .missingField _ _
  · cases h
    exact .missingField _ _

/-- Nothing but its key keeps a document from being inserted. -/
theorem insert_ofLoading {db : Database} {doc : Json} (h : db.insert doc = .error e) :
    e.OfLoading := by
  cases hkey : keyOf doc with
  | error e' =>
    rw [insert, hkey] at h
    obtain rfl := Except.error.inj h
    exact keyOf_ofLoading hkey
  | ok key =>
    rw [insert, hkey] at h
    cases h

/-- Nothing but a key that is missing keeps a list of documents from being inserted. -/
theorem insertAll_ofLoading {db : Database} {n : Nat} {docs : List Json}
    (h : (db.insertAll n docs).1 = .error e) : e.OfLoading := by
  fun_induction insertAll db n docs with
  | case1 => cases h
  | case2 db n doc rest e' hdoc => exact Except.error.inj h ▸ insert_ofLoading hdoc
  | case3 db n doc rest db' hdoc ih => exact ih h

/-- A file is not loaded if it is not read, or not decoded, or holds a document without a key. -/
theorem loadFile_ofLoading {db : Database} {path : String}
    (h : (db.loadFile path).1 = .error e) : e.OfLoading := by
  unfold loadFile at h
  split at h
  · cases h
    exact .unreadable path
  · split at h
    · exact insertAll_ofLoading h
    · cases h
      exact .undecodable

/-- Files are loaded one after the other, up to the first that is not. -/
theorem loadFiles_ofLoading {db : Database} {n : Nat} {paths : List String}
    (h : (db.loadFiles n paths).1 = .error e) : e.OfLoading := by
  fun_induction loadFiles db n paths with
  | case1 => cases h
  | case2 db n path rest e' db' hfile =>
    exact loadFile_ofLoading ((congrArg Prod.fst hfile).trans h)
  | case3 db n path rest k db' hfile ih => exact ih h

end Database

namespace TypeSource

variable {α β γ : Type} {t : TypeSource}

/-! ## Questions that replay

A question to a source of types gives an answer and leaves a source. Those that are asked for a
graph are made of others by going on from their answers, and lists of them are asked one by one. -/

/-- What was found is still found. -/
def Keeps (t t' : TypeSource) : Prop :=
  ∀ k type, Table.at? t.types k = some type → Table.at? t'.types k = some type

theorem Keeps.refl (t : TypeSource) : t.Keeps t := fun _ _ h => h

/-- What is found later is found on top of the rest. -/
theorem Keeps.trans {t t' t'' : TypeSource} (h : t.Keeps t') (h' : t'.Keeps t'') : t.Keeps t'' :=
  fun k type hk => h' k type (h k type hk)

/-- An answer is given again, also when more has been found since, and so is a failure, right after
it; neither leads any further. Only packages may fail to load once and not again. -/
structure Replays (f : TypeSource → Except StorageError β × TypeSource) (t : TypeSource) :
    Prop where
  keeps : ∀ r t₁, f t = (r, t₁) → t.Keeps t₁
  answer : ∀ b t₁, f t = (.ok b, t₁) → ∀ t', t₁.Keeps t' → f t' = (.ok b, t')
  failure : ∀ e t₁, f t = (.error e, t₁) → ¬ e.OfLoading → f t₁ = (.error e, t₁)

section Replays

variable {f : TypeSource → Except StorageError β × TypeSource} {t₁ : TypeSource}

/-- Where a question is answered, nothing is to be shown of failures. -/
theorem Replays.of_answer {b : β} (heq : f t = (.ok b, t₁)) (hkeeps : t.Keeps t₁)
    (h : ∀ t', t₁.Keeps t' → f t' = (.ok b, t')) : Replays f t := by
  refine ⟨fun r t₂ h₂ => ?_, fun b' t₂ h₂ => ?_, fun e t₂ h₂ => ?_⟩ <;> rw [heq] at h₂ <;> cases h₂
  · exact hkeeps
  · exact h

/-- Where it fails, nothing is to be shown of answers. -/
theorem Replays.of_failure {e : StorageError} (heq : f t = (.error e, t₁)) (hkeeps : t.Keeps t₁)
    (h : ¬ e.OfLoading → f t₁ = (.error e, t₁)) : Replays f t := by
  refine ⟨fun r t₂ h₂ => ?_, fun b' t₂ h₂ => ?_, fun e t₂ h₂ => ?_⟩ <;> rw [heq] at h₂ <;> cases h₂
  · exact hkeeps
  · exact h

/-- What is known without asking is known again. -/
theorem replays_ok (b : β) (t : TypeSource) : Replays (fun t => (.ok b, t)) t :=
  .of_answer rfl (.refl t) fun _ _ => rfl

/-- The answer may be turned into something else. -/
theorem Replays.map (h : Replays f t) (φ : β → γ) :
    Replays (fun t => ((f t).1.map φ, (f t).2)) t := by
  rcases hf : f t with ⟨e | b, t₁⟩
  · refine .of_failure (by rw [hf]; rfl) (h.keeps _ _ hf) fun hload => ?_
    rw [h.failure e t₁ hf hload]
    rfl
  · refine .of_answer (by rw [hf]; rfl) (h.keeps _ _ hf) fun t' ht' => ?_
    rw [h.answer b t₁ hf t' ht']
    rfl

end Replays

/-- A list of questions replays if each of them does. -/
theorem replays_forEach {f : α → TypeSource → Except StorageError β × TypeSource}
    (h : ∀ a t, Replays (f a) t) (as : List α) (t : TypeSource) : Replays (forEach f as) t := by
  induction as generalizing t with
  | nil => exact replays_ok [] t
  | cons a as ih =>
    rcases hf : f a t with ⟨e | b, t₁⟩
    · have heq : forEach f (a :: as) t = (.error e, t₁) := by simp only [forEach, hf]
      refine .of_failure heq ((h a t).keeps _ _ hf) fun hload => ?_
      simp only [forEach, (h a t).failure e t₁ hf hload]
    · rcases hrun : forEach f as t₁ with ⟨r, t₂⟩
      have hrest : t₁.Keeps t₂ := (ih t₁).keeps _ _ hrun
      have hkeeps : t.Keeps t₂ := ((h a t).keeps _ _ hf).trans hrest
      -- what the rest finds leaves the first answer as it is
      have hfirst : ∀ t', t₂.Keeps t' → f a t' = (.ok b, t') := fun t' ht' =>
        (h a t).answer b t₁ hf t' (hrest.trans ht')
      cases r with
      | ok bs =>
        have heq : forEach f (a :: as) t = (.ok (b :: bs), t₂) := by simp only [forEach, hf, hrun]
        refine .of_answer heq hkeeps fun t' ht' => ?_
        simp only [forEach, hfirst t' ht', (ih t₁).answer bs t₂ hrun t' ht']
      | error e =>
        have heq : forEach f (a :: as) t = (.error e, t₂) := by simp only [forEach, hf, hrun]
        refine .of_failure heq hkeeps fun hload => ?_
        simp only [forEach, hfirst t₂ (.refl t₂), (ih t₁).failure e t₂ hrun hload]

/-! ## The types of notes

Two things are remembered: which packages were loaded, and which types were found. The first is
remembered even after a failure, the second is not. -/

/-- Loading a package finds no types. -/
@[simp] theorem fetch_types (t : TypeSource) (language package : String) :
    (t.fetch language package).2.types = t.types := by
  unfold fetch
  split <;> rfl

/-- A package is loaded once, whether that succeeds or not. -/
theorem fetch_again (t : TypeSource) (language package : String) :
    (t.fetch language package).2.fetch language package =
      (.ok (), (t.fetch language package).2) := by
  have hloaded : (t.fetch language package).2.loaded.contains (language, package) := by
    unfold fetch
    split
    · assumption
    · simp
  rw [fetch, if_pos hloaded]

/-- Fetching a package fails for the causes of loading only. -/
theorem fetch_ofLoading {language package : String} {e : StorageError}
    (h : (t.fetch language package).1 = .error e) : e.OfLoading := by
  unfold fetch at h
  split at h
  · cases h
  · cases hload : (t.database.loadPackage language package).1 with
    | ok n =>
      simp only [hload] at h
      cases h
    | error e' =>
      simp only [hload] at h
      obtain rfl := Except.error.inj h
      exact Database.loadFiles_ofLoading hload

/-- What is found is not looked up. -/
theorem noteType_found {k : NoteKey} {type : Option String}
    (h : Table.at? t.types k = some type) : t.noteType k = (.ok type, t) := by
  simp only [noteType, h]

/-- Only what is not found yet is looked up. -/
theorem noteType_missing {k : NoteKey} (h : Table.at? t.types k = none) :
    t.noteType k = match t.fetch k.language k.package with
      | (.error e, t) => (.error e, t)
      | (.ok (), t) =>
        match t.lookUp k with
        | .error e => (.error e, t)
        | .ok type => (.ok type, { t with types := Table.put t.types k type }) := by
  rewrite [noteType, h]
  rfl

/-- The type that a note names is found for good. -/
theorem replays_noteType (k : NoteKey) (t : TypeSource) : Replays (noteType k) t := by
  cases hk : Table.at? t.types k with
  | some type =>
    exact .of_answer (noteType_found hk) (.refl t) fun t' ht' => noteType_found (ht' k type hk)
  | none =>
    have hmissing := noteType_missing hk
    have htypes := fetch_types t k.language k.package
    have hagain := fetch_again t k.language k.package
    cases hfetch : t.fetch k.language k.package with
    | mk r t₁ =>
    simp only [hfetch] at hmissing htypes hagain
    have hkeeps : t.Keeps t₁ := fun k' type h => htypes ▸ h
    have hk₁ : Table.at? t₁.types k = none := htypes ▸ hk
    cases r with
    | error e =>
      exact .of_failure hmissing hkeeps fun hload =>
        absurd (fetch_ofLoading (congrArg Prod.fst hfetch)) hload
    | ok =>
      cases hlook : t₁.lookUp k with
      | error e =>
        simp only [hlook] at hmissing
        exact .of_failure hmissing hkeeps fun _ => by
          simp only [noteType_missing hk₁, hagain, hlook]
      | ok type =>
        simp only [hlook] at hmissing
        refine .of_answer hmissing (fun k' type' h => ?_) fun t' ht' =>
          noteType_found (ht' k type (Table.at?_put_self _ _ _))
        have hne : k' ≠ k := fun heq => by
          rw [heq, hk] at h
          cases h
        exact (Table.at?_put_of_ne _ _ hne).trans (hkeeps k' type' h)

/-- A type that is given is not asked for at all. -/
theorem replays_declared (explicit : Option String) (note : Option NoteKey) (t : TypeSource) :
    Replays (declared explicit note) t := by
  unfold declared
  split
  · exact replays_ok _ t
  · exact replays_noteType _ t
  · exact replays_ok _ t

end TypeSource

namespace Semantic

open TypeSource

/-! ## Graphs

Each node and each slot asks for one type. Everything else in the building of a graph depends on
these answers alone. -/

theorem replays_typed (o : Ontology) (n : NodeId × Annotated.Node) (t : TypeSource) :
    Replays (typed o n) t := by
  obtain ⟨id, a | e⟩ := n
  · exact ((replays_declared none a.note t).map _).map _
  · exact ((replays_declared e.profile.type e.profile.note t).map _).map _

theorem replays_child (o : Ontology) (s : NodeId × String × Profile × Aspect) (t : TypeSource) :
    Replays (child o s) t :=
  ((replays_declared s.2.2.1.type s.2.2.1.note t).map _).map _

end Semantic

/-- A second graph is built with the outcome that the first one would have had with its supply. -/
theorem SemanticGraph.ofAnnotated_again {o : Ontology} {g : AnnotatedGraph} {t : TypeSource}
    {s₁ : Supply}
    (hload : ∀ e, (ofAnnotated o g t s₁).1 = .error (.storage e) → ¬ e.OfLoading) (s₂ : Supply) :
    ofAnnotated o g (ofAnnotated o g t s₁).2 s₂ =
      ((ofAnnotated o g t s₂).1, (ofAnnotated o g t s₁).2) := by
  have hnodes := TypeSource.replays_forEach (Semantic.replays_typed o) g.nodes t
  rcases htypes : TypeSource.forEach (Semantic.typed o) g.nodes t with ⟨e | types, t₁⟩
  · have hfirst : ∀ s, ofAnnotated o g t s = (.error (.storage e), t₁) := fun s => by
      simp only [ofAnnotated, htypes]
    rw [hfirst] at hload
    rw [hfirst s₁, hfirst s₂]
    simp only [ofAnnotated, hnodes.failure e t₁ htypes (hload e rfl)]
  rcases horient : Semantic.orient o (Semantic.withTypes g types) with e | directed
  · have hfirst : ∀ s, ofAnnotated o g t s = (.error e, t₁) := fun s => by
      simp only [ofAnnotated, htypes, horient]
    rw [hfirst s₁, hfirst s₂]
    simp only [ofAnnotated, hnodes.answer types t₁ htypes t₁ (.refl t₁), horient]
  have hslots := TypeSource.replays_forEach (Semantic.replays_child o)
    (Semantic.childSlots o directed) t₁
  rcases hcs : TypeSource.forEach (Semantic.child o) (Semantic.childSlots o directed) t₁ with
    ⟨e | cs, t₂⟩
  · have hfirst : ∀ s, ofAnnotated o g t s = (.error (.storage e), t₂) := fun s => by
      simp only [ofAnnotated, htypes, horient, hcs]
    rw [hfirst] at hload
    rw [hfirst s₁, hfirst s₂]
    simp only [ofAnnotated, horient, hnodes.answer types t₁ htypes t₂ (hslots.keeps _ _ hcs),
      hslots.failure e t₂ hcs (hload e rfl)]
  · have hfirst : ∀ s, ofAnnotated o g t s = (Semantic.unite o directed s cs, t₂) := fun s => by
      simp only [ofAnnotated, htypes, horient, hcs]
    rw [hfirst s₁, hfirst s₂]
    simp only [ofAnnotated, horient, hnodes.answer types t₁ htypes t₂ (hslots.keeps _ _ hcs),
      hslots.answer cs t₂ hcs t₂ (.refl t₂)]

namespace Recording

/-- A recording goes through its flow graph and its annotated graph, in which nothing is asked, to
the semantic graph. -/
theorem interpret_again {o : Ontology} {r : Recording} {t : TypeSource} {s : Supply}
    (hload : ∀ e, (r.interpret o t s).1 = .error (.semantic (.storage e)) → ¬ e.OfLoading) :
    r.interpret o (r.interpret o t s).2 s = r.interpret o t s := by
  rcases hannotate : r.annotate s with e | ⟨flow, annotated, s'⟩
  · simp only [interpret, hannotate]
  · have hinterpret : ∀ t, r.interpret o t s =
        (((SemanticGraph.ofAnnotated o annotated t s').1.mapError .semantic).map fun g =>
          (⟨flow, annotated, g.1⟩, g.2), (SemanticGraph.ofAnnotated o annotated t s').2) :=
      fun t => by simp only [interpret, hannotate]
    have hload' : ∀ e, (SemanticGraph.ofAnnotated o annotated t s').1 = .error (.storage e) →
        ¬ e.OfLoading := fun e he => hload e (by rw [hinterpret, he]; rfl)
    rw [hinterpret t, hinterpret, SemanticGraph.ofAnnotated_again hload']

end Recording

namespace Semantic

/-- Two builds of one graph, and two interpretations of one recording, come to the same, the ids
included where these come from the same supply, unless a package fails to load in the first. -/
theorem outcome_again (o : Ontology) (t : TypeSource) :
    (∀ g s₁ s₂,
      (∀ e, (SemanticGraph.ofAnnotated o g t s₁).1 = .error (.storage e) → ¬ e.OfLoading) →
      SemanticGraph.ofAnnotated o g (SemanticGraph.ofAnnotated o g t s₁).2 s₂ =
        ((SemanticGraph.ofAnnotated o g t s₂).1, (SemanticGraph.ofAnnotated o g t s₁).2)) ∧
    ∀ (r : Recording) (s : Supply),
      (∀ e, (r.interpret o t s).1 = .error (.semantic (.storage e)) → ¬ e.OfLoading) →
      r.interpret o (r.interpret o t s).2 s = r.interpret o t s :=
  ⟨fun _ _ s₂ hload => SemanticGraph.ofAnnotated_again hload s₂,
    fun _ _ => Recording.interpret_again⟩

/-! ## A package that does not load

The first question for a note of the package fails, and the package is taken for loaded from then
on. The second question then finds no document, which is no failure. -/

/-- An action with a note in the package `p`. -/
def noted : AnnotatedGraph :=
  { nodes := [(⟨0⟩, .action { note := some ⟨"python", "p", "f"⟩ })], seating := .inOrder [⟨0⟩] }

/-- A source of which the package `p` is a file with the text given. -/
def sourceWith (text : String) : TypeSource :=
  { database :=
      { files := ⟨.directory [("python", .directory [("p.json", .file text)])], []⟩
        searchPath := ["."] } }

/-- The cause of a failure, or the types of all nodes. -/
def typesOf (r : Except SemanticError (SemanticGraph × Supply)) : Except String (List String) :=
  (r.map fun g => g.1.nodes.map fun n => n.2.type).mapError SemanticError.message

/-- A source with the document of the note, which names the type `fit`. -/
def sourceOfFit : TypeSource :=
  { database :=
      { documents := [(⟨"python", "p", "f"⟩,
          .obj [("language", .str "python"), ("package", .str "p"), ("id", .str "f"),
            ("type", .str "fit")])] } }

/-- The type of the note is found in both builds. -/
theorem outcome_again_fit :
    typesOf (SemanticGraph.ofAnnotated .roots noted
      (SemanticGraph.ofAnnotated .roots noted sourceOfFit ⟨1⟩).2 ⟨2⟩).1 = .ok ["fit"] := by
  have htypes : ∀ s ∈ [(⟨1⟩ : Supply), ⟨2⟩],
      typesOf (SemanticGraph.ofAnnotated .roots noted sourceOfFit s).1 = .ok ["fit"] := by
    decide +kernel
  have hload : ∀ e, (SemanticGraph.ofAnnotated .roots noted sourceOfFit ⟨1⟩).1 =
      .error (.storage e) → ¬ e.OfLoading := by
    intro e he
    have h := htypes ⟨1⟩ List.mem_cons_self
    rw [he] at h
    cases h
  rw [(outcome_again .roots sourceOfFit).1 noted ⟨1⟩ ⟨2⟩ hload]
  exact htypes ⟨2⟩ (List.mem_cons_of_mem _ List.mem_cons_self)

/-- The first build fails with the file of the package. The second one takes the package for loaded
and leaves the action without a type of its own. -/
theorem outcome_forgets_failure :
    let first := SemanticGraph.ofAnnotated .roots noted (sourceWith "") ⟨1⟩
    let second := SemanticGraph.ofAnnotated .roots noted first.2 ⟨1⟩
    typesOf first.1 = .error "annotation lookup failed: serialization error" ∧
      typesOf second.1 = .ok ["action"] := by
  decide +kernel

end Semantic

end ObjectFlow
