import Mathlib.Logic.Basic
import ObjectFlow.Store.Annotator

/-!
# Which note is taken for a class

The notes that fit a class are compared by the place of their classes in its lineage, which is a
total preorder. Going through all notes that the packages answer, the best one so far gives way to
any that is at least as good, so that of the best notes the last is taken (`answers_chosen`).

The comparison is given once as it is computed (`atMost`), where it looks up places that may be
missing, and once as a relation between notes (`AtMost`). On notes that fit the two agree, as no
place is missing then. All that the choice needs is that the relation is total and transitive. Its
invariant is the statement itself, said of the notes that were seen so far (`Chosen`), so one step
of the loop is one case of it.
-/

namespace ObjectFlow.Librarian

variable {lineage : List String} {a b c n : Note} {found : Option Note} {rs done : List Note}

/-! ## Comparing notes

A note may be on several classes, so it is compared as a set. The best places of its classes
count. -/

/-- The note has classes, and the lineage has all of them. -/
def Fits (lineage : List String) (n : Note) : Prop :=
  n.classes ≠ [] ∧ ∀ c ∈ n.classes, c ∈ lineage

/-- Every class of the first note stands where some class of the second does, or behind it. -/
def AtMost (lineage : List String) (a b : Note) : Prop :=
  ∀ c ∈ a.classes, ∃ d ∈ b.classes, lineage.idxOf d ≤ lineage.idxOf c

/-- A note is at most as good as itself. -/
theorem AtMost.refl (lineage : List String) (a : Note) : AtMost lineage a a :=
  fun c hc => ⟨c, hc, Nat.le_refl _⟩

/-- What is at most as good as something at most as good as a third is at most as good as the third.
-/
theorem AtMost.trans (h : AtMost lineage a b) (h' : AtMost lineage b c) : AtMost lineage a c := by
  intro x hx
  obtain ⟨y, hy, hxy⟩ := h x hx
  obtain ⟨z, hz, hyz⟩ := h' y hy
  exact ⟨z, hz, Nat.le_trans hyz hxy⟩

/-- A class in front of all of the second note's makes the second note at most as good. -/
theorem AtMost.total (h : ¬ AtMost lineage a b) : AtMost lineage b a := by
  simp only [AtMost, not_forall, not_exists, not_and, Nat.not_le] at h
  obtain ⟨x, hx, hfront⟩ := h
  exact fun y hy => ⟨x, hx, Nat.le_of_lt (hfront y hy)⟩

/-- Whether a note fits can be told by going through its classes. -/
theorem applies_iff : applies lineage n = true ↔ Fits lineage n := by
  simp [applies, Fits]

/-- A class that stands once in a lineage is found at its place. -/
theorem place?_eq (hd : lineage.Nodup) {name : String} (h : name ∈ lineage) :
    place? lineage name = some (lineage.idxOf name) := by
  have hmem : ∃ x ∈ lineage.reverse, (x == name) = true :=
    ⟨name, List.mem_reverse.2 h, beq_self_eq_true name⟩
  have hsome : (lineage.reverse.findIdx? (· == name)).isSome = true :=
    List.findIdx?_isSome.trans (List.any_eq_true.2 hmem)
  obtain ⟨i, hi⟩ := Option.isSome_iff_exists.1 hsome
  obtain ⟨hlt, heq, -⟩ := List.findIdx?_eq_some_iff_getElem.1 hi
  rw [List.length_reverse] at hlt
  rw [List.getElem_reverse, beq_iff_eq] at heq
  rw [place?, hi, Option.map_some, ← heq, hd.idxOf_getElem]

/-- A class of the lineage has a place. -/
theorem place?_isSome {name : String} (h : name ∈ lineage) :
    (place? lineage name).isSome = true := by
  simp [place?, h]

/-- Notes that fit are compared as they are computed to be. -/
theorem atMost_iff (hd : lineage.Nodup) (ha : Fits lineage a) (hb : Fits lineage b) :
    atMost lineage a b = true ↔ AtMost lineage a b := by
  simp only [atMost, List.all_eq_true, List.any_eq_true]
  refine forall₂_congr fun x hx => exists_congr fun y => and_congr_right fun hy => ?_
  rw [place?_eq hd (ha.2 x hx), place?_eq hd (hb.2 y hy)]
  exact decide_eq_true_iff

/-! ## Looking up places

A place that is missing would make the computed comparison fail without a word. To show that this
never happens, the comparison is written once more with no answer in such a case, and it always has
one. -/

/--
Whether the first note is at most as good as the second; there is no answer if a class is looked up
that the lineage does not have.
-/
def compared? (lineage : List String) (a b : Note) : Option Bool :=
  a.classes.allM fun c => b.classes.anyM fun d => do
    let i ← place? lineage d
    let j ← place? lineage c
    return decide (i ≤ j)

/-- The better of two notes, where comparing them may have no answer. -/
def prefer? (lineage : List String) (found : Option Note) (n : Note) : Option (Option Note) :=
  if applies lineage n then
    match found with
    | none => some (some n)
    | some b => (compared? lineage b n).map fun better => if better then some n else found
  else some found

/-- Where every member has an answer, the first true one or all of them are found. -/
theorem anyM_eq_some {α : Type} {p : α → Option Bool} {q : α → Bool} {l : List α}
    (h : ∀ x ∈ l, p x = some (q x)) : l.anyM p = some (l.any q) := by
  induction l with
  | nil => rfl
  | cons x l ih =>
    rw [List.anyM, h x List.mem_cons_self, ih fun y hy => h y (List.mem_cons_of_mem _ hy)]
    cases hq : q x <;> simp [hq]

/-- Where every member has an answer, the first false one or all of them are found. -/
theorem allM_eq_some {α : Type} {p : α → Option Bool} {q : α → Bool} {l : List α}
    (h : ∀ x ∈ l, p x = some (q x)) : l.allM p = some (l.all q) := by
  have hnot : ∀ x ∈ l, (fun b => !b) <$> p x = some (!q x) := fun x hx => by
    rw [h x hx]
    rfl
  rw [List.allM_eq_not_anyM_not, anyM_eq_some hnot, List.all_eq_not_any_not]
  rfl

/-- Two notes that fit are always compared. -/
theorem compared?_eq (ha : Fits lineage a) (hb : Fits lineage b) :
    compared? lineage a b = some (atMost lineage a b) := by
  refine allM_eq_some fun x hx => anyM_eq_some fun y hy => ?_
  obtain ⟨i, hi⟩ := Option.isSome_iff_exists.1 (place?_isSome (hb.2 y hy))
  obtain ⟨j, hj⟩ := Option.isSome_iff_exists.1 (place?_isSome (ha.2 x hx))
  rw [hi, hj]
  rfl

/-- The best note so far fits. -/
theorem fits_of_prefer (hfound : ∀ b ∈ found, Fits lineage b) : ∀ b ∈ prefer lineage found n,
    Fits lineage b := by
  unfold prefer
  split
  · rename_i happ
    have hn : Fits lineage n := applies_iff.1 happ
    split
    · rintro _ ⟨⟩
      exact hn
    · split
      · rintro _ ⟨⟩
        exact hn
      · exact hfound
  · exact hfound

/-- The better of two notes is always found, as only notes that fit are compared. -/
theorem prefer?_eq (hfound : ∀ b ∈ found, Fits lineage b) :
    prefer? lineage found n = some (prefer lineage found n) := by
  unfold prefer? prefer
  by_cases happ : applies lineage n = true
  · rw [if_pos happ, if_pos happ]
    cases found with
    | none => rfl
    | some b =>
      dsimp only
      rw [compared?_eq (hfound b rfl) (applies_iff.1 happ), Option.map_some]
  · rw [if_neg happ, if_neg happ]

/-- No class is looked up that the lineage does not have. -/
theorem foldlM_prefer? (hfound : ∀ b ∈ found, Fits lineage b) (rs : List Note) :
    rs.foldlM (prefer? lineage) found = some (rs.foldl (prefer lineage) found) := by
  induction rs generalizing found with
  | nil => rfl
  | cons n rs ih =>
    rw [List.foldlM_cons, prefer?_eq hfound]
    exact ih (fits_of_prefer hfound)

/-! ## The last of the best

Of notes as good as each other the later one counts, since the one before gives way to it. -/

/--
The choice among notes: none if no note fits; else one that fits, to which all that fit compare as
at most as good, and behind which no other as good stands.
-/
def Chosen (lineage : List String) (rs : List Note) : Option Note → Prop
  | none => ∀ r ∈ rs, ¬ Fits lineage r
  | some r => Fits lineage r ∧ (∀ x ∈ rs, Fits lineage x → AtMost lineage x r) ∧
    ∃ front back, rs = front ++ r :: back ∧ ∀ x ∈ back, Fits lineage x → ¬ AtMost lineage r x

/-- A note that does not fit, or is not as good, leaves the choice as it was. -/
theorem Chosen.keep {r : Note} (h : Chosen lineage done (some r))
    (hn : Fits lineage n → ¬ AtMost lineage r n) : Chosen lineage (done ++ [n]) (some r) := by
  obtain ⟨hr, hall, front, back, rfl, hback⟩ := h
  refine ⟨hr, fun x hx hfit => ?_, front, back ++ [n], by simp, fun x hx hfit => ?_⟩
  · rcases List.mem_append.1 hx with hx | hx
    · exact hall x hx hfit
    · obtain rfl := List.mem_singleton.1 hx
      exact AtMost.total (hn hfit)
  · rcases List.mem_append.1 hx with hx | hx
    · exact hback x hx hfit
    · obtain rfl := List.mem_singleton.1 hx
      exact hn hfit

/-- A note that fits and is at least as good as all before is the new choice. -/
theorem chosen_append (hn : Fits lineage n)
    (hall : ∀ x ∈ done, Fits lineage x → AtMost lineage x n) :
    Chosen lineage (done ++ [n]) (some n) := by
  refine ⟨hn, fun x hx hfit => ?_, done, [], rfl, by simp⟩
  rcases List.mem_append.1 hx with hx | hx
  · exact hall x hx hfit
  · obtain rfl := List.mem_singleton.1 hx
    exact .refl lineage x

/-- One more note is seen: it is taken or passed over. -/
theorem Chosen.prefer (hd : lineage.Nodup) (h : Chosen lineage done found) (n : Note) :
    Chosen lineage (done ++ [n]) (prefer lineage found n) := by
  unfold Librarian.prefer
  split
  · rename_i happ
    have hn : Fits lineage n := applies_iff.1 happ
    cases found with
    | none => exact chosen_append hn fun x hx hfit => absurd hfit (h x hx)
    | some b =>
      dsimp only
      split
      · rename_i hle
        have hbn := (atMost_iff hd h.1 hn).1 hle
        exact chosen_append hn fun x hx hfit => (h.2.1 x hx hfit).trans hbn
      · rename_i hle
        exact h.keep fun _ hbn => hle ((atMost_iff hd h.1 hn).2 hbn)
  · rename_i happ
    have hn : ¬ Fits lineage n := fun hfit => happ (applies_iff.2 hfit)
    cases found with
    | none => exact List.forall_mem_append.2 ⟨h, by simpa using hn⟩
    | some b => exact h.keep fun hfit => absurd hfit hn

/-- All notes are seen in their order. -/
theorem Chosen.foldl (hd : lineage.Nodup) (h : Chosen lineage done found) (rs : List Note) :
    Chosen lineage (done ++ rs) (rs.foldl (Librarian.prefer lineage) found) := by
  induction rs generalizing done found with
  | nil => simpa using h
  | cons n rs ih => simpa using ih (h.prefer hd n)

/-! ## Asking the packages

Packages are loaded as they are asked, so what one answers may depend on those asked before. The
list of all answers takes the state along. -/

/-- The notes that packages answer to a query, each of them loaded when it is asked. -/
def answers (q : Query) : List String → Librarian → List Note
  | [], _ => []
  | package :: rest, l => (l.ask package q).1 ++ answers q rest (l.ask package q).2

/-- The best note is found among the answers of all packages. -/
theorem best_eq (q : Query) (packages : List String) (found : Option Note) (l : Librarian) :
    (best lineage q packages found l).1 =
      (answers q packages l).foldl (prefer lineage) found := by
  induction packages generalizing found l with
  | nil => rfl
  | cons package rest ih =>
    rw [best, answers, List.foldl_append]
    exact ih _ _

/-- For a class the choice is made among the answers of the packages in its lineage. -/
theorem resolve_chosen (l : Librarian) (type : RuntimeType) (q : Query) (hd : type.lineage.Nodup) :
    Chosen type.lineage (answers q (packages type.lineage) l) (l.resolve type q).1 := by
  have h : Chosen type.lineage [] none := by simp [Chosen]
  rw [resolve, best_eq]
  exact h.foldl hd _

/-- Notes on classes. -/
def objects : Query := [.equals "kind" (.str "object")]

/-- Notes on methods of a name. -/
def methods (name : String) : Query :=
  [.equals "kind" (.str "morphism"), .equals "method" (.str name)]

/-- A bound method is looked up among notes on methods, and then like any function. -/
theorem function_eq (l : Librarian) {f : Callee} {type : RuntimeType}
    (hf : f.boundType = some type) :
    (function f l).1 = (l.resolve type (methods f.name)).1.or
      (plainFunction f (l.resolve type (methods f.name)).2).1 := by
  rw [function, hf, methods]
  dsimp only
  obtain ⟨_ | n, l'⟩ := l.resolve type
    [.equals "kind" (.str "morphism"), .equals "method" (.str f.name)] <;> rfl

/--
For a class with a lineage of distinct names, and for a bound method among the notes on methods of
its name, the last of the best notes is taken that the packages of the lineage answer, and none just
if no note fits; without one a method is looked up like any function. On the way no class is looked
up that the lineage does not have.
-/
theorem answers_chosen (l : Librarian) (type : RuntimeType) (hd : type.lineage.Nodup) :
    Chosen type.lineage (answers objects (packages type.lineage) l) (object type l).1 ∧
    (∀ f : Callee, f.boundType = some type → ∃ best,
      Chosen type.lineage (answers (methods f.name) (packages type.lineage) l) best ∧
      (function f l).1 = best.or (plainFunction f (l.resolve type (methods f.name)).2).1) ∧
    ∀ q, (answers q (packages type.lineage) l).foldlM (prefer? type.lineage) none =
      some (l.resolve type q).1 := by
  refine ⟨resolve_chosen l type objects hd, fun f hf => ?_, fun q => ?_⟩
  · exact ⟨_, resolve_chosen l type (methods f.name) hd, function_eq l hf⟩
  · rw [foldlM_prefer? (by simp), resolve, best_eq]

/-! ## Two notes as good as each other

Both are on the class itself, so neither is better. -/

/-- A document of a note on one class. -/
def classDocument (id : String) : Json :=
  .obj [("language", .str "python"), ("package", .str "m"), ("id", .str id),
    ("kind", .str "object"), ("class", .str "m.C")]

/-- Two notes on one class, the second stored behind the first. -/
def tied : Librarian where
  database := { documents := [(⟨"python", "m", "first"⟩, classDocument "first"),
    (⟨"python", "m", "second"⟩, classDocument "second")] }
  language := "python"

/-- The note of such a document. -/
def classNote (id : String) : Note :=
  ⟨"python", "m", id, .object, none, none, ["m.C"], none, [], [], []⟩

/-- The class that the two notes are on. -/
def tiedClass : RuntimeType := ⟨"m", "C", []⟩

/-- The package of the class answers both notes, in their order. -/
theorem answers_tied : answers objects (packages tiedClass.lineage) tied =
    [classNote "first", classNote "second"] := rfl

/-- Of two notes as good as each other the one stored last is taken. -/
theorem object_tied : answers objects (packages tiedClass.lineage) tied =
      [classNote "first", classNote "second"] ∧
    Fits tiedClass.lineage (classNote "first") ∧
    AtMost tiedClass.lineage (classNote "second") (classNote "first") ∧
    (object tiedClass tied).1 = some (classNote "second") := by
  refine ⟨answers_tied, ⟨by decide, by decide⟩, ?_, rfl⟩
  simp [AtMost, classNote]

/-- The choice between the two is the one that is made. -/
theorem answers_chosen_tied : tiedClass.lineage.Nodup ∧
    Chosen tiedClass.lineage [classNote "first", classNote "second"] (object tiedClass tied).1 := by
  have hd : tiedClass.lineage.Nodup := by decide
  exact ⟨hd, answers_tied ▸ (answers_chosen tied tiedClass hd).1⟩

end ObjectFlow.Librarian
