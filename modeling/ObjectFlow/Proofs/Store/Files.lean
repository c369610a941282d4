import Mathlib.Data.List.Lex
import ObjectFlow.Proofs.Table
import ObjectFlow.Proofs.Text
import ObjectFlow.Store.Files

/-!
# Files below a directory

The files below a directory are told by the names on the way to them (`Files.trails`). Where all of
them belong to one package, they are those below the directory of the package and then the file with
its name (`Files.pathsBelow_sole`).

## Outline

Paths are texts, and what is known of them is known of the entries to which they lead. The way from
the one to the other goes over lists of names:

1. Below an entry, the paths of files are made from the names on the way by joining these to the
   path of the entry (`below_eq_map_trails`). What follows is said of trails only.
2. Where every trail begins with one of two names, the directory has files behind these two entries
   only, and they come in the order of the names (`trails_directory`). By induction along the path
   of a package this leaves the directory of the package and the file with its name (`trails_sole`).
   The directory comes first, since a name precedes any longer one that begins with it.
3. A path of plain names leads to the entry to which the names lead one by one (`find?_join`), and
   different trails have different paths (`foldl_join_injective`). So a file that has the path of a
   package's file has its trail (`belongs_of_mem`).

With all three, the two ways to list the files of a package are compared by their trails.
-/

namespace ObjectFlow

/-! ## Entries by their names

In a directory that comes from a file system no two entries have one name, and no name is empty or
has a separator in it. Mounting keeps it so. -/

namespace Entry

/-- The names in a directory are distinct, and a path can be made of them. -/
inductive Proper : Entry → Prop where
  | file (text : String) : Proper (.file text)
  | directory {entries : List (String × Entry)} : (Table.keys entries).Nodup →
    (∀ m ∈ entries, m.1 ≠ "" ∧ '/' ∉ m.1.toList) → (∀ m ∈ entries, m.2.Proper) →
      Proper (.directory entries)

/-- The entry to which names lead. -/
def descend (e : Entry) : List String → Option Entry
  | [] => some e
  | name :: rest => (e.child? name).bind fun c => c.descend rest

/-- Whether the entry is a file. -/
def isFile : Entry → Bool
  | .file _ => true
  | .directory _ => false

/-- What is in a proper directory is proper. -/
theorem Proper.child? {e c : Entry} (h : e.Proper) {name : String} (hc : e.child? name = some c) :
    c.Proper := by
  cases h with
  | file text => cases hc
  | directory _ _ hall => exact hall _ (Table.mem_of_at? hc)

/-- What is below a proper directory is proper. -/
theorem Proper.descend {e c : Entry} (h : e.Proper) {names : List String}
    (hc : e.descend names = some c) : c.Proper := by
  induction names generalizing e with
  | nil => exact Option.some.inj hc ▸ h
  | cons name names ih =>
    obtain ⟨child, hchild, hc⟩ := Option.bind_eq_some_iff.1 hc
    exact ih (h.child? hchild) hc

/-- A proper entry may be placed in a proper one, under names of which a path can be made. -/
theorem Proper.place {new e : Entry} (hnew : new.Proper) (h : e.Proper) {names : List String}
    (hnames : ∀ name ∈ names, name ≠ "" ∧ '/' ∉ name.toList) : (place new names e).Proper := by
  induction names generalizing e with
  | nil => exact hnew
  | cons name names ih =>
    rw [List.forall_mem_cons] at hnames
    have hplaced : ∀ es, (Entry.directory es).Proper → (Entry.directory (Table.put es name
        (new.place names ((Table.at? es name).getD (.directory []))))).Proper := by
      rintro es (_ | ⟨hd, hes, hall⟩)
      have hold : ((Table.at? es name).getD (.directory [])).Proper := by
        cases hat : Table.at? es name with
        | none => exact .directory List.nodup_nil (fun _ hm => nomatch hm) fun _ hm => nomatch hm
        | some old => exact hall _ (Table.mem_of_at? hat)
      refine .directory (Table.nodup_keys_put hd _ _) (fun m hm => ?_) fun m hm => ?_
      · rcases Table.mem_put hm with hm | rfl
        · exact hes m hm
        · exact hnames.1
      · rcases Table.mem_put hm with hm | rfl
        · exact hall m hm
        · exact ih hold hnames.2
    cases e with
    | file text =>
      exact hplaced [] (.directory List.nodup_nil (fun _ hm => nomatch hm) fun _ hm => nomatch hm)
    | directory es => exact hplaced es h

end Entry

/-- Taking back names adds none. -/
theorem Path.mem_of_mem_normal {name : String} {names : List String} (h : name ∈ normal names) :
    name ∈ names := by
  induction names using List.reverseRecOn with
  | nil => cases h
  | append_singleton names n ih =>
    rw [normal, List.foldl_append, List.foldl_cons, List.foldl_nil] at h
    split at h
    · exact List.mem_append_left _ (ih (List.dropLast_subset _ h))
    · exact List.mem_append.2 ((List.mem_append.1 h).imp_left ih)

namespace Files

open Entry

/-- Whatever is mounted, the names in a directory stay distinct. -/
theorem proper_mount {f : Files} (hroot : f.root.Proper)
    (hhere : ∀ name ∈ f.here, name ≠ "" ∧ '/' ∉ name.toList) {new : Entry} (hnew : new.Proper)
    (path : String) : (f.mount path new).root.Proper := by
  refine hnew.place hroot fun name hname => ?_
  rcases List.mem_append.1 (Path.mem_of_mem_normal hname) with hstart | hnames
  · split at hstart
    · cases hstart
    · exact hhere name hstart
  · obtain ⟨hsplit, hne⟩ := List.mem_filter.1 hnames
    rw [Bool.and_eq_true, decide_eq_true_iff] at hne
    exact ⟨hne.1, Text.not_mem_of_mem_split hsplit⟩

/-! ## Sorted entries

Entries are listed in the order of their names, whatever comes from them. So it does not matter
whether they are sorted before or after that. -/

section Sorted

variable {α β : Type}

/-- Sorting loses no entry and adds none. -/
theorem sorted_perm (es : List (String × α)) : (sorted es).Perm es := List.mergeSort_perm es _

theorem mem_sorted {es : List (String × α)} {e : String × α} : e ∈ sorted es ↔ e ∈ es :=
  (sorted_perm es).mem_iff

/-- What comes of entries may be taken before they are sorted or after. -/
theorem sorted_map (f : String → α → β) (es : List (String × α)) :
    sorted (es.map fun e => (e.1, f e.1 e.2)) = (sorted es).map fun e => (e.1, f e.1 e.2) :=
  (List.map_mergeSort (f := fun e : String × α => (e.1, f e.1 e.2)) fun _ _ _ _ => rfl).symm

/-- What is in order already stays as it is. -/
theorem sorted_of_pairwise {es : List (String × α)}
    (h : es.Pairwise fun a b => (!Text.precedes b.1.toList a.1.toList) = true) : sorted es = es :=
  List.mergeSort_of_pairwise h

@[simp] theorem sorted_singleton (e : String × α) : sorted [e] = [e] :=
  sorted_of_pairwise (List.pairwise_singleton _ e)

/-- Of two sorted entries the later does not have the smaller name. -/
theorem pairwise_sorted (es : List (String × α)) :
    (sorted es).Pairwise fun a b => Text.precedes b.1.toList a.1.toList = false := by
  have hle : ∀ a b : String × α, (!Text.precedes b.1.toList a.1.toList) = true ↔
      a.1.toList.map Char.toNat ≤ b.1.toList.map Char.toNat := by
    intro a b
    rw [Bool.not_eq_true', ← Bool.not_eq_true, Text.precedes_iff, not_lt]
  refine (List.pairwise_mergeSort (fun a b c => ?_) (fun a b => ?_) es).imp fun h => by
    simpa using h
  · rw [hle, hle, hle]
    exact le_trans
  · rw [Bool.or_eq_true, hle, hle]
    exact le_total _ _

/-- Where only two entries have anything in them, that of the smaller name comes first. -/
theorem flatten_sorted {es : List (String × List β)} (hd : (Table.keys es).Nodup) {a b : String}
    (hab : Text.precedes a.toList b.toList = true) (h : ∀ e ∈ es, e.1 ≠ a → e.1 ≠ b → e.2 = []) :
    ((sorted es).map Prod.snd).flatten =
      (Table.at? es a).getD [] ++ (Table.at? es b).getD [] := by
  have hdl : (Table.keys (sorted es)).Nodup := ((sorted_perm es).map Prod.fst).nodup_iff.2 hd
  have hat : ∀ k, Table.at? es k = Table.at? (sorted es) k := fun k => Option.ext fun v => by
    rw [Table.at?_eq_some_iff hd, Table.at?_eq_some_iff hdl, mem_sorted]
  have hne : a ≠ b := by
    rintro rfl
    rw [Text.precedes_iff] at hab
    exact lt_irrefl _ hab
  have hl : ∀ e ∈ sorted es, e.1 ≠ a → e.1 ≠ b → e.2 = [] := fun e he => h e (mem_sorted.1 he)
  rw [hat, hat]
  have hp := pairwise_sorted es
  generalize sorted es = l at hdl hl hp
  induction l with
  | nil => rfl
  | cons e l ih =>
    obtain ⟨k, v⟩ := e
    rw [Table.keys_cons, List.nodup_cons] at hdl
    rw [List.pairwise_cons] at hp
    rw [List.forall_mem_cons] at hl
    rw [List.map_cons, List.flatten_cons, ih hdl.2 hl.2 hp.2, Table.at?_cons, Table.at?_cons]
    by_cases hka : k = a
    · subst hka
      rw [Table.at?_eq_none_iff.2 hdl.1, if_pos rfl, if_neg hne]
      rfl
    · by_cases hkb : k = b
      · subst hkb
        have hna : a ∉ Table.keys l := by
          intro hm
          obtain ⟨w, hw⟩ := Table.mem_keys.1 hm
          rw [hp.1 _ hw] at hab
          cases hab
        rw [Table.at?_eq_none_iff.2 hdl.1, Table.at?_eq_none_iff.2 hna, if_pos rfl, if_neg hka]
        exact List.append_nil v
      · rw [if_neg hka, if_neg hkb, hl.1 hka hkb]
        rfl

end Sorted

/-! ## The names on the way to files

A trail begins below the entry and ends at the file, so a file has the empty trail from itself.
Directories are never files, even if their names have the extension. -/

mutual

/-- The names on the way to each file with an extension, from an entry that has a name itself. -/
def trails (extension name : String) : Entry → List (List String)
  | .file _ => if Path.extension? name = some extension then [[]] else []
  | .directory entries => ((sorted (trailsAll extension entries)).map Prod.snd).flatten

/-- The same for each entry of a directory, with its name in front. -/
def trailsAll (extension : String) : List (String × Entry) → List (String × List (List String))
  | [] => []
  | (name, e) :: rest =>
    (name, (trails extension name e).map (List.cons name)) :: trailsAll extension rest

end

/-- The entries of a directory are gone through one by one. -/
theorem trailsAll_eq_map (extension : String) (es : List (String × Entry)) :
    trailsAll extension es =
      es.map fun m => (m.1, (trails extension m.1 m.2).map (List.cons m.1)) := by
  induction es with
  | nil => rfl
  | cons m es ih => rw [trailsAll, ih, List.map_cons]

mutual

/-- The paths of files are the trails, joined name by name to the path of the entry. -/
theorem below_eq_map_trails (extension : String) : (path name : String) → (e : Entry) →
    below extension path name e = (trails extension name e).map (List.foldl Path.join path)
  | path, name, .file text => by
    rw [below, trails]
    split <;> rfl
  | path, name, .directory es => by
    rw [below, trails, belowAll_eq_map_trailsAll extension path es, List.map_flatten, List.map_map,
      sorted_map (fun _ => List.map (List.foldl Path.join path)), List.map_map]
    rfl

theorem belowAll_eq_map_trailsAll (extension path : String) : (es : List (String × Entry)) →
    belowAll extension path es = (trailsAll extension es).map fun t =>
      (t.1, t.2.map (List.foldl Path.join path))
  | [] => rfl
  | (name, e) :: rest => by
    rw [belowAll, trailsAll, below_eq_map_trails extension (Path.join path name) name e,
      belowAll_eq_map_trailsAll extension path rest, List.map_cons, List.map_map]
    rfl

end

/-- A trail from a directory goes through one of its entries. -/
theorem mem_trails_directory {extension name : String} {es : List (String × Entry)}
    {trail : List String} : trail ∈ trails extension name (.directory es) ↔
      ∃ m ∈ es, ∃ rest ∈ trails extension m.1 m.2, trail = m.1 :: rest := by
  rw [trails, List.mem_flatten, trailsAll_eq_map]
  constructor
  · rintro ⟨l, hl, htrail⟩
    obtain ⟨t, ht, rfl⟩ := List.mem_map.1 hl
    obtain ⟨m, hm, rfl⟩ := List.mem_map.1 (mem_sorted.1 ht)
    obtain ⟨rest, hrest, rfl⟩ := List.mem_map.1 htrail
    exact ⟨m, hm, rest, hrest, rfl⟩
  · rintro ⟨m, hm, rest, hrest, rfl⟩
    exact ⟨_, List.mem_map_of_mem (mem_sorted.2 (List.mem_map_of_mem hm)),
      List.mem_map_of_mem hrest⟩

/-- A trail from an entry is one from the directory, with the name in front. -/
theorem mem_trails_of_at? {extension name name' : String} {es : List (String × Entry)} {c : Entry}
    (hc : Table.at? es name' = some c) {rest : List String} (h : rest ∈ trails extension name' c) :
    name' :: rest ∈ trails extension name (.directory es) :=
  mem_trails_directory.2 ⟨_, Table.mem_of_at? hc, rest, h, rfl⟩

/-- No directory is a file. -/
theorem ne_nil_of_mem_trails {extension name : String} {es : List (String × Entry)}
    {trail : List String} (h : trail ∈ trails extension name (.directory es)) : trail ≠ [] := by
  obtain ⟨m, -, rest, -, rfl⟩ := mem_trails_directory.1 h
  exact List.cons_ne_nil _ _

/-- The trails through an entry are found under its name. -/
theorem at?_trailsAll (extension : String) (es : List (String × Entry)) (name : String) :
    Table.at? (trailsAll extension es) name =
      (Table.at? es name).map fun c => (trails extension name c).map (List.cons name) := by
  rw [trailsAll_eq_map]
  exact Table.at?_map (fun name c => (trails extension name c).map (List.cons name)) es name

/-- Of a directory whose files all stand behind two names only these two entries are left. -/
theorem trails_directory {name a b : String} {es : List (String × Entry)} {extension : String}
    (hd : (Table.keys es).Nodup) (hab : Text.precedes a.toList b.toList = true)
    (h : ∀ trail ∈ trails extension name (.directory es), ∃ rest,
      trail = a :: rest ∨ trail = b :: rest) :
    trails extension name (.directory es) =
      ((Table.at? es a).elim [] fun c => (trails extension a c).map (List.cons a)) ++
        (Table.at? es b).elim [] fun c => (trails extension b c).map (List.cons b) := by
  have hkeys : Table.keys (trailsAll extension es) = Table.keys es := by
    rw [trailsAll_eq_map, Table.keys, List.map_map]
    rfl
  rw [trails, flatten_sorted (hkeys ▸ hd) hab, at?_trailsAll, at?_trailsAll]
  · cases Table.at? es a <;> cases Table.at? es b <;> rfl
  · intro t ht hta htb
    rw [trailsAll_eq_map] at ht
    obtain ⟨m, hm, rfl⟩ := List.mem_map.1 ht
    refine List.eq_nil_iff_forall_not_mem.2 fun trail htrail => ?_
    obtain ⟨rest, hrest, rfl⟩ := List.mem_map.1 htrail
    obtain ⟨rest', heq | heq⟩ := h _ (mem_trails_directory.2 ⟨m, hm, rest, hrest, rfl⟩)
    · exact hta (List.cons.inj heq).1
    · exact htb (List.cons.inj heq).1

/-- A trail from a file ends where it begins. -/
theorem eq_nil_of_mem_trails {extension name text : String} {trail : List String}
    (h : trail ∈ trails extension name (.file text)) : trail = [] := by
  rw [trails] at h
  split at h
  · exact List.mem_singleton.1 h
  · cases h

/-- The name of a package's file has the extension. -/
theorem extension?_append {name : String} (h : name ≠ "") :
    Path.extension? (name ++ ".json") = some "json" := by
  have hsplit : Text.split '.' (name ++ ".json") = Text.split '.' name ++ ["json"] :=
    Text.split_eq_append (b := "json") (by simp)
  rw [Path.extension?, hsplit, List.reverse_append]
  cases hrev : (Text.split '.' name).reverse with
  | nil => exact absurd (List.reverse_eq_nil_iff.1 hrev) (Text.split_ne_nil _ _)
  | cons before rest =>
    refine if_neg fun hempty => h (Text.split_injective '.' ?_)
    rw [Bool.and_eq_true, String.isEmpty_iff, List.isEmpty_iff] at hempty
    obtain ⟨rfl, rfl⟩ := hempty
    exact List.reverse_eq_iff.1 hrev

/-- The names of the files below a directory, from where it stands. -/
def inside (extension : String) : Option Entry → List (List String)
  | some (.directory es) => trails extension "" (.directory es)
  | _ => []

/-- No name leads on from a file. -/
theorem descend_file {text : String} {names : List String} (h : names ≠ []) :
    (Entry.file text).descend names = none := by
  cases names with
  | nil => exact absurd rfl h
  | cons name names => rfl

/-- The first name leads to an entry of the directory, and the others go on from there. -/
theorem descend_directory (es : List (String × Entry)) (name : String) (names : List String) :
    (Entry.directory es).descend (name :: names) =
      (Table.at? es name).bind fun c => c.descend names := rfl

/-- The name of a package precedes that of its file. -/
theorem precedes_json (name : String) :
    Text.precedes name.toList (name ++ ".json").toList = true := by
  rw [String.toList_append]
  exact Text.precedes_append _ (by simp)

/-- The two are different names. -/
theorem ne_append_json (name : String) : name ≠ name ++ ".json" := by
  intro heq
  have h := precedes_json name
  rw [← heq, Text.precedes_iff] at h
  exact lt_irrefl _ h

/-- Whether the trails are those of one package: its file, or files below its directory. -/
def Belongs (init : List String) (last : String) (trail : List String) : Prop :=
  trail = init ++ [last ++ ".json"] ∨ ∃ rest, rest ≠ [] ∧ trail = init ++ last :: rest

/-- The trails of a package, as they come below a directory. -/
def soleTrails (e : Entry) (init : List String) (last : String) : List (List String) :=
  (inside "json" (e.descend (init ++ [last]))).map (init ++ last :: ·) ++
    if (e.descend (init ++ [last ++ ".json"])).any Entry.isFile then
      [init ++ [last ++ ".json"]] else []

section Sole

variable {last name : String} {es : List (String × Entry)}

/-- The directory with the name of a package comes before the file with that name. -/
theorem trails_sole_nil (hd : (Table.keys es).Nodup) (hlast : last ≠ "")
    (hsole : ∀ trail ∈ trails "json" name (.directory es), Belongs [] last trail) :
    trails "json" name (.directory es) = soleTrails (.directory es) [] last := by
  rw [trails_directory hd (precedes_json last) fun trail htrail => ?_, soleTrails,
    List.nil_append, List.nil_append, descend_directory, descend_directory]
  · congr 1
    · cases hc : Table.at? es last with
      | none => rfl
      | some c =>
        cases c with
        | directory es' => rfl
        | file text =>
          show (trails "json" last (.file text)).map _ = []
          rw [List.map_eq_nil_iff, List.eq_nil_iff_forall_not_mem]
          intro trail htrail
          obtain rfl := eq_nil_of_mem_trails htrail
          obtain heq | ⟨rest, hrest, heq⟩ := hsole _ (mem_trails_of_at? hc htrail)
          · exact ne_append_json last (List.cons.inj heq).1
          · exact hrest (List.cons.inj heq).2.symm
    · cases hc : Table.at? es (last ++ ".json") with
      | none => rfl
      | some c =>
        cases c with
        | file text =>
          show (trails "json" (last ++ ".json") (.file text)).map _ = [[last ++ ".json"]]
          rw [trails, if_pos (extension?_append hlast)]
          rfl
        | directory es' =>
          show (trails "json" (last ++ ".json") (.directory es')).map _ = []
          rw [List.map_eq_nil_iff, List.eq_nil_iff_forall_not_mem]
          intro trail htrail
          obtain heq | ⟨rest, hrest, heq⟩ := hsole _ (mem_trails_of_at? hc htrail)
          · exact ne_nil_of_mem_trails htrail (List.cons.inj heq).2
          · exact ne_append_json last (List.cons.inj heq).1.symm
  · rcases hsole trail htrail with rfl | ⟨rest, -, rfl⟩
    · exact ⟨[], .inr rfl⟩
    · exact ⟨rest, .inl rfl⟩

/-- On the way to a package there is only one directory. -/
theorem trails_sole_cons {n : String} {init : List String} (hd : (Table.keys es).Nodup)
    (hsole : ∀ trail ∈ trails "json" name (.directory es), Belongs (n :: init) last trail) :
    trails "json" name (.directory es) =
      (Table.at? es n).elim [] fun c => (trails "json" n c).map (List.cons n) := by
  have hbehind : ∀ trail ∈ trails "json" name (.directory es), ∃ rest, trail = n :: rest := by
    intro trail htrail
    rcases hsole trail htrail with rfl | ⟨rest, -, rfl⟩ <;> exact ⟨_, rfl⟩
  rw [trails_directory hd (precedes_json n) fun trail htrail =>
    (hbehind trail htrail).imp fun rest hrest => .inl hrest, List.append_right_eq_self]
  cases hc : Table.at? es (n ++ ".json") with
  | none => rfl
  | some c =>
    rw [Option.elim_some, List.map_eq_nil_iff, List.eq_nil_iff_forall_not_mem]
    intro trail htrail
    obtain ⟨rest, heq⟩ := hbehind _ (mem_trails_of_at? hc htrail)
    exact ne_append_json n (List.cons.inj heq).1.symm

/-- The trails of a package are those that are left in the directory, at whatever depth the package
is. -/
theorem trails_sole {init : List String} (h : (Entry.directory es).Proper) (hlast : last ≠ "")
    (hsole : ∀ trail ∈ trails "json" name (.directory es), Belongs init last trail) :
    trails "json" name (.directory es) = soleTrails (.directory es) init last := by
  induction init generalizing name es with
  | nil =>
    cases h with
    | directory hd => exact trails_sole_nil hd hlast hsole
  | cons n init ih =>
    cases h with
    | directory hd _ hall =>
    rw [trails_sole_cons hd hsole, soleTrails, List.cons_append, List.cons_append,
      descend_directory, descend_directory]
    cases hc : Table.at? es n with
    | none => rfl
    | some c =>
      have hinner : ∀ trail ∈ trails "json" n c, Belongs init last trail := by
        intro trail htrail
        obtain heq | ⟨rest, hrest, heq⟩ := hsole _ (mem_trails_of_at? hc htrail)
        · exact .inl (List.cons.inj heq).2
        · exact .inr ⟨rest, hrest, (List.cons.inj heq).2⟩
      rw [Option.elim_some, Option.bind_some, Option.bind_some]
      cases c with
      | directory es' =>
        rw [ih (hall _ (Table.mem_of_at? hc)) hinner, soleTrails, List.map_append, List.map_map]
        split <;> rfl
      | file text =>
        rw [descend_file (by simp), descend_file (by simp)]
        refine List.map_eq_nil_iff.2 (List.eq_nil_iff_forall_not_mem.2 fun trail htrail => ?_)
        obtain rfl := eq_nil_of_mem_trails htrail
        obtain heq | ⟨rest, -, heq⟩ := hinner _ htrail <;> simp at heq

end Sole

end Files

/-! ## Paths by their names

A directory may be given with a separator at its end or without. Its names (`trunk`) are the same
either way, and so are the paths that are joined to it. -/

namespace Path

/-- Every name on a path leads to an entry of the directory before. -/
def Plain (path : String) : Prop :=
  ∀ name ∈ Text.split '/' path, name ≠ "" ∧ name ≠ "." ∧ name ≠ ".."

/-- No name of a plain path is empty. -/
theorem Plain.proper {path : String} (h : Plain path) : "" ∉ Text.split '/' path :=
  fun hmem => (h "" hmem).1 rfl

/-- The names on a path to a directory, a separator at its end apart. -/
def trunk (dir : String) : List String :=
  if dir.isEmpty || dir.toList.getLast? == some '/' then (Text.split '/' dir).dropLast
  else Text.split '/' dir

/-- A path without empty names does not start at the root. -/
theorem head?_of_split {path : String} (h : "" ∉ Text.split '/' path) :
    (path.toList.head? == some '/') = false := by
  rw [beq_eq_false_iff_ne]
  intro hhead
  obtain ⟨rest, hrest⟩ := List.head?_eq_some_iff.1 hhead
  refine h ?_
  rw [Text.split_eq_append (a := "") (b := String.ofList rest) (by simpa using hrest)]
  exact List.mem_cons_self

/-- A separator at the end of a path is followed by an empty name. -/
theorem split_of_getLast? {dir : String} (h : dir.toList.getLast? = some '/') :
    ∃ init, dir = init ++ "/" ∧ Text.split '/' dir = Text.split '/' init ++ [""] := by
  obtain ⟨init, hinit⟩ := List.getLast?_eq_some_iff.1 h
  refine ⟨String.ofList init, String.toList_injective (by simpa using hinit), ?_⟩
  rw [Text.split_eq_append (a := String.ofList init) (b := "") (by simpa using hinit)]
  rfl

/-- A separator at the end of a path has no name behind it. -/
theorem split_eq_trunk (dir : String) :
    Text.split '/' dir = trunk dir ∨ Text.split '/' dir = trunk dir ++ [""] := by
  rw [trunk]
  split
  · rename_i hends
    refine .inr ?_
    rw [Bool.or_eq_true, String.isEmpty_iff, beq_iff_eq] at hends
    rcases hends with rfl | hlast
    · rfl
    · obtain ⟨init, -, hsplit⟩ := split_of_getLast? hlast
      rw [hsplit, List.dropLast_concat]
  · exact .inl rfl

section Join

variable (dir : String) {path : String} (h : "" ∉ Text.split '/' path)
include h

/-- A joined path has the names of both parts. -/
theorem split_join : Text.split '/' (join dir path) = trunk dir ++ Text.split '/' path := by
  rw [join, head?_of_split h, trunk, if_neg Bool.false_ne_true]
  split
  · rename_i hends
    rw [Bool.or_eq_true, String.isEmpty_iff, beq_iff_eq] at hends
    rcases hends with rfl | hlast
    · simp [Text.split, Text.pieces]
    · obtain ⟨init, rfl, hsplit⟩ := split_of_getLast? hlast
      rw [hsplit, List.dropLast_concat,
        Text.split_eq_append (s := init ++ "/" ++ path) (a := init) (b := path) (by simp)]
  · rw [Text.split_eq_append (s := dir ++ "/" ++ path) (a := dir) (b := path) (by simp)]

/-- A joined path has no separator at its end. -/
theorem trunk_join : trunk (join dir path) = Text.split '/' (join dir path) := by
  obtain heq | heq := split_eq_trunk (join dir path)
  · exact heq.symm
  · have hlast := congrArg List.getLast? heq
    rw [split_join dir h, List.getLast?_append_of_ne_nil _ (Text.split_ne_nil _ _),
      List.getLast?_concat] at hlast
    exact absurd (List.mem_of_getLast? hlast) h

/-- Whether a path starts at the root is told by the directory. -/
theorem head?_join :
    ((join dir path).toList.head? == some '/') = (dir.toList.head? == some '/') := by
  rw [join, head?_of_split h, if_neg Bool.false_ne_true]
  cases hdir : dir.toList with
  | nil =>
    rw [String.toList_eq_nil_iff.1 hdir]
    exact (congrArg (fun cs : List Char => cs.head? == some '/') String.toList_append).trans
      (head?_of_split h)
  | cons c cs => split <;> simp [hdir]

end Join

section Names

variable {names : List String} (h : ∀ name ∈ names, name ≠ "" ∧ '/' ∉ name.toList)
include h

/-- Names may be joined one after the other. -/
theorem trunk_foldl_join (dir : String) : trunk (names.foldl join dir) = trunk dir ++ names ∧
    (names ≠ [] → Text.split '/' (names.foldl join dir) = trunk dir ++ names) := by
  induction names using List.reverseRecOn with
  | nil => simp
  | append_singleton names name ih =>
    obtain ⟨hne, hslash⟩ := h name (List.mem_append_right _ List.mem_cons_self)
    have hsplit := Text.split_of_not_mem hslash
    have hname : "" ∉ Text.split '/' name := by simpa [hsplit] using hne.symm
    rw [List.foldl_append, List.foldl_cons, List.foldl_nil, trunk_join _ hname, split_join _ hname,
      (ih fun n hn => h n (List.mem_append_left _ hn)).1, hsplit, List.append_assoc]
    exact ⟨rfl, fun _ => rfl⟩

/-- Joined to a directory, names are read back. -/
theorem split_foldl_join (dir : String) (hne : names ≠ []) :
    Text.split '/' (names.foldl join dir) = trunk dir ++ names := (trunk_foldl_join h dir).2 hne

end Names

/-- Different names make different paths. -/
theorem foldl_join_injective {names names' : List String} {dir : String}
    (h : ∀ name ∈ names, name ≠ "" ∧ '/' ∉ name.toList) (hne : names ≠ [])
    (h' : ∀ name ∈ names', name ≠ "" ∧ '/' ∉ name.toList) (hne' : names' ≠ [])
    (heq : names.foldl join dir = names'.foldl join dir) : names = names' := by
  have hsplit := congrArg (Text.split '/') heq
  rw [split_foldl_join h dir hne, split_foldl_join h' dir hne'] at hsplit
  exact List.append_cancel_left hsplit

/-- A path is joined name by name. -/
theorem join_eq_foldl (dir : String) {path : String} (h : "" ∉ Text.split '/' path) :
    join dir path = (Text.split '/' path).foldl join dir := by
  refine Text.split_injective '/' ?_
  rw [split_join dir h, split_foldl_join (fun name hname => ?_) dir (Text.split_ne_nil _ _)]
  exact ⟨fun heq => h (heq ▸ hname), Text.not_mem_of_mem_split hname⟩

end Path

namespace Files

/-! ## Finding entries

Where a path leads is found from the root or from the current directory, and all directories on the
way are kept so that two points can lead back. For plain names nobody looks back. -/

/-- Where a path starts. -/
def start (f : Files) (path : String) : Option (List Entry) :=
  if path.toList.head? == some '/' then some [f.root] else follow [f.root] f.here

/-- A path is followed from its start, and what it names stands in front of its trail. -/
theorem find?_eq (f : Files) (path : String) : f.find? path =
    (f.start path).bind fun s => (follow s (Text.split '/' path)).bind List.head? := by
  rw [find?, start]
  split <;> rfl

/-- A plain name leads to the entry of that name. -/
theorem enter_plain {e : Entry} {above : List Entry} {name : String}
    (h : name ≠ "" ∧ name ≠ "." ∧ name ≠ "..") :
    enter (e :: above) name = (e.child? name).map fun c => c :: e :: above := by
  obtain ⟨h₁, h₂, h₃⟩ := h
  cases e with
  | file text => rfl
  | directory es => simp [enter, Entry.isDirectory, h₁, h₂, h₃]

/-- Plain names lead down one by one. -/
theorem head?_follow {e : Entry} {above : List Entry} {names : List String}
    (h : ∀ name ∈ names, name ≠ "" ∧ name ≠ "." ∧ name ≠ "..") :
    (follow (e :: above) names).bind List.head? = e.descend names := by
  induction names generalizing e above with
  | nil => rfl
  | cons name names ih =>
    rw [List.forall_mem_cons] at h
    rw [follow, List.foldlM_cons, enter_plain h.1, Entry.descend]
    cases e.child? name with
    | none => rfl
    | some c => exact ih h.2

/-- The directory is where its names lead, without the separator at the end of its path. -/
theorem follow_trunk {f : Files} {dir : String} {e : Entry} (h : f.find? dir = some e) :
    ∃ s above, f.start dir = some s ∧ follow s (Path.trunk dir) = some (e :: above) := by
  rw [find?_eq, Option.bind_eq_some_iff] at h
  obtain ⟨s, hs, h⟩ := h
  obtain ⟨trail, htrail, hhead⟩ := Option.bind_eq_some_iff.1 h
  obtain ⟨above, rfl⟩ := List.head?_eq_some_iff.1 hhead
  refine ⟨s, above, hs, ?_⟩
  obtain heq | heq := Path.split_eq_trunk dir
  · rw [← heq, htrail]
  · rw [heq, follow, List.foldlM_append] at htrail
    obtain ⟨trail', htrail', hlast⟩ := Option.bind_eq_some_iff.1 htrail
    refine htrail'.trans (congrArg some ?_)
    cases trail' with
    | nil => cases hlast
    | cons e' above' =>
      obtain ⟨t, ht, hnil⟩ := Option.bind_eq_some_iff.1 hlast
      cases hnil
      rw [enter] at ht
      split at ht
      · cases ht
      · exact Option.some.inj ht

/-- A plain path behind a directory leads down from the directory. -/
theorem find?_join {f : Files} {dir path : String} {e : Entry} (hpath : Path.Plain path)
    (h : f.find? dir = some e) :
    f.find? (Path.join dir path) = e.descend (Text.split '/' path) := by
  obtain ⟨s, above, hs, hfollow⟩ := follow_trunk h
  have hstart : f.start (Path.join dir path) = some s := by
    rw [start, Path.head?_join dir hpath.proper]
    exact hs
  rw [find?_eq, hstart, Option.bind_some, Path.split_join dir hpath.proper, follow,
    List.foldlM_append]
  show ((follow s (Path.trunk dir)).bind fun t => follow t _).bind _ = _
  rw [hfollow, Option.bind_some, head?_follow hpath]

/-- A step of a path does not leave the tree. -/
theorem proper_of_enter {trail trail' : List Entry} {name : String} (h : ∀ e ∈ trail, e.Proper)
    (henter : enter trail name = some trail') : ∀ e ∈ trail', e.Proper := by
  cases trail with
  | nil => cases henter
  | cons e above =>
    rw [List.forall_mem_cons] at h
    rw [enter] at henter
    split at henter
    · cases henter
    · split at henter
      · cases henter
        exact List.forall_mem_cons.2 h
      · split at henter
        · cases henter
          split
          · simpa using h.1
          · exact h.2
        · obtain ⟨c, hc, rfl⟩ := Option.map_eq_some_iff.1 henter
          exact List.forall_mem_cons.2 ⟨h.1.child? hc, List.forall_mem_cons.2 h⟩

/-- A whole path does not leave the tree. -/
theorem proper_of_follow {trail trail' : List Entry} {names : List String}
    (h : ∀ e ∈ trail, e.Proper) (hfollow : follow trail names = some trail') :
    ∀ e ∈ trail', e.Proper := by
  induction names generalizing trail with
  | nil =>
    cases hfollow
    exact h
  | cons name names ih =>
    rw [follow, List.foldlM_cons] at hfollow
    obtain ⟨next, hnext, hfollow⟩ := Option.bind_eq_some_iff.1 hfollow
    exact ih (proper_of_enter h hnext) hfollow

/-- Whatever a path names in a proper tree is proper. -/
theorem proper_of_find? {f : Files} (h : f.root.Proper) {path : String} {e : Entry}
    (he : f.find? path = some e) : e.Proper := by
  rw [find?_eq, Option.bind_eq_some_iff] at he
  obtain ⟨s, hs, he⟩ := he
  obtain ⟨trail, htrail, hhead⟩ := Option.bind_eq_some_iff.1 he
  have hroot : ∀ e ∈ [f.root], e.Proper := by simpa using h
  have hstart : ∀ e ∈ s, e.Proper := by
    rw [start] at hs
    split at hs
    · cases hs
      exact hroot
    · exact proper_of_follow hroot hs
  exact proper_of_follow hstart htrail e (List.mem_of_head? hhead)

/-! ## One package

A package may have a name with separators in it, and then its file and its directory lie deeper. Its
path is split into the names on the way (`init`) and the last one. -/

/-- A path is that of a file if it leads to one. -/
theorem isFile_eq (f : Files) (path : String) :
    f.isFile path = (f.find? path).any Entry.isFile := by
  rw [isFile, text?]
  cases f.find? path with
  | none => rfl
  | some e => cases e <;> rfl

/-- The paths below a directory are its trails, joined to its own path. -/
theorem pathsBelow_eq (f : Files) (extension path : String) : f.pathsBelow extension path =
    (inside extension (f.find? path)).map (List.foldl Path.join path) := by
  rw [pathsBelow]
  cases f.find? path with
  | none => rfl
  | some e =>
    cases e with
    | file text => rfl
    | directory es => exact below_eq_map_trails extension path "" (.directory es)

/-- The names of a trail are names in a proper directory. -/
theorem proper_of_mem_trails {extension name : String} {e : Entry} (h : e.Proper)
    {trail : List String} (htrail : trail ∈ trails extension name e) :
    ∀ n ∈ trail, n ≠ "" ∧ '/' ∉ n.toList := by
  induction trail generalizing name e with
  | nil => exact fun n hn => nomatch hn
  | cons n rest ih =>
    cases h with
    | file text => cases eq_nil_of_mem_trails htrail
    | directory _ hnames hall =>
      obtain ⟨m, hm, rest', hrest, heq⟩ := mem_trails_directory.1 htrail
      cases heq
      exact List.forall_mem_cons.2 ⟨hnames m hm, ih (hall m hm) hrest⟩

/-- There are trails inside of directories only. -/
theorem mem_inside {extension : String} {o : Option Entry} {trail : List String}
    (h : trail ∈ inside extension o) :
    ∃ es, o = some (.directory es) ∧ trail ∈ trails extension "" (.directory es) := by
  cases o with
  | none => cases h
  | some e =>
    cases e with
    | file text => cases h
    | directory es => exact ⟨es, rfl, h⟩

/-- The file with the name of a package in a directory, if there is one. -/
def packageFile (f : Files) (dir package : String) : List String :=
  if f.isFile (Path.join dir (package ++ ".json")) then [Path.join dir (package ++ ".json")] else []

/-- The files below the directory with the name of a package. -/
def packageDirectory (f : Files) (dir package : String) : List String :=
  f.pathsBelow "json" (Path.join dir package)

section Package

variable {f : Files} {e : Entry} {dir package last : String} {init : List String}
  (hdir : f.find? dir = some e) (hpackage : Path.Plain package)
  (hsplit : Text.split '/' package = init ++ [last])
  (hfile : Text.split '/' (package ++ ".json") = init ++ [last ++ ".json"])
include hpackage hsplit

/-- The path of a package's file is as plain as its names. -/
theorem plain_append_json
    (hfile : Text.split '/' (package ++ ".json") = init ++ [last ++ ".json"]) :
    Path.Plain (package ++ ".json") := by
  have hlong : ∀ short : String, short.length < 5 → last ++ ".json" ≠ short := by
    rintro _ hshort rfl
    rw [String.length_append, show ".json".length = 5 from rfl] at hshort
    omega
  intro name hname
  rw [hfile, List.mem_append, List.mem_singleton] at hname
  rcases hname with hinit | rfl
  · exact hpackage name (hsplit ▸ List.mem_append_left _ hinit)
  · exact ⟨hlong _ (by decide), hlong _ (by decide), hlong _ (by decide)⟩

include hdir

/-- The files below the directory of a package, by their trails. -/
theorem packageDirectory_eq : f.packageDirectory dir package =
    ((inside "json" (e.descend (init ++ [last]))).map (init ++ last :: ·)).map
      (List.foldl Path.join dir) := by
  rw [packageDirectory, pathsBelow_eq, find?_join hpackage hdir, hsplit, List.map_map,
    Path.join_eq_foldl dir hpackage.proper, hsplit]
  refine List.map_congr_left fun rest _ => ?_
  rw [Function.comp_apply, ← List.foldl_append, List.append_assoc]
  rfl

include hfile

/-- The file with the name of a package, by its trail. -/
theorem packageFile_eq : f.packageFile dir package =
    (if (e.descend (init ++ [last ++ ".json"])).any Entry.isFile then
      [init ++ [last ++ ".json"]] else []).map (List.foldl Path.join dir) := by
  have hplain := plain_append_json hpackage hsplit hfile
  rw [packageFile, isFile_eq, find?_join hplain hdir, hfile,
    Path.join_eq_foldl dir hplain.proper, hfile]
  split <;> rfl

/-- The trail of a file of a package is told by the file's path. -/
theorem belongs_of_mem {trail : List String} (he : e.Proper)
    (htrail : ∀ n ∈ trail, n ≠ "" ∧ '/' ∉ n.toList) (hne : trail ≠ [])
    (h : trail.foldl Path.join dir ∈ f.packageFile dir package ++ f.packageDirectory dir package) :
    Belongs init last trail := by
  have hpieces : ∀ {path : String}, Path.Plain path →
      ∀ n ∈ Text.split '/' path, n ≠ "" ∧ '/' ∉ n.toList :=
    fun hpath n hn => ⟨(hpath n hn).1, Text.not_mem_of_mem_split hn⟩
  rw [packageFile_eq hdir hpackage hsplit hfile, packageDirectory_eq hdir hpackage hsplit,
    List.mem_append, List.mem_map, List.mem_map] at h
  obtain ⟨trail', htrail', heq⟩ | ⟨trail', htrail', heq⟩ := h
  · have hnames := hpieces (plain_append_json hpackage hsplit hfile)
    rw [hfile] at hnames
    split at htrail'
    · obtain rfl := List.mem_singleton.1 htrail'
      exact .inl (Path.foldl_join_injective htrail hne hnames (by simp) heq.symm)
    · cases htrail'
  · obtain ⟨rest, hrest, rfl⟩ := List.mem_map.1 htrail'
    obtain ⟨es, hes, hrest⟩ := mem_inside hrest
    have hnames : ∀ n ∈ init ++ last :: rest, n ≠ "" ∧ '/' ∉ n.toList := by
      rw [List.append_cons, ← hsplit]
      exact List.forall_mem_append.2
        ⟨hpieces hpackage, proper_of_mem_trails (he.descend hes) hrest⟩
    exact .inr ⟨rest, ne_nil_of_mem_trails hrest,
      Path.foldl_join_injective htrail hne hnames (by simp) heq.symm⟩

end Package

/--
If all files below a directory are those of one package, they come with the directory of the
package before the file with its name.
-/
theorem pathsBelow_sole {f : Files} (hf : f.root.Proper) {dir package : String}
    (hdir : f.isDirectory dir = true) (hpackage : Path.Plain package)
    (hsole : ∀ path ∈ f.pathsBelow "json" dir,
      path ∈ f.packageFile dir package ++ f.packageDirectory dir package) :
    f.pathsBelow "json" dir = f.packageDirectory dir package ++ f.packageFile dir package := by
  obtain ⟨es, hes⟩ : ∃ es, f.find? dir = some (.directory es) := by
    rw [isDirectory] at hdir
    split at hdir
    · rename_i e he
      cases e with
      | file text => cases hdir
      | directory es => exact ⟨es, he⟩
    · cases hdir
  have hproper := proper_of_find? hf hes
  have hslash : '/' ∉ ".json".toList := by decide
  obtain ⟨init, last, hsplit, hfile⟩ := Text.split_append_of_not_mem hslash package
  have hlast : last ≠ "" := (hpackage last (by simp [hsplit])).1
  have hbelow : f.pathsBelow "json" dir =
      (trails "json" "" (.directory es)).map (List.foldl Path.join dir) := by
    rw [pathsBelow_eq, hes]
    rfl
  have hbelongs : ∀ trail ∈ trails "json" "" (.directory es), Belongs init last trail :=
    fun trail htrail => belongs_of_mem hes hpackage hsplit hfile hproper
      (proper_of_mem_trails hproper htrail) (ne_nil_of_mem_trails htrail)
      (hsole _ (hbelow ▸ List.mem_map_of_mem htrail))
  rw [hbelow, trails_sole hproper hlast hbelongs, soleTrails, List.map_append,
    packageDirectory_eq hes hpackage hsplit, packageFile_eq hes hpackage hsplit hfile]

end Files

end ObjectFlow
