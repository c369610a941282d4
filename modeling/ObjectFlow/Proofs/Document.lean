import ObjectFlow.Document
import ObjectFlow.Proofs.Json
import ObjectFlow.Proofs.Outcome
import ObjectFlow.Proofs.Uuid

/-!
# Reading back what was written

A writer and a reader fit together if whatever the program can hold is read back as it was written,
and nothing else is ever read (`ReadsBack`). A record is read back if its members are: each of them
is found under its name, as long as they are written in the order of the names (`InOrder`).

`ReadsBack` has two halves, and both are needed for records of records. That exact values are read
back gives the round trip. That only exact values are read says what `Exact` must be, so it cannot
be chosen too narrow, and it makes reading and writing settle: what was read once is read again as
it is (`ReadsBack.read_write_read`). For each way in which a member may stand in a record, whether
it is required, optional or has a default, there is one lemma for either half.
-/

namespace ObjectFlow.Document

open Outcome

variable {α : Type} {write : α → Json} {read : Json → Except DecodeError α} {Exact : α → Prop}

/-- Exact values are read back as they were written, and only exact values are read. -/
structure ReadsBack (write : α → Json) (read : Json → Except DecodeError α) (Exact : α → Prop) :
    Prop where
  read_write : ∀ a, Exact a → read (write a) = .ok a
  exact_read : ∀ j a, read j = .ok a → Exact a

/-- What was read is read again from the document that it is written to. -/
theorem ReadsBack.read_write_read (hf : ReadsBack write read Exact) {j : Json} {a : α}
    (h : read j = .ok a) : read (write a) = .ok a :=
  hf.read_write a (hf.exact_read j a h)

/-! ## Members in the order of the names

A writer leaves out members without a value, so the names of those that are left are a sublist of
all names. -/

/-- Members that stand in the order of the names, each of them once at most. -/
def InOrder (names : List String) (ms : List (String × Json)) : Prop :=
  (Table.keys ms).Sublist names

section InOrder

variable {names names' : List String} {ms ms' : List (String × Json)}

theorem inOrder_of_keys (h : Table.keys ms = names) : InOrder names ms := h ▸ List.Sublist.refl _

theorem inOrder_singleton (key : String) (j : Json) : InOrder [key] [(key, j)] :=
  inOrder_of_keys rfl

/-- An optional member stands under its name, if at all. -/
theorem inOrder_given (key : String) (o : Option α) : InOrder [key] (given key write o) := by
  cases o with
  | none => exact List.nil_sublist _
  | some a => exact .refl _

theorem inOrder_unlessEmpty (key : String) (write : List α → Json) (as : List α) :
    InOrder [key] (unlessEmpty key write as) := by
  unfold unlessEmpty
  split
  · exact List.nil_sublist _
  · exact .refl _

/-- Members of two records in a row are in order if both are. -/
theorem InOrder.append (h : InOrder names ms) (h' : InOrder names' ms') :
    InOrder (names ++ names') (ms ++ ms') := by
  rw [InOrder, Table.keys_append]
  exact List.Sublist.append h h'

theorem InOrder.not_mem (h : InOrder names ms) {key : String} (hk : key ∉ names) :
    key ∉ Table.keys ms :=
  fun hm => hk (h.subset hm)

theorem repeats_eq_false_iff {names : List String} : repeats names = false ↔ names.Nodup := by
  induction names with
  | nil => simp [repeats]
  | cons n rest ih => simp [repeats, ih]

/-- Members that are in order are given back as they stand. -/
theorem InOrder.members_eq (h : InOrder names ms) (hd : names.Nodup) :
    members names ms = .ok ms := by
  have hknown : ms.filter (fun m => names.contains m.1) = ms := by
    refine List.filter_eq_self.2 fun m hm => ?_
    exact List.contains_iff_mem.2 (h.subset (List.mem_map_of_mem hm))
  have hrep : repeats (ms.map Prod.fst) = false := repeats_eq_false_iff.2 (h.nodup hd)
  simp only [members, hknown, hrep]
  rfl

/-- A record of members that are in order is read as they stand. -/
theorem InOrder.record_eq (h : InOrder names ms) (hd : names.Nodup) :
    record names (.obj ms) = .ok ms :=
  h.members_eq hd

end InOrder

/-- A member that a record does not know is passed over. -/
theorem record_cons_of_not_mem {names : List String} {key : String} (h : key ∉ names) (j : Json)
    (ms : List (String × Json)) :
    record names (.obj ((key, j) :: ms)) = record names (.obj ms) := by
  have hknown : ((key, j) :: ms).filter (fun m => names.contains m.1) =
      ms.filter fun m => names.contains m.1 :=
    List.filter_cons_of_neg (by simpa using h)
  change members names ((key, j) :: ms) = members names ms
  simp only [members, hknown]

/-- A record with its variant in front gives its other members back as they stand. -/
theorem variant_obj {tag kind : String} {ms : List (String × Json)} (h : tag ∉ Table.keys ms) :
    variant tag (.obj ((tag, .str kind) :: ms)) = .ok (kind, .obj ms) := by
  have hne : ∀ m ∈ ms, m.1 ≠ tag := fun m hm heq => h (heq ▸ List.mem_map_of_mem hm)
  have hrest : ms.filter (fun m => m.1 ≠ tag) = ms :=
    List.filter_eq_self.2 fun m hm => decide_eq_true (hne m hm)
  have hknown : ms.filter (fun m => [tag].contains m.1) = [] := by
    refine List.filter_eq_nil_iff.2 fun m hm => ?_
    simpa using hne m hm
  have htag : members [tag] ((tag, .str kind) :: ms) = .ok [(tag, .str kind)] := by
    rw [members, List.filter_cons_of_pos (by simp), hknown]
    rfl
  have hkind : required [(tag, .str kind)] tag text = .ok kind := by
    rw [required, Table.at?_cons, if_pos rfl]
    rfl
  rw [variant, htag, ok_bind, hkind, ok_bind, List.filter_cons_of_neg (by simp), hrest]
  rfl

/-! ## Members by name

What is written for a member is found again, and then read. -/

section Members

variable {fs : Fields} {name : String}

@[simp] theorem at?_members_cons (key : String) (j : Json) (ms : List (String × Json)) :
    Table.at? ((key, j) :: ms) name = if key = name then some j else Table.at? ms name := rfl

@[simp] theorem at?_members_append (ms ms' : List (String × Json)) :
    Table.at? (ms ++ ms') name = (Table.at? ms name).or (Table.at? ms' name) :=
  Table.at?_append ms ms' name

@[simp] theorem at?_given (key : String) (o : Option α) :
    Table.at? (given key write o) name = if key = name then o.map write else none := by
  cases o with
  | none => simp [given]
  | some a => rfl

@[simp] theorem at?_unlessEmpty (key : String) (write : List α → Json) (as : List α) :
    Table.at? (unlessEmpty key write as) name =
      if key = name then if as.isEmpty then none else some (write as) else none := by
  unfold unlessEmpty
  split
  · simp
  · rfl

namespace ReadsBack

/-- A member that must be there is read back. -/
theorem required (hf : ReadsBack write read Exact) {a : α} (h : Table.at? fs name = some (write a))
    (ha : Exact a) : required fs name read = .ok a := by
  rw [Document.required, h]
  exact hf.read_write a ha

/-- A member that may be missing is read back, unless it is written as a null. -/
theorem optional (hf : ReadsBack write read Exact) {o : Option α}
    (h : Table.at? fs name = o.map write) (hn : ∀ a ∈ o, write a ≠ .null) (ho : ∀ a ∈ o, Exact a) :
    optional fs name read = .ok o := by
  unfold Document.optional
  cases o with
  | none => rw [h, Option.map_none]
  | some a =>
    rw [h, Option.map_some]
    split
    · rename_i heq
      cases heq
    · rename_i heq
      exact absurd (Option.some.inj heq) (hn a rfl)
    · rename_i heq
      cases heq
      rw [hf.read_write a (ho a rfl), map_ok]

/-- A list that is only written if it has elements is read back. -/
theorem defaulted {write : List α → Json} {read : Json → Except DecodeError (List α)}
    {Exact : List α → Prop} (hf : ReadsBack write read Exact) {as : List α}
    (h : Table.at? fs name = if as.isEmpty then none else some (write as)) (ha : Exact as) :
    defaulted fs name [] read = .ok as := by
  rw [Document.defaulted, h]
  cases as with
  | nil => rfl
  | cons a as => exact hf.read_write _ ha

/-- A member with a default that is written in any case. -/
theorem defaulted_of_some (hf : ReadsBack write read Exact) {value a : α}
    (h : Table.at? fs name = some (write a)) (ha : Exact a) :
    Document.defaulted fs name value read = .ok a := by
  rw [Document.defaulted, h]
  exact hf.read_write a ha

/-- What is read for a member that must be there is exact. -/
theorem exact_required (hf : ReadsBack write read Exact) {a : α}
    (h : Document.required fs name read = .ok a) : Exact a := by
  unfold Document.required at h
  split at h
  · exact hf.exact_read _ a h
  · cases h

/-- What is read for a member that may be missing is exact, if it is there. -/
theorem exact_optional (hf : ReadsBack write read Exact) {o : Option α}
    (h : Document.optional fs name read = .ok o) : ∀ a ∈ o, Exact a := by
  unfold Document.optional at h
  split at h
  · cases h
    exact fun a ha => nomatch ha
  · cases h
    exact fun a ha => nomatch ha
  · obtain ⟨a, ha, rfl⟩ := map_eq_ok_iff.1 h
    rintro _ ⟨⟩
    exact hf.exact_read _ a ha

/-- What is read for a member with a default is exact, if the default is. -/
theorem exact_defaulted (hf : ReadsBack write read Exact) {value a : α} (hv : Exact value)
    (h : Document.defaulted fs name value read = .ok a) : Exact a := by
  unfold Document.defaulted at h
  split at h
  · exact hf.exact_read _ a h
  · cases h
    exact hv

end ReadsBack

/-- A member without a value is read from a null, so a value that is read is another one. -/
theorem ne_null_of_optional {o : Option Json} (h : optional fs name anything = .ok o) :
    ∀ j ∈ o, j ≠ .null := by
  unfold optional at h
  split at h
  · cases h
    exact fun a ha => nomatch ha
  · cases h
    exact fun a ha => nomatch ha
  · rename_i j hne heq
    obtain ⟨a, ha, rfl⟩ := map_eq_ok_iff.1 h
    cases ha
    rintro _ ⟨⟩ hnull
    exact hne (Json.merged_eq_null_iff.1 hnull)

end Members

/-! ## Readers and writers

The pairs for single values, lists and tables, from which all records are made. -/

/-- A text is read back. -/
theorem readsBack_text : ReadsBack Json.str text fun _ => True :=
  ⟨fun _ _ => rfl, fun _ _ _ => trivial⟩

/-- A number below a limit is read back. -/
theorem readsBack_natBelow (limit : Nat) :
    ReadsBack (fun n : Nat => Json.int n) (natBelow limit) fun n => n < limit where
  read_write n hn := if_pos hn
  exact_read j n h := by
    unfold natBelow at h
    split at h
    · split at h
      · rename_i hlt
        cases h
        exact hlt
      · cases h
    · cases h

/-- Any value is read back that repeats no name. -/
theorem readsBack_anything : ReadsBack (fun j => j) anything Json.Merged where
  read_write j hj := congrArg Except.ok hj
  exact_read j j' h := by
    cases h
    exact Json.merged_merged j

/-- A list is read back if its elements are. -/
theorem readsBack_list (hf : ReadsBack write read Exact) :
    ReadsBack (fun as => .arr (as.map write)) (list read) fun as => ∀ a ∈ as, Exact a where
  read_write as has := by
    rw [list]
    induction as with
    | nil => rfl
    | cons a as ih =>
      have hrest := ih fun a' ha' => has a' (List.mem_cons_of_mem _ ha')
      rw [List.map_cons, readAll, hf.read_write a (has a List.mem_cons_self), ok_bind, hrest]
      rfl
  exact_read j as h := by
    unfold list at h
    split at h
    · rename_i items
      induction items generalizing as with
      | nil =>
        cases h
        exact fun a ha => nomatch ha
      | cons j rest ih =>
        rw [readAll, bind_eq_ok_iff] at h
        obtain ⟨a, ha, h⟩ := h
        obtain ⟨as', has', h⟩ := bind_eq_ok_iff.1 h
        cases h
        exact List.forall_mem_cons.2 ⟨hf.exact_read j a ha, ih as' has'⟩
    · cases h

theorem readsBack_texts : ReadsBack texts (list text) fun _ => True where
  read_write as _ := (readsBack_list readsBack_text).read_write as fun _ _ => trivial
  exact_read _ _ _ := trivial

/-- A table of which every value is exact. -/
structure ExactTable (Exact : α → Prop) (t : Table String α) : Prop where
  keys_nodup : (Table.keys t).Nodup
  exact : ∀ e ∈ t, Exact e.2

theorem exactTable_nil : ExactTable Exact [] := ⟨List.nodup_nil, fun _ h => nomatch h⟩

/-- Entries are read back if their values are. -/
theorem readEntries_write (hf : ReadsBack write read Exact) {t : Table String α}
    (ht : ∀ e ∈ t, Exact e.2) : readEntries read (t.map fun e => (e.1, write e.2)) = .ok t := by
  induction t with
  | nil => rfl
  | cons e t ih =>
    have hrest := ih fun e' he' => ht e' (List.mem_cons_of_mem _ he')
    rw [List.map_cons, readEntries, hf.read_write e.2 (ht e List.mem_cons_self), ok_bind, hrest]
    rfl

/-- Only entries with exact values are read. -/
theorem exact_of_readEntries (hf : ReadsBack write read Exact) {ms : List (String × Json)}
    {es : List (String × α)} (h : readEntries read ms = .ok es) : ∀ e ∈ es, Exact e.2 := by
  induction ms generalizing es with
  | nil =>
    cases h
    exact fun e he => nomatch he
  | cons m rest ih =>
    rw [readEntries, bind_eq_ok_iff] at h
    obtain ⟨a, ha, h⟩ := h
    obtain ⟨es', hes', h⟩ := bind_eq_ok_iff.1 h
    cases h
    exact List.forall_mem_cons.2 ⟨hf.exact_read _ a ha, ih hes'⟩

/-- A table is read back if its values are. -/
theorem readsBack_table (hf : ReadsBack write read Exact) :
    ReadsBack (writeTable write) (table read) (ExactTable Exact) where
  read_write t ht := by
    rw [writeTable, table, readEntries_write hf ht.exact, map_ok,
      Table.ofEntries_eq_self ht.keys_nodup]
  exact_read j t h := by
    unfold table at h
    split at h
    · obtain ⟨es, hes, rfl⟩ := map_eq_ok_iff.1 h
      exact ⟨Table.nodup_keys_ofEntries es,
        fun e he => exact_of_readEntries hf hes e (Table.mem_ofEntries he)⟩
    · cases h

/-- A condition on captured values may be split off from a table. -/
theorem exactTable_and_iff {Typed : α → Prop} {payloads : α → List Json} {t : Table String α} :
    ExactTable (fun a => Typed a ∧ Json.null ∉ payloads a) t ↔
      ExactTable Typed t ∧ Json.null ∉ t.flatMap fun e => payloads e.2 := by
  simp only [List.mem_flatMap, not_exists, not_and]
  constructor
  · intro h
    exact ⟨⟨h.keys_nodup, fun e he => (h.exact e he).1⟩, fun e he => (h.exact e he).2⟩
  · rintro ⟨h, hn⟩
    exact ⟨h.keys_nodup, fun e he => ⟨h.exact e he, hn e he⟩⟩

/-- A value is told from its name. -/
theorem readsBack_oneOf (origin : Origin) {choices : List (String × α)} {write : α → Json}
    (h : ∀ a, ∃ s, write a = .str s ∧ Table.at? choices s = some a) :
    ReadsBack write (oneOf origin choices) fun _ => True where
  read_write a _ := by
    obtain ⟨s, hs, ha⟩ := h a
    rw [hs, oneOf, Document.name, ok_bind, ha]
    rfl
  exact_read _ _ _ := trivial

/-- An identity is read back if it is nothing but its number. -/
theorem readsBack_identity {make : Nat → α} {value : α → Nat} (hmake : ∀ a, make (value a) = a)
    (hvalue : ∀ n, value (make n) = n) :
    ReadsBack (writeIdentity value) (identity make) fun a => value a < 2 ^ 128 where
  read_write a ha := by
    rw [writeIdentity, identity, text, ok_bind, Text.Uuid.parse?_hyphenated ha, Option.map_some,
      hmake]
    rfl
  exact_read j a h := by
    obtain ⟨s, -, h⟩ := bind_eq_ok_iff.1 h
    cases hn : Text.Uuid.parse? s with
    | none =>
      rw [hn] at h
      cases h
    | some n =>
      rw [hn] at h
      cases h
      rw [hvalue]
      exact Text.Uuid.parse?_lt hn

theorem readsBack_nodeId : ReadsBack writeNode nodeId fun id => id.value < 2 ^ 128 :=
  readsBack_identity (fun _ => rfl) fun _ => rfl

theorem readsBack_edgeId : ReadsBack writeEdge edgeId fun id => id.value < 2 ^ 128 :=
  readsBack_identity (fun _ => rfl) fun _ => rfl

theorem readsBack_objectId : ReadsBack writeObject objectId fun _ => True :=
  ⟨fun _ _ => rfl, fun _ _ _ => trivial⟩

theorem readsBack_handle : ReadsBack writeHandle handle fun h => h.index < 2 ^ 32 where
  read_write h hh := by
    rw [handle, writeHandle, (readsBack_natBelow 4294967296).read_write h.index hh, map_ok]
  exact_read j h hread := by
    obtain ⟨n, hn, rfl⟩ := map_eq_ok_iff.1 hread
    exact (readsBack_natBelow _).exact_read j n hn

end ObjectFlow.Document
