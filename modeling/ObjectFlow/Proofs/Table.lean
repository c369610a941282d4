import Mathlib.Data.List.Basic
import Mathlib.Data.List.Induction
import Mathlib.Data.List.Nodup
import ObjectFlow.Table

/-!
# Lookups in tables

What every operation on a table does to its lookups and to its keys. Where the keys are distinct, a
lookup and an entry are the same thing (`at?_eq_some_iff`).

A table is a list of entries, and its order is kept on purpose, since documents are written in it.
So there are two kinds of lemmas. Those on lookups hold of all tables, as the first entry under a
key counts. Those that speak of entries, or of the order, ask for distinct keys, which every table
has that is made by putting in one entry after the other (`nodup_keys_put`, `nodup_keys_ofEntries`).
-/

namespace ObjectFlow.Table

universe u v

variable {κ : Type u} {α : Type v}

/-- The keys of a table in their order. -/
def keys (t : Table κ α) : List κ := t.map Prod.fst

@[simp] theorem keys_nil : keys ([] : Table κ α) = [] := rfl

@[simp] theorem keys_cons (e : κ × α) (t : Table κ α) : keys (e :: t) = e.1 :: keys t := rfl

@[simp] theorem keys_append (t u : Table κ α) : keys (t ++ u) = keys t ++ keys u :=
  List.map_append

theorem mem_keys {t : Table κ α} {k : κ} : k ∈ keys t ↔ ∃ a, (k, a) ∈ t := by
  simp [keys]

variable [DecidableEq κ]

theorem at?_cons (k' : κ) (a : α) (t : Table κ α) (k : κ) :
    at? ((k', a) :: t) k = if k' = k then some a else at? t k := rfl

theorem mem_of_at? {t : Table κ α} {k : κ} {a : α} (h : at? t k = some a) : (k, a) ∈ t := by
  induction t with
  | nil => simp at h
  | cons e t ih =>
    obtain ⟨k', a'⟩ := e
    rw [at?_cons] at h
    split at h
    · rename_i hk
      cases h
      exact hk ▸ List.mem_cons_self
    · exact List.mem_cons_of_mem _ (ih h)

theorem at?_eq_none_iff {t : Table κ α} {k : κ} : at? t k = none ↔ k ∉ keys t := by
  induction t with
  | nil => simp
  | cons e t ih =>
    obtain ⟨k', a'⟩ := e
    rw [at?_cons]
    by_cases hk : k' = k
    · simp [hk]
    · simp [hk, ih, Ne.symm hk]

theorem holds_iff {t : Table κ α} {k : κ} : holds t k = true ↔ k ∈ keys t := by
  rw [holds, Option.isSome_iff_ne_none, Ne, at?_eq_none_iff, not_not]

/-- With distinct keys every entry is found. -/
theorem at?_of_mem {t : Table κ α} {k : κ} {a : α} (hd : (keys t).Nodup) (h : (k, a) ∈ t) :
    at? t k = some a := by
  induction t with
  | nil => simp at h
  | cons e t ih =>
    obtain ⟨k', a'⟩ := e
    rw [keys_cons, List.nodup_cons] at hd
    rw [at?_cons]
    rcases List.mem_cons.1 h with heq | h
    · cases heq
      rw [if_pos rfl]
    · have hne : k' ≠ k := by
        rintro rfl
        exact hd.1 (mem_keys.2 ⟨a, h⟩)
      rw [if_neg hne, ih hd.2 h]

theorem at?_eq_some_iff {t : Table κ α} (hd : (keys t).Nodup) {k : κ} {a : α} :
    at? t k = some a ↔ (k, a) ∈ t :=
  ⟨mem_of_at?, at?_of_mem hd⟩

theorem at?_append (t u : Table κ α) (k : κ) : at? (t ++ u) k = (at? t k).or (at? u k) := by
  induction t with
  | nil => rfl
  | cons e t ih =>
    obtain ⟨k', a'⟩ := e
    rw [List.cons_append, at?_cons, at?_cons]
    split
    · rfl
    · exact ih

theorem at?_append_singleton {t : Table κ α} {k k' : κ} {a a' : α} (hk : k ∉ keys t) :
    at? (t ++ [(k, a)]) k' = some a' ↔ at? t k' = some a' ∨ k' = k ∧ a' = a := by
  rw [at?_append]
  by_cases h : k' = k
  · subst h
    simp [at?_eq_none_iff.2 hk, at?, eq_comm]
  · simp [at?, h, Ne.symm h]

/-! ## Putting in entries

An entry under a key that is there changes its value, and one under another key goes to the end. -/

/-- What is put in is found, and all else as before. -/
theorem at?_put (t : Table κ α) (k k' : κ) (a : α) :
    at? (put t k a) k' = if k' = k then some a else at? t k' := by
  split
  · rename_i h
    rw [h, at?_put_self]
  · rename_i h
    exact at?_put_of_ne t a h

/-- A new key goes to the end. -/
theorem keys_put (t : Table κ α) (k : κ) (a : α) :
    keys (put t k a) = if k ∈ keys t then keys t else keys t ++ [k] := by
  induction t with
  | nil => simp [put]
  | cons e t ih =>
    obtain ⟨k', a'⟩ := e
    by_cases hk : k' = k
    · simp [put, hk]
    · rw [put, if_neg hk, keys_cons, ih, keys_cons]
      by_cases hm : k ∈ keys t
      · simp [hm]
      · simp [hm, Ne.symm hk]

theorem nodup_keys_put {t : Table κ α} (hd : (keys t).Nodup) (k : κ) (a : α) :
    (keys (put t k a)).Nodup := by
  rw [keys_put]
  split
  · exact hd
  · rename_i hk
    exact hd.append (List.nodup_singleton k) (by simpa using hk)

/-- Putting in an entry adds no other one. -/
theorem mem_put {t : Table κ α} {k : κ} {a : α} {e : κ × α} (h : e ∈ put t k a) :
    e ∈ t ∨ e = (k, a) := by
  induction t with
  | nil => exact .inr (List.mem_singleton.1 h)
  | cons e' t ih =>
    rw [put] at h
    split at h
    · rcases List.mem_cons.1 h with h | h
      · exact .inr h
      · exact .inl (List.mem_cons_of_mem _ h)
    · rcases List.mem_cons.1 h with rfl | h
      · exact .inl List.mem_cons_self
      · exact (ih h).imp_left (List.mem_cons_of_mem _)

theorem map_put {β : Type v} (f : α → β) (t : Table κ α) (k : κ) (a : α) :
    (put t k a).map (fun e => (e.1, f e.2)) = put (t.map fun e => (e.1, f e.2)) k (f a) := by
  induction t with
  | nil => rfl
  | cons e t ih =>
    rw [put, List.map_cons, put]
    split
    · rfl
    · rw [List.map_cons, ih]

theorem ofEntries_append_singleton (es : List (κ × α)) (e : κ × α) :
    ofEntries (es ++ [e]) = put (ofEntries es) e.1 e.2 := by
  simp [ofEntries, putAll]

theorem mem_putAll {t : Table κ α} {es : List (κ × α)} {e : κ × α} (h : e ∈ putAll t es) :
    e ∈ t ∨ e ∈ es := by
  induction es generalizing t with
  | nil => exact .inl h
  | cons e' es ih =>
    rcases ih h with h | h
    · rcases mem_put h with h | rfl
      · exact .inl h
      · exact .inr List.mem_cons_self
    · exact .inr (List.mem_cons_of_mem _ h)

theorem mem_ofEntries {es : List (κ × α)} {e : κ × α} (h : e ∈ ofEntries es) : e ∈ es :=
  (mem_putAll h).resolve_left List.not_mem_nil

/-- Where entries with one key agree, each of them is found. -/
theorem at?_ofEntries_iff {es : List (κ × α)} (h : ∀ k a a', (k, a) ∈ es → (k, a') ∈ es → a = a')
    {k : κ} {a : α} : at? (ofEntries es) k = some a ↔ (k, a) ∈ es := by
  induction es using List.reverseRecOn with
  | nil => simp [ofEntries, putAll]
  | append_singleton es e ih =>
    obtain ⟨k₀, a₀⟩ := e
    have ih := ih fun k a a' ha ha' =>
      h k a a' (List.mem_append_left _ ha) (List.mem_append_left _ ha')
    rw [ofEntries_append_singleton, at?_put, List.mem_append, List.mem_singleton]
    by_cases hk : k = k₀
    · subst hk
      rw [if_pos rfl]
      constructor
      · rintro heq
        cases heq
        exact .inr rfl
      · intro hm
        exact congrArg some (h k a₀ a (List.mem_append_right _ List.mem_cons_self)
          (List.mem_append.2 (hm.imp_right List.mem_singleton.2)))
    · rw [if_neg hk, ih]
      exact ⟨.inl, fun hm => hm.resolve_right fun heq => hk (congrArg Prod.fst heq)⟩

/-! ## Changing and taking out entries

Keys keep their order when values change, and when others go. -/

/-- What is changed stood under the key. -/
theorem mem_adjust {f : α → α} {k : κ} {t : Table κ α} {e : κ × α} (h : e ∈ adjust f k t) :
    e ∈ t ∨ ∃ a, (k, a) ∈ t ∧ e = (k, f a) := by
  induction t with
  | nil => cases h
  | cons e' t ih =>
    obtain ⟨k', a'⟩ := e'
    rw [adjust] at h
    split at h
    · rename_i hk
      subst hk
      rcases List.mem_cons.1 h with rfl | h
      · exact .inr ⟨a', List.mem_cons_self, rfl⟩
      · exact .inl (List.mem_cons_of_mem _ h)
    · rcases List.mem_cons.1 h with rfl | h
      · exact .inl List.mem_cons_self
      · obtain h | ⟨a, ha, rfl⟩ := ih h
        · exact .inl (List.mem_cons_of_mem _ h)
        · exact .inr ⟨a, List.mem_cons_of_mem _ ha, rfl⟩

@[simp] theorem keys_adjust (f : α → α) (k : κ) (t : Table κ α) :
    keys (adjust f k t) = keys t := by
  induction t with
  | nil => rfl
  | cons e t ih =>
    obtain ⟨k', a'⟩ := e
    rw [adjust]
    split
    · rename_i h
      simp [h]
    · simp [ih]

theorem adjust_id (k : κ) (t : Table κ α) : adjust id k t = t := by
  induction t with
  | nil => rfl
  | cons e t ih =>
    rw [adjust, ih]
    split <;> rfl

theorem adjust_eq_self {f : α → α} {k : κ} {t : Table κ α} (h : k ∉ keys t) :
    adjust f k t = t := by
  induction t with
  | nil => rfl
  | cons e t ih =>
    rw [keys_cons, List.mem_cons, not_or] at h
    rw [adjust, if_neg (Ne.symm h.1), ih h.2]

/-- Where the keys are distinct, one entry is changed at most. -/
theorem adjust_eq_map (f : α → α) (k : κ) {t : Table κ α} (hd : (keys t).Nodup) :
    adjust f k t = t.map fun e => if e.1 = k then (e.1, f e.2) else e := by
  induction t with
  | nil => rfl
  | cons e t ih =>
    rw [keys_cons, List.nodup_cons] at hd
    rw [adjust, List.map_cons, ← ih hd.2]
    split
    · rename_i h
      rw [adjust_eq_self (h ▸ hd.1)]
    · rfl

/-- What is found under the key is changed. -/
theorem at?_adjust (f : α → α) (k k' : κ) (t : Table κ α) :
    at? (adjust f k t) k' = if k' = k then (at? t k').map f else at? t k' := by
  induction t with
  | nil => simp [adjust]
  | cons e t ih =>
    obtain ⟨k₀, a₀⟩ := e
    rw [adjust, at?_cons]
    by_cases h : k₀ = k
    · subst h
      rw [if_pos rfl, at?_cons]
      by_cases h' : k₀ = k'
      · subst h'
        simp
      · simp [h', Ne.symm h']
    · rw [if_neg h, at?_cons, ih]
      by_cases h' : k₀ = k'
      · subst h'
        simp [h]
      · simp [h']

theorem keys_without (t : Table κ α) (k : κ) : keys (without t k) = (keys t).filter (· ≠ k) := by
  rw [keys, keys, without, List.filter_map]
  rfl

@[simp] theorem at?_without_self (t : Table κ α) (k : κ) : at? (without t k) k = none := by
  rw [at?_eq_none_iff, keys_without]
  simp

/-- Under all other keys the same is found. -/
theorem at?_without (t : Table κ α) (k k' : κ) :
    at? (without t k) k' = if k' = k then none else at? t k' := by
  split
  · rename_i h
    rw [h, at?_without_self]
  · rename_i h
    exact at?_without_of_ne t h

theorem at?_map {β : Type v} (f : κ → α → β) (t : Table κ α) (k : κ) :
    at? (t.map fun e => (e.1, f e.1 e.2)) k = (at? t k).map (f k) := by
  induction t with
  | nil => rfl
  | cons e t ih =>
    obtain ⟨k', a'⟩ := e
    rw [List.map_cons, at?_cons, at?_cons, ih]
    split
    · rename_i h
      cases h
      rfl
    · rfl

/-! ## Several entries

Putting in several entries is putting in one after the other. Of several with one key the last
counts, at the place of the first. -/

/-- Tables with the same keys in the same order are equal if they hold the same. -/
theorem ext_at? {t u : Table κ α} (hd : (keys t).Nodup) (hk : keys t = keys u)
    (h : ∀ k, at? t k = at? u k) : t = u := by
  induction t generalizing u with
  | nil =>
    cases u with
    | nil => rfl
    | cons e u => cases hk
  | cons e t ih =>
    cases u with
    | nil => cases hk
    | cons e' u =>
      obtain ⟨k, a⟩ := e
      obtain ⟨k', a'⟩ := e'
      obtain ⟨rfl, hkeys⟩ := List.cons.inj hk
      have ha := h k
      rw [at?_cons, at?_cons, if_pos rfl, if_pos rfl] at ha
      obtain rfl := Option.some.inj ha
      rw [keys_cons, List.nodup_cons] at hd
      rw [ih hd.2 hkeys fun k₀ => ?_]
      have hk₀ := h k₀
      rw [at?_cons, at?_cons] at hk₀
      by_cases heq : k = k₀
      · subst heq
        rw [at?_eq_none_iff.2 hd.1,
          at?_eq_none_iff.2 fun hm => hd.1 ((congrArg (k ∈ ·) hkeys).mpr hm)]
      · rwa [if_neg heq, if_neg heq] at hk₀

/-- An entry under a new key goes to the end. -/
theorem put_eq_append {t : Table κ α} {k : κ} (h : k ∉ keys t) (a : α) :
    put t k a = t ++ [(k, a)] := by
  induction t with
  | nil => rfl
  | cons e t ih =>
    rw [keys_cons, List.mem_cons, not_or] at h
    rw [put, if_neg (Ne.symm h.1), ih h.2, List.cons_append]

/-- A new value takes the place of the one that is found, and nothing around it changes. -/
theorem exists_split_of_at? {t : Table κ α} {k : κ} {a : α} (h : at? t k = some a) :
    ∃ l u, t = l ++ (k, a) :: u ∧ ∀ b, put t k b = l ++ (k, b) :: u := by
  induction t with
  | nil => cases h
  | cons e t ih =>
    obtain ⟨k', a'⟩ := e
    rw [at?] at h
    by_cases hk : k' = k
    · rw [if_pos hk, Option.some.injEq] at h
      subst hk h
      exact ⟨[], t, rfl, fun b => by rw [put, if_pos rfl, List.nil_append]⟩
    · rw [if_neg hk] at h
      obtain ⟨l, u, rfl, hput⟩ := ih h
      exact ⟨(k', a') :: l, u, rfl, fun b => by rw [put, if_neg hk, hput, List.cons_append]⟩

/-- A key that is there already keeps its place. -/
theorem put_eq_set {t : Table κ α} (hd : (keys t).Nodup) {k : κ} {i : Nat}
    (h : (keys t)[i]? = some k) (a : α) : put t k a = t.set i (k, a) := by
  induction t generalizing i with
  | nil => cases h
  | cons e t ih =>
    rw [keys_cons] at h hd
    cases i with
    | zero =>
      obtain rfl : e.1 = k := Option.some.inj h
      rw [put, if_pos rfl, List.set_cons_zero]
    | succ i =>
      rw [List.getElem?_cons_succ] at h
      have hne : e.1 ≠ k := fun heq => (List.nodup_cons.1 hd).1 (heq ▸ List.mem_of_getElem? h)
      rw [put, if_neg hne, List.set_cons_succ, ih (List.nodup_cons.1 hd).2 h]

theorem putAll_cons (t : Table κ α) (e : κ × α) (es : List (κ × α)) :
    putAll t (e :: es) = putAll (put t e.1 e.2) es := rfl

theorem putAll_append (t : Table κ α) (es fs : List (κ × α)) :
    putAll t (es ++ fs) = putAll (putAll t es) fs := List.foldl_append

theorem nodup_keys_putAll {t : Table κ α} (hd : (keys t).Nodup) (es : List (κ × α)) :
    (keys (putAll t es)).Nodup := by
  induction es generalizing t with
  | nil => exact hd
  | cons e es ih => exact ih (nodup_keys_put hd e.1 e.2)

/-- The last entry under a key counts. -/
theorem at?_putAll (t : Table κ α) (es : List (κ × α)) (k : κ) :
    at? (putAll t es) k = ((es.filter fun e => e.1 = k).getLast?.map Prod.snd).or (at? t k) := by
  induction es using List.reverseRecOn with
  | nil => rfl
  | append_singleton es e ih =>
    rw [putAll_append, putAll_cons]
    show at? (put (putAll t es) e.1 e.2) k = _
    rw [at?_put, ih, List.filter_append]
    by_cases hk : k = e.1
    · simp [hk]
    · simp [hk, Ne.symm hk]

/-- Keys that are there already stay in their order. -/
theorem keys_putAll_of_subset {t : Table κ α} {es : List (κ × α)}
    (h : ∀ e ∈ es, e.1 ∈ keys t) : keys (putAll t es) = keys t := by
  induction es generalizing t with
  | nil => rfl
  | cons e es ih =>
    have hkeys : keys (put t e.1 e.2) = keys t := by
      rw [keys_put, if_pos (h e List.mem_cons_self)]
    rw [putAll_cons, ih fun e' he' => hkeys ▸ h e' (List.mem_cons_of_mem _ he'), hkeys]

/-- The keys of the entries in the order in which they come first. -/
theorem keys_ofEntries (es : List (κ × α)) :
    keys (ofEntries es) = (es.map Prod.fst).eraseDups := by
  induction es using List.reverseRecOn with
  | nil => rfl
  | append_singleton es e ih =>
    rw [ofEntries_append_singleton, keys_put, ih, List.map_append, List.eraseDups_append]
    by_cases he : e.1 ∈ es.map Prod.fst
    · rw [if_pos (List.mem_eraseDups.2 he)]
      simp_all [List.removeAll]
    · rw [if_neg fun hm => he (List.mem_eraseDups.1 hm)]
      simp_all [List.removeAll]
      rfl

theorem nodup_keys_ofEntries (es : List (κ × α)) : (keys (ofEntries es)).Nodup :=
  nodup_keys_putAll (t := []) List.nodup_nil es

/-- Entries whose keys are distinct are a table as they stand. -/
theorem ofEntries_eq_self {es : List (κ × α)} (hd : (keys es).Nodup) : ofEntries es = es := by
  induction es using List.reverseRecOn with
  | nil => rfl
  | append_singleton es e ih =>
    rw [keys_append, List.nodup_append'] at hd
    have hnew : e.1 ∉ keys es := fun h => hd.2.2 h List.mem_cons_self
    rw [ofEntries_append_singleton, ih hd.1, put_eq_append hnew]

/-- What becomes of the values does not matter for where they stand. -/
theorem ofEntries_map {β : Type v} (f : α → β) (es : List (κ × α)) :
    ofEntries (es.map fun e => (e.1, f e.2)) = (ofEntries es).map fun e => (e.1, f e.2) := by
  induction es using List.reverseRecOn with
  | nil => rfl
  | append_singleton es e ih =>
    rw [List.map_append, List.map_singleton, ofEntries_append_singleton,
      ofEntries_append_singleton, ih, map_put]

theorem mem_keys_putAll {t : Table κ α} {es : List (κ × α)} {e : κ × α} (he : e ∈ es) :
    e.1 ∈ keys (putAll t es) := by
  have hne : es.filter (fun f => f.1 = e.1) ≠ [] :=
    List.ne_nil_of_mem (List.mem_filter.2 ⟨he, by simp⟩)
  rw [← holds_iff, holds, at?_putAll, List.getLast?_eq_getLast_of_ne_nil hne]
  rfl

/-- With distinct keys, the entries under a key are the one that is found. -/
theorem map_snd_filter_eq {t : Table κ α} (hd : (keys t).Nodup) (k : κ) :
    (t.filter fun e => e.1 = k).map Prod.snd = (at? t k).toList := by
  induction t with
  | nil => rfl
  | cons e t ih =>
    rw [keys_cons, List.nodup_cons] at hd
    rw [at?_cons, List.filter_cons]
    by_cases hk : e.1 = k
    · have hrest := ih hd.2
      rw [at?_eq_none_iff.2 (hk ▸ hd.1)] at hrest
      simpa [hk] using hrest
    · simpa [hk] using ih hd.2

/-- Putting in the same entries again changes nothing. -/
theorem putAll_putAll {t : Table κ α} (hd : (keys t).Nodup) (es : List (κ × α)) :
    putAll (putAll t es) es = putAll t es := by
  have hkeys : keys (putAll (putAll t es) es) = keys (putAll t es) :=
    keys_putAll_of_subset fun e he => mem_keys_putAll he
  refine ext_at? (nodup_keys_putAll (nodup_keys_putAll hd es) es) hkeys fun k => ?_
  rw [at?_putAll, at?_putAll]
  cases ((es.filter fun e => e.1 = k).getLast?.map Prod.snd) <;> rfl

end ObjectFlow.Table
