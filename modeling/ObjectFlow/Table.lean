/-!
# Tables that keep the order of first insertion

`at?` is the view of a table: what is put under a key is found there, and nothing else changes
(`at?_put_self`, `at?_put_of_ne`).
-/

namespace ObjectFlow

universe u v

/-- Entries stand in the order in which their keys were first put in. -/
abbrev Table (κ : Type u) (α : Type v) := List (κ × α)

namespace Table

variable {κ : Type u} {α : Type v} [DecidableEq κ]

/-- The first entry under a key. -/
def at? : Table κ α → κ → Option α
  | [], _ => none
  | (k', a) :: t, k => if k' = k then some a else at? t k

def holds (t : Table κ α) (k : κ) : Bool := (at? t k).isSome

/-- A key that is there keeps its place and takes the new value; a new key goes to the end. -/
def put : Table κ α → κ → α → Table κ α
  | [], k, a => [(k, a)]
  | (k', a') :: t, k, a => if k' = k then (k, a) :: t else (k', a') :: put t k a

def without (t : Table κ α) (k : κ) : Table κ α := t.filter fun e => e.1 ≠ k

/-- Changes the value under a key, where there is one. -/
def adjust (f : α → α) (k : κ) : Table κ α → Table κ α
  | [] => []
  | (k', a) :: t => if k' = k then (k', f a) :: t else (k', a) :: adjust f k t

/-- Puts in entries one after the other. -/
def putAll (t : Table κ α) (entries : List (κ × α)) : Table κ α :=
  entries.foldl (fun t e => put t e.1 e.2) t

def ofEntries (entries : List (κ × α)) : Table κ α := putAll [] entries

@[simp] theorem at?_nil (k : κ) : at? ([] : Table κ α) k = none := rfl

@[simp] theorem at?_put_self (t : Table κ α) (k : κ) (a : α) : at? (put t k a) k = some a := by
  induction t with
  | nil => simp [put, at?]
  | cons e t ih =>
    obtain ⟨k', a'⟩ := e
    by_cases h : k' = k <;> simp [put, at?, h, ih]

theorem at?_put_of_ne (t : Table κ α) {k k' : κ} (a : α) (h : k' ≠ k) :
    at? (put t k a) k' = at? t k' := by
  induction t with
  | nil => simp [put, at?, Ne.symm h]
  | cons e t ih =>
    obtain ⟨k₀, a₀⟩ := e
    by_cases h₀ : k₀ = k
    · subst h₀
      simp [put, at?, Ne.symm h]
    · by_cases h₁ : k₀ = k'
      · subst h₁
        simp [put, at?, h₀]
      · simp [put, at?, h₀, h₁, ih]

theorem at?_without_of_ne (t : Table κ α) {a b : κ} (h : b ≠ a) :
    at? (without t a) b = at? t b := by
  induction t with
  | nil => rfl
  | cons e t ih =>
    obtain ⟨k, x⟩ := e
    by_cases hk : k = a
    · subst hk
      simp only [without, ne_eq, not_true_eq_false, decide_false, Bool.false_eq_true,
        not_false_eq_true, List.filter_cons_of_neg, at?, if_neg (Ne.symm h)]
      exact ih
    · simp only [without, ne_eq, hk, not_false_eq_true, decide_true, List.filter_cons_of_pos,
        at?]
      rw [show List.filter (fun e => decide (¬e.1 = a)) t = without t a from rfl, ih]

theorem length_without_lt {t : Table κ α} {a : κ} (h : holds t a) :
    (without t a).length < t.length := by
  induction t with
  | nil => simp [holds] at h
  | cons e t ih =>
    obtain ⟨k, x⟩ := e
    by_cases hk : k = a
    · simp only [without, ne_eq, hk, not_true_eq_false, decide_false, Bool.false_eq_true,
        not_false_eq_true, List.filter_cons_of_neg, List.length_cons]
      have := List.length_filter_le (fun e : κ × α => decide (¬e.1 = a)) t
      omega
    · simp only [holds, at?, hk, if_false] at h
      have := ih h
      simp only [without, ne_eq, hk, not_false_eq_true, decide_true, List.filter_cons_of_pos,
        List.length_cons] at this ⊢
      omega

end Table

end ObjectFlow
