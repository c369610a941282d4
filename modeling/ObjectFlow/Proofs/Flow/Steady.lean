import ObjectFlow.Proofs.Flow.Concur

/-!
# Annotators whose answers do not change

When every answer stays what it was at first, so does what goes into a call and what comes out
(`settled_entrance`, `settled_departure`), whatever was asked before.

An annotator may load notes while it is asked, so its state changes and equality of states is of no
use. What counts are the states that it gets into by answering (`Annotator.Reaches`). Steadiness is
only asked of these, and goes over to each of them (`Annotator.Steady.reached`).
-/

namespace ObjectFlow

variable {σ α : Type}

namespace Annotator

/-- The states that an annotator can get into by answering. -/
inductive Reaches (a : Annotator σ) (s : σ) : σ → Prop where
  | refl : a.Reaches s s
  | function {t : σ} (h : a.Reaches s t) (c : Callee) : a.Reaches s (a.function c t).2
  | object {t : σ} (h : a.Reaches s t) (type : RuntimeType) : a.Reaches s (a.object type t).2

/-- Every answer is what it would have been at first, whatever was asked before. -/
structure Steady (a : Annotator σ) (s : σ) : Prop where
  function_eq : ∀ t, a.Reaches s t → ∀ c, (a.function c t).1 = (a.function c s).1
  object_eq : ∀ t, a.Reaches s t → ∀ type, (a.object type t).1 = (a.object type s).1

/-- An annotator may go on answering from where it got to. -/
theorem Reaches.trans {a : Annotator σ} {s t u : σ} (h : a.Reaches s t) (h' : a.Reaches t u) :
    a.Reaches s u := by
  induction h' with
  | refl => exact h
  | function _ c ih => exact ih.function c
  | object _ type ih => exact ih.object type

/-- An annotator stays steady while it is asked. -/
theorem Steady.reached {a : Annotator σ} {s t : σ} (ha : a.Steady s) (h : a.Reaches s t) :
    a.Steady t where
  function_eq u hu c := (ha.function_eq u (h.trans hu) c).trans (ha.function_eq t h c).symm
  object_eq u hu type := (ha.object_eq u (h.trans hu) type).trans (ha.object_eq t h type).symm

/-- Wherever a steady annotator has got to, it answers like itself elsewhere. -/
theorem Steady.concur {a : Annotator σ} {s : σ} (ha : a.Steady s) (asked : List Callee) :
    a.Concur (fun t u => a.Reaches s t ∧ a.Reaches s u) asked a where
  function c _ t u h :=
    ⟨(ha.function_eq t h.1 c).trans (ha.function_eq u h.2 c).symm, h.1.function c, h.2.function c⟩
  object type t u h :=
    ⟨(ha.object_eq t h.1 type).trans (ha.object_eq u h.2 type).symm, h.1.object type,
      h.2.object type⟩

end Annotator

namespace Flow

variable {a : Annotator σ} {s : σ}

/-- The result is the same in all states that the annotator can get into, and leads to another. -/
def Settled (a : Annotator σ) (s : σ) (m : StateM σ α) : Prop :=
  ∀ t, a.Reaches s t → (m t).1 = (m s).1 ∧ a.Reaches s (m t).2

theorem Concur.settled {m : StateM σ α}
    (h : Concur (fun t u => a.Reaches s t ∧ a.Reaches s u) m m) : Settled a s m := by
  intro t ht
  obtain ⟨hval, hnext, -⟩ := h t s ⟨ht, .refl⟩
  exact ⟨hval, hnext⟩

/-- What goes into a call is told alike at any time. -/
theorem settled_entrance (ha : a.Steady s) (settings : Settings) (c : Invocation) :
    Settled a s (entrance a settings c) :=
  ((ha.concur [c.function]).entrance settings List.mem_cons_self).settled

/-- What comes out of a call is told alike at any time. -/
theorem settled_departure (ha : a.Steady s) (settings : Settings) (r : Completion) :
    Settled a s (departure a settings r) :=
  ((ha.concur [r.call.function]).departure settings List.mem_cons_self).settled

end Flow

end ObjectFlow
