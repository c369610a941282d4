import Mathlib.Data.List.Basic
import Mathlib.Data.List.Nodup
import ObjectFlow.Flow.Recording
import ObjectFlow.Proofs.Outcome
import ObjectFlow.Proofs.Table

/-!
# Recordings that pass their check

A recording passes its check just if its root is there, every graph has its markers and no cycle,
and every body that a call refers to is a later graph, is not the root and belongs to that call
alone (`validate_eq_ok_iff`).

The check goes over the graphs in their order and over the bodies of each, and carries a table of
the bodies that it has met. So its two loops are described for any table: what is asked of each body
or graph by itself, and that the bodies are all different and none of them is in the table
(`exists_checkBodies_iff`, `checkGraphs_eq_ok_iff`). From the empty table on nothing is left of it.
-/

namespace ObjectFlow.Recording

/-- What the check asks of the bodies that a graph refers to. -/
structure Nestable (r : Recording) (this : Nat) (h : Handle) : Prop where
  after : this < h.index
  lt : h.index < r.graphs.length
  ne_root : h ≠ r.root

/-- What the check asks of a graph by itself. -/
structure Passable (r : Recording) (this : Nat) (f : Flow) : Prop where
  hasInput : f.graph.hasNode f.input = true
  hasOutput : f.graph.hasNode f.output = true
  acyclic : f.graph.isAcyclic = true
  nestable : ∀ b ∈ bodies f, r.Nestable this b.2

/-- The bodies that the calls of a graph refer to. -/
def bodyHandles (f : Flow) : List Handle := (bodies f).map Prod.snd

/-- The recording passes its check. -/
structure Checked (r : Recording) : Prop where
  root_lt : r.root.index < r.graphs.length
  passable : ∀ (i : Nat) (f : Flow), r.graphs[i]? = some f → r.Passable i f
  bodies_nodup : (r.graphs.flatMap bodyHandles).Nodup

variable {r : Recording}

/-- Each body belongs to one call of one graph. -/
theorem nodup_bodies_iff {gs : List Flow} : (gs.flatMap bodyHandles).Nodup ↔
    (∀ (i : Nat) (f : Flow), gs[i]? = some f → (bodyHandles f).Nodup) ∧
      ∀ (i j : Nat) (f g : Flow) (h : Handle), gs[i]? = some f → gs[j]? = some g →
        h ∈ bodyHandles f → h ∈ bodyHandles g → i = j := by
  rw [List.nodup_flatMap, List.pairwise_iff_getElem]
  refine and_congr ⟨fun h i f hf => h f (List.mem_of_getElem? hf), fun h f hf => ?_⟩
    ⟨fun h i j f g k hf hg hkf hkg => ?_, fun h i j hi hj hlt k hkf hkg => ?_⟩
  · obtain ⟨i, hi⟩ := List.getElem?_of_mem hf
    exact h i f hi
  · obtain ⟨hi, rfl⟩ := List.getElem?_eq_some_iff.1 hf
    obtain ⟨hj, rfl⟩ := List.getElem?_eq_some_iff.1 hg
    rcases Nat.lt_trichotomy i j with hlt | heq | hlt
    · exact absurd hkg (h i j hi hj hlt hkf)
    · exact heq
    · exact absurd hkf (h j i hj hi hlt hkg)
  · exact Nat.ne_of_lt hlt (h i j _ _ k (List.getElem?_eq_getElem hi) (List.getElem?_eq_getElem hj)
      hkf hkg)

/-- A graph is missing if its handle is past the end. -/
theorem graph?_isNone_iff {h : Handle} :
    (r.graph? h).isNone = true ↔ ¬ h.index < r.graphs.length := by
  simp [graph?]

/-- The first body passes, and then the others with it in the table. -/
theorem checkBodies_cons_iff {this : Handle} {parents parents' : Table Handle Handle} {h : Handle}
    {hs : List Handle} : r.checkBodies this parents (h :: hs) = .ok parents' ↔
      r.Nestable this.index h ∧ h ∉ Table.keys parents ∧
        r.checkBodies this (Table.put parents h this) hs = .ok parents' := by
  rw [checkBodies]
  split
  · rename_i hnone
    simp only [reduceCtorEq, false_iff, not_and]
    exact fun hn => absurd hn.lt (graph?_isNone_iff.1 hnone)
  rename_i hsome
  split
  · rename_i hback
    simp only [reduceCtorEq, false_iff, not_and]
    intro hn
    rcases Bool.or_eq_true_iff.1 hback with hroot | hle
    · exact absurd (of_decide_eq_true hroot) hn.ne_root
    · exact absurd hn.after (Nat.not_lt.2 (of_decide_eq_true hle))
  rename_i hback
  simp only [Bool.or_eq_true, decide_eq_true_eq, not_or, Nat.not_le] at hback
  have hn : r.Nestable this.index h :=
    ⟨hback.2, not_not.1 fun hlt => hsome (graph?_isNone_iff.2 hlt), hback.1⟩
  cases hat : Table.at? parents h with
  | some other =>
    simp only [reduceCtorEq, false_iff, not_and]
    exact fun _ hnew => absurd hat (by simp [Table.at?_eq_none_iff.2 hnew])
  | none => exact (and_iff_right hn).symm.trans (and_congr_right fun _ =>
      (and_iff_right (Table.at?_eq_none_iff.1 hat)).symm)

/-- The bodies are noted behind those that were noted before. -/
theorem keys_checkBodies {this : Handle} {parents parents' : Table Handle Handle}
    {hs : List Handle} (h : r.checkBodies this parents hs = .ok parents') :
    Table.keys parents' = Table.keys parents ++ hs := by
  induction hs generalizing parents with
  | nil =>
    cases h
    simp
  | cons h' hs ih =>
    obtain ⟨-, hnew, h⟩ := checkBodies_cons_iff.1 h
    rw [ih h, Table.keys_put, if_neg hnew, List.append_assoc]
    rfl

/-- The bodies of a graph pass. -/
theorem exists_checkBodies_iff {this : Handle} {parents : Table Handle Handle} {hs : List Handle} :
    (∃ parents', r.checkBodies this parents hs = .ok parents') ↔
      (∀ h ∈ hs, r.Nestable this.index h) ∧ hs.Nodup ∧ ∀ h ∈ hs, h ∉ Table.keys parents := by
  induction hs generalizing parents with
  | nil => simp [checkBodies]
  | cons h hs ih =>
    simp only [checkBodies_cons_iff, exists_and_left, ih, Table.keys_put, List.forall_mem_cons,
      List.nodup_cons]
    constructor
    · rintro ⟨hn, hnew, hns, hd, hfree⟩
      simp only [if_neg hnew, List.mem_append, List.mem_singleton, not_or] at hfree
      exact ⟨⟨hn, hns⟩, ⟨fun hm => (hfree h hm).2 rfl, hd⟩, hnew, fun k hk => (hfree k hk).1⟩
    · rintro ⟨⟨hn, hns⟩, ⟨hnot, hd⟩, hnew, hfree⟩
      refine ⟨hn, hnew, hns, hd, fun k hk => ?_⟩
      simp only [if_neg hnew, List.mem_append, List.mem_singleton, not_or]
      exact ⟨hfree k hk, fun heq => hnot (heq ▸ hk)⟩

/-- The first graph passes, and then the others with its bodies in the table. -/
theorem checkGraphs_cons_iff {index : Nat} {parents : Table Handle Handle} {f : Flow}
    {rest : List Flow} : r.checkGraphs index parents (f :: rest) = .ok () ↔
      (f.graph.hasNode f.input = true ∧ f.graph.hasNode f.output = true ∧
        f.graph.isAcyclic = true) ∧
      ∃ parents', r.checkBodies ⟨index⟩ parents (bodyHandles f) = .ok parents' ∧
        r.checkGraphs (index + 1) parents' rest = .ok () := by
  rw [checkGraphs]
  split
  · rename_i hmarker
    simp only [reduceCtorEq, false_iff, not_and, and_imp]
    intro hin hout
    simp [hin, hout] at hmarker
  rename_i hmarker
  simp only [Bool.or_eq_true, Bool.not_eq_true', not_or, Bool.not_eq_false] at hmarker
  split
  · rename_i hcyclic
    simp only [reduceCtorEq, false_iff, not_and, and_imp]
    intro _ _ hacyclic
    simp [hacyclic] at hcyclic
  rename_i hcyclic
  simp only [Bool.not_eq_true', Bool.not_eq_false] at hcyclic
  exact (Outcome.bind_eq_ok_iff).trans (and_iff_right ⟨hmarker.1, hmarker.2, hcyclic⟩).symm

/-- The graphs pass. -/
theorem checkGraphs_eq_ok_iff {index : Nat} {parents : Table Handle Handle} {rest : List Flow} :
    r.checkGraphs index parents rest = .ok () ↔
      (∀ (i : Nat) (f : Flow), rest[i]? = some f → r.Passable (index + i) f) ∧
        (rest.flatMap bodyHandles).Nodup ∧
          ∀ h ∈ rest.flatMap bodyHandles, h ∉ Table.keys parents := by
  induction rest generalizing index parents with
  | nil => simp [checkGraphs]
  | cons f rest ih =>
    rw [checkGraphs_cons_iff, List.flatMap_cons, List.nodup_append]
    constructor
    · rintro ⟨⟨hin, hout, hacyclic⟩, parents', hok, hrest⟩
      obtain ⟨hns, hd, hfree⟩ := exists_checkBodies_iff.1 ⟨parents', hok⟩
      obtain ⟨hpass, hd', hfree'⟩ := ih.1 hrest
      simp only [keys_checkBodies hok, List.mem_append, not_or] at hfree'
      refine ⟨fun i g hg => ?_, ⟨hd, hd', fun h hh k hk heq => ?_⟩, fun h hh => ?_⟩
      · cases i with
        | zero =>
          obtain rfl := Option.some.inj hg
          exact ⟨hin, hout, hacyclic, fun b hb => hns b.2 (List.mem_map_of_mem hb)⟩
        | succ i =>
          have := hpass i g hg
          rwa [Nat.succ_add] at this
      · exact (hfree' k hk).2 (heq ▸ hh)
      · rcases List.mem_append.1 hh with hh | hh
        · exact hfree h hh
        · exact (hfree' h hh).1
    · rintro ⟨hpass, ⟨hd, hd', hapart⟩, hfree⟩
      have hf := hpass 0 f rfl
      have hns : ∀ h ∈ bodyHandles f, r.Nestable index h := by
        intro h hh
        obtain ⟨b, hb, rfl⟩ := List.mem_map.1 hh
        exact hf.nestable b hb
      obtain ⟨parents', hok⟩ := (exists_checkBodies_iff : (∃ parents',
          r.checkBodies ⟨index⟩ parents (bodyHandles f) = .ok parents') ↔ _).2
        ⟨hns, hd, fun h hh => hfree h (List.mem_append_left _ hh)⟩
      refine ⟨⟨hf.hasInput, hf.hasOutput, hf.acyclic⟩, parents', hok,
        ih.2 ⟨fun i g hg => ?_, hd', fun h hh => ?_⟩⟩
      · have := hpass (i + 1) g hg
        rwa [Nat.succ_add]
      · rw [keys_checkBodies hok, List.mem_append, not_or]
        exact ⟨hfree h (List.mem_append_right _ hh), fun hm => hapart h hm h hh rfl⟩

/-- The recording passes its check. -/
theorem validate_eq_ok_iff : r.validate = .ok () ↔ r.Checked := by
  have hroot : r.rootGraph?.isNone = true ↔ ¬ r.root.index < r.graphs.length := graph?_isNone_iff
  rw [validate, Outcome.mapError_eq_ok_iff, check]
  split
  · rename_i hnone
    simp only [reduceCtorEq, false_iff]
    exact fun h => hroot.1 hnone h.root_lt
  · rename_i hsome
    rw [checkGraphs_eq_ok_iff]
    constructor
    · rintro ⟨hpass, hd, -⟩
      refine ⟨not_not.1 fun hlt => hsome (hroot.2 hlt), fun i f hf => ?_, hd⟩
      have := hpass i f hf
      rwa [Nat.zero_add] at this
    · rintro ⟨-, hpass, hd⟩
      refine ⟨fun i f hf => ?_, hd, fun h _ => by simp⟩
      rw [Nat.zero_add]
      exact hpass i f hf

end ObjectFlow.Recording
