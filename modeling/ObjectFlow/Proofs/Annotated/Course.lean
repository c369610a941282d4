import ObjectFlow.Proofs.Annotated.Build
import ObjectFlow.Proofs.Annotated.Neighbours

/-!
# From the flow graph to the annotated graph

What happens to a flat flow graph on its way to its annotated graph is kept in one record
(`Course`), and there is one for every flat flow graph (`exists_course`).

A statement about annotated graphs refers to several stages at once: which identities were issued in
the draft, what was kept when actions were collapsed, which entities the ledger holds, and what was
trimmed in the end. With the record at hand each such statement is one of its fields and needs no
stage to be run again.
-/

namespace ObjectFlow.Annotated

open ObjectFlow.Graph

/-- The graph as it is shown. -/
def shownGraph (t : Graph Node Thread) : AnnotatedGraph :=
  t.mapData (fun _ n => n) fun e => e.data.link

/-- The nodes are shown as they are. -/
theorem node?_shownGraph (t : Graph Node Thread) (n : NodeId) :
    (shownGraph t).node? n = t.node? n :=
  (Table.at?_map (fun _ x => x) t.nodes n).trans Option.map_id'

/-- The edges are shown between the same nodes. -/
theorem step_shownGraph {t : Graph Node Thread} {u v : NodeId} :
    (shownGraph t).Step u v ↔ t.Step u v := step_mapData

/-- An edge is shown with what its thread shows. -/
theorem mem_edges_shownGraph {t : Graph Node Thread} {e' : Edge Link} :
    e' ∈ (shownGraph t).edges ↔ ∃ e ∈ t.edges, e' = ⟨e.id, e.source, e.target, e.data.link⟩ := by
  simp only [shownGraph, mapData, List.mem_map, eq_comm]

/-- The course that a flow graph takes on its way to its annotated graph. -/
structure Course (f : Flow) (s : Supply) where
  drafted : Draft
  issuedAt : Supply
  collapsed : Draft
  collapsedAt : Supply
  reified : Graph Node Thread
  ledger : Draft.Ledger
  last : Supply
  draftOf : drafted.DraftOf f
  issued : drafted.Issued f s issuedAt
  collapses : drafted.Collapsed collapsed collapsedAt f.input f.output
  reify_eq : collapsed.reify collapsedAt = .ok (reified, last)
  reifies : Draft.Reified collapsed ledger reified last

/-- A flat flow graph has a course, and the annotated graph is the end of it. -/
theorem exists_course {f : Flow} (h : f.Flat) (hin : f.input ∈ f.graph.nodeIds)
    (hout : f.output ∈ f.graph.nodeIds) {s : Supply} (hb : f.graph.Before s) :
    ∃ c : Course f s,
      AnnotatedGraph.ofFlow f s = .ok (shownGraph (trim c.reified), c.last) := by
  obtain ⟨d, s₁, s₀, hok₁, hd, hb₁, hissued⟩ := Draft.ofFlow_issued h hb
  obtain ⟨d', s₂, hok₂, hcol⟩ := Draft.collapse_shaped ⟨hd.wellFormed, hb₁, hd.acyclic h.acyclic⟩
    (hd.shaped h hin hout)
  obtain ⟨r, s₃, L, hok₃, hr⟩ := Draft.reify_ledger hcol.shaped.tidy hcol.sound
  exact ⟨⟨d, s₀, d', s₂, r, L, s₃, hd, hissued, hcol, hok₃, hr⟩,
    AnnotatedGraph.ofFlow_eq_ok hok₁ hok₂ hok₃⟩

namespace Course

variable {f : Flow} {s : Supply} (c : Course f s)

theorem trimmed : Trimmed c.reified (trim c.reified) := trim_spec c.reifies.sound.wellFormed

/-- No marker is left: nothing leads to the one, and nothing goes on from the other. -/
theorem not_mem_of_marker {n : NodeId} (hn : n = f.input ∨ n = f.output) :
    n ∉ (trim c.reified).nodeIds := by
  have hs := c.collapses.shaped
  have hmark : n ∈ c.collapsed.markers := by simpa [hs.markers_eq] using hn
  rw [c.reifies.mem_trimmed_action hs c.trimmed (hs.marker_mem n hmark), hs.marker_plain n hmark]
  rintro (hno | ⟨⟨u, hu⟩, v, hv⟩)
  · cases hno
  · obtain ⟨o, hu⟩ := Draft.step_iff_carries.1 hu
    obtain ⟨o', hv⟩ := Draft.step_iff_carries.1 hv
    exact hn.elim (hs.target_ne u n o hu) (hs.source_ne n v o' hv)

end Course

end ObjectFlow.Annotated
