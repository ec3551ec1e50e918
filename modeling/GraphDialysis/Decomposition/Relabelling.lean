import GraphDialysis.Decomposition.Structure

/-! The decomposition of an isomorphic copy is the copy of the decomposition: tree, parents, depths,
    orphans, slices, remainder components and connector edges all correspond, each as a set.

    A slice is described without its search, by an orphan in it: it holds the orphans reached from
    that one, and their neighbours (`SliceAt`). So it has a copy wherever the orphan has one. -/

namespace Dialysis
open Lib Lib.Bfs

/-- A slice as sets. -/
abbrev SliceSets (n : ℕ) := ℤ × Finset (Fin n) × Finset (Fin n)

def sliceSets {n : ℕ} (s : Slice n) : SliceSets n :=
  (s.level, s.orphans.toFinset, s.attachments.toFinset)

/-- The copy of a slice. -/
def copySlice {n m : ℕ} (e : Fin n ≃ Fin m) (t : SliceSets n) : SliceSets m :=
  (t.1, t.2.1.map e.toEmbedding, t.2.2.map e.toEmbedding)

/-- One decomposition is the image of another along a bijection of the ids. -/
structure IsImage {n m : ℕ} (e : Fin n ≃ Fin m) (D : Decomposition n) (D' : Decomposition m) :
    Prop where
  root : D'.root = e D.root
  treeVerts : D'.treeVerts.1.toFinset = D.treeVerts.1.toFinset.map e.toEmbedding
  parent : ∀ v, D'.parent (e v) = (D.parent v).map e
  depth : ∀ v, D'.depth (e v) = D.depth v
  orphans : D'.orphans.toFinset = D.orphans.toFinset.map e.toEmbedding
  slices : (D'.slices.map sliceSets).toFinset =
    (D.slices.map sliceSets).toFinset.image (copySlice e)
  remainderComps : (D'.remainderComps.map fun c => c.1.toFinset).toFinset =
    (D.remainderComps.map fun c => c.1.toFinset).toFinset.image (·.map e.toEmbedding)
  connectorEdges : D'.connectorEdges.toFinset = D.connectorEdges.toFinset.image (Prod.map e e)

/-- Sets that correspond pointwise. -/
theorem toFinset_eq_map {V W : Type*} [DecidableEq V] [DecidableEq W] {e : V ≃ W} {l : List V}
    {l' : List W} (h : ∀ v, e v ∈ l' ↔ v ∈ l) : l'.toFinset = l.toFinset.map e.toEmbedding := by
  ext w
  obtain ⟨v, rfl⟩ := e.surjective w
  rw [List.mem_toFinset, h, Finset.mem_map_equiv, e.symm_apply_apply, List.mem_toFinset]

namespace Decompose
variable {g h : Graph}

/-- The slice that an orphan is in. -/
structure SliceAt (g : Graph) (root o : Fin g.n) (t : SliceSets g.n) : Prop where
  level : t.1 = depth g root o
  orphans : ∀ v, v ∈ t.2.1 ↔ Reach (siblings g (levelOrphans g root (depth g root o))) o v
  attachments : ∀ v, v ∈ t.2.2 ↔ ∃ u ∈ t.2.1, v ∈ g.adj u

theorem SliceAt.unique {root o : Fin g.n} {t t' : SliceSets g.n} (h : SliceAt g root o t)
    (h' : SliceAt g root o t') : t = t' := by
  have horphans : t.2.1 = t'.2.1 := Finset.ext fun v => (h.orphans v).trans (h'.orphans v).symm
  have hattachments : t.2.2 = t'.2.2 := Finset.ext fun v => by
    rw [h.attachments, h'.attachments, horphans]
  exact Prod.ext (h.level.trans h'.level.symm) (Prod.ext horphans hattachments)

theorem sliceAt_of_mem_component {root o : Fin g.n} {comp : List (Fin g.n)} {l : ℤ}
    (hcomp : comp ∈ components (siblings g (levelOrphans g root l)) g.n (levelOrphans g root l))
    (ho : o ∈ comp) (hl : depth g root o = l) : SliceAt g root o (sliceSets
      ⟨l, comp.insertionSort (· ≤ ·), (comp.flatMap g.adj).dedup.insertionSort (· ≤ ·)⟩) := by
  subst hl
  refine ⟨rfl, fun v => ?_, fun v => ?_⟩
  · rw [← (siblings_components _).isClass comp hcomp o ho]
    simp [sliceSets]
  · simp [sliceSets]

theorem sliceAt_of_mem {root : Fin g.n} {s : Slice g.n} (hs : s ∈ slices g root) :
    ∃ o ∈ orphans g root, SliceAt g root o (sliceSets s) := by
  obtain ⟨l, comp, hcomp, rfl⟩ := mem_slices.mp hs
  obtain ⟨o, ho, hoc⟩ := (siblings_components (levelOrphans g root l)).meets comp hcomp
  obtain ⟨hmem, hl⟩ := List.mem_filter.mp ho
  exact ⟨o, hmem, sliceAt_of_mem_component hcomp hoc (of_decide_eq_true hl)⟩

theorem exists_slice {root o : Fin g.n} (ho : o ∈ orphans g root) :
    ∃ s ∈ slices g root, SliceAt g root o (sliceSets s) := by
  have hol : o ∈ levelOrphans g root (depth g root o) := List.mem_filter.mpr ⟨ho, by simp⟩
  obtain ⟨comp, hcomp, hoc⟩ := (siblings_components _).covered o hol
  exact ⟨_, mem_slices.mpr ⟨_, comp, hcomp, rfl⟩, sliceAt_of_mem_component hcomp hoc rfl⟩

theorem mem_connectorEdges {root v w : Fin g.n} : (v, w) ∈ connectorEdges g root ↔
    inTree g root v = true ∧ w ∈ g.adj v ∧ inRemainder g root w = true := by
  simp only [connectorEdges, List.mem_flatMap, List.mem_map, List.mem_filter, Prod.mk.injEq,
    mem_treeVerts]
  constructor
  · rintro ⟨_, hv, _, hw, rfl, rfl⟩
    exact ⟨hv, hw⟩
  · rintro ⟨hv, hw⟩
    exact ⟨v, hv, w, hw, rfl, rfl⟩

/-! ### Copies -/

section Copy
variable {e : Fin g.n ≃ Fin h.n} (he : Graph.IsIso g h e) (r : Fin g.n)
include he

theorem depth_iso (v : Fin g.n) : depth h (e r) (e v) = depth g r v := by
  rw [depth, depth, level_iso he]

variable [g.Simple] [h.Simple]

theorem parent_iso (v : Fin g.n) :
    (grow h (e r) (lastLevel h (e r))).2 (e v) = ((grow g r (lastLevel g r)).2 v).map e := by
  refine Option.ext fun q => ?_
  obtain ⟨p, rfl⟩ := e.surjective q
  rw [parent_iff, Option.map_eq_some_iff]
  simp only [e.injective.eq_iff, exists_eq_right]
  rw [parent_iff, inTree_iso he, inTree_iso he, level_iso he, level_iso he, ← he v p]

theorem mem_orphans_iso (v : Fin g.n) : e v ∈ orphans h (e r) ↔ v ∈ orphans g r := by
  simp only [orphans, List.mem_filter, List.mem_finRange, true_and, inTree_iso he,
    hasNonTreeNeighbor_iso he]

theorem mem_connectorEdges_iso (v w : Fin g.n) :
    (e v, e w) ∈ connectorEdges h (e r) ↔ (v, w) ∈ connectorEdges g r := by
  rw [mem_connectorEdges, mem_connectorEdges, inTree_iso he, inRemainder_iso he, ← he v w]

theorem mem_levelOrphans_iso (l : ℤ) (v : Fin g.n) :
    e v ∈ levelOrphans h (e r) l ↔ v ∈ levelOrphans g r l := by
  rw [levelOrphans, levelOrphans, List.mem_filter, List.mem_filter, mem_orphans_iso he,
    depth_iso he]

theorem mem_siblings_iso (l : ℤ) (v w : Fin g.n) : e w ∈ siblings h (levelOrphans h (e r) l) (e v) ↔
    w ∈ siblings g (levelOrphans g r l) v := by
  rw [mem_siblings, mem_siblings, mem_levelOrphans_iso he]
  refine and_congr_right fun _ => ⟨?_, ?_⟩
  · rintro ⟨att, hv, hw⟩
    obtain ⟨a, rfl⟩ := e.surjective att
    exact ⟨a, (he v a).mpr hv, (he w a).mpr hw⟩
  · rintro ⟨a, hv, hw⟩
    exact ⟨e a, (he v a).mp hv, (he w a).mp hw⟩

theorem reach_siblings_iso (l : ℤ) (v w : Fin g.n) :
    Reach (siblings h (levelOrphans h (e r) l)) (e v) (e w) ↔
      Reach (siblings g (levelOrphans g r l)) v w := by
  refine ⟨fun hr => ?_, Reach.map fun x y hy => (mem_siblings_iso he r l x y).mpr hy⟩
  have := Reach.map (f := e.symm) (fun x y hy => by
    rw [← mem_siblings_iso he]
    simpa using hy) hr
  simpa using this

theorem sliceAt_copy {o : Fin g.n} {t : SliceSets g.n} (ht : SliceAt g r o t) :
    SliceAt h (e r) (e o) (copySlice e t) := by
  refine ⟨ht.level.trans (depth_iso he r o).symm, fun w => ?_, fun w => ?_⟩
  · obtain ⟨v, rfl⟩ := e.surjective w
    rw [copySlice, Finset.mem_map_equiv, e.symm_apply_apply, ht.orphans, depth_iso he,
      reach_siblings_iso he]
  · obtain ⟨v, rfl⟩ := e.surjective w
    rw [copySlice, Finset.mem_map_equiv, e.symm_apply_apply, ht.attachments]
    constructor
    · rintro ⟨u, hu, hv⟩
      exact ⟨e u, Finset.mem_map_of_mem _ hu, (he u v).mp hv⟩
    · rintro ⟨x, hx, hv⟩
      obtain ⟨u, hu, rfl⟩ := Finset.mem_map.mp hx
      exact ⟨u, hu, (he u v).mpr hv⟩

theorem slices_iso : ((slices h (e r)).map sliceSets).toFinset =
    ((slices g r).map sliceSets).toFinset.image (copySlice e) := by
  ext t
  simp only [List.mem_toFinset, Finset.mem_image, List.mem_map]
  constructor
  · rintro ⟨s', hs', rfl⟩
    obtain ⟨o', ho', hat⟩ := sliceAt_of_mem hs'
    obtain ⟨o, rfl⟩ := e.surjective o'
    obtain ⟨s, hs, hsat⟩ := exists_slice ((mem_orphans_iso he r o).mp ho')
    exact ⟨_, ⟨s, hs, rfl⟩, (sliceAt_copy he r hsat).unique hat⟩
  · rintro ⟨_, ⟨s, hs, rfl⟩, rfl⟩
    obtain ⟨o, ho, hat⟩ := sliceAt_of_mem hs
    obtain ⟨s', hs', hsat⟩ := exists_slice ((mem_orphans_iso he r o).mpr ho)
    exact ⟨s', hs', hsat.unique (sliceAt_copy he r hat)⟩

theorem isImage_dialysis : IsImage e (dialysis g r) (dialysis h (e r)) where
  root := rfl
  treeVerts := toFinset_eq_map (mem_treeVerts_iso he r)
  parent := parent_iso he r
  depth := depth_iso he r
  orphans := toFinset_eq_map (mem_orphans_iso he r)
  slices := slices_iso he r
  remainderComps := by
    ext c
    have hperm := (remainderComps_iso he r).mem_iff (a := c)
    rw [List.mem_toFinset, Finset.mem_image]
    refine hperm.symm.trans ?_
    simp only [List.mem_map, List.mem_toFinset, exists_exists_and_eq_and, dialysis]
  connectorEdges := by
    ext ⟨v', w'⟩
    obtain ⟨v, rfl⟩ := e.surjective v'
    obtain ⟨w, rfl⟩ := e.surjective w'
    rw [List.mem_toFinset, Finset.mem_image]
    refine (mem_connectorEdges_iso he r v w).trans ⟨fun hvw => ?_, ?_⟩
    · exact ⟨(v, w), List.mem_toFinset.mpr hvw, rfl⟩
    · rintro ⟨⟨x, y⟩, hxy, heq⟩
      obtain ⟨hx, hy⟩ := Prod.mk.inj heq
      rw [← e.injective hx, ← e.injective hy]
      exact List.mem_toFinset.mp hxy

end Copy
end Decompose

/-- Relabelling the graph relabels its decomposition. -/
theorem dialysis_relabeled (g : Graph) [g.Simple] (perm : Equiv.Perm (Fin g.n)) (r : Fin g.n) :
    IsImage perm (dialysis g r) (dialysis (g.relabeled perm) (perm r)) :=
  Decompose.isImage_dialysis (g.relabeled_isIso perm) r

/-- On a cycle of four vertices with two neighbours exchanged. -/
theorem dialysis_relabeled_fourCycle :
    IsImage (Equiv.swap (0 : Fin 4) (1 : Fin 4))
      (dialysis (Graph.ofEdges 4 [(0, 1), (1, 2), (2, 3), (0, 3)]) (0 : Fin 4))
      (dialysis ((Graph.ofEdges 4 [(0, 1), (1, 2), (2, 3), (0, 3)]).relabeled
        (Equiv.swap (0 : Fin 4) (1 : Fin 4))) (Equiv.swap (0 : Fin 4) (1 : Fin 4) (0 : Fin 4))) :=
  dialysis_relabeled (Graph.ofEdges 4 [(0, 1), (1, 2), (2, 3), (0, 3)]) (Equiv.swap (0 : Fin 4) (1 : Fin 4))
    (0 : Fin 4)

end Dialysis
