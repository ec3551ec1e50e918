import GraphDialysis.Decomposition.MappedStore
import GraphDialysis.Refinement.Equivariance

/-! `initialPhase` with a precomputed store and without one. A phase asks the store only about vertices
    of larger cells, which both stores hold, so two stores that hold the vertices that need work are
    the same to it (`anchorCells_congr`, `rootKeys_congr`). `decompositionStore_returns` puts this on
    top of the mapped file. -/

namespace Dialysis.Refinement
open Lib Dialysis.Graph Ahu Decompose

/-! ### Keys that agree -/

section
variable {n : ℕ} {key key' : Fin n → KString}

theorem groupBy_congr {cls : List (Fin n)} (h : ∀ v ∈ cls, key v = key' v) :
    groupBy key cls = groupBy key' cls := by
  refine List.foldl_ext _ _ _ fun groups v hv => ?_
  rw [h v hv]

theorem anchor_congr {cls : List (Fin n)} (h : ∀ v ∈ cls, key v = key' v) (chi : Fin n → Content) :
    anchor chi cls key = anchor chi cls key' := by
  match cls with
  | [] => rfl
  | [_] => rfl
  | first :: second :: rest =>
    rw [anchor, anchor, sortedGroups, sortedGroups, groupBy_congr h]

/-- A sweep looks at the keys of larger cells only. -/
theorem anchorCells_congr {keyOf keyOf' : (Fin n → Content) → Fin n → KString}
    {cells : List (List (Fin n))}
    (h : ∀ cell ∈ cells, 1 < cell.length → ∀ chi, ∀ v ∈ cell, keyOf chi v = keyOf' chi v)
    (chi : Fin n → Content) : anchorCells keyOf cells chi = anchorCells keyOf' cells chi := by
  refine List.foldl_ext _ _ _ fun s cell hc => ?_
  rw [anchorCell, anchorCell]
  split
  · rfl
  · rename_i hlen
    rw [anchor_congr (h cell hc (not_le.mp hlen) s.1)]

end

/-! ### Stores that hold the same vertices -/

section
variable {g : Graph} [g.Simple] {chi : Fin g.n → Content} {store store' : DecompositionStore g}
  {needed : Fin g.n → Bool} {pool : InternPool}

theorem rootKeys_congr (h : ∀ v, needed v = true → store.has v = true)
    (h' : ∀ v, needed v = true → store'.has v = true) :
    rootKeys chi store needed pool = rootKeys chi store' needed pool := by
  have hstep : rootKeyStep chi store needed = rootKeyStep chi store' needed := by
    funext s v
    rw [rootKeyStep, rootKeyStep]
    split
    · rename_i hv
      rw [rootKey_eq (h v hv), rootKey_eq (h' v hv)]
    · rfl
  rw [rootKeys, rootKeys, hstep]

/-- What is attached is the decomposition, whichever store it comes from. -/
theorem withDecompositions_eq (p : StablePartition g.n) :
    withDecompositions store p = { p with decompositionOf := some (dialysis g) } := by
  rw [withDecompositions]
  congr 2
  funext v
  cases hv : store.record v with
  | none => rfl
  | some d => exact store.record_eq v d hv

theorem phases23_congr {ids : Fin g.n → ℕ}
    (h : ∀ v, needsWork (stablePartitionFromNativeColors ids) v = true → store.has v = true)
    (h' : ∀ v, needsWork (stablePartitionFromNativeColors ids) v = true → store'.has v = true) :
    phases23 store (stablePartitionFromNativeColors ids) =
      phases23 store' (stablePartitionFromNativeColors ids) := by
  have hcells : ∀ chi,
      anchorCells (remainderKeyOf store) (stablePartitionFromNativeColors ids).cells chi =
        anchorCells (remainderKeyOf store') (stablePartitionFromNativeColors ids).cells chi :=
    anchorCells_congr fun cell hc hlen chi v hv => by
      have hwork := needsWork_of_mem hc hlen hv
      rw [remainderKeyOf_eq (h v hwork), remainderKeyOf_eq (h' v hwork)]
  rw [phases23, phases23, hcells]

end

/-! ### The initial phase -/

section
variable {g : Graph} [g.Simple]

/-- A store that covers every vertex changes nothing. -/
theorem initialPhase_covers {store : DecompositionStore g} (hcovers : store.coversEveryVertex = true)
    (hsize : ∀ v, DecompositionStore.recordSize (dialysis g v) ≤ DecompositionStore.segmentSize)
    (chi : Fin g.n → Content) (flag : Bool) (pool : InternPool) :
    initialPhase g chi flag (some store) pool = initialPhase g chi flag none pool := by
  rw [initialPhase, initialPhase]
  dsimp only
  split
  · rfl
  · obtain ⟨store', hbuild⟩ : ∃ store',
        DecompositionStore.build g (some (needsWork (colorRefine1WL g chi))) = .ok store' :=
      DecompositionStore.build_ok fun v _ => hsize v
    have hhas : ∀ v, needsWork (colorRefine1WL g chi) v = true → store.has v = true := fun v _ =>
      DecompositionStore.has_of_covers hcovers v
    have hhas' : ∀ v, needsWork (colorRefine1WL g chi) v = true → store'.has v = true := fun v hv =>
      (DecompositionStore.has_build hbuild v).trans hv
    rw [chooseStore, if_pos hcovers, chooseStore, hbuild]
    dsimp only [Except.bind]
    rw [rootKeys_congr hhas hhas']
    cases rootKeys chi store' (needsWork (colorRefine1WL g chi)) pool with
    | error e => rfl
    | ok keys =>
      have hfiner : ∀ v, needsWork (phase1 keys (colorRefine1WL g chi)) v = true →
          needsWork (colorRefine1WL g chi) v = true := fun v hv =>
        needsWork_of_refines (phase1Ids_refines keys (stableInts g chi)) hv
      have hphases : phases23 store (phase1 keys (colorRefine1WL g chi)) =
          phases23 store' (phase1 keys (colorRefine1WL g chi)) :=
        phases23_congr (fun v hv => hhas v (hfiner v hv)) fun v hv => hhas' v (hfiner v hv)
      dsimp only
      rw [hphases, withDecompositions_eq, withDecompositions_eq]

/-- The store returns what was stored, in whatever order the builders finish: the records occupy
    disjoint byte ranges, none crosses a segment end, every needed vertex is read back by each of
    the three readers, and a store of all vertices changes nothing in `initialPhase`. -/
theorem decompositionStore_returns (g : Graph) [g.Simple] (needed : Option (Fin g.n → Bool))
    (order : List (Fin g.n)) (horder : order.Perm (MappedStore.neededVertices needed))
    (hsize : ∀ v, MappedStore.isNeeded needed v = true →
      DecompositionStore.recordSize (dialysis g v) ≤ DecompositionStore.segmentSize) :
    ∃ store, MappedStore.build g needed order = .ok store ∧
      (∀ u v, MappedStore.isNeeded needed u = true → MappedStore.isNeeded needed v = true → u ≠ v →
        Disjoint (MappedStore.byteRange g store u) (MappedStore.byteRange g store v)) ∧
      (∀ v, MappedStore.isNeeded needed v = true →
        store.offsets v / DecompositionStore.segmentSize =
          (store.offsets v + DecompositionStore.recordSize (dialysis g v) - 1) /
            DecompositionStore.segmentSize) ∧
      (∀ v, MappedStore.isNeeded needed v = true →
        store.get v = some (dialysis g v).toInts ∧
        store.remainderComponents v = (store.get v).map IntDecomposition.remainderComps ∧
        store.treeAndOrphanCount v =
          (store.get v).map fun dec => (dec.treeVerts, (dec.orphans.length : ℤ))) ∧
      ∃ table, DecompositionStore.build g needed = .ok table ∧ store.Implements table ∧
        ((∀ v, MappedStore.isNeeded needed v = true) →
          ∀ (chi : Fin g.n → Content) (flag : Bool) (pool : InternPool),
            initialPhase g chi flag (some table) pool = initialPhase g chi flag none pool) := by
  obtain ⟨store, hbuild, hhas, hapart, hwhole, hholds⟩ := MappedStore.build_spec needed horder hsize
  refine ⟨store, hbuild, hapart, hwhole, fun v hv => ?_, ?_⟩
  · have h := hholds v hv
    exact ⟨h.get, by rw [h.remainderComponents, h.get]; rfl,
      by rw [h.treeAndOrphanCount, h.get]; rfl⟩
  · obtain ⟨table, htable⟩ : ∃ table, DecompositionStore.build g needed = .ok table :=
      DecompositionStore.build_ok hsize
    have hneeded : ∀ v, table.has v = MappedStore.isNeeded needed v :=
      DecompositionStore.has_build htable
    refine ⟨table, htable, MappedStore.implements_of_holds (fun v => by rw [hhas, hneeded])
      fun v hv => hholds v ((hneeded v).symm.trans hv), fun hall chi flag pool => ?_⟩
    exact initialPhase_covers (List.all_eq_true.mpr fun v _ => (hneeded v).trans (hall v))
      (fun v => hsize v (hall v)) chi flag pool

/-- A single edge, its second end finishing first. -/
theorem decompositionStore_returns_edge : ∃ store,
    MappedStore.build (ofEdges 2 [(0, 1)]) none [(1 : Fin 2), (0 : Fin 2)] = .ok store ∧
      store.get (0 : Fin 2) = some (dialysis (ofEdges 2 [(0, 1)]) (0 : Fin 2)).toInts := by
  obtain ⟨store, hbuild, -, -, hget, -⟩ := decompositionStore_returns (ofEdges 2 [(0, 1)]) none [(1 : Fin 2), (0 : Fin 2)]
    (by decide) (by decide)
  exact ⟨store, hbuild, (hget (0 : Fin 2) rfl).1⟩

end

end Dialysis.Refinement
