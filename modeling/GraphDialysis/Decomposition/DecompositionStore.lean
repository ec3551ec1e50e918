import GraphDialysis.Decomposition.Dialysis

/-! `DecompositionStore`: the decompositions of the vertices that need one, computed once. The mapped
    file behind it is a table here, whose records are the decompositions themselves; what is kept of
    the file format is the size limit on a record, which `build` enforces. -/

namespace Dialysis
variable {g : Graph} [g.Simple]

/-- A table of `dialysis(g, v)`; a vertex that the mask left out has no record. -/
structure DecompositionStore (g : Graph) [g.Simple] where
  record : Fin g.n → Option (Decomposition g.n)
  record_eq : ∀ v d, record v = some d → d = dialysis g v

namespace DecompositionStore

/-- `has`. -/
def has (store : DecompositionStore g) (v : Fin g.n) : Bool := (store.record v).isSome

/-- The store has a record for every vertex. -/
def coversEveryVertex (store : DecompositionStore g) : Bool := (List.finRange g.n).all store.has

/-- Tree vertices and orphan count only, what Phase 1 needs. -/
def treeAndOrphanCount (store : DecompositionStore g) (v : Fin g.n) :
    Option (VertexList g.n × ℕ) :=
  (store.record v).map fun dec => (dec.treeVerts, dec.orphans.length)

/-- Remainder components only, what Phase 2 needs. -/
def remainderComponents (store : DecompositionStore g) (v : Fin g.n) : Option (List (VertexList g.n)) :=
  (store.record v).map Decomposition.remainderComps

/-- Ceiling on the size of a record, 1 GiB. -/
def segmentSize : ℕ := 2 ^ 30

/-- Bytes of an int array with its length. -/
def intsSize {α : Type*} (arr : List α) : ℕ := 4 + arr.length * 4

/-- Bytes of the record of a decomposition. -/
def recordSize {n : ℕ} (dec : Decomposition n) : ℕ :=
  intsSize dec.treeVerts.1 + n * 4 + n * 4 + intsSize dec.orphans + 4 +
    (dec.slices.map fun s => 4 + intsSize s.orphans + intsSize s.attachments).sum + 4 +
    (dec.remainderComps.map fun c => intsSize c.1).sum + 4 + dec.connectorEdges.length * 8

/-- Computes and stores dialysis(g, v) for every needed `v`; no mask means all. -/
def build (g : Graph) [g.Simple] (needed : Option (Fin g.n → Bool)) :
    Except String (DecompositionStore g) :=
  let hasVertex := fun v => needed.elim true fun mask => mask v
  match (List.finRange g.n).find? fun v => hasVertex v && segmentSize < recordSize (dialysis g v) with
  | some v => .error ("single decomposition record (" ++ toString (recordSize (dialysis g v)) ++
      " bytes) exceeds SEGMENT_SIZE -- n=" ++ toString g.n ++
      " is too large for this store's on-disk format")
  | none => .ok
    { record := fun v => if hasVertex v then some (dialysis g v) else none
      record_eq := fun v d h => by
        split at h
        · exact (Option.some.inj h).symm
        · cases h }

theorem record_of_has {store : DecompositionStore g} {v : Fin g.n} (h : store.has v = true) :
    store.record v = some (dialysis g v) := by
  obtain ⟨d, hd⟩ := Option.isSome_iff_exists.mp h
  rw [hd, store.record_eq v d hd]

theorem has_of_covers {store : DecompositionStore g} (h : store.coversEveryVertex = true)
    (v : Fin g.n) : store.has v = true := List.all_eq_true.mp h v (List.mem_finRange v)

/-- What a successful build has a record for. -/
theorem has_build {needed : Option (Fin g.n → Bool)} {store : DecompositionStore g}
    (h : build g needed = .ok store) (v : Fin g.n) :
    store.has v = needed.elim true fun mask => mask v := by
  rw [build] at h
  dsimp only at h
  split at h
  · cases h
  · cases h
    rw [has]
    dsimp only
    split
    · rename_i hv; rw [hv]; rfl
    · rename_i hv; rw [Bool.not_eq_true] at hv; rw [hv]; rfl

/-- A build succeeds unless a record that it needs is too large. -/
theorem build_ok {needed : Option (Fin g.n → Bool)}
    (h : ∀ v, (needed.elim true fun mask => mask v) = true → recordSize (dialysis g v) ≤ segmentSize) :
    ∃ store, build g needed = .ok store := by
  have hnone : ((List.finRange g.n).find? fun v => (needed.elim true fun mask => mask v) &&
      decide (segmentSize < recordSize (dialysis g v))) = none :=
    List.find?_eq_none.mpr fun v _ => by
      have := h v
      simp only [Bool.and_eq_true, decide_eq_true_eq, not_and]
      intro hv
      exact not_lt.mpr (this hv)
  rw [build]
  dsimp only
  rw [hnone]
  exact ⟨_, rfl⟩

end DecompositionStore

end Dialysis
