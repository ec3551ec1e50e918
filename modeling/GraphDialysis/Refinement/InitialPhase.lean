import GraphDialysis.Refinement.Anchor
import GraphDialysis.Refinement.RootKeys

/-! `initialPhase`: 1-WL, then the cells anchored by the trees of their vertices, then by their
    remainders. `initialPhase_run` splits a run into the numbers of its phases; `Run.corr` relates
    two runs on isomorphic inputs phase by phase. What may differ between the two is the order of
    the Phase 1 keys inside a cell, since it is that of the pool's ids, and so the agreement of
    these orders is what `Run.corr` asks for. -/

namespace Dialysis.Refinement
open Lib Dialysis.Graph Ahu

/-! ### The function -/

section
variable {g : Graph} [g.Simple]

/-- `needsWork`. -/
def needsWork {n : ℕ} (p0 : StablePartition n) (v : Fin n) : Bool :=
  p0.cells.any fun cell => 1 < cell.length && cell.contains v

/-- The store given, if it covers every vertex, else a new one for the vertices that need work. -/
def chooseStore (needed : Fin g.n → Bool) :
    Option (DecompositionStore g) → Except String (DecompositionStore g)
  | some store =>
    if store.coversEveryVertex then .ok store
    else .error ("precomputedStore must cover every vertex (built with a null/all-true " ++
      "`needed` mask) -- this call's own needsWork mask can differ from whatever built the store")
  | none => DecompositionStore.build g (some needed)

/-- `treeOrphanKey[v]!!.serialize()`; the vertices of larger cells have a key. -/
def rootKeyString {n : ℕ} (keys : RootKeys n) (v : Fin n) : KString :=
  ((keys.treeOrphanKey v).map Content.serialize).getD []

/-- The stable colours of a remainder component, seeded with the colours reached so far. -/
def componentKey (chi2 : Fin g.n → Content) (comp : VertexList g.n) : Content :=
  .mset (List.ofFn (colorRefine1WLColors (g.induced comp) fun localId => chi2 (comp.1.get localId)))

/-- `remainderKeyOf`; the vertices of larger cells have a record. -/
def remainderKeyOf (store : DecompositionStore g) (chi2 : Fin g.n → Content) (v : Fin g.n) : KString :=
  (Content.mset (((store.remainderComponents v).getD []).map (componentKey chi2))).serialize

/-- Attaches the store as the partition's decomposition lookup. -/
def withDecompositions (store : DecompositionStore g) (p : StablePartition g.n) :
    StablePartition g.n :=
  { p with decompositionOf := some fun v => (store.record v).getD (dialysis g v) }

/-- Phase 1: tree/orphan anchoring. -/
def phase1 (keys : RootKeys g.n) (p0 : StablePartition g.n) : StablePartition g.n :=
  colorRefine1WL g (anchorCells (fun _ => rootKeyString keys) p0.cells p0.color).1

/-- Phases 2 and 3: remainder anchoring, and final propagation where it split something. -/
def phases23 (store : DecompositionStore g) (p1 : StablePartition g.n) : StablePartition g.n :=
  let swept := anchorCells (remainderKeyOf store) p1.cells p1.color
  if swept.2 then colorRefine1WL g swept.1 else p1

end

/-- The initial phase. -/
def initialPhase (g : Graph) [g.Simple] (chi : Fin g.n → Content) (runPhases23 : Bool)
    (precomputedStore : Option (DecompositionStore g)) (pool : InternPool) :
    Except String (StablePartition g.n × InternPool) :=
  let p0 := colorRefine1WL g chi
  if p0.isDiscrete then .ok (p0, pool)
  else
    (chooseStore (needsWork p0) precomputedStore).bind fun store =>
      (rootKeys chi store (needsWork p0) pool).bind fun keys =>
        let p1 := phase1 keys p0
        .ok (withDecompositions store
          (if p1.isDiscrete || !runPhases23 then p1 else phases23 store p1), keys.pool)

/-! ### Which vertices need work -/

section
variable {n m : ℕ} {ids : Fin n → ℕ} {ids' : Fin m → ℕ}

theorem needsWork_iff {v : Fin n} : needsWork (stablePartitionFromNativeColors ids) v = true ↔
    1 < ((List.finRange n).filter fun w => ids w = ids v).length := by
  rw [needsWork, List.any_eq_true]
  simp only [Bool.and_eq_true, decide_eq_true_eq, List.contains_iff_mem]
  constructor
  · rintro ⟨cell, hc, hlen, hv⟩
    obtain ⟨u, rfl⟩ := mem_cellsOf.mp hc
    rw [← of_decide_eq_true (List.mem_filter.mp hv).2] at hlen
    exact hlen
  · exact fun hlen => ⟨_, mem_cellsOf.mpr ⟨v, rfl⟩, hlen, by simp⟩

theorem needsWork_of_mem {cell : List (Fin n)} (hc : cell ∈ cellsOf ids) (hlen : 1 < cell.length)
    {v : Fin n} (hv : v ∈ cell) : needsWork (stablePartitionFromNativeColors ids) v = true := by
  rw [needsWork, List.any_eq_true]
  exact ⟨cell, hc, by simp [hlen, hv]⟩

theorem isDiscrete_iff_needsWork : (stablePartitionFromNativeColors ids).isDiscrete = true ↔
    ∀ v, needsWork (stablePartitionFromNativeColors ids) v = false := by
  rw [isDiscrete_iff]
  simp only [← Bool.not_eq_true, needsWork_iff, not_lt]
  constructor
  · exact fun h v => h _ (mem_cellsOf.mpr ⟨v, rfl⟩)
  · rintro h cell hc
    obtain ⟨v, rfl⟩ := mem_cellsOf.mp hc
    exact h v

/-- In a finer partition fewer vertices need work. -/
theorem needsWork_of_refines {fine : Fin n → ℕ} (h : Refines fine ids) {v : Fin n}
    (hv : needsWork (stablePartitionFromNativeColors fine) v = true) :
    needsWork (stablePartitionFromNativeColors ids) v = true := by
  rw [needsWork_iff] at hv ⊢
  refine hv.trans_le (List.Sublist.length_le ?_)
  refine List.monotone_filter_right _ fun w hw => ?_
  rw [decide_eq_true_eq] at hw ⊢
  exact h _ _ hw

theorem needsWork_iso (e : Fin n ≃ Fin m) (h : ∀ v, ids' (e v) = ids v) (v : Fin n) :
    needsWork (stablePartitionFromNativeColors ids') (e v) =
      needsWork (stablePartitionFromNativeColors ids) v := by
  rw [Bool.eq_iff_iff, needsWork_iff, needsWork_iff, h,
    ← ((map_finRange_perm e).filter fun w => decide (ids' w = ids v)).length_eq, List.filter_map,
    List.length_map]
  simp only [Function.comp_def, h]

theorem isDiscrete_iso (e : Fin n ≃ Fin m) (h : ∀ v, ids' (e v) = ids v) :
    (stablePartitionFromNativeColors ids').isDiscrete =
      (stablePartitionFromNativeColors ids).isDiscrete := by
  rw [Bool.eq_iff_iff, isDiscrete_iff_needsWork, isDiscrete_iff_needsWork]
  refine ⟨fun hall v => by rw [← needsWork_iso e h]; exact hall _, fun hall w => ?_⟩
  rw [← e.apply_symm_apply w, needsWork_iso e h]
  exact hall _

end

/-! ### A run and its phases -/

section
variable {g : Graph} [g.Simple] {chi : Fin g.n → Content} {flag : Bool}
  {precomputed : Option (DecompositionStore g)} {pool pool' : InternPool} {p : StablePartition g.n}

/-- The class ids after Phase 1. -/
def phase1Ids (keys : RootKeys g.n) (ids : Fin g.n → ℕ) : Fin g.n → ℕ :=
  stableInts g (anchorCells (fun _ => rootKeyString keys) (cellsOf ids) (numColors ids)).1

/-- The class ids after Phases 2 and 3. -/
def phases23Ids (store : DecompositionStore g) (ids : Fin g.n → ℕ) : Fin g.n → ℕ :=
  if (anchorCells (remainderKeyOf store) (cellsOf ids) (numColors ids)).2 then
    stableInts g (anchorCells (remainderKeyOf store) (cellsOf ids) (numColors ids)).1
  else ids

/-- The class ids that anchoring ends with. -/
def anchoredIds (keys : RootKeys g.n) (store : DecompositionStore g) (flag : Bool)
    (ids : Fin g.n → ℕ) : Fin g.n → ℕ :=
  if (stablePartitionFromNativeColors (phase1Ids keys ids)).isDiscrete || !flag then phase1Ids keys ids
  else phases23Ids store (phase1Ids keys ids)

/-- What a run that anchors goes through. -/
structure Run (g : Graph) [g.Simple] (chi : Fin g.n → Content) (flag : Bool) (pool : InternPool)
    (ids : Fin g.n → ℕ) (pool' : InternPool) (keys : RootKeys g.n) (store : DecompositionStore g) :
    Prop where
  notDiscrete : (colorRefine1WL g chi).isDiscrete = false
  has : ∀ v, needsWork (colorRefine1WL g chi) v = true → store.has v = true
  rootKeys : rootKeys chi store (needsWork (colorRefine1WL g chi)) pool = .ok keys
  pool_eq : keys.pool = pool'
  ids_eq : ids = anchoredIds keys store flag (stableInts g chi)

/-- A run that does not anchor, or one that does. -/
def RunsTo (g : Graph) [g.Simple] (chi : Fin g.n → Content) (flag : Bool) (pool : InternPool)
    (ids : Fin g.n → ℕ) (pool' : InternPool) : Prop :=
  ((colorRefine1WL g chi).isDiscrete = true ∧ ids = stableInts g chi ∧ pool' = pool) ∨
    ∃ keys store, Run g chi flag pool ids pool' keys store

theorem has_chooseStore {needed : Fin g.n → Bool} {store : DecompositionStore g}
    (h : chooseStore needed precomputed = .ok store) (v : Fin g.n) (hv : needed v = true) :
    store.has v = true := by
  cases precomputed with
  | none => rw [DecompositionStore.has_build h]; exact hv
  | some s =>
    rw [chooseStore] at h
    split at h
    · cases h
      exact DecompositionStore.has_of_covers (by assumption) v
    · cases h

/-- What a call returns is given by the class ids of its run. -/
theorem initialPhase_run (h : initialPhase g chi flag precomputed pool = .ok (p, pool')) :
    ∃ ids, p.color = numColors ids ∧ p.cells = cellsOf ids ∧ RunsTo g chi flag pool ids pool' := by
  rw [initialPhase] at h
  dsimp only at h
  split at h
  · rename_i hd
    cases h
    exact ⟨_, rfl, rfl, Or.inl ⟨hd, rfl, rfl⟩⟩
  · rename_i hd
    obtain ⟨store, hstore, h⟩ := bind_ok h
    obtain ⟨keys, hkeys, h⟩ := bind_ok h
    have hres : (if (phase1 keys (colorRefine1WL g chi)).isDiscrete || !flag
        then phase1 keys (colorRefine1WL g chi) else phases23 store (phase1 keys (colorRefine1WL g chi))) =
        stablePartitionFromNativeColors (anchoredIds keys store flag (stableInts g chi)) := by
      change (if (stablePartitionFromNativeColors (phase1Ids keys (stableInts g chi))).isDiscrete || !flag
        then _ else _) = _
      rw [anchoredIds, phases23Ids]
      split
      · rfl
      · rw [phases23]
        split <;> rename_i hs
        · exact congrArg stablePartitionFromNativeColors (if_pos hs).symm
        · exact congrArg stablePartitionFromNativeColors (if_neg hs).symm
    rw [hres] at h
    cases h
    exact ⟨_, rfl, rfl, Or.inr ⟨keys, store, by simpa using hd, has_chooseStore hstore, hkeys, rfl, rfl⟩⟩

/-- A call returns when all records and strings are of a size that fits. -/
theorem initialPhase_ok
    (hstore : ∀ store, precomputed = some store → store.coversEveryVertex = true)
    (hsize : ∀ v, DecompositionStore.recordSize (dialysis g v) ≤ DecompositionStore.segmentSize)
    (hfits : ∀ v s, RootStrings g chi v s → Fits s) :
    ∃ r, initialPhase g chi flag precomputed pool = .ok r := by
  rw [initialPhase]
  dsimp only
  split
  · exact ⟨_, rfl⟩
  · obtain ⟨store, hs⟩ : ∃ store,
        chooseStore (needsWork (colorRefine1WL g chi)) precomputed = .ok store := by
      cases precomputed with
      | none => exact DecompositionStore.build_ok fun v _ => hsize v
      | some s => exact ⟨s, if_pos (hstore s rfl)⟩
    obtain ⟨keys, hk⟩ := rootKeys_ok (has_chooseStore hs)
      fun s ⟨v, _, hv⟩ => hfits v s hv
    rw [hs]
    dsimp only [Except.bind]
    rw [hk]
    exact ⟨_, rfl⟩

/-! ### The phases only split -/

theorem phase1Ids_refines (keys : RootKeys g.n) (ids : Fin g.n → ℕ) : Refines (phase1Ids keys ids) ids :=
  fun _ _ h => (anchored_anchorCells _).refines (stableInts_refines h)

theorem phases23Ids_refines (store : DecompositionStore g) (ids : Fin g.n → ℕ) :
    Refines (phases23Ids store ids) ids := by
  rw [phases23Ids]
  split
  · exact fun _ _ h => (anchored_anchorCells _).refines (stableInts_refines h)
  · exact Refines.refl ids

theorem anchoredIds_refines (keys : RootKeys g.n) (store : DecompositionStore g) (flag : Bool)
    (ids : Fin g.n → ℕ) : Refines (anchoredIds keys store flag ids) ids := by
  rw [anchoredIds]
  split
  · exact phase1Ids_refines keys ids
  · exact (phases23Ids_refines store _).trans (phase1Ids_refines keys ids)

theorem anchoredIds_equitable (keys : RootKeys g.n) (store : DecompositionStore g) (flag : Bool)
    (ids : Fin g.n → ℕ) : Equitable g.adj (anchoredIds keys store flag ids) := by
  rw [anchoredIds, phases23Ids]
  split
  · exact stableInts_coarsest.equitable
  · split
    · exact stableInts_coarsest.equitable
    · exact stableInts_coarsest.equitable

theorem RunsTo.refines {ids : Fin g.n → ℕ} (h : RunsTo g chi flag pool ids pool') :
    Refines ids (stableInts g chi) := by
  rcases h with ⟨-, rfl, -⟩ | ⟨keys, store, h⟩
  · exact Refines.refl _
  · rw [h.ids_eq]; exact anchoredIds_refines keys store flag _

theorem RunsTo.equitable {ids : Fin g.n → ℕ} (h : RunsTo g chi flag pool ids pool') :
    Equitable g.adj ids := by
  rcases h with ⟨-, rfl, -⟩ | ⟨keys, store, h⟩
  · exact stableInts_coarsest.equitable
  · rw [h.ids_eq]; exact anchoredIds_equitable keys store flag _

end

end Dialysis.Refinement
