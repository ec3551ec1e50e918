import GraphDialysis.Graph.Bipartition
import GraphDialysis.Graph.Subdivision
import GraphDialysis.Refinement.Equivariance

/-! `dispatchColouring`: a bipartite graph gets its dialysis colouring; otherwise plain 1-WL is
    compared with the dialysis colouring of the subdivision, cut down to the old vertices, and the
    one with more classes wins. Every branch is constant on orbits, the last because automorphisms
    extend to the subdivision, and never has fewer classes than 1-WL. -/

namespace Dialysis.Refinement
open Lib Dialysis.Graph Ahu
variable {n : ℕ}

/-- Which invariant colouring `colouring` holds. -/
inductive ColouringSource
  | pi
  | wl1Original
  | piToOriginal
  deriving DecidableEq

structure ColouringDispatch (n : ℕ) where
  colouring : Fin n → Content
  used : ColouringSource
  subdivided : Bool
  wl1OriginalClasses : Option ℕ
  wl1Colouring : Option (Fin n → Content)
  piSubdivisionClasses : Option ℕ
  piToOriginalClasses : Option ℕ

/-- A single-colour initial colouring. -/
def uniformSeed (n : ℕ) (_ : Fin n) : Content := .str ['u']

/-- `toHashSet().size`. -/
def classCount (c : Fin n → Content) : ℕ := ((List.finRange n).map fun v => (c v).canon).dedup.length

/-- Chooses the invariant colouring for `g`, always over its own vertices. -/
def dispatchColouring (g : Graph) [g.Simple] (allowSubdivision : Bool) (pool : InternPool) :
    Except String (ColouringDispatch g.n × InternPool) :=
  if g.bipartition.isSome then
    (initialPhase g (uniformSeed g.n) true none pool).bind fun pi =>
      .ok (⟨pi.1.color, .pi, false, none, none, none, none⟩, pi.2)
  else
    let wl1 := colorRefine1WL g (uniformSeed g.n)
    if !allowSubdivision then
      .ok (⟨wl1.color, .wl1Original, false, some wl1.cells.length, some wl1.color, none, none⟩, pool)
    else
      (initialPhase g.subdivided (uniformSeed g.subdivided.n) true none pool).bind fun piSd =>
        let projected := fun v : Fin g.n => piSd.1.color (v.castAdd g.edges.length)
        let projectedClasses := classCount projected
        .ok (if wl1.cells.length < projectedClasses then
            ⟨projected, .piToOriginal, true, some wl1.cells.length, some wl1.color,
              some piSd.1.cells.length, some projectedClasses⟩
          else
            ⟨wl1.color, .wl1Original, true, some wl1.cells.length, some wl1.color,
              some piSd.1.cells.length, some projectedClasses⟩, piSd.2)

/-- The runner's `cellsOf`. -/
def colourCells (colours : Fin n → Content) : List (List (Fin n)) :=
  groups (fun v => (colours v).canon) (List.finRange n)

/-- The runner's `check(classesPi >= wl1Cells.size)`. -/
def comparisonCheck (g : Graph) [g.Simple] (dispatch : ColouringDispatch g.n) : Bool :=
  let wl1Colour := dispatch.wl1Colouring.getD (colorRefine1WL g (uniformSeed g.n)).color
  (colourCells wl1Colour).length ≤ classCount dispatch.colouring

/-! ### Counting classes -/

theorem classCount_eq_card (c : Fin n → Content) :
    classCount c = (Finset.univ.image fun v => (c v).canon).card := by
  rw [classCount, ← List.card_toFinset]
  congr 1

/-- A finer colouring has at least as many classes. -/
theorem classCount_le {fine coarse : Fin n → Content}
    (h : ∀ u v, (fine u).Equals (fine v) → (coarse u).Equals (coarse v)) :
    classCount coarse ≤ classCount fine := by
  have hfactor : Function.FactorsThrough (fun v => (coarse v).canon) fun v => (fine v).canon :=
    fun {u v} huv => h u v huv
  have himage : (Finset.univ.image fun v => (coarse v).canon) =
      (Finset.univ.image fun v => (fine v).canon).image
        (Function.extend (fun v => (fine v).canon) (fun v => (coarse v).canon) id) := by
    rw [Finset.image_image]
    exact Finset.image_congr fun v _ => (hfactor.extend_apply id v).symm
  rw [classCount_eq_card, classCount_eq_card, himage]
  exact Finset.card_image_le

theorem length_keys {κ : Type*} [DecidableEq κ] (key : Fin n → κ) :
    (keys key (List.finRange n)).length = (Finset.univ.image key).card := by
  rw [← List.toFinset_card_of_nodup (show (keys key (List.finRange n)).Nodup from keys_nodup key _)]
  congr 1
  ext k
  rw [List.mem_toFinset, mem_keys]
  simp

theorem length_colourCells (c : Fin n → Content) : (colourCells c).length = classCount c := by
  rw [colourCells, groups, List.length_map, ← List.length_map (f := Prod.fst), classCount_eq_card]
  exact length_keys _

theorem length_cellsOf (ids : Fin n → ℕ) : (cellsOf ids).length = classCount (numColors ids) := by
  have hinj : Function.Injective fun k : ℕ => Content.num k := fun a b h => by simpa using h
  have himage : (Finset.univ.image fun v => (numColors ids v).canon) =
      (Finset.univ.image ids).image fun k : ℕ => Content.num k := by
    rw [Finset.image_image]
    rfl
  rw [cellsOf, List.length_map, length_sortedGroups, length_keys, classCount_eq_card, himage,
    Finset.card_image_of_injective _ hinj]

/-! ### Every branch is sound -/

theorem uniformSeed_equals {u v : Fin n} : (uniformSeed n u).Equals (uniformSeed n v) := rfl

/-- What is promised of a dispatched colouring. -/
structure SoundColouring (g : Graph) [g.Simple] (colouring : Fin g.n → Content) : Prop where
  orbits : ∀ α ∈ g.Aut, ∀ v, colouring (α v) = colouring v
  classes : classCount (colorRefine1WL g (uniformSeed g.n)).color ≤ classCount colouring

section
variable {g : Graph} [g.Simple] {pool pool' : InternPool}

theorem soundColouring_wl1 : SoundColouring g (colorRefine1WL g (uniformSeed g.n)).color :=
  ⟨fun _ hα v => numColors_inj.mpr (stableInts_iso hα (fun _ => uniformSeed_equals) v), le_rfl⟩

theorem soundColouring_pi {p : StablePartition g.n}
    (h : initialPhase g (uniformSeed g.n) true none pool = .ok (p, pool')) :
    SoundColouring g p.color := by
  obtain ⟨ids, hcolor, -, hrun⟩ := initialPhase_run h
  refine ⟨fun α hα v => ?_, classCount_le fun u v huv => ?_⟩
  · rw [hcolor]
    exact numColors_inj.mpr (hrun.orbits hα (fun _ => uniformSeed_equals) v)
  · rw [hcolor, numColors_equals] at huv
    exact numColors_equals.mpr (hrun.refines u v huv)

/-- The colouring of the subdivision is constant on the orbits of the original graph. -/
theorem projected_orbits {p : StablePartition g.subdivided.n}
    (h : initialPhase g.subdivided (uniformSeed g.subdivided.n) true none pool = .ok (p, pool'))
    {α : Equiv.Perm (Fin g.n)} (hα : α ∈ g.Aut) (v : Fin g.n) :
    p.color ((α v).castAdd g.edges.length) = p.color (v.castAdd g.edges.length) := by
  obtain ⟨ids, hcolor, -, hrun⟩ := initialPhase_run h
  have horbit := hrun.orbits (subdivided_isIso hα) (fun _ => uniformSeed_equals)
    (v.castAdd g.edges.length)
  rw [hcolor]
  exact numColors_inj.mpr ((congrArg ids (subdividedEquiv_old hα v)).symm.trans horbit)

end

/-- On every branch the colouring is constant on orbits and has at least as many classes as 1-WL,
    so the runner's comparison of the two never fails. -/
theorem dispatchColouring_sound (g : Graph) [g.Simple] (allowSubdivision : Bool)
    (pool pool' : InternPool) (dispatch : ColouringDispatch g.n)
    (h : dispatchColouring g allowSubdivision pool = .ok (dispatch, pool')) :
    (∀ α ∈ g.Aut, ∀ v, dispatch.colouring (α v) = dispatch.colouring v) ∧
      classCount (colorRefine1WL g (uniformSeed g.n)).color ≤ classCount dispatch.colouring ∧
      comparisonCheck g dispatch = true := by
  have hsound : SoundColouring g dispatch.colouring ∧
      (dispatch.wl1Colouring = none ∨
        dispatch.wl1Colouring = some (colorRefine1WL g (uniformSeed g.n)).color) := by
    rw [dispatchColouring] at h
    split at h
    · obtain ⟨pi, hpi, h⟩ := bind_ok h
      cases h
      exact ⟨soundColouring_pi hpi, Or.inl rfl⟩
    · dsimp only at h
      split at h
      · cases h
        exact ⟨soundColouring_wl1, Or.inr rfl⟩
      · obtain ⟨piSd, hpi, h⟩ := bind_ok h
        cases h
        split
        · rename_i hlt
          refine ⟨⟨fun α hα v => projected_orbits hpi hα v, ?_⟩, Or.inr rfl⟩
          exact (length_cellsOf _).symm.le.trans hlt.le
        · exact ⟨soundColouring_wl1, Or.inr rfl⟩
  obtain ⟨⟨horbits, hclasses⟩, hwl1⟩ := hsound
  refine ⟨horbits, hclasses, ?_⟩
  rw [comparisonCheck, decide_eq_true_eq, length_colourCells]
  rcases hwl1 with hwl1 | hwl1 <;> rw [hwl1] <;> exact hclasses

theorem dispatchColouring_sound_triangle : ∃ r,
    dispatchColouring (ofEdges 3 [(0, 1), (0, 2), (1, 2)]) true .empty = .ok r ∧
      comparisonCheck (ofEdges 3 [(0, 1), (0, 2), (1, 2)]) r.1 = true := by
  obtain ⟨piSd, hpi⟩ : ∃ r, initialPhase (ofEdges 3 [(0, 1), (0, 2), (1, 2)]).subdivided
      (uniformSeed (ofEdges 3 [(0, 1), (0, 2), (1, 2)]).subdivided.n) true none .empty = .ok r := by
    refine initialPhase_ok (fun _ h => by cases h) (by decide +kernel) fun v s hs => ?_
    obtain ⟨i, -, rfl⟩ := hs
    revert v i
    decide +kernel
  obtain ⟨r, hr⟩ : ∃ r, dispatchColouring (ofEdges 3 [(0, 1), (0, 2), (1, 2)]) true .empty = .ok r := by
    rw [dispatchColouring, if_neg (by decide), hpi]
    exact ⟨_, rfl⟩
  exact ⟨r, hr, (dispatchColouring_sound _ true .empty r.2 r.1 hr).2.2⟩

end Dialysis.Refinement
