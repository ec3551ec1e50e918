import GraphDialysis.Refinement.InitialPhase
import Mathlib.Logic.Equiv.Fin.Rotate

/-! Two calls of `initialPhase` on isomorphic inputs. Every phase of the one is carried to the other
    by the isomorphism, provided that the Phase 1 keys of the vertices of a cell come in the same
    order; when one call ends with an extension of the other's pool, the keys are even equal. An automorphism relates
    a call to itself, which is why the result is constant on orbits. -/

namespace Dialysis.Refinement
open Lib Dialysis.Graph Ahu Decompose
variable {g h : Graph} [g.Simple] [h.Simple] {e : Fin g.n ≃ Fin h.n}

/-! ### Remainder keys -/

section
variable {chi : Fin g.n → Content} {chi' : Fin h.n → Content}

/-- Corresponding components have the same key. -/
theorem componentKey_iso (he : IsIso g h e) (hchi : ∀ v, chi' (e v) = chi v) {comp : VertexList g.n}
    {comp' : VertexList h.n} (hcomp : ∀ v, e v ∈ comp'.1 ↔ v ∈ comp.1) :
    (componentKey chi comp).Equals (componentKey chi' comp') := by
  obtain ⟨ψ, hψ, hget⟩ := exists_induced_iso he hcomp
  have hcolor : ∀ i, colorRefine1WLColors (h.induced comp') (fun j => chi' (comp'.1.get j)) (ψ i) =
      colorRefine1WLColors (g.induced comp) (fun j => chi (comp.1.get j)) i := fun i =>
    congrArg (fun k : ℕ => Content.num k) (stableInts_iso hψ (fun j => by
      rw [Content.Equals]
      exact congrArg Content.canon ((congrArg chi' (hget j)).trans (hchi _))) i)
  refine Content.mset_equals_of_perm (List.Perm.map _ ?_)
  rw [List.ofFn_eq_map, List.ofFn_eq_map]
  refine List.Perm.trans (List.Perm.of_eq ?_) ((map_finRange_perm ψ).map _)
  rw [List.map_map]
  exact List.map_congr_left fun i _ => (hcolor i).symm

theorem remainderKeyOf_eq {store : DecompositionStore g} {v : Fin g.n} (hv : store.has v = true) :
    remainderKeyOf store chi v = (Content.mset ((remainderComps g v).map (componentKey chi))).serialize := by
  rw [remainderKeyOf, DecompositionStore.remainderComponents, DecompositionStore.record_of_has hv]
  rfl

/-- Corresponding vertices have the same remainder key. -/
theorem remainderKeyOf_iso (he : IsIso g h e) (hchi : ∀ v, chi' (e v) = chi v)
    {store : DecompositionStore g} {store' : DecompositionStore h} {v : Fin g.n}
    (hv : store.has v = true) (hv' : store'.has (e v) = true) :
    remainderKeyOf store' chi' (e v) = remainderKeyOf store chi v := by
  rw [remainderKeyOf_eq hv, remainderKeyOf_eq hv']
  refine (Content.Equals.serialize (Content.mset_equals_of_perm ?_)).symm
  rw [List.map_map, List.map_map]
  refine perm_map_of_match (remainderComps_iso he v) fun comp _ comp' _ hcomp =>
    componentKey_iso he hchi fun w => ?_
  rw [← List.mem_toFinset, ← hcomp, Finset.mem_map_equiv, e.symm_apply_apply, List.mem_toFinset]

end

/-! ### Runs -/

variable {chi : Fin g.n → Content} {chi' : Fin h.n → Content} {flag : Bool}
  {pool pool₁ : InternPool} {ids : Fin g.n → ℕ} {keys : RootKeys g.n} {store : DecompositionStore g}
  {pool' pool₁' : InternPool} {ids' : Fin h.n → ℕ} {keys' : RootKeys h.n}
  {store' : DecompositionStore h}

theorem phase1Ids_corr (he : IsIso g h e) (hids : ∀ v, ids' (e v) = ids v)
    (hkeys : ∀ c ∈ cellsOf ids,
      KeysAgree e (fun _ => rootKeyString keys) (fun _ => rootKeyString keys') c) (v : Fin g.n) :
    phase1Ids keys' ids' (e v) = phase1Ids keys ids v :=
  stableInts_iso he (fun w => congrArg Content.canon ((anchorCells_corr hids hkeys).1 w)) v

theorem phases23Ids_corr (he : IsIso g h e) (hids : ∀ v, ids' (e v) = ids v)
    (hhas : ∀ v, needsWork (stablePartitionFromNativeColors ids) v = true → store.has v = true)
    (hhas' : ∀ v, needsWork (stablePartitionFromNativeColors ids) v = true → store'.has (e v) = true)
    (v : Fin g.n) : phases23Ids store' ids' (e v) = phases23Ids store ids v := by
  have hkeys : ∀ c ∈ cellsOf ids, KeysAgree e (remainderKeyOf store) (remainderKeyOf store') c := by
    intro c hc chi chi' hchi hlen x hx y hy
    have hnx := needsWork_of_mem hc hlen hx
    have hny := needsWork_of_mem hc hlen hy
    rw [remainderKeyOf_iso he hchi (hhas x hnx) (hhas' x hnx),
      remainderKeyOf_iso he hchi (hhas y hny) (hhas' y hny)]
  obtain ⟨hcolors, hflag⟩ := anchorCells_corr hids hkeys
  rw [phases23Ids, phases23Ids, hflag]
  split
  · exact stableInts_iso he (fun w => congrArg Content.canon (hcolors w)) v
  · exact hids v

/-- Two runs that order the Phase 1 keys of every cell alike end with corresponding ids. -/
theorem Run.corr (he : IsIso g h e) (hchi : ∀ v, (chi' (e v)).Equals (chi v))
    (hrun : Run g chi flag pool ids pool₁ keys store) (hrun' : Run h chi' flag pool' ids' pool₁' keys' store')
    (hkeys : ∀ c ∈ cellsOf (stableInts g chi),
      KeysAgree e (fun _ => rootKeyString keys) (fun _ => rootKeyString keys') c) (v : Fin g.n) :
    ids' (e v) = ids v := by
  have h0 := stableInts_iso he hchi
  have h1 := phase1Ids_corr he h0 hkeys
  rw [hrun.ids_eq, hrun'.ids_eq, anchoredIds, anchoredIds, isDiscrete_iso e h1]
  split
  · exact h1 v
  · have hneeds : ∀ v, needsWork (stablePartitionFromNativeColors (phase1Ids keys (stableInts g chi))) v =
        true → needsWork (colorRefine1WL g chi) v = true := fun v =>
      needsWork_of_refines (phase1Ids_refines keys _)
    exact phases23Ids_corr he h1 (fun w hw => hrun.has w (hneeds w hw)) (fun w hw => hrun'.has (e w) (by
      rw [← hneeds w hw]; exact needsWork_iso e h0 w)) v

/-- The Phase 1 key of a vertex that needs work, from its id. -/
theorem Run.rootKeyString (hrun : Run g chi flag pool ids pool₁ keys store) {v : Fin g.n}
    (hv : needsWork (colorRefine1WL g chi) v = true) : ∃ id : ℕ, pool₁.Has id (rootString g chi v) ∧
      rootKeyString keys v = (Content.tup [.num id, .num (orphans g v).length]).serialize := by
  obtain ⟨id, hid, hhas⟩ := (rootKeys_spec hrun.has hrun.rootKeys).1 v hv
  exact ⟨id, hrun.pool_eq ▸ hhas, by rw [Refinement.rootKeyString, hid]; rfl⟩

theorem Run.adds (hrun : Run g chi flag pool ids pool₁ keys store) :
    pool.Adds (PhaseStrings chi (needsWork (colorRefine1WL g chi))) pool₁ :=
  hrun.pool_eq ▸ (rootKeys_spec hrun.has hrun.rootKeys).2

/-- In pools of which one extends the other the keys of corresponding vertices are equal. -/
theorem Run.rootKeyString_corr (he : IsIso g h e) (hchi : ∀ v, (chi' (e v)).Equals (chi v))
    (hrun : Run g chi flag pool ids pool₁ keys store)
    (hrun' : Run h chi' flag pool' ids' pool₁' keys' store')
    (hle : pool₁.strings <+: pool₁'.strings) {v : Fin g.n}
    (hv : needsWork (colorRefine1WL g chi) v = true) :
    Refinement.rootKeyString keys' (e v) = Refinement.rootKeyString keys v := by
  obtain ⟨id, hid, hkey⟩ := hrun.rootKeyString hv
  obtain ⟨id', hid', hkey'⟩ := hrun'.rootKeyString
    ((needsWork_iso e (stableInts_iso he hchi) v).trans hv)
  rw [rootString_iso he hchi] at hid'
  rw [hkey, hkey', hid'.inj (hid.mono hle), orphans_iso he]

/-- Two runs of which one ends with an extension of the other's pool end with corresponding ids. -/
theorem Run.corr_of_prefix (he : IsIso g h e) (hchi : ∀ v, (chi' (e v)).Equals (chi v))
    (hrun : Run g chi flag pool ids pool₁ keys store)
    (hrun' : Run h chi' flag pool' ids' pool₁' keys' store')
    (hle : pool₁.strings <+: pool₁'.strings) (v : Fin g.n) : ids' (e v) = ids v :=
  hrun.corr he hchi hrun' (fun c hc _ _ _ hlen x hx y hy => by
    dsimp only
    rw [hrun.rootKeyString_corr he hchi hrun' hle (needsWork_of_mem hc hlen hx),
      hrun.rootKeyString_corr he hchi hrun' hle (needsWork_of_mem hc hlen hy)]) v

theorem colorRefine1WL_isDiscrete_iso (he : IsIso g h e) (hchi : ∀ v, (chi' (e v)).Equals (chi v)) :
    (colorRefine1WL h chi').isDiscrete = (colorRefine1WL g chi).isDiscrete :=
  isDiscrete_iso e (stableInts_iso he hchi)

/-- A call that starts with an extension of the pool a corresponding call has left numbers the
    vertices as that one did. -/
theorem RunsTo.corr_later (he : IsIso g h e) (hchi : ∀ v, (chi' (e v)).Equals (chi v))
    (hrun : RunsTo g chi flag pool ids pool₁) (hle : pool₁.strings <+: pool'.strings)
    (hrun' : RunsTo h chi' flag pool' ids' pool₁') (v : Fin g.n) : ids' (e v) = ids v := by
  have hdiscrete := colorRefine1WL_isDiscrete_iso he hchi
  rcases hrun with ⟨hd, rfl, -⟩ | ⟨keys, store, hrun⟩
  · rcases hrun' with ⟨-, rfl, -⟩ | ⟨_, _, hrun'⟩
    · exact stableInts_iso he hchi v
    · rw [hrun'.notDiscrete, hd] at hdiscrete; cases hdiscrete
  · rcases hrun' with ⟨hd, -, -⟩ | ⟨keys', store', hrun'⟩
    · rw [hrun.notDiscrete, hd] at hdiscrete; cases hdiscrete
    · exact hrun.corr_of_prefix he hchi hrun' (hle.trans hrun'.adds.le) v

/-- A call only adds to the pool. -/
theorem RunsTo.le (hrun : RunsTo g chi flag pool ids pool₁) : pool.strings <+: pool₁.strings := by
  rcases hrun with ⟨-, -, rfl⟩ | ⟨keys, store, hrun⟩
  · exact List.prefix_rfl
  · exact hrun.adds.le

/-- Orbit-mates end with the same id. -/
theorem RunsTo.orbits {α : Equiv.Perm (Fin g.n)} (hα : IsAut g α) (hchi : ∀ v, (chi (α v)).Equals (chi v))
    (hrun : RunsTo g chi flag pool ids pool₁) (v : Fin g.n) : ids (α v) = ids v := by
  rcases hrun with ⟨-, rfl, -⟩ | ⟨keys, store, hrun⟩
  · exact stableInts_iso hα hchi v
  · exact hrun.corr_of_prefix hα hchi hrun List.prefix_rfl v

/-- On the edge 0-1 every call returns. -/
theorem initialPhase_edge (runPhases23 : Bool) (pool : InternPool) : ∃ r,
    initialPhase (ofEdges 2 [(0, 1)]) (fun _ => .str ['u']) runPhases23 none pool = .ok r := by
  refine initialPhase_ok (fun _ h => by cases h) (by decide +kernel) fun v s hs => ?_
  obtain ⟨i, -, rfl⟩ := hs
  revert v i
  decide +kernel

end Dialysis.Refinement
