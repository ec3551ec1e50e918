import GraphDialysis.Refinement.Equivariance
import GraphDialysis.Sat.PerQuery

/-! `dialysis.refinement.PerQueryFilter`: the colourings for the query "does some automorphism map `u`
    to `v`?" single out `u`, respectively `v`, by one and the same marker and refine. Such an
    automorphism carries the first input to the second, so it carries the first result to the
    second, number by number, provided the second call sees what the first left in the pool. -/

namespace Dialysis.Refinement
open Lib Lib.Cnf Lib.Matrix Dialysis.Graph Ahu Dialysis.Sat

/-- `QUERY_MARKER`. -/
def queryMarker : Content := .str (Char.ofNat 0 :: "PER_QUERY_INDIVIDUALIZED".toList)

/-- `base` with `vertex` singled out. -/
def individualize {n : ℕ} (base : Fin n → Content) (vertex : Fin n) : Fin n → Content :=
  fun i => if i = vertex then queryMarker else base i

/-- The refinements that are used as a filter. -/
inductive FilterRefine (g : Graph) [g.Simple]
  | colorRefine1WL
  | initialPhase (store : Option (DecompositionStore g))

variable {g : Graph} [g.Simple]

/-- `refine(g, initial)` on a thread with the given pool. -/
def FilterRefine.refine (f : FilterRefine g) (initial : Fin g.n → Content) (pool : InternPool) :
    Except String (StablePartition g.n × InternPool) :=
  match f with
  | .colorRefine1WL => .ok (Refinement.colorRefine1WL g initial, pool)
  | .initialPhase store => Refinement.initialPhase g initial false store pool

/-- `base` with `vertex` singled out, refined. -/
def perQueryColouring (f : FilterRefine g) (base : Fin g.n → Content) (vertex : Fin g.n)
    (pool : InternPool) : Except String ((Fin g.n → Content) × InternPool) :=
  (f.refine (individualize base vertex) pool).bind fun r => .ok (r.1.color, r.2)

/-- The hash key of a colour. -/
def hashKeys {n : ℕ} (c : Fin n → Content) (v : Fin n) : Content := (c v).canon

variable {f : FilterRefine g} {base : Fin g.n → Content} {u v : Fin g.n} {α : Equiv.Perm (Fin g.n)}
  {pool pool₁ pool' pool₁' : InternPool} {cU cV : Fin g.n → Content}

omit [g.Simple] in
/-- An automorphism that maps `u` to `v` carries the one input to the other. -/
theorem individualize_carried (hbase : ∀ i, (base (α i)).Equals (base i)) (huv : α u = v)
    (i : Fin g.n) : (individualize base v (α i)).Equals (individualize base u i) := by
  subst huv
  rw [individualize, individualize]
  by_cases hi : i = u
  · rw [if_pos hi, if_pos (congrArg α hi)]; rfl
  · rw [if_neg hi, if_neg (fun h => hi (α.injective h))]; exact hbase i

/-- A filter colouring is numbered by the ids of a run, which only adds to the pool. -/
theorem perQueryColouring_run (h : perQueryColouring f base u pool = .ok (cU, pool₁)) :
    ∃ ids, cU = numColors ids ∧ pool.strings <+: pool₁.strings ∧
      match f with
      | .colorRefine1WL => ids = stableInts g (individualize base u)
      | .initialPhase _ => RunsTo g (individualize base u) false pool ids pool₁ := by
  obtain ⟨r, hr, h⟩ := bind_ok h
  cases h
  cases f with
  | colorRefine1WL => cases hr; exact ⟨_, rfl, List.prefix_rfl, rfl⟩
  | initialPhase store =>
    obtain ⟨ids, hcolor, -, hrun⟩ := initialPhase_run hr
    exact ⟨ids, hcolor, hrun.le, hrun⟩

/-- The second colouring is the first, carried along the automorphism. -/
theorem perQueryColouring_carried (hα : IsAut g α) (hbase : ∀ i, (base (α i)).Equals (base i))
    (huv : α u = v) (hU : perQueryColouring f base u pool = .ok (cU, pool₁))
    (hle : pool₁.strings <+: pool'.strings)
    (hV : perQueryColouring f base v pool' = .ok (cV, pool₁')) (i : Fin g.n) : cV (α i) = cU i := by
  obtain ⟨ids, rfl, -, hids⟩ := perQueryColouring_run hU
  obtain ⟨ids', rfl, -, hids'⟩ := perQueryColouring_run hV
  have hcarried := individualize_carried hbase huv
  refine congrArg (fun k : ℕ => Content.num k) ?_
  cases f with
  | colorRefine1WL => rw [hids, hids']; exact stableInts_iso hα hcarried i
  | initialPhase store => exact RunsTo.corr_later hα hcarried hids hle hids' i

/-- On the edge 0-1 with its ends singled out in turn every call returns. -/
theorem perQueryColouring_edge (u : Fin (ofEdges 2 [(0, 1)]).n) (pool : InternPool) : ∃ r,
    perQueryColouring (g := ofEdges 2 [(0, 1)]) (.initialPhase none) (fun _ => .str ['u']) u pool =
      .ok r := by
  obtain ⟨r, hr⟩ : ∃ r, initialPhase (ofEdges 2 [(0, 1)])
      (individualize (fun _ => .str ['u']) u) false none pool = .ok r := by
    refine initialPhase_ok (fun _ h => by cases h) (by decide +kernel) fun v s hs => ?_
    obtain ⟨i, -, rfl⟩ := hs
    revert u v i
    decide +kernel
  exact ⟨(r.1.color, r.2), by simp only [perQueryColouring, FilterRefine.refine, hr]; rfl⟩

end Dialysis.Refinement
