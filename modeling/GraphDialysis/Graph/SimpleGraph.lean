import GraphDialysis.Graph.Basic
import GraphDialysis.Lib.Distance
import Mathlib.Combinatorics.SimpleGraph.Metric

/-! A simple graph as a graph in the sense of the library. `isDist_iff_dist`: shortest
    walks along the neighbour lists are the library's distances. -/

namespace Dialysis
open Lib Lib.Bfs

/-- The neighbour lists as a graph in the sense of the library. -/
def Graph.simpleGraph (g : Graph) [g.Simple] : SimpleGraph (Fin g.n) where
  Adj v w := w ∈ g.adj v
  symm := ⟨fun _ _ => Graph.Simple.symm⟩
  loopless := ⟨Graph.Simple.irrefl⟩

instance (g : Graph) [g.Simple] : DecidableRel g.simpleGraph.Adj :=
  fun v w => inferInstanceAs (Decidable (w ∈ g.adj v))

namespace Graph
variable {g : Graph} [g.Simple] {u v w : Fin g.n}

omit [g.Simple] in
theorem steps_cons (huw : w ∈ g.adj u) : ∀ {k : ℕ} {v : Fin g.n}, Steps g.adj k w v →
    Steps g.adj (k + 1) u v
  | 0, _, h => ⟨u, rfl, h ▸ huw⟩
  | _ + 1, _, ⟨x, hx, hv⟩ => ⟨x, steps_cons huw hx, hv⟩

/-- Steps along the neighbour lists are walks. -/
theorem steps_iff_walk {k : ℕ} :
    Steps g.adj k u v ↔ ∃ p : g.simpleGraph.Walk u v, p.length = k := by
  constructor
  · intro h
    induction k generalizing v with
    | zero =>
      obtain rfl : u = v := h
      exact ⟨.nil, rfl⟩
    | succ k ih =>
      obtain ⟨w, hw, hv⟩ := h
      obtain ⟨p, hp⟩ := ih hw
      have hadj : g.simpleGraph.Adj w v := hv
      exact ⟨p.concat hadj, by rw [SimpleGraph.Walk.length_concat, hp]⟩
  · rintro ⟨p, rfl⟩
    induction p with
    | nil => rfl
    | cons h p ih => exact steps_cons h ih

theorem isDist_iff_dist {d : ℕ} :
    IsDist g.adj u v d ↔ g.simpleGraph.Reachable u v ∧ g.simpleGraph.dist u v = d := by
  constructor
  · rintro ⟨hsteps, hmin⟩
    obtain ⟨p, hp⟩ := steps_iff_walk.mp hsteps
    refine ⟨⟨p⟩, le_antisymm (hp ▸ SimpleGraph.dist_le p) ?_⟩
    obtain ⟨q, hq⟩ := SimpleGraph.Reachable.exists_walk_length_eq_dist ⟨p⟩
    exact hmin _ (steps_iff_walk.mpr ⟨q, hq⟩)
  · rintro ⟨hreach, rfl⟩
    refine ⟨steps_iff_walk.mpr hreach.exists_walk_length_eq_dist, fun k hk => ?_⟩
    obtain ⟨p, rfl⟩ := steps_iff_walk.mp hk
    exact SimpleGraph.dist_le p

end Graph

end Dialysis
