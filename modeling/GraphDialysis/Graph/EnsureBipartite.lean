import GraphDialysis.Graph.Bipartition
import GraphDialysis.Graph.SimpleGraph
import GraphDialysis.Graph.Subdivision
import GraphDialysis.Lib.OddCycle

/-! `Graph.ensureBipartite`: the graph itself when it has a bipartition, else its subdivision, which
    always has one: the old vertices against the new. A graph has a bipartition exactly when it has
    no odd cycle. -/

namespace Dialysis.Graph
open Lib

/-- Bipartite input is left as it is; everything else is subdivided. -/
def ensureBipartite (g : Graph) : Graph := if g.bipartition.isSome then g else g.subdivided

variable {g : Graph}

theorem bipartition_isSome_iff [g.Simple] : g.bipartition.isSome ↔ ∃ c, g.ProperSides c := by
  rw [Option.isSome_iff_ne_none, Ne, bipartition_eq_none_iff, not_not]

/-- Proper sides are a colouring in the sense of the library. -/
theorem exists_properSides_iff [g.Simple] : (∃ c, g.ProperSides c) ↔ g.simpleGraph.Colorable 2 := by
  constructor
  · rintro ⟨c, hc⟩
    exact ⟨SimpleGraph.Coloring.mk c fun {v w} hw => (hc v w hw).symm⟩
  · rintro ⟨c⟩
    exact ⟨c, fun v w hw => (c.valid hw).symm⟩

theorem bipartition_isSome_iff_noOddCycle [g.Simple] :
    g.bipartition.isSome ↔ NoOddCycle g.simpleGraph := by
  rw [bipartition_isSome_iff, exists_properSides_iff, colorable_two_iff]

/-- Old vertices on one side, new ones on the other. -/
theorem properSides_subdivided : g.subdivided.ProperSides fun x => if x.1 < g.n then 0 else 1 := by
  intro x y hy
  obtain ⟨i, u, -, ⟨rfl, rfl⟩ | ⟨rfl, rfl⟩⟩ := adj_subdivided.mp hy <;> simp

theorem subdivided_bipartition_isSome [g.Simple] : g.subdivided.bipartition.isSome :=
  bipartition_isSome_iff.mpr ⟨_, properSides_subdivided⟩

theorem ensureBipartite_bipartition_isSome [g.Simple] : g.ensureBipartite.bipartition.isSome := by
  by_cases h : g.bipartition.isSome
  · rwa [ensureBipartite, if_pos h]
  · rw [ensureBipartite, if_neg h]
    exact subdivided_bipartition_isSome

/-! ### The vertices of a subdivision -/

theorem castAdd_ne_natAdd {n m : ℕ} (u : Fin n) (i : Fin m) : u.castAdd m ≠ i.natAdd n := by
  intro h
  have := congrArg Fin.val h
  rw [Fin.val_castAdd, Fin.val_natAdd] at this
  omega

theorem names_old (u : Fin g.n) : g.subdivided.names (u.castAdd g.edges.length) = g.names u := by
  simp [subdivided]

/-- No two old vertices are adjacent. -/
theorem old_not_adj (u v : Fin g.n) : v.castAdd _ ∉ g.subdivided.adj (u.castAdd _) := by
  intro h
  obtain ⟨i, w, -, ⟨-, hv⟩ | ⟨hu, -⟩⟩ := adj_subdivided.mp h
  · exact castAdd_ne_natAdd v i hv
  · exact castAdd_ne_natAdd u i hu

/-- The neighbours of an edge's vertex are the ends of the edge. -/
theorem adj_new (i : Fin g.edges.length) (x : Fin g.subdivided.n) :
    x ∈ g.subdivided.adj (i.natAdd g.n) ↔ ∃ u ∈ ends i, x = u.castAdd _ := by
  refine adj_subdivided.trans ⟨?_, ?_⟩
  · rintro ⟨j, u, hu, ⟨hi, -⟩ | ⟨hi, rfl⟩⟩
    · exact absurd hi.symm (castAdd_ne_natAdd u i)
    · obtain rfl := Fin.natAdd_injective _ _ hi
      exact ⟨u, hu, rfl⟩
  · rintro ⟨u, hu, rfl⟩
    exact ⟨i, u, hu, Or.inr ⟨rfl, rfl⟩⟩

/-- The new vertex `w` subdivides the edge between `u` and `v`. -/
def Subdivides (g : Graph) (w : Fin g.subdivided.n) (u v : Fin g.n) : Prop :=
  g.n ≤ w.1 ∧ ∀ x, x ∈ g.subdivided.adj w ↔ x = u.castAdd _ ∨ x = v.castAdd _

theorem exists_natAdd_eq {w : Fin g.subdivided.n} (hw : g.n ≤ w.1) :
    ∃ i : Fin g.edges.length, i.natAdd g.n = w :=
  ⟨⟨w.1 - g.n, by have : w.1 < g.n + g.edges.length := w.2; omega⟩, Fin.ext (Nat.add_sub_cancel' hw)⟩

theorem subdivides_iff {i : Fin g.edges.length} {u v : Fin g.n} :
    g.Subdivides (i.natAdd g.n) u v ↔ ends i = s(u, v) := by
  have hold : ∀ {a b : Fin g.n}, a.castAdd g.edges.length = b.castAdd g.edges.length ↔ a = b :=
    (Fin.castAdd_injective g.n g.edges.length).eq_iff
  constructor
  · rintro ⟨-, h⟩
    refine Sym2.ext fun w => ?_
    have hw := (adj_new i (w.castAdd _)).symm.trans (h (w.castAdd _))
    rw [Sym2.mem_iff, ← hold, ← hold (b := v)]
    refine Iff.trans ?_ hw
    exact ⟨fun hi => ⟨w, hi, rfl⟩, fun ⟨u', hi, hu'⟩ => hold.mp hu' ▸ hi⟩
  · intro h
    refine ⟨(Fin.val_natAdd g.n i).symm ▸ Nat.le_add_right _ _, fun x => ?_⟩
    rw [adj_new, h]
    simp

theorem existsUnique_subdivides [g.Simple] {u v : Fin g.n} (huv : v ∈ g.adj u) :
    ∃! w, g.Subdivides w u v := by
  obtain ⟨i, hi⟩ := exists_ends_eq.mpr huv
  refine ⟨i.natAdd g.n, subdivides_iff.mpr hi, fun w hw => ?_⟩
  obtain ⟨j, rfl⟩ := exists_natAdd_eq hw.1
  exact congrArg (Fin.natAdd g.n) (ends_injective ((subdivides_iff.mp hw).trans hi.symm))

theorem exists_subdivides [g.Simple] {w : Fin g.subdivided.n} (hw : g.n ≤ w.1) :
    ∃ u v, v ∈ g.adj u ∧ g.Subdivides w u v := by
  obtain ⟨i, rfl⟩ := exists_natAdd_eq hw
  exact ⟨_, _, exists_ends_eq.mp ⟨i, rfl⟩, subdivides_iff.mpr rfl⟩

/-- A bipartition is returned exactly when there is no odd cycle, and it is one; a subdivision keeps
    the old ids, replaces every edge by one new vertex between its ends, and has a bipartition, and so
    has what `ensureBipartite` returns. -/
theorem bipartition_and_subdivided (g : Graph) [g.Simple] :
    (g.bipartition.isSome ↔ NoOddCycle g.simpleGraph) ∧
      (∀ partA partB, g.bipartition = some (partA, partB) →
        partA.Disjoint partB ∧ (∀ v, v ∈ partA ∨ v ∈ partB) ∧
          ∀ v w, w ∈ g.adj v → ¬(v ∈ partA ∧ w ∈ partA) ∧ ¬(v ∈ partB ∧ w ∈ partB)) ∧
      g.subdivided.bipartition.isSome ∧
      (∀ u : Fin g.n, g.subdivided.names (u.castAdd _) = g.names u) ∧
      (∀ u v : Fin g.n, v.castAdd _ ∉ g.subdivided.adj (u.castAdd _)) ∧
      (∀ u v, v ∈ g.adj u → ∃! w, g.Subdivides w u v) ∧
      (∀ w : Fin g.subdivided.n, g.n ≤ w.1 → ∃ u v, v ∈ g.adj u ∧ g.Subdivides w u v) ∧
      g.ensureBipartite.bipartition.isSome := by
  refine ⟨bipartition_isSome_iff_noOddCycle, fun partA partB h => ?_, subdivided_bipartition_isSome,
    names_old, old_not_adj, fun _ _ => existsUnique_subdivides, fun _ => exists_subdivides,
    ensureBipartite_bipartition_isSome⟩
  obtain ⟨-, -, hcover, hedge⟩ := bipartition_parts h
  refine ⟨fun v hA hB => (hcover v).mp hB hA, fun v => ?_, fun v w hw => ⟨?_, ?_⟩⟩
  · rw [hcover]
    exact em _
  · rintro ⟨hv, hwA⟩
    exact (hedge v w hw).mp hwA hv
  · rintro ⟨hv, hwB⟩
    exact (hcover w).mp hwB ((hedge v w hw).mpr ((hcover v).mp hv))

theorem bipartition_and_subdivided_triangle :
    ¬NoOddCycle (ofEdges 3 [(0, 1), (0, 2), (1, 2)]).simpleGraph ∧
      (ofEdges 3 [(0, 1), (0, 2), (1, 2)]).ensureBipartite.bipartition.isSome := by
  obtain ⟨hodd, -, -, -, -, -, -, hensure⟩ :=
    bipartition_and_subdivided (ofEdges 3 [(0, 1), (0, 2), (1, 2)])
  exact ⟨fun h => absurd (hodd.mpr h) (by decide), hensure⟩

end Dialysis.Graph
