import GraphDialysis.Lib.Forest

/-! Parent pointers along which a depth decreases, and which every vertex but the root has: the graph
    of their edges is a tree. -/

namespace Lib
variable {V : Type*} {G : SimpleGraph V} {parent : V → Option V} {depth : V → ℕ} {root : V}

/-- The edges of the graph are the parent pointers. -/
structure IsParentGraph (G : SimpleGraph V) (parent : V → Option V) (depth : V → ℕ) (root : V) : Prop where
  adj : ∀ v w, G.Adj v w ↔ parent v = some w ∨ parent w = some v
  depth : ∀ v p, parent v = some p → depth v = depth p + 1
  parent : ∀ v, v ≠ root → ∃ p, parent v = some p

variable (h : IsParentGraph G parent depth root)
include h

theorem IsParentGraph.reachable_root : ∀ (d : ℕ) (v : V), depth v = d → G.Reachable v root := by
  intro d
  induction d with
  | zero =>
    intro v hv
    by_cases heq : v = root
    · rw [heq]
    · obtain ⟨p, hp⟩ := h.parent v heq
      have := h.depth v p hp
      omega
  | succ d ih =>
    intro v hv
    by_cases heq : v = root
    · rw [heq]
    · obtain ⟨p, hp⟩ := h.parent v heq
      have hd := h.depth v p hp
      have hadj : G.Adj v p := (h.adj v p).mpr (Or.inl hp)
      exact hadj.reachable.trans (ih p (by omega))

/-- The deepest vertex of a set has just one neighbour in it, its parent. -/
theorem IsParentGraph.forestOn [DecidableRel G.Adj] [DecidableEq V] (A : Finset V) : ForestOn G A := by
  intro S _ hcore
  obtain ⟨v, hv, hmax⟩ := S.exists_max_image depth hcore.nonempty
  obtain ⟨a, ha, b, hb, hab, hva, hvb⟩ := two_le_degreeIn_iff.mp (hcore.two_le v hv)
  have habove : ∀ x ∈ S, G.Adj v x → parent v = some x := by
    intro x hx hadj
    refine ((h.adj v x).mp hadj).resolve_right fun hp => ?_
    have := hmax x hx
    have := h.depth x v hp
    omega
  exact hab (Option.some.inj ((habove a ha hva).symm.trans (habove b hb hvb)))

theorem IsParentGraph.isTree [Fintype V] : G.IsTree where
  connected := by
    have : Nonempty V := ⟨root⟩
    exact ⟨fun u v => (h.reachable_root _ u rfl).trans (h.reachable_root _ v rfl).symm⟩
  isAcyclic := by
    classical
    have hforest : ForestOn G Finset.univ := h.forestOn Finset.univ
    rw [forestOn_iff_isAcyclic, Finset.coe_univ] at hforest
    exact (SimpleGraph.induceUnivIso G).isAcyclic_iff.mp hforest

end Lib
