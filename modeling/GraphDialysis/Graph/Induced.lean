import GraphDialysis.Graph.Basic

/-! `Graph.induced`: the subgraph on some of the vertices, renumbered by their position in the list
    they come in. Isomorphisms restrict: two lists of corresponding vertices, in whatever order,
    induce isomorphic graphs (`exists_induced_iso`). -/

namespace Dialysis

/-- An array of vertices in which none occurs twice. -/
abbrev VertexList (n : ℕ) := { verts : List (Fin n) // verts.Nodup }

/-- `IntArray(n) { it }`. -/
def allVertices (n : ℕ) : VertexList n := ⟨List.finRange n, List.nodup_finRange n⟩

theorem get_allVertices {n : ℕ} (i : Fin (allVertices n).1.length) :
    ((allVertices n).1.get i).1 = i.1 := by
  rw [List.get_eq_getElem]
  exact congrArg Fin.val (List.getElem_finRange _)

namespace Graph
variable {g h : Graph}

/-- Position of a vertex in the list; `none` stands for `-1`. -/
def oldToNew {n : ℕ} (verts : VertexList n) (v : Fin n) : Option (Fin verts.1.length) :=
  if hv : v ∈ verts.1 then some ⟨verts.1.idxOf v, List.idxOf_lt_length_of_mem hv⟩ else none

/-- Induced subgraph on `verts`; new ids follow the order of `verts`. -/
def induced (g : Graph) (verts : VertexList g.n) : Graph where
  n := verts.1.length
  adj := fun newId =>
    ((g.adj (verts.1.get newId)).filterMap (oldToNew verts)).insertionSort (· ≤ ·)
  names := fun newId => g.names (verts.1.get newId)

theorem oldToNew_eq_some {n : ℕ} {verts : VertexList n} {v : Fin n} {i : Fin verts.1.length} :
    oldToNew verts v = some i ↔ verts.1.get i = v := by
  rw [oldToNew]
  constructor
  · intro hv
    split at hv
    · rw [Option.some.injEq] at hv
      subst hv
      exact List.idxOf_get _
    · cases hv
  · rintro rfl
    rw [dif_pos (List.get_mem _ _), Option.some.injEq]
    exact Fin.ext (verts.2.idxOf_getElem i.1 i.2)

@[simp] theorem oldToNew_get {n : ℕ} (verts : VertexList n) (i : Fin verts.1.length) :
    oldToNew verts (verts.1.get i) = some i := oldToNew_eq_some.mpr rfl

theorem mem_induced {verts : VertexList g.n} {i j : Fin verts.1.length} :
    j ∈ (g.induced verts).adj i ↔ verts.1.get j ∈ g.adj (verts.1.get i) := by
  change j ∈ List.insertionSort _ _ ↔ _
  rw [List.mem_insertionSort, List.mem_filterMap]
  simp only [oldToNew_eq_some]
  exact ⟨fun ⟨w, hw, he⟩ => he ▸ hw, fun hj => ⟨_, hj, rfl⟩⟩

instance [g.Simple] (verts : VertexList g.n) : (g.induced verts).Simple where
  sorted := fun i => sorted_lt_insertionSort ((g.adj_nodup _).filterMap fun v w b hv hw => by
    exact (oldToNew_eq_some.mp hv).symm.trans (oldToNew_eq_some.mp hw))
  symm := fun {_ _} hij => mem_induced.mpr (Simple.symm (mem_induced.mp hij))
  irrefl := fun i hi => Simple.irrefl _ (mem_induced.mp hi)

/-- Corresponding lists of vertices induce isomorphic graphs. -/
theorem exists_induced_iso {e : Fin g.n ≃ Fin h.n} (he : IsIso g h e) {verts : VertexList g.n}
    {verts' : VertexList h.n} (hv : ∀ v, e v ∈ verts'.1 ↔ v ∈ verts.1) :
    ∃ ψ : Fin (g.induced verts).n ≃ Fin (h.induced verts').n,
      IsIso (g.induced verts) (h.induced verts') ψ ∧
      ∀ i : Fin verts.1.length, verts'.1.get (ψ i) = e (verts.1.get i) := by
  classical
  let ψ : Fin verts.1.length ≃ Fin verts'.1.length :=
    (verts.2.getEquiv _).trans ((e.subtypeEquiv fun v => (hv v).symm).trans (verts'.2.getEquiv _).symm)
  have hψ : ∀ i, verts'.1.get (ψ i) = e (verts.1.get i) := by
    intro i
    have := congrArg Subtype.val ((verts'.2.getEquiv _).apply_symm_apply
      ((e.subtypeEquiv fun v => (hv v).symm) ((verts.2.getEquiv _) i)))
    exact this
  have hadj : ∀ i j : Fin verts.1.length, verts.1.get j ∈ g.adj (verts.1.get i) ↔
      verts'.1.get (ψ j) ∈ h.adj (verts'.1.get (ψ i)) := fun i j => by
    rw [hψ, hψ]; exact he _ _
  exact ⟨ψ, fun i j => mem_induced.trans ((hadj i j).trans mem_induced.symm), hψ⟩

end Graph

end Dialysis
