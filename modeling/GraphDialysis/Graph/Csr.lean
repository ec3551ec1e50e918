import GraphDialysis.Graph.Basic
import Mathlib.Algebra.BigOperators.Group.List.Lemmas

/-! `Graph.toCsr`: the neighbour lists laid out one after the other for the native kernels, and the
    range of a vertex in them. -/

namespace Dialysis

/-- The neighbours of `v` are `neighbors[i]` for `offsets[v] <= i < offsets[v + 1]`. -/
structure Csr (n : ℕ) where
  offsets : ℕ → ℕ
  neighbors : List (Fin n)

/-- The entries a kernel reads for `v`, in order. -/
def Csr.row {n : ℕ} (csr : Csr n) (v : Fin n) : List (Fin n) :=
  (csr.neighbors.take (csr.offsets (v + 1))).drop (csr.offsets v)

/-- Symmetric CSR form of an undirected simple graph, the rows in any order. -/
class Csr.Simple {n : ℕ} (csr : Csr n) : Prop where
  nodup : ∀ v, (csr.row v).Nodup
  symm : ∀ {v w}, w ∈ csr.row v → v ∈ csr.row w
  irrefl : ∀ v, v ∉ csr.row v

namespace Graph

/-- `offsets[v + 1] = offsets[v] + adj[v].size`. -/
def offsets (g : Graph) : ℕ → ℕ
  | 0 => 0
  | v + 1 => g.offsets v + if h : v < g.n then (g.adj ⟨v, h⟩).length else 0

/-- CSR form (offsets, neighbors) for native kernels. -/
def toCsr (g : Graph) : Csr g.n where
  offsets := g.offsets
  neighbors := (List.finRange g.n).flatMap g.adj

theorem offsets_eq (g : Graph) : ∀ k ≤ g.n,
    g.offsets k = ((((List.finRange g.n).map g.adj).map List.length).take k).sum
  | 0, _ => rfl
  | k + 1, hk => by
    have hlt : k < (((List.finRange g.n).map g.adj).map List.length).length := by simpa using hk
    rw [offsets, offsets_eq g k (by omega), dif_pos (Nat.lt_of_succ_le hk),
      List.take_succ_eq_append_getElem hlt, List.sum_append]
    simp

/-- A kernel sees the neighbour list of the graph. -/
@[simp] theorem row_toCsr (g : Graph) (v : Fin g.n) : g.toCsr.row v = g.adj v := by
  have hv := v.isLt
  change ((((List.finRange g.n).flatMap g.adj).take (g.offsets (v + 1))).drop (g.offsets v)) = _
  rw [offsets_eq g _ hv, offsets_eq g _ (le_of_lt hv), List.flatMap_def,
    List.drop_take_succ_flatten_eq_getElem]
  · simp
  · simp

theorem row_toCsr_eq (g : Graph) : g.toCsr.row = g.adj := funext g.row_toCsr

instance (g : Graph) [g.Simple] : g.toCsr.Simple where
  nodup := fun v => by rw [row_toCsr]; exact g.adj_nodup v
  symm := fun h => by rw [row_toCsr] at h ⊢; exact Simple.symm h
  irrefl := fun v => by rw [row_toCsr]; exact Simple.irrefl v

theorem adj_symm_of_toCsr {g : Graph} [g.toCsr.Simple] {v w : Fin g.n} (h : w ∈ g.adj v) :
    v ∈ g.adj w := by
  rw [← row_toCsr] at h ⊢
  exact Csr.Simple.symm h

theorem adj_nodup_of_toCsr (g : Graph) [g.toCsr.Simple] (v : Fin g.n) : (g.adj v).Nodup := by
  rw [← row_toCsr]
  exact Csr.Simple.nodup v

end Graph

/-- The graph of a layout, its neighbour lists in the order of the rows. -/
def Csr.graph {n : ℕ} (csr : Csr n) : Graph where
  n := n
  adj := csr.row
  names := fun v => toString v.val

theorem Csr.row_graph {n : ℕ} (csr : Csr n) : csr.graph.toCsr.row = csr.row :=
  csr.graph.row_toCsr_eq

instance {n : ℕ} (csr : Csr n) [csr.Simple] : csr.graph.toCsr.Simple where
  nodup := fun (v : Fin n) => by rw [csr.row_graph]; exact Csr.Simple.nodup (n := n) v
  symm := fun {v w : Fin n} h => by rw [csr.row_graph] at h ⊢; exact Csr.Simple.symm (n := n) h
  irrefl := fun (v : Fin n) => by rw [csr.row_graph]; exact Csr.Simple.irrefl (n := n) v

end Dialysis
