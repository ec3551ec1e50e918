import GraphDialysis.Lib.Membership
import Mathlib.Algebra.Group.Subgroup.Basic
import Mathlib.Algebra.Group.End
import Mathlib.Data.List.FinRange
import Mathlib.Data.List.Sort
import Mathlib.Data.List.NodupEquivFin
import Mathlib.GroupTheory.OrderOfElement

/-! `dialysis.graph.Graph`: an undirected simple graph over dense vertex ids, as sorted neighbour
    lists. The class itself stores any lists; `Graph.Simple` is what its documentation promises and
    every caller relies on. `IsIso` compares two graphs along a bijection of their ids, `Aut` is
    the group of the bijections that leave one graph as it is, and `relabeled` is the isomorphic
    copy along a permutation. -/

namespace Dialysis

/-- A bijection of the ids permutes the list of all of them. -/
theorem map_finRange_perm {n m : ℕ} (e : Fin n ≃ Fin m) :
    ((List.finRange n).map e).Perm (List.finRange m) :=
  (List.perm_ext_iff_of_nodup ((List.nodup_finRange _).map e.injective)
    (List.nodup_finRange _)).mpr fun w => by simpa using ⟨e.symm w, e.apply_symm_apply w⟩

/-- Adjacency lists over the ids `0 until n`; `names` are the original labels. -/
structure Graph where
  n : ℕ
  adj : Fin n → List (Fin n)
  names : Fin n → String

namespace Graph

/-- The arrays of a `Graph` object. -/
structure Arrays where
  n : ℕ
  adj : List (List ℤ)
  names : List String
  deriving DecidableEq

/-- The arrays of a graph. -/
def arrays (g : Graph) : Arrays where
  n := g.n
  adj := List.ofFn fun v => (g.adj v).map fun w => (w.1 : ℤ)
  names := List.ofFn g.names

/-- An undirected simple graph with sorted neighbour lists. -/
class Simple (g : Graph) : Prop where
  sorted : ∀ v, (g.adj v).Pairwise (· < ·)
  symm : ∀ {v w}, w ∈ g.adj v → v ∈ g.adj w
  irrefl : ∀ v, v ∉ g.adj v

instance (g : Graph) : Decidable g.Simple :=
  decidable_of_iff
    ((∀ v, (g.adj v).Pairwise (· < ·)) ∧ (∀ v, ∀ w ∈ g.adj v, v ∈ g.adj w) ∧ ∀ v, v ∉ g.adj v)
    ⟨fun h => ⟨h.1, fun {v w} => h.2.1 v w, h.2.2⟩, fun h => ⟨h.sorted, fun _ _ => h.symm, h.irrefl⟩⟩

/-- Number of edges. -/
def m (g : Graph) : ℕ := ((List.finRange g.n).map fun v => (g.adj v).length).sum / 2

theorem adj_nodup (g : Graph) [g.Simple] (v : Fin g.n) : (g.adj v).Nodup :=
  (Simple.sorted v).imp fun h => ne_of_lt h

theorem adj_comm {g : Graph} [g.Simple] {v w : Fin g.n} : w ∈ g.adj v ↔ v ∈ g.adj w :=
  ⟨Simple.symm, Simple.symm⟩

/-- `e` carries the edges of `g` exactly to those of `h`. -/
def IsIso (g h : Graph) (e : Fin g.n ≃ Fin h.n) : Prop :=
  ∀ v w, w ∈ g.adj v ↔ e w ∈ h.adj (e v)

instance (g h : Graph) (e : Fin g.n ≃ Fin h.n) : Decidable (IsIso g h e) := by
  unfold IsIso; infer_instance

/-- `α` is an automorphism of `g`. -/
abbrev IsAut (g : Graph) (α : Equiv.Perm (Fin g.n)) : Prop := IsIso g g α

theorem IsIso.symm {g h : Graph} {e : Fin g.n ≃ Fin h.n} (he : IsIso g h e) : IsIso h g e.symm := by
  intro v w
  have := he (e.symm v) (e.symm w)
  simpa using this.symm

theorem IsIso.trans {g h k : Graph} {e : Fin g.n ≃ Fin h.n} {f : Fin h.n ≃ Fin k.n}
    (he : IsIso g h e) (hf : IsIso h k f) : IsIso g k (e.trans f) :=
  fun v w => (he v w).trans (hf (e v) (e w))

/-- The automorphism group. -/
def Aut (g : Graph) : Subgroup (Equiv.Perm (Fin g.n)) where
  carrier := {α | IsAut g α}
  one_mem' := fun _ _ => Iff.rfl
  mul_mem' := fun {_ _} hα hβ => IsIso.trans hβ hα
  inv_mem' := fun {_} hα => IsIso.symm hα

@[simp] theorem mem_aut {g : Graph} {α : Equiv.Perm (Fin g.n)} : α ∈ g.Aut ↔ IsAut g α := Iff.rfl

/-- Some member of the group maps `u` to `v`. -/
def OrbitMates {V : Type*} (Γ : Subgroup (Equiv.Perm V)) (u v : V) : Prop := ∃ α ∈ Γ, α u = v

theorem orbitMates_equivalence {V : Type*} (Γ : Subgroup (Equiv.Perm V)) :
    Equivalence (OrbitMates Γ) where
  refl := fun _ => ⟨1, Γ.one_mem, rfl⟩
  symm := by
    rintro u v ⟨α, hα, rfl⟩
    exact ⟨α⁻¹, Γ.inv_mem hα, α.symm_apply_apply u⟩
  trans := by
    rintro u v w ⟨α, hα, rfl⟩ ⟨β, hβ, rfl⟩
    exact ⟨β * α, Γ.mul_mem hβ hα, rfl⟩

/-- Isomorphisms carry neighbour lists to neighbour lists, up to their order. -/
theorem IsIso.adj_perm {g h : Graph} [g.Simple] [h.Simple] {e : Fin g.n ≃ Fin h.n}
    (he : IsIso g h e) (v : Fin g.n) : ((g.adj v).map e).Perm (h.adj (e v)) := by
  refine (List.perm_ext_iff_of_nodup ((g.adj_nodup v).map e.injective) (h.adj_nodup _)).mpr
    fun w => ?_
  rw [List.mem_map]
  constructor
  · rintro ⟨x, hx, rfl⟩; exact (he v x).mp hx
  · intro hw
    exact ⟨e.symm w, (he v _).mpr (by simpa using hw), e.apply_symm_apply w⟩

theorem IsIso.degree {g h : Graph} [g.Simple] [h.Simple] {e : Fin g.n ≃ Fin h.n}
    (he : IsIso g h e) (v : Fin g.n) : (h.adj (e v)).length = (g.adj v).length := by
  rw [← (he.adj_perm v).length_eq, List.length_map]

/-- A permutation of a finite graph that sends edges to edges is an automorphism: its inverse is
    one of its powers. -/
theorem isAut_of_forward {g : Graph} {α : Equiv.Perm (Fin g.n)}
    (h : ∀ v w, w ∈ g.adj v → α w ∈ g.adj (α v)) : IsAut g α := by
  have hpow : ∀ (k : ℕ) v w, w ∈ g.adj v → (α ^ k) w ∈ g.adj ((α ^ k) v) := by
    intro k
    induction k with
    | zero => intro v w hw; simpa using hw
    | succ k ih =>
      intro v w hw
      rw [pow_succ']
      exact h _ _ (ih v w hw)
  obtain ⟨k, hk, hone⟩ := (isOfFinOrder_of_finite α).exists_pow_eq_one
  obtain ⟨j, rfl⟩ : ∃ j, k = j + 1 := ⟨k - 1, by omega⟩
  refine fun v w => ⟨h v w, fun hw => ?_⟩
  have := hpow j _ _ hw
  rw [← Equiv.Perm.mul_apply, ← Equiv.Perm.mul_apply, ← pow_succ, hone] at this
  simpa using this

/-- Every unordered edge once, as its smaller end and its larger end. -/
def edges (g : Graph) : List (Fin g.n × Fin g.n) :=
  (List.finRange g.n).flatMap fun u => ((g.adj u).filter fun v => u < v).map fun v => (u, v)

theorem mem_edges {g : Graph} {u v : Fin g.n} : (u, v) ∈ g.edges ↔ v ∈ g.adj u ∧ u < v := by
  simp [edges]

/-- It is enough to look at every edge once. -/
theorem isAut_iff_edges {g : Graph} [g.Simple] {α : Equiv.Perm (Fin g.n)} :
    IsAut g α ↔ ∀ p ∈ g.edges, α p.2 ∈ g.adj (α p.1) := by
  constructor
  · rintro h ⟨u, v⟩ hp
    exact (h u v).mp (mem_edges.mp hp).1
  · intro h
    refine isAut_of_forward fun v w hw => ?_
    rcases lt_trichotomy v w with hlt | rfl | hgt
    · exact h (v, w) (mem_edges.mpr ⟨hw, hlt⟩)
    · exact absurd hw (Simple.irrefl v)
    · exact Simple.symm (h (w, v) (mem_edges.mpr ⟨Simple.symm hw, hgt⟩))

/-- Apply a permutation `perm[old] = new`. -/
def relabeled (g : Graph) (perm : Equiv.Perm (Fin g.n)) : Graph where
  n := g.n
  adj := fun v => ((g.adj (perm.symm v)).map perm).insertionSort (· ≤ ·)
  names := fun v => g.names (perm.symm v)

theorem mem_relabeled {g : Graph} {perm : Equiv.Perm (Fin g.n)} {v w : Fin g.n} :
    perm w ∈ (g.relabeled perm).adj (perm v) ↔ w ∈ g.adj v := by
  change perm w ∈ List.insertionSort _ _ ↔ _
  rw [List.mem_insertionSort]
  simp

/-- The relabelled graph is isomorphic to the original along the permutation. -/
theorem relabeled_isIso (g : Graph) (perm : Equiv.Perm (Fin g.n)) :
    IsIso g (g.relabeled perm) perm := fun _ _ => mem_relabeled.symm

/-- The graph on `n` vertices with the given edges. -/
def ofEdges (n : ℕ) (edges : List (ℕ × ℕ)) : Graph where
  n := n
  adj := fun v => (List.finRange n).filter fun w =>
    w ≠ v ∧ ((v.val, w.val) ∈ edges ∨ (w.val, v.val) ∈ edges)
  names := fun v => toString v.val

theorem mem_ofEdges {n : ℕ} {edges : List (ℕ × ℕ)} {v w : Fin n} : w ∈ (ofEdges n edges).adj v ↔
    w ≠ v ∧ ((v.val, w.val) ∈ edges ∨ (w.val, v.val) ∈ edges) := by
  change w ∈ List.filter _ _ ↔ _
  simp

instance (n : ℕ) (edges : List (ℕ × ℕ)) : (ofEdges n edges).Simple where
  sorted := fun _ => (List.pairwise_lt_finRange n).filter _
  symm := fun h => mem_ofEdges.mpr ⟨(mem_ofEdges.mp h).1.symm, (mem_ofEdges.mp h).2.symm⟩
  irrefl := fun _ h => (mem_ofEdges.mp h).1 rfl

instance simple_edge : (ofEdges 2 [(0, 1)]).Simple := inferInstance

end Graph

/-- Sorting distinct values gives a strictly increasing list. -/
theorem sorted_lt_insertionSort {n : ℕ} {l : List (Fin n)} (hl : l.Nodup) :
    (l.insertionSort (· ≤ ·)).Pairwise (· < ·) := by
  have hnd : (l.insertionSort (· ≤ ·)).Nodup := (List.perm_insertionSort _ l).nodup_iff.mpr hl
  exact ((List.pairwise_insertionSort (· ≤ ·) l).and hnd).imp fun h => lt_of_le_of_ne h.1 h.2

instance (g : Graph) [g.Simple] (perm : Equiv.Perm (Fin g.n)) : (g.relabeled perm).Simple where
  sorted := fun _ => sorted_lt_insertionSort ((g.adj_nodup _).map perm.injective)
  symm := by
    intro v w h
    obtain ⟨v, rfl⟩ := perm.surjective v
    obtain ⟨w, rfl⟩ := perm.surjective w
    exact Graph.mem_relabeled.mpr (Graph.Simple.symm (Graph.mem_relabeled.mp h))
  irrefl := by
    intro v h
    obtain ⟨v, rfl⟩ := perm.surjective v
    exact Graph.Simple.irrefl v (Graph.mem_relabeled.mp h)

end Dialysis
