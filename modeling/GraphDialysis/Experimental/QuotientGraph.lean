import GraphDialysis.Graph.Basic
import GraphDialysis.Sat.UnionFind

/-! `quotientGraph`: one vertex per component of the union-find, numbered in the order of the roots, and
    an edge where any two members are adjacent. It is simple, whatever the components are, and two
    vertices become one exactly when they have the same root (`quotientOf_inj`). -/

namespace Dialysis.Experimental
open Dialysis.Sat

section
variable {n : ℕ} (uf : SeparatingUnionFind n)

/-- `list.map { uf.find(it) }`. -/
def findAll {n : ℕ} : SeparatingUnionFind n → List (Fin n) → List (Fin n) × SeparatingUnionFind n
  | uf, [] => ([], uf)
  | uf, v :: vs =>
    let (r, uf) := uf.find v
    let (rs, uf) := findAll uf vs
    (r :: rs, uf)

/-- `root.toHashSet().sorted()`. -/
def distinctRoots : List (Fin n) := ((List.finRange n).map uf.root).dedup.insertionSort (· ≤ ·)

theorem mem_distinctRoots {r : Fin n} : r ∈ distinctRoots uf ↔ ∃ v, uf.root v = r := by
  rw [distinctRoots, List.mem_insertionSort, List.mem_dedup, List.mem_map]
  simp

/-- The place of the root of `v` among the distinct ones. -/
def quotientOf (v : Fin n) : Fin (distinctRoots uf).length :=
  ⟨(distinctRoots uf).idxOf (uf.root v), List.idxOf_lt_length_of_mem ((mem_distinctRoots uf).mpr ⟨v, rfl⟩)⟩

theorem quotientOf_inj {v w : Fin n} : quotientOf uf v = quotientOf uf w ↔ uf.root v = uf.root w := by
  rw [quotientOf, quotientOf, Fin.mk.injEq]
  exact List.idxOf_inj ((mem_distinctRoots uf).mpr ⟨v, rfl⟩)

theorem quotientOf_surjective : Function.Surjective (quotientOf uf) := by
  intro q
  obtain ⟨v, hv⟩ := (mem_distinctRoots uf).mp (List.get_mem (distinctRoots uf) q)
  refine ⟨v, Fin.ext ?_⟩
  have hnodup : (distinctRoots uf).Nodup := (List.perm_insertionSort _ _).nodup_iff.mpr (List.nodup_dedup _)
  rw [quotientOf]
  dsimp only
  rw [hv]
  exact hnodup.idxOf_getElem q.1 q.2

theorem exists_member (q : Fin (distinctRoots uf).length) :
    ((List.finRange n).find? fun v => quotientOf uf v = q).isSome := by
  obtain ⟨v, hv⟩ := quotientOf_surjective uf q
  rw [List.find?_isSome]
  exact ⟨v, List.mem_finRange v, decide_eq_true hv⟩

/-- The first member of a component; none is empty. -/
def originalOf (q : Fin (distinctRoots uf).length) : Fin n :=
  ((List.finRange n).find? fun v => quotientOf uf v = q).get (exists_member uf q)

theorem quotientOf_originalOf (q : Fin (distinctRoots uf).length) : quotientOf uf (originalOf uf q) = q :=
  of_decide_eq_true (List.find?_some (p := fun v => decide (quotientOf uf v = q)) (Option.some_get _).symm)

end

section
variable (g : Graph) (uf : SeparatingUnionFind g.n)

/-- The entries that the edges between different components make in `adjSets`. -/
def adjEntries : List (Fin (distinctRoots uf).length × Fin (distinctRoots uf).length) :=
  (List.finRange g.n).flatMap fun v => (g.adj v).flatMap fun w =>
    if quotientOf uf v ≠ quotientOf uf w then
      [(quotientOf uf v, quotientOf uf w), (quotientOf uf w, quotientOf uf v)] else []

/-- The graph; the map from the old ids to the new ones is `quotientOf`. -/
def quotientGraph : Graph where
  n := (distinctRoots uf).length
  adj := fun q => (((adjEntries g uf).filterMap fun e => if e.1 = q then some e.2 else none).dedup).insertionSort
    (· ≤ ·)
  names := fun q => toString q.1

variable {g uf}

theorem mem_adjEntries {p q : Fin (distinctRoots uf).length} : (p, q) ∈ adjEntries g uf ↔
    p ≠ q ∧ ∃ v w, w ∈ g.adj v ∧ ((quotientOf uf v = p ∧ quotientOf uf w = q) ∨
      (quotientOf uf w = p ∧ quotientOf uf v = q)) := by
  rw [adjEntries, List.mem_flatMap]
  constructor
  · rintro ⟨v, -, he⟩
    obtain ⟨w, hw, he⟩ := List.mem_flatMap.mp he
    split at he
    · rename_i hne
      rw [List.mem_cons, List.mem_singleton, Prod.mk.injEq, Prod.mk.injEq] at he
      rcases he with ⟨rfl, rfl⟩ | ⟨rfl, rfl⟩
      · exact ⟨hne, v, w, hw, Or.inl ⟨rfl, rfl⟩⟩
      · exact ⟨hne.symm, v, w, hw, Or.inr ⟨rfl, rfl⟩⟩
    · cases he
  · rintro ⟨hne, v, w, hw, ⟨rfl, rfl⟩ | ⟨rfl, rfl⟩⟩
    · exact ⟨v, List.mem_finRange v, List.mem_flatMap.mpr ⟨w, hw, by rw [if_pos hne]; simp⟩⟩
    · exact ⟨v, List.mem_finRange v, List.mem_flatMap.mpr ⟨w, hw, by rw [if_pos hne.symm]; simp⟩⟩

theorem mem_quotientGraph {p q : Fin (distinctRoots uf).length} :
    q ∈ (quotientGraph g uf).adj p ↔ (p, q) ∈ adjEntries g uf := by
  change q ∈ List.insertionSort _ _ ↔ _
  rw [List.mem_insertionSort, List.mem_dedup, List.mem_filterMap]
  constructor
  · rintro ⟨⟨a, b⟩, he, hq⟩
    rw [Option.ite_none_right_eq_some, Option.some.injEq] at hq
    obtain ⟨rfl, rfl⟩ := hq
    exact he
  · exact fun he => ⟨(p, q), he, if_pos rfl⟩

/-- Edges inside a component are dropped, and parallel ones are one. -/
instance : (quotientGraph g uf).Simple where
  sorted := fun _ => sorted_lt_insertionSort (List.nodup_dedup _)
  symm := by
    intro p q h
    obtain ⟨hne, v, w, hw, hvw⟩ := mem_adjEntries.mp (mem_quotientGraph.mp h)
    exact mem_quotientGraph.mpr (mem_adjEntries.mpr ⟨hne.symm, v, w, hw, hvw.symm.imp And.symm And.symm⟩)
  irrefl := fun _ h => (mem_adjEntries.mp (mem_quotientGraph.mp h)).1 rfl

end

section
variable {n : ℕ}

@[simp] theorem findAll_fst (uf : SeparatingUnionFind n) (l : List (Fin n)) :
    (findAll uf l).1 = l.map uf.root := by
  induction l generalizing uf with
  | nil => rfl
  | cons v vs ih => simp [findAll, ih]

/-- Path compression is all that happens. -/
@[simp] theorem view_findAll (uf : SeparatingUnionFind n) (l : List (Fin n)) :
    (findAll uf l).2.view = uf.view := by
  induction l generalizing uf with
  | nil => rfl
  | cons v vs ih => simp [findAll, ih]

end

end Dialysis.Experimental
