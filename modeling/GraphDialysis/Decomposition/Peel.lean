import GraphDialysis.Decomposition.DialysisPerSpec
import GraphDialysis.Graph.SimpleGraph
import GraphDialysis.Refinement.ColorRefinement

/-! `peel`: a set of vertices is taken apart into pieces. A set that induces a tree, or that the colours
    tell apart, is one piece; of any other the tree of a decomposition and its orphans are one, and
    the components of the remainder are taken apart in turn. They are smaller, so this ends, and the
    pieces hold every vertex of the set once (`peel_perm`). -/

namespace Dialysis
open Lib Refinement

/-- The fields that are only set for a quotient; a map has no entry where it is `none`. -/
structure QuotientTree (n : ℕ) where
  tree : VertexList n
  parent : Fin n → Option (Fin n)
  depthOf : Fin n → Option ℤ
  orphans : List (Fin n)
  root : Fin n

inductive Piece (n : ℕ) where
  | base (vertices : VertexList n)
  | quotient (vertices : VertexList n) (fields : QuotientTree n)

def Piece.vertices {n : ℕ} : Piece n → VertexList n
  | base vertices => vertices
  | quotient vertices _ => vertices

/-- A rule that returns a vertex of the subgraph it is given. -/
abbrev RootRule := (sub : Graph) → (Fin sub.n → Content) → 0 < sub.n → Fin sub.n

/-- The least vertex of the smallest colour class; there is a class, so the last case does not occur. -/
def defaultRootRule : RootRule := fun sub restrictedColouring h =>
  let bySize := groups (fun v => (restrictedColouring v).canon) (List.finRange sub.n)
  ((bySize.argmin List.length).bind List.min?).getD ⟨0, h⟩

namespace Peel

/-- `newToOld` for a list of local ids. -/
def lift {n : ℕ} (x : VertexList n) (vs : VertexList x.1.length) : VertexList n :=
  ⟨vs.1.map x.1.get, vs.2.map x.2.injective_get⟩

theorem length_lift {n : ℕ} (x : VertexList n) (vs : VertexList x.1.length) :
    (lift x vs).1.length = vs.1.length := List.length_map _

def isTreeSub (sub : Graph) : Prop := sub.n ≤ 1 ∨ sub.m = sub.n - 1

instance (sub : Graph) : Decidable (isTreeSub sub) := inferInstanceAs (Decidable (_ ∨ _))

section
variable {g : Graph} [g.Simple] (colouring : Fin g.n → Content) (x : VertexList g.n)

/-- The colours of the local ids. -/
def restrictedColouring (localId : Fin (g.induced x).n) : Content := colouring (x.1.get localId)

/-- The set is one piece. -/
def isBase : Prop :=
  isTreeSub (g.induced x) ∨ (colorRefine1WL (g.induced x) (restrictedColouring colouring x)).isDiscrete

instance : Decidable (isBase colouring x) := inferInstanceAs (Decidable (_ ∨ _))

variable {colouring x}

theorem pos_of_not_isBase (h : ¬isBase colouring x) : 0 < (g.induced x).n := by
  have := mt Or.inl (mt Or.inl h)
  omega

variable (colouring x)

/-- The decomposition of a set that is not one piece. -/
def decomposition (rootRule : RootRule) (h : ¬isBase colouring x) : Decomposition x.1.length :=
  dialysisPerSpec (g.induced x)
    (rootRule (g.induced x) (restrictedColouring colouring x) (pos_of_not_isBase h))

variable {colouring x}

theorem decomposition_perm (rootRule : RootRule) (h : ¬isBase colouring x) :
    ((decomposition colouring x rootRule h).treeVerts.1 ++ (decomposition colouring x rootRule h).orphans ++
      (decomposition colouring x rootRule h).remainderComps.flatMap fun comp => comp.1).Perm
      (List.finRange x.1.length) :=
  Parts.parts_perm (g := g.induced x)

theorem decomposition_nodup {rootRule : RootRule} (h : ¬isBase colouring x) :
    ((decomposition colouring x rootRule h).treeVerts.1 ++
      (decomposition colouring x rootRule h).orphans).Nodup :=
  Parts.piece_nodup (g := g.induced x)

theorem decomposition_grows {rootRule : RootRule} (h : ¬isBase colouring x) :
    GrowsFromRoot (fun v : Fin x.1.length => (g.induced x).adj v) (decomposition colouring x rootRule h) :=
  growsFromRoot_dialysisPerSpec (g.induced x) _

/-- The set on which `peel` goes on is smaller. -/
theorem length_comp_lt {rootRule : RootRule} {h : ¬isBase colouring x} {comp : VertexList x.1.length}
    (hcomp : comp ∈ (decomposition colouring x rootRule h).remainderComps) :
    (lift x comp).1.length < x.1.length := by
  rw [length_lift]
  exact Parts.length_remainderComp_lt (g := g.induced x) PerSpec.inTree_root hcomp

end

/-- A decomposition of the set in original ids. -/
def quotientTree {n : ℕ} (x : VertexList n) (dec : Decomposition x.1.length) : QuotientTree n where
  tree := lift x dec.treeVerts
  parent := fun u => (Graph.oldToNew x u).bind fun v =>
    if v ∈ dec.treeVerts.1 then (dec.parent v).map x.1.get else none
  depthOf := fun u => (Graph.oldToNew x u).bind fun v =>
    if v ∈ dec.treeVerts.1 then some (dec.depth v) else none
  orphans := dec.orphans.map x.1.get
  root := x.1.get dec.root

end Peel

open Peel

/-- `peel`; the pieces in the order in which they are added. -/
def peel {g : Graph} [g.Simple] (colouring : Fin g.n → Content) (rootRule : RootRule)
    (x : VertexList g.n) : List (Piece g.n) :=
  if h : isBase colouring x then [.base x]
  else
    let dec := decomposition colouring x rootRule h
    .quotient (lift x ⟨dec.treeVerts.1 ++ dec.orphans, decomposition_nodup h⟩) (quotientTree x dec) ::
      dec.remainderComps.attach.flatMap fun comp => peel colouring rootRule (lift x comp.1)
termination_by x.1.length
decreasing_by exact length_comp_lt comp.2

/-! ### The pieces are a partition -/

variable {g : Graph} [g.Simple] {colouring : Fin g.n → Content} {rootRule : RootRule}

theorem peel_of_base {x : VertexList g.n} (h : isBase colouring x) :
    peel colouring rootRule x = [.base x] := by
  rw [peel, dif_pos h]

theorem peel_of_quotient {x : VertexList g.n} (h : ¬isBase colouring x) :
    peel colouring rootRule x =
      .quotient (lift x ⟨(decomposition colouring x rootRule h).treeVerts.1 ++
          (decomposition colouring x rootRule h).orphans, decomposition_nodup h⟩)
        (quotientTree x (decomposition colouring x rootRule h)) ::
      (decomposition colouring x rootRule h).remainderComps.flatMap fun comp =>
        peel colouring rootRule (lift x comp) := by
  rw [peel, dif_neg h]
  dsimp only
  rw [List.flatMap_subtype (g := fun comp => peel colouring rootRule (lift x comp)) fun _ _ => rfl,
    List.unattach_attach]

/-- The pieces hold every vertex of the set once. -/
theorem peel_perm (x : VertexList g.n) :
    ((peel colouring rootRule x).flatMap fun piece => piece.vertices.1).Perm x.1 := by
  by_cases h : isBase colouring x
  · rw [peel_of_base h, List.flatMap_singleton]
    exact List.Perm.refl _
  · have hparts := (decomposition_perm rootRule h).map x.1.get
    rw [peel_of_quotient h, List.flatMap_cons, List.flatMap_assoc]
    have hcomps : ((decomposition colouring x rootRule h).remainderComps.flatMap fun comp =>
        (peel colouring rootRule (lift x comp)).flatMap fun piece => piece.vertices.1).Perm
        ((decomposition colouring x rootRule h).remainderComps.flatMap fun comp => (lift x comp).1) :=
      List.Perm.flatMap_left _ fun comp hcomp => peel_perm (lift x comp)
    refine (List.Perm.append_left _ hcomps).trans ?_
    rw [List.map_append, List.map_flatMap, List.map_get_finRange] at hparts
    exact hparts
termination_by x.1.length
decreasing_by exact length_comp_lt hcomp

/-! ### The trees of the pieces -/

/-- The parents lead to the root of the piece, through neighbours and with the depth falling by one. -/
structure IsQuotient (g : Graph) (vertices : VertexList g.n) (fields : QuotientTree g.n) : Prop where
  vertices : vertices.1 = fields.tree.1 ++ fields.orphans
  root_mem : fields.root ∈ fields.tree.1
  root_parent : fields.parent fields.root = none
  root_depth : fields.depthOf fields.root = some 0
  exists_parent : ∀ v ∈ fields.tree.1, v ≠ fields.root → ∃ p, fields.parent v = some p
  parent : ∀ v p, fields.parent v = some p → v ∈ fields.tree.1 ∧ p ∈ fields.tree.1 ∧ p ∈ g.adj v ∧
    ∃ d : ℕ, fields.depthOf p = some (d : ℤ) ∧ fields.depthOf v = some ((d : ℤ) + 1)
  depthOf : ∀ v, v ∈ fields.tree.1 ↔ ∃ d : ℕ, fields.depthOf v = some (d : ℤ)

section
variable {x : VertexList g.n} {dec : Decomposition x.1.length}

omit [g.Simple] in
theorem mem_lift {vs : VertexList x.1.length} {u : Fin g.n} :
    u ∈ (lift x vs).1 ↔ ∃ v ∈ vs.1, x.1.get v = u := List.mem_map

omit [g.Simple] in
theorem get_mem_lift {vs : VertexList x.1.length} {v : Fin x.1.length} :
    x.1.get v ∈ (lift x vs).1 ↔ v ∈ vs.1 := by
  rw [mem_lift]
  constructor
  · rintro ⟨w, hw, heq⟩
    rwa [← x.2.injective_get heq]
  · exact fun hv => ⟨v, hv, rfl⟩

omit [g.Simple] in
theorem quotientTree_parent {v : Fin x.1.length} (hv : v ∈ dec.treeVerts.1) :
    (quotientTree x dec).parent (x.1.get v) = (dec.parent v).map x.1.get := by
  rw [quotientTree]
  dsimp only
  rw [Graph.oldToNew_get, Option.bind_some, if_pos hv]

omit [g.Simple] in
theorem quotientTree_depthOf {v : Fin x.1.length} (hv : v ∈ dec.treeVerts.1) :
    (quotientTree x dec).depthOf (x.1.get v) = some (dec.depth v) := by
  rw [quotientTree]
  dsimp only
  rw [Graph.oldToNew_get, Option.bind_some, if_pos hv]

omit [g.Simple] in
/-- What has an entry is a tree vertex. -/
theorem quotientTree_entry {α : Type} {f : Fin x.1.length → Option α} {u : Fin g.n} {a : α}
    (h : ((Graph.oldToNew x u).bind fun v => if v ∈ dec.treeVerts.1 then f v else none) = some a) :
    ∃ v ∈ dec.treeVerts.1, x.1.get v = u := by
  obtain ⟨v, hv, h⟩ := Option.bind_eq_some_iff.mp h
  split at h
  · rename_i hmem
    exact ⟨v, hmem, Graph.oldToNew_eq_some.mp hv⟩
  · cases h

end

omit [g.Simple] in
theorem isQuotient_quotientTree {x : VertexList g.n} {dec : Decomposition x.1.length}
    (hnodup : (dec.treeVerts.1 ++ dec.orphans).Nodup)
    (h : GrowsFromRoot (fun v : Fin x.1.length => (g.induced x).adj v) dec) :
    IsQuotient g (lift x ⟨dec.treeVerts.1 ++ dec.orphans, hnodup⟩) (quotientTree x dec) where
  vertices := List.map_append
  root_mem := get_mem_lift.mpr h.root_mem
  root_parent := (quotientTree_parent h.root_mem).trans (by rw [h.root_parent, Option.map_none])
  root_depth := (quotientTree_depthOf h.root_mem).trans (by rw [h.root_depth])
  exists_parent := by
    intro u hu hne
    obtain ⟨v, hv, rfl⟩ := mem_lift.mp hu
    have hv' : v ≠ dec.root := by
      rintro rfl
      exact hne rfl
    obtain ⟨p, hp⟩ := h.exists_parent v hv hv'
    exact ⟨x.1.get p, by rw [quotientTree_parent hv, hp, Option.map_some]⟩
  parent := by
    intro u q hq
    obtain ⟨v, hv, rfl⟩ := quotientTree_entry hq
    rw [quotientTree_parent hv] at hq
    obtain ⟨p, hp, rfl⟩ := Option.map_eq_some_iff.mp hq
    obtain ⟨-, hpt, hadj, hdepth⟩ := h.parent v p hp
    obtain ⟨d, hd⟩ := h.depth p hpt
    refine ⟨get_mem_lift.mpr hv, get_mem_lift.mpr hpt, Graph.mem_induced.mp hadj, d, ?_, ?_⟩
    · rw [quotientTree_depthOf hpt, hd]
    · rw [quotientTree_depthOf hv, hdepth, hd]
  depthOf := by
    intro u
    constructor
    · intro hu
      obtain ⟨v, hv, rfl⟩ := mem_lift.mp hu
      obtain ⟨d, hd⟩ := h.depth v hv
      exact ⟨d, by rw [quotientTree_depthOf hv, hd]⟩
    · rintro ⟨d, hd⟩
      exact mem_lift.mpr (quotientTree_entry hd)

theorem peel_isQuotient (x : VertexList g.n) {vertices : VertexList g.n} {fields : QuotientTree g.n}
    (hmem : .quotient vertices fields ∈ peel colouring rootRule x) : IsQuotient g vertices fields := by
  by_cases h : isBase colouring x
  · rw [peel_of_base h, List.mem_singleton] at hmem
    cases hmem
  · rw [peel_of_quotient h, List.mem_cons, Piece.quotient.injEq] at hmem
    rcases hmem with ⟨rfl, rfl⟩ | hmem
    · exact isQuotient_quotientTree (decomposition_nodup h) (decomposition_grows h)
    · obtain ⟨comp, hcomp, hmem⟩ := List.mem_flatMap.mp hmem
      exact peel_isQuotient (lift x comp) hmem
termination_by x.1.length
decreasing_by exact length_comp_lt hcomp

end Dialysis
