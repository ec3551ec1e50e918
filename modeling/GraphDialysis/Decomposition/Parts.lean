import GraphDialysis.Graph.Induced
import GraphDialysis.Lib.Components
import GraphDialysis.Lib.GroupBy
import GraphDialysis.Lib.SortOn

/-! The parts of a decomposition once its tree has been grown, however that was done: the orphans, all
    of whose neighbours are in the tree, and the components of the remainder. Together with the tree
    they hold every vertex once (`parts_perm`). -/

namespace Dialysis.Parts
open Lib Lib.Bfs

section
variable (g : Graph) (inTree : Fin g.n → Bool)

/-- The tree vertices, ascending. -/
def treeVerts : VertexList g.n :=
  ⟨(List.finRange g.n).filter inTree, (List.nodup_finRange g.n).filter _⟩

/-- Some neighbour is not in the tree. -/
def hasNonTreeNeighbor (v : Fin g.n) : Bool := (g.adj v).any fun w => !inTree w

/-- Isolated vertices of `G - V(T)`. -/
def orphans : List (Fin g.n) :=
  (List.finRange g.n).filter fun v => !inTree v && !hasNonTreeNeighbor g inTree v

def inRemainder (v : Fin g.n) : Bool := !inTree v && hasNonTreeNeighbor g inTree v

def remainder : List (Fin g.n) := (List.finRange g.n).filter (inRemainder g inTree)

/-- Neighbours inside the remainder. -/
def remainderAdj (v : Fin g.n) : List (Fin g.n) := (g.adj v).filter (inRemainder g inTree)

/-- Tree -> remainder. -/
def connectorEdges : List (Fin g.n × Fin g.n) :=
  (treeVerts g inTree).1.flatMap fun v => ((g.adj v).filter (inRemainder g inTree)).map fun w => (v, w)

end

variable {g : Graph} {inTree : Fin g.n → Bool} {v w : Fin g.n}

theorem mem_treeVerts : v ∈ (treeVerts g inTree).1 ↔ inTree v = true := by
  simp [treeVerts]

theorem mem_orphans : v ∈ orphans g inTree ↔
    inTree v = false ∧ ∀ w ∈ g.adj v, inTree w = true := by
  simp [orphans, hasNonTreeNeighbor]

theorem inRemainder_iff : inRemainder g inTree v = true ↔
    inTree v = false ∧ ∃ w ∈ g.adj v, inTree w = false := by
  simp [inRemainder, hasNonTreeNeighbor]

theorem mem_remainderAdj : w ∈ remainderAdj g inTree v ↔ w ∈ g.adj v ∧ inRemainder g inTree w = true :=
  List.mem_filter

theorem remainder_components [g.Simple] : IsComponents (remainderAdj g inTree) (remainder g inTree)
    (components (remainderAdj g inTree) g.n (remainder g inTree)) := by
  refine components_spec (Fintype.card_fin _).le fun v hv u w hu hw => ?_
  have hin : inRemainder g inTree u = true := by
    refine Reach.closed (P := fun u => inRemainder g inTree u = true)
      (fun x _ y hy => (mem_remainderAdj.mp hy).2) ?_ hu
    simpa [remainder] using hv
  exact List.mem_filter.mpr ⟨Graph.Simple.symm (mem_remainderAdj.mp hw).1, hin⟩

/-- Remainder components: connected components of G[remainder], each ascending. -/
def remainderComps (g : Graph) [g.Simple] (inTree : Fin g.n → Bool) : List (VertexList g.n) :=
  (components (remainderAdj g inTree) g.n (remainder g inTree)).attach.map fun comp =>
    ⟨comp.1.insertionSort (· ≤ ·), (List.perm_insertionSort _ _).nodup_iff.mpr
      ((List.nodup_flatten.mp remainder_components.nodup).1 comp.1 comp.2)⟩

/-- Together the remainder components hold every vertex of the remainder once. -/
theorem remainderComps_perm [g.Simple] :
    ((remainderComps g inTree).flatMap fun c => c.1).Perm (remainder g inTree) := by
  have hcs : IsComponents (remainderAdj g inTree) (remainder g inTree) _ := remainder_components
  have hflat := hcs.flatten_perm ((List.nodup_finRange g.n).filter _) fun v _ w hw =>
      List.mem_filter.mpr ⟨List.mem_finRange w, (mem_remainderAdj.mp hw).2⟩
  refine List.Perm.trans ?_ hflat
  rw [remainderComps, List.flatMap_map]
  refine (List.Perm.flatMap_left _ fun comp _ => List.perm_insertionSort _ comp.1).trans ?_
  rw [List.flatMap_def, List.attach_map_val (f := fun c => c)]
  rw [List.map_id']

/-- The three parts are the whole graph. -/
theorem parts_perm [g.Simple] : ((treeVerts g inTree).1 ++ orphans g inTree ++
    (remainderComps g inTree).flatMap fun c => c.1).Perm (List.finRange g.n) := by
  refine (List.Perm.append_left _ remainderComps_perm).trans ?_
  have hnd := List.nodup_finRange g.n
  refine (List.perm_ext_iff_of_nodup ?_ hnd).mpr fun v => ?_
  · rw [List.append_assoc]
    refine List.nodup_append.mpr ⟨hnd.filter _, List.nodup_append.mpr ⟨hnd.filter _, hnd.filter _,
      fun a ha b hb hab => ?_⟩, fun a ha b hb hab => ?_⟩
    · subst hab
      obtain ⟨-, w, hw, hout⟩ := inRemainder_iff.mp (List.mem_filter.mp hb).2
      rw [(mem_orphans.mp ha).2 w hw] at hout
      cases hout
    · subst hab
      have hin := mem_treeVerts.mp ha
      rcases List.mem_append.mp hb with hb | hb
      · rw [(mem_orphans.mp hb).1] at hin
        cases hin
      · rw [(inRemainder_iff.mp (List.mem_filter.mp hb).2).1] at hin
        cases hin
  · refine iff_of_true ?_ (List.mem_finRange v)
    rw [List.mem_append, List.mem_append, mem_treeVerts, remainder, List.mem_filter, orphans,
      List.mem_filter]
    cases h : inTree v <;> cases h' : hasNonTreeNeighbor g inTree v <;>
      simp [inRemainder, h, h']

/-- Tree and orphans are apart. -/
theorem piece_nodup [g.Simple] : ((treeVerts g inTree).1 ++ orphans g inTree).Nodup :=
  ((parts_perm (g := g)).nodup_iff.mpr (List.nodup_finRange g.n)).of_append_left

/-- With a tree, a remainder component is smaller than the graph. -/
theorem length_remainderComp_lt [g.Simple] (hv : inTree v = true) {c : VertexList g.n}
    (hc : c ∈ remainderComps g inTree) : c.1.length < g.n := by
  have hperm : ((treeVerts g inTree).1 ++ orphans g inTree ++
      (remainderComps g inTree).flatMap fun c => c.1).Perm (List.finRange g.n) := parts_perm
  have hlen := hperm.length_eq
  have htree : 0 < (treeVerts g inTree).1.length := List.length_pos_of_mem (mem_treeVerts.mpr hv)
  have hcomp : c.1.length ≤ ((remainderComps g inTree).flatMap fun c => c.1).length := by
    rw [List.length_flatMap]
    exact List.single_le_sum (fun _ _ => Nat.zero_le _) _ (List.mem_map_of_mem (f := fun c => c.1.length) hc)
  rw [List.length_append, List.length_append, List.length_finRange] at hlen
  omega

end Dialysis.Parts
