import GraphDialysis.Decomposition.PositionSignatures

/-! Where signing ends: the pool takes no string of more than 64 MiB, so no vertex of a signed tree has
    that many children. In the graph of two hubs that share all their neighbours, one hub is the root
    of a tree with all of these below it (`not_signed_twoHubs`). -/

namespace Dialysis
open Lib Ahu Refinement Peel

section
variable {g : Graph} {vertices : VertexList g.n} {q : QuotientTree g.n} {key : Content}
  {s s' : Signatures g.n}

/-- The children of the root are fewer than a segment has bytes. -/
theorem length_rootChildren_le (h : IsQuotient g vertices q) (hfit : s.pool.AllFit)
    (hrun : signQuotient key q s = .ok s') :
    4 + (q.tree.1.filter fun v => q.parent v = some q.root).length ≤ 2 ^ 26 := by
  obtain ⟨edges, root, hedges, hroot, hsimple, htree, hnone⟩ := h.isParentGraph
  have hget : q.tree.1.get root = q.root := Graph.oldToNew_eq_some.mp hroot
  rw [signQuotient, hedges, hroot] at hrun
  change (compute (treeOnlyGraph q.tree.1.length edges) uniformColours root s.pool).bind _ = _ at hrun
  obtain ⟨r, hr, -⟩ := bind_ok hrun
  obtain ⟨id, -, hhas⟩ := compute_vertex (rootedTree_of_isParentGraph htree hnone) hr .refl
  have hbytes : Fits _ := compute_allFit hfit hr _ hhas.mem
  have hchildren : (q.tree.1.filter fun v => q.parent v = some q.root).length ≤
      (children (treeOnlyGraph q.tree.1.length edges) (localDepth q.tree q.depthOf) root).length := by
    refine le_of_le_of_eq ((List.subperm_of_subset (q.tree.2.filter _) fun v hv => ?_).length_le)
      (List.length_map q.tree.1.get)
    obtain ⟨hv, hparent⟩ := List.mem_filter.mp hv
    obtain ⟨i, rfl⟩ := List.get_of_mem hv
    have hi : localParent q.tree q.parent i = some root := by
      rw [localParent_iff, hget]
      exact of_decide_eq_true hparent
    exact List.mem_map_of_mem (mem_children.mpr ⟨(htree.adj root i).mpr (Or.inr hi), htree.depth i root hi⟩)
  have hlength : (children (treeOnlyGraph q.tree.1.length edges) (localDepth q.tree q.depthOf) root).length ≤
      (subtreeString (treeOnlyGraph q.tree.1.length edges) (localDepth q.tree q.depthOf) uniformColours
        root).length := length_children_le (g := treeOnlyGraph q.tree.1.length edges) root
  have hutf8 := length_le_utf8Size (subtreeString (treeOnlyGraph q.tree.1.length edges)
    (localDepth q.tree q.depthOf) uniformColours root)
  rw [Fits] at hbytes
  omega

end

/-! ### Pieces of one colour -/

section
variable {g : Graph} [g.Simple] {colouring : Fin g.n → Content} {rootRule : RootRule} {x : VertexList g.n}
  {pool : InternPool}

/-- When all is signed, so is the tree of the first piece: its root has few neighbours. -/
theorem degree_root_le (h : ¬isBase colouring x) (hfit : pool.AllFit) {s : Signatures g.n}
    (hrun : positionSignatures colouring (peel colouring rootRule x) pool = .ok s) :
    4 + ((g.induced x).adj (rootRule (g.induced x) (restrictedColouring colouring x)
      (pos_of_not_isBase h))).length ≤ 2 ^ 26 := by
  have hquotient : IsQuotient g _ (quotientTree x (decomposition colouring x rootRule h)) :=
    isQuotient_quotientTree (decomposition_nodup h) (decomposition_grows h)
  rw [positionSignatures, peel_of_quotient h, List.foldlM_cons] at hrun
  obtain ⟨s₁, hs₁, -⟩ := bind_ok hrun
  refine le_trans (Nat.add_le_add_left ?_ 4) (length_rootChildren_le hquotient hfit hs₁)
  refine (List.length_map x.1.get).symm.trans_le ?_
  refine (List.subperm_of_subset (((g.induced x).adj_nodup _).map x.2.injective_get) fun u hu => ?_).length_le
  obtain ⟨v, hv, rfl⟩ := List.mem_map.mp hu
  -- all neighbours of the root are in the tree, below it
  have hparent : (decomposition colouring x rootRule h).parent v =
      some (decomposition colouring x rootRule h).root := PerSpec.parent_of_adj_root hv
  have htree := ((decomposition_grows h).parent v _ hparent).1
  refine List.mem_filter.mpr ⟨get_mem_lift.mpr htree, decide_eq_true ?_⟩
  rw [quotientTree_parent htree, hparent]
  rfl

/-- A set whose vertices all have two neighbours in it is not a tree. -/
theorem not_isTreeSub {sub : Graph} (hn : 1 < sub.n) (h : ∀ v, 2 ≤ (sub.adj v).length) :
    ¬isTreeSub sub := by
  have hsum : (List.finRange sub.n).length * 2 ≤
      ((List.finRange sub.n).map fun v => (sub.adj v).length).sum := by
    rw [← List.length_map (f := fun v => (sub.adj v).length)]
    refine List.card_nsmul_le_sum _ 2 fun k hk => ?_
    obtain ⟨v, -, rfl⟩ := List.mem_map.mp hk
    exact h v
  rw [List.length_finRange] at hsum
  rw [isTreeSub, Graph.m]
  omega

/-- Refinement cannot tell vertices apart that an automorphism exchanges. -/
theorem not_isDiscrete {sub : Graph} [sub.Simple] {initial : Fin sub.n → Content} {α : Equiv.Perm (Fin sub.n)}
    (hα : Graph.IsAut sub α) (hinitial : ∀ v, (initial (α v)).Equals (initial v)) {v : Fin sub.n}
    (hv : α v ≠ v) : ¬(colorRefine1WL sub initial).isDiscrete = true := by
  intro hdiscrete
  obtain ⟨cell, hcell, hmem⟩ := exists_cell (stableInts sub initial) v
  have hmem' : α v ∈ cell := (mem_cell_iff hcell hmem).mpr (stableInts_iso hα hinitial v)
  have hlen := isDiscrete_iff.mp hdiscrete cell hcell
  obtain ⟨w, hw⟩ := List.length_eq_one_iff.mp (le_antisymm hlen (List.length_pos_of_mem hmem))
  rw [hw, List.mem_singleton] at hmem hmem'
  exact hv (hmem'.trans hmem.symm)

end

/-! ### Two hubs -/

/-- The hubs 0 and 1 are joined to each of the other `k` vertices. -/
def twoHubs (k : ℕ) : Graph where
  n := k + 2
  adj := fun v => (List.finRange (k + 2)).filter fun w => decide (w.1 < 2) ≠ decide (v.1 < 2)
  names := fun v => toString v.1

section
variable {k : ℕ}

theorem mem_twoHubs {v w : Fin (k + 2)} : w ∈ (twoHubs k).adj v ↔ ¬(w.1 < 2 ↔ v.1 < 2) := by
  change w ∈ List.filter _ _ ↔ _
  simp

instance (k : ℕ) : (twoHubs k).Simple where
  sorted := fun _ => (List.pairwise_lt_finRange _).filter _
  symm := fun h => mem_twoHubs.mpr fun hiff => mem_twoHubs.mp h hiff.symm
  irrefl := fun _ h => mem_twoHubs.mp h Iff.rfl

/-- 0 and 1 are joined to each of the other `k` vertices, and there are no other edges. -/
structure HasTwoHubs (k : ℕ) (g : Graph) : Prop where
  n : g.n = k + 2
  adj : ∀ v w, w ∈ g.adj v ↔ ¬(w.1 < 2 ↔ v.1 < 2)

theorem hasTwoHubs_induced : HasTwoHubs k ((twoHubs k).induced (allVertices _)) where
  n := List.length_finRange
  adj := by
    intro v w
    have hside : ∀ i : Fin (allVertices (twoHubs k).n).1.length,
        ((allVertices (twoHubs k).n).1.get i).1 < 2 ↔ i.1 < 2 := fun i => by rw [get_allVertices]
    exact Graph.mem_induced.trans (mem_twoHubs.trans (not_congr (iff_congr (hside w) (hside v))))

theorem two_le_length {α : Type} {l : List α} {a b : α} (hab : a ≠ b) (ha : a ∈ l) (hb : b ∈ l) :
    2 ≤ l.length :=
  (List.subperm_of_subset (show [a, b].Nodup by simp [hab]) (by simp [ha, hb])).length_le

variable {sub : Graph} (h : HasTwoHubs k sub)
include h

theorem HasTwoHubs.two_le_degree (hk : 2 ≤ k) (v : Fin sub.n) : 2 ≤ (sub.adj v).length := by
  have hn := h.n
  by_cases hv : v.1 < 2
  · refine two_le_length (a := ⟨2, by omega⟩) (b := ⟨3, by omega⟩) (by simp) ?_ ?_
    · rw [h.adj]
      simp [hv]
    · rw [h.adj]
      simp [hv]
  · refine two_le_length (a := ⟨0, by omega⟩) (b := ⟨1, by omega⟩) (by simp) ?_ ?_
    · rw [h.adj]
      simp only [iff_false_right hv]
      omega
    · rw [h.adj]
      simp only [iff_false_right hv]
      omega

theorem HasTwoHubs.le_degree {v : Fin sub.n} (hv : v.1 = 0) : k ≤ (sub.adj v).length := by
  have hinj : Function.Injective fun i : Fin k => (i.natAdd 2).cast ((Nat.add_comm 2 k).trans h.n.symm) :=
    (Fin.cast_injective _).comp (Fin.natAdd_injective k 2)
  have hsub := List.subperm_of_subset ((List.nodup_finRange k).map hinj) fun w hw => by
    obtain ⟨i, -, rfl⟩ := List.mem_map.mp hw
    rw [h.adj, hv]
    simp
    omega
  have hlen := hsub.length_le
  rwa [List.length_map, List.length_finRange] at hlen

/-- With one colour the hubs look alike, and every vertex has two neighbours. -/
theorem HasTwoHubs.not_isBase [sub.Simple] (hk : 2 ≤ k) {initial : Fin sub.n → Content} {c : Content}
    (hinitial : ∀ v, initial v = c) :
    ¬(isTreeSub sub ∨ (colorRefine1WL sub initial).isDiscrete = true) := by
  have hn := h.n
  rintro (htree | hdiscrete)
  · exact not_isTreeSub (by omega) (h.two_le_degree hk) htree
  · have hside : ∀ v, (Equiv.swap (⟨0, by omega⟩ : Fin sub.n) ⟨1, by omega⟩ v).1 < 2 ↔ v.1 < 2 := by
      intro v
      rw [Equiv.swap_apply_def]
      split_ifs with h0 h1
      · simp [h0]
      · simp [h1]
      · rfl
    refine not_isDiscrete (α := Equiv.swap ⟨0, by omega⟩ ⟨1, by omega⟩) (v := ⟨0, by omega⟩) ?_ ?_ ?_ hdiscrete
    · intro v w
      rw [h.adj, h.adj, hside, hside]
    · intro v
      rw [hinitial, hinitial]
      rfl
    · rw [Equiv.swap_apply_left]
      simp

end

/-- The rule that takes the first vertex. -/
def firstVertex : RootRule := fun _ _ h => ⟨0, h⟩

/-- With too many vertices between the hubs there are no signatures. -/
theorem not_signed_twoHubs {k : ℕ} (hk : 2 ^ 26 < 4 + k) (c : Content) :
    ¬∃ s, positionSignatures (g := twoHubs k) (fun _ => c)
      (peel (fun _ => c) firstVertex (allVertices _)) .empty = .ok s := by
  rintro ⟨s, hs⟩
  have hbase : ¬isBase (g := twoHubs k) (fun _ => c) (allVertices _) :=
    hasTwoHubs_induced.not_isBase (by omega) (c := c) fun _ => rfl
  have hbound := degree_root_le hbase allFit_empty hs
  have := (Nat.add_le_add_left (hasTwoHubs_induced.le_degree rfl) 4).trans hbound
  omega

end Dialysis
