import GraphDialysis.Decomposition.Dialysis
import GraphDialysis.Decomposition.Parts

/-! `dialysisPerSpec`: a vertex joins when exactly one neighbour is a tree vertex of the level before;
    its neighbours on its own level do not count, as they do for `dialysis`. Below the root every tree
    vertex has that neighbour as its parent, one level up (`tree_cases`), and the neighbours of the
    root all join (`inTree_of_adj_root`). -/

namespace Dialysis.PerSpec
open Lib Lib.Bfs
open Decompose (Grown level levelVerts depth lastLevel mem_levelVerts level_root level_le_last
  eq_root_of_level)

section
variable (g : Graph) (root : Fin g.n)

/-- A vertex joins when one of its neighbours is among `prevTreeInLayerI`, and no more than one. -/
def join (prevTreeInLayerI : List (Fin g.n)) (t : Grown g) (v : Fin g.n) : Grown g :=
  match (g.adj v).filter (· ∈ prevTreeInLayerI) with
  | [candidate] => (Function.update t.1 v true, Function.update t.2 v (some candidate))
  | _ => t

/-- The round that lets the vertices of level `i + 1` join. -/
def round (t : Grown g) (i : ℕ) : Grown g :=
  (levelVerts g root (i + 1)).foldl (join g ((levelVerts g root i).filter fun w => t.1 w)) t

/-- The rounds before round `k`. -/
def grow (k : ℕ) : Grown g :=
  (List.range k).foldl (round g root) (fun v => v = root, fun _ => none)

/-- `inTree` after the last round. -/
def inTree (v : Fin g.n) : Bool := (grow g root (lastLevel g root)).1 v

/-- `parent` after the last round. -/
def parent (v : Fin g.n) : Option (Fin g.n) := (grow g root (lastLevel g root)).2 v

/-- The orphans of one level that share an attachment with `cur`. -/
def siblings (levelOrphans : List (Fin g.n)) (cur : Fin g.n) : List (Fin g.n) :=
  (g.adj cur).flatMap fun att => levelOrphans.filter fun o => att ∈ g.adj o

/-- Per level, ascending, the connected components of orphans through shared attachments. -/
def slices : List (Slice g.n) :=
  (sortOn (·.1) (groupBy (depth g root) (Parts.orphans g (inTree g root)))).flatMap fun p =>
    (components (siblings g p.2) g.n p.2).map fun comp =>
      { level := p.1
        orphans := comp.insertionSort (· ≤ ·)
        attachments := ((comp.flatMap g.adj).dedup).insertionSort (· ≤ ·) }

end

/-! ### Rounds -/

variable {g : Graph} {root v p : Fin g.n}

/-- What the rounds before round `k` have made: every tree vertex but the root has its parent in the tree,
    one level up, and the levels still to come are untouched. -/
structure GrownTree (g : Graph) (root : Fin g.n) (k : ℕ) (t : Grown g) : Prop where
  atRoot : t.1 root = true ∧ t.2 root = none
  tree : ∀ v, t.1 v = true → ∃ i ≤ k, level g root v = some i
  parent : ∀ v, t.1 v = true → v ≠ root → ∃ p, t.2 v = some p
  above : ∀ v p, t.2 v = some p → t.1 v = true ∧ t.1 p = true ∧ p ∈ g.adj v ∧
    ∃ i, level g root p = some i ∧ level g root v = some (i + 1)

theorem grownTree_zero : GrownTree g root 0 (fun v => v = root, fun _ => none) where
  atRoot := ⟨decide_eq_true rfl, rfl⟩
  tree := fun v hv => ⟨0, le_refl 0, of_decide_eq_true hv ▸ level_root⟩
  parent := fun v hv hne => absurd (of_decide_eq_true hv) hne
  above := by
    intro v p h
    cases h

/-- A vertex joins below a tree vertex of the level before. -/
theorem grownTree_join {k : ℕ} {prev : List (Fin g.n)} {t : Grown g} (h : GrownTree g root (k + 1) t)
    (hprev : ∀ w ∈ prev, t.1 w = true ∧ level g root w = some k)
    (hv : level g root v = some (k + 1)) :
    GrownTree g root (k + 1) (join g prev t v) ∧
      ∀ w, level g root w = some k → ((join g prev t v).1 w = true ↔ t.1 w = true) := by
  unfold join
  split
  · rename_i candidate hcand
    have hmem : candidate ∈ (g.adj v).filter (· ∈ prev) := by
      rw [hcand]
      exact List.mem_singleton_self _
    obtain ⟨hadj, hin⟩ := List.mem_filter.mp hmem
    obtain ⟨hctree, hclevel⟩ := hprev candidate (of_decide_eq_true hin)
    have hvroot : root ≠ v := by
      rintro rfl
      rw [level_root] at hv
      cases hv
    have hstays : ∀ w, t.1 w = true → Function.update t.1 v true w = true := by
      intro w hw
      rw [Function.update_apply]
      split
      · rfl
      · exact hw
    refine ⟨⟨?_, ?_, ?_, ?_⟩, ?_⟩
    · dsimp only
      rw [Function.update_of_ne hvroot, Function.update_of_ne hvroot]
      exact h.atRoot
    · intro w hw
      rcases eq_or_ne w v with rfl | hne
      · exact ⟨k + 1, le_refl _, hv⟩
      · dsimp only at hw
        rw [Function.update_of_ne hne] at hw
        exact h.tree w hw
    · intro w hw hroot
      rcases eq_or_ne w v with rfl | hne
      · exact ⟨candidate, Function.update_self _ _ _⟩
      · dsimp only at hw ⊢
        rw [Function.update_of_ne hne] at hw ⊢
        exact h.parent w hw hroot
    · intro w p hp
      dsimp only at hp ⊢
      rcases eq_or_ne w v with rfl | hne
      · rw [Function.update_self, Option.some.injEq] at hp
        subst hp
        exact ⟨Function.update_self _ _ _, hstays _ hctree, hadj, k, hclevel, hv⟩
      · rw [Function.update_of_ne hne] at hp
        obtain ⟨hw, hpt, hrest⟩ := h.above w p hp
        exact ⟨hstays w hw, hstays p hpt, hrest⟩
    · intro w hw
      have hne : w ≠ v := by
        rintro rfl
        rw [hv, Option.some.injEq] at hw
        omega
      dsimp only
      rw [Function.update_of_ne hne]
  · exact ⟨h, fun _ _ => Iff.rfl⟩

theorem grownTree_foldl {k : ℕ} {prev : List (Fin g.n)} : ∀ {l : List (Fin g.n)} {t : Grown g},
    GrownTree g root (k + 1) t → (∀ w ∈ prev, t.1 w = true ∧ level g root w = some k) →
    (∀ v ∈ l, level g root v = some (k + 1)) → GrownTree g root (k + 1) (l.foldl (join g prev) t)
  | [], _, h, _, _ => h
  | v :: l, t, h, hprev, hl => by
    obtain ⟨hstep, hkeep⟩ := grownTree_join h hprev (hl v List.mem_cons_self)
    rw [List.foldl_cons]
    refine grownTree_foldl hstep (fun w hw => ?_) fun w hw => hl w (List.mem_cons_of_mem _ hw)
    obtain ⟨hin, hlevel⟩ := hprev w hw
    exact ⟨(hkeep w hlevel).mpr hin, hlevel⟩

theorem grownTree_grow : ∀ k : ℕ, GrownTree g root k (grow g root k)
  | 0 => grownTree_zero
  | k + 1 => by
    rw [grow, List.range_succ, List.foldl_append, List.foldl_cons, List.foldl_nil, ← grow, round]
    have h := grownTree_grow k
    refine grownTree_foldl ⟨h.atRoot, fun v hv => ?_, h.parent, h.above⟩ (fun w hw => ?_) fun v hv =>
      mem_levelVerts.mp hv
    · obtain ⟨i, hi, hl⟩ := h.tree v hv
      exact ⟨i, Nat.le_succ_of_le hi, hl⟩
    · obtain ⟨hw, hin⟩ := List.mem_filter.mp hw
      exact ⟨hin, mem_levelVerts.mp hw⟩

/-! ### The tree -/

theorem inTree_root : inTree g root root = true := (grownTree_grow _).atRoot.1

theorem parent_root : parent g root root = none := (grownTree_grow _).atRoot.2

theorem exists_level (hv : inTree g root v = true) : ∃ i, level g root v = some i := by
  obtain ⟨i, -, hi⟩ := (grownTree_grow _).tree v hv
  exact ⟨i, hi⟩

theorem exists_parent (hv : inTree g root v = true) (hne : v ≠ root) : ∃ p, parent g root v = some p :=
  (grownTree_grow _).parent v hv hne

/-- The parent of a tree vertex is a neighbour in the tree, one level up. -/
theorem parent_above (h : parent g root v = some p) : inTree g root v = true ∧ inTree g root p = true ∧
    p ∈ g.adj v ∧ ∃ i, level g root p = some i ∧ level g root v = some (i + 1) :=
  (grownTree_grow _).above v p h

/-! ### Neighbours of the root -/

theorem join_of_ne {prev : List (Fin g.n)} {t : Grown g} {w : Fin g.n} (hne : v ≠ w) :
    (join g prev t w).2 v = t.2 v := by
  unfold join
  split
  · exact Function.update_of_ne hne _ _
  · rfl

theorem foldl_join_of_notMem {prev : List (Fin g.n)} : ∀ {l : List (Fin g.n)} {t : Grown g}, v ∉ l →
    (l.foldl (join g prev) t).2 v = t.2 v
  | [], _, _ => rfl
  | w :: l, t, hv => by
    rw [List.mem_cons, not_or] at hv
    rw [List.foldl_cons, foldl_join_of_notMem hv.2, join_of_ne hv.1]

/-- Who has one neighbour among the vertices of the level before joins below it. -/
theorem foldl_join_of_mem {prev : List (Fin g.n)} (hp : (g.adj v).filter (· ∈ prev) = [p]) :
    ∀ {l : List (Fin g.n)} {t : Grown g}, v ∈ l → (l.foldl (join g prev) t).2 v = some p
  | w :: l, t, hv => by
    rw [List.foldl_cons]
    by_cases hl : v ∈ l
    · exact foldl_join_of_mem hp hl
    · obtain rfl : v = w := (List.mem_cons.mp hv).resolve_right hl
      rw [foldl_join_of_notMem hl, join, hp]
      exact Function.update_self _ _ _

theorem round_keeps {k i : ℕ} {t : Grown g} (hv : level g root v = some i) (hik : i ≤ k) :
    (round g root t k).2 v = t.2 v := by
  refine foldl_join_of_notMem fun hmem => ?_
  have := mem_levelVerts.mp hmem
  rw [hv, Option.some.injEq] at this
  omega

theorem grow_keeps {i : ℕ} (hv : level g root v = some i) : ∀ {k : ℕ}, i ≤ k →
    (grow g root k).2 v = (grow g root i).2 v := by
  intro k hik
  induction k, hik using Nat.le_induction with
  | base => rfl
  | succ k hik ih =>
    rw [grow, List.range_succ, List.foldl_append, List.foldl_cons, List.foldl_nil, ← grow,
      round_keeps hv hik, ih]

/-- All neighbours of the root join, below it. -/
theorem parent_of_adj_root [g.Simple] (h : v ∈ g.adj root) : parent g root v = some root := by
  have hlevel : level g root v = some 1 := by
    obtain ⟨j, hj, hle⟩ := Decompose.level_adj level_root h
    cases j with
    | zero =>
      rw [eq_root_of_level hj] at h
      exact absurd h (Graph.Simple.irrefl _)
    | succ j =>
      obtain rfl : j = 0 := by omega
      exact hj
  have hprev : ∀ w, w ∈ (levelVerts g root 0).filter (fun w => (grow g root 0).1 w) ↔ w = root := by
    intro w
    rw [List.mem_filter, mem_levelVerts]
    constructor
    · exact fun hw => eq_root_of_level hw.1
    · rintro rfl
      exact ⟨level_root, decide_eq_true rfl⟩
  have honly : (g.adj v).filter
      (· ∈ (levelVerts g root 0).filter fun w => (grow g root 0).1 w) = [root] := by
    refine List.perm_singleton.mp ((List.perm_ext_iff_of_nodup ((g.adj_nodup v).filter _)
      (List.nodup_singleton _)).mpr fun w => ?_)
    rw [List.mem_filter, decide_eq_true_eq, hprev, List.mem_singleton, and_iff_right_iff_imp]
    rintro rfl
    exact Graph.Simple.symm h
  rw [parent, grow_keeps hlevel (level_le_last hlevel)]
  exact foldl_join_of_mem honly (mem_levelVerts.mpr hlevel)

end Dialysis.PerSpec

namespace Dialysis
open PerSpec

/-- `dialysisPerSpec`. -/
def dialysisPerSpec (g : Graph) [g.Simple] (root : Fin g.n) : Decomposition g.n where
  root := root
  treeVerts := Parts.treeVerts g (inTree g root)
  parent := parent g root
  depth := Decompose.depth g root
  orphans := Parts.orphans g (inTree g root)
  slices := slices g root
  remainderComps := Parts.remainderComps g (inTree g root)
  connectorEdges := Parts.connectorEdges g (inTree g root)

/-- Every tree vertex but the root has a parent: a neighbour in the tree, one step less deep. -/
structure GrowsFromRoot {n : ℕ} (adj : Fin n → List (Fin n)) (dec : Decomposition n) : Prop where
  root_mem : dec.root ∈ dec.treeVerts.1
  root_parent : dec.parent dec.root = none
  root_depth : dec.depth dec.root = 0
  exists_parent : ∀ v ∈ dec.treeVerts.1, v ≠ dec.root → ∃ p, dec.parent v = some p
  parent : ∀ v p, dec.parent v = some p → v ∈ dec.treeVerts.1 ∧ p ∈ dec.treeVerts.1 ∧ p ∈ adj v ∧
    dec.depth v = dec.depth p + 1
  depth : ∀ v ∈ dec.treeVerts.1, ∃ d : ℕ, dec.depth v = d

theorem growsFromRoot_dialysisPerSpec (g : Graph) [g.Simple] (root : Fin g.n) :
    GrowsFromRoot g.adj (dialysisPerSpec g root) := by
  have hdepth : ∀ {v : Fin g.n} {d : ℕ}, Decompose.level g root v = some d →
      (dialysisPerSpec g root).depth v = d := by
    intro v d hd
    rw [dialysisPerSpec]
    dsimp only
    rw [Decompose.depth, hd]
    rfl
  refine ⟨Parts.mem_treeVerts.mpr inTree_root, parent_root, hdepth Decompose.level_root, ?_, ?_, ?_⟩
  · exact fun v hv hne => exists_parent (Parts.mem_treeVerts.mp hv) hne
  · intro v p hp
    obtain ⟨hv, hpt, hadj, d, hdp, hdv⟩ := parent_above hp
    refine ⟨Parts.mem_treeVerts.mpr hv, Parts.mem_treeVerts.mpr hpt, hadj, ?_⟩
    rw [hdepth hdp, hdepth hdv, Nat.cast_succ]
  · intro v hv
    obtain ⟨d, hd⟩ := exists_level (Parts.mem_treeVerts.mp hv)
    exact ⟨d, hdepth hd⟩

end Dialysis
