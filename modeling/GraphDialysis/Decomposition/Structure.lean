import GraphDialysis.Decomposition.Dialysis
import GraphDialysis.Graph.SimpleGraph
import GraphDialysis.Lib.Forest

/-! What a dialysis decomposition looks like. `inTree_iff` says which vertices join the tree without
    speaking of rounds, and `parent_iff` which vertex is the parent. -/

namespace Dialysis.Decompose
open Lib Lib.Bfs
variable {g : Graph} [g.Simple] {root v w p : Fin g.n} {i : ℕ}

/-! ### The tree -/

theorem level_le_of_grow : ∀ {k : ℕ} {v : Fin g.n}, (grow g root k).1 v = true →
    ∃ i ≤ k, level g root v = some i
  | 0, v, hv => ⟨0, le_refl 0, (grow_zero v).mp hv ▸ level_root⟩
  | k + 1, v, hv => by
    rcases (grow_succ k v).mp hv with hv | hv
    · obtain ⟨i, hi, hl⟩ := level_le_of_grow hv
      exact ⟨i, by omega, hl⟩
    · exact ⟨k + 1, le_refl _, hv.1⟩

/-- After its own round a vertex stays as it is. -/
theorem grow_stable (hv : level g root v = some i) : ∀ {k : ℕ}, i ≤ k →
    ((grow g root k).1 v = true ↔ (grow g root i).1 v = true)
  | 0, hk => by
    obtain rfl : i = 0 := by omega
    rfl
  | k + 1, hk => by
    rcases Nat.eq_or_lt_of_le hk with rfl | hk
    · rfl
    · rw [grow_succ, or_iff_left, grow_stable hv (Nat.le_of_lt_succ hk)]
      rintro ⟨hl, -⟩
      rw [hv, Option.some.injEq] at hl
      omega

theorem inTree_iff_grow (hv : level g root v = some i) :
    inTree g root v = true ↔ (grow g root i).1 v = true :=
  grow_stable hv (level_le_last hv)

/-- A vertex below the root is in the tree when its only neighbour in the two levels is. -/
theorem inTree_iff (hv : level g root v = some (i + 1)) : inTree g root v = true ↔
    ∃ p, (g.adj v).filter (inBand g root i) = [p] ∧ inTree g root p = true := by
  have hnot : ¬(grow g root i).1 v = true := fun h => by
    obtain ⟨j, hj, hl⟩ := level_le_of_grow h
    rw [hv, Option.some.injEq] at hl
    omega
  rw [inTree_iff_grow hv, grow_succ, or_iff_right hnot, Joins, and_iff_right hv]
  refine exists_congr fun p => and_congr_right fun hp => ?_
  exact (inTree_iff_grow (level_candidate hv hp)).symm

theorem inTree_root : inTree g root root = true := grow_root _

/-- The parent of a tree vertex below the root. -/
theorem exists_parent (hv : inTree g root v = true) (hl : level g root v = some (i + 1)) :
    ∃ p ∈ g.adj v, inTree g root p = true ∧ level g root p = some i := by
  obtain ⟨p, hp, hpt⟩ := (inTree_iff hl).mp hv
  have hmem : p ∈ (g.adj v).filter (inBand g root i) := by rw [hp]; exact List.mem_singleton_self p
  exact ⟨p, (List.mem_filter.mp hmem).1, hpt, level_candidate hl hp⟩

/-- In round `i`: no vertex of a later level has joined, and the parent is the neighbour in the tree
    one level up. -/
structure ParentInv (g : Graph) (root : Fin g.n) (i : ℕ) (t : Grown g) : Prop where
  level : ∀ v, t.1 v = true → ∃ j ≤ i + 1, level g root v = some j
  parent : ∀ v p, t.2 v = some p ↔ t.1 v = true ∧ t.1 p = true ∧ p ∈ g.adj v ∧
    ∃ j, Decompose.level g root p = some j ∧ Decompose.level g root v = some (j + 1)

theorem parentInv_join {t : Grown g} (h : ParentInv g root i t) (hv : level g root v = some (i + 1)) :
    ParentInv g root i (join g root i t v) := by
  unfold join
  split
  · rename_i q hq
    split
    · rename_i hin
      have hlq := level_candidate hv hq
      have hmem : ∀ x, x ∈ g.adj v ∧ level g root x = some i ↔ x = q := fun x => by
        constructor
        · rintro ⟨hx, hl⟩
          have : x ∈ (g.adj v).filter (inBand g root i) :=
            List.mem_filter.mpr ⟨hx, by simp [inBand, hl]⟩
          rwa [hq, List.mem_singleton] at this
        · rintro rfl
          have : x ∈ (g.adj v).filter (inBand g root i) := by rw [hq]; exact List.mem_singleton_self x
          exact ⟨(List.mem_filter.mp this).1, hlq⟩
      have hqv : q ≠ v := by
        rintro rfl
        rw [hv, Option.some.injEq] at hlq
        omega
      refine ⟨fun w hw => ?_, fun w x => ?_⟩
      · rcases eq_or_ne w v with rfl | hne
        · exact ⟨i + 1, le_refl _, hv⟩
        · dsimp only at hw
          rw [Function.update_of_ne hne] at hw
          exact h.level w hw
      · dsimp only
        rcases eq_or_ne w v with rfl | hne
        · rw [Function.update_self, Function.update_self, Option.some.injEq]
          constructor
          · rintro rfl
            exact ⟨rfl, by rw [Function.update_of_ne hqv]; exact hin, ((hmem q).mpr rfl).1, i, hlq, hv⟩
          · rintro ⟨-, -, hx, j, hlx, hlw⟩
            rw [hv, Option.some.injEq, Nat.add_right_cancel_iff] at hlw
            exact ((hmem x).mp ⟨hx, hlw ▸ hlx⟩).symm
        · rw [Function.update_of_ne hne, Function.update_of_ne hne, h.parent]
          rcases eq_or_ne x v with rfl | hxv
          · -- nothing below the vertex that joins has joined
            constructor
            · rintro ⟨hw, -, hx, hl⟩
              exact ⟨hw, Function.update_self _ _ _, hx, hl⟩
            · rintro ⟨hw, -, hx, j, hlx, hlw⟩
              obtain ⟨k, hk, hlk⟩ := h.level w hw
              rw [hv, Option.some.injEq] at hlx
              rw [hlw, Option.some.injEq] at hlk
              omega
          · rw [Function.update_of_ne hxv]
    · exact h
  · exact h

theorem parentInv_foldl : ∀ (l : List (Fin g.n)) (t : Grown g),
    (∀ v ∈ l, level g root v = some (i + 1)) → ParentInv g root i t →
      ParentInv g root i (l.foldl (join g root i) t)
  | [], _, _, h => h
  | v :: l, _, hl, h =>
    parentInv_foldl l _ (fun w hw => hl w (List.mem_cons_of_mem _ hw))
      (parentInv_join h (hl v (List.mem_cons_self ..)))

theorem parentInv_grow : ∀ k : ℕ, ParentInv g root k (grow g root k)
  | 0 => by
    refine ⟨fun v hv => ?_, fun v p => ?_⟩
    · exact ⟨0, Nat.zero_le _, (grow_zero v).mp hv ▸ level_root⟩
    · refine ⟨fun h => by simp [grow] at h, fun ⟨hv, hp, hadj, _⟩ => ?_⟩
      rw [(grow_zero v).mp hv, (grow_zero p).mp hp] at hadj
      exact absurd hadj (Graph.Simple.irrefl _)
  | k + 1 => by
    have h : ParentInv g root k (grow g root (k + 1)) := by
      rw [grow, List.range_succ, List.foldl_append, List.foldl_cons, List.foldl_nil, ← grow]
      exact parentInv_foldl _ _ (fun v hv => mem_levelVerts.mp hv) (parentInv_grow k)
    refine ⟨fun v hv => ?_, h.parent⟩
    obtain ⟨j, hj, hl⟩ := h.level v hv
    exact ⟨j, by omega, hl⟩

/-- The parent of a tree vertex is its neighbour in the tree one level up. -/
theorem parent_iff : (grow g root (lastLevel g root)).2 v = some p ↔ inTree g root v = true ∧
    inTree g root p = true ∧ p ∈ g.adj v ∧
      ∃ j, level g root p = some j ∧ level g root v = some (j + 1) :=
  (parentInv_grow _).parent v p

theorem parent_eq_none_iff : (grow g root (lastLevel g root)).2 v = none ↔
    inTree g root v = false ∨ v = root := by
  rw [Option.eq_none_iff_forall_ne_some]
  constructor
  · intro h
    by_contra hboth
    rw [not_or, Bool.not_eq_false] at hboth
    obtain ⟨hv, hne⟩ := hboth
    obtain ⟨i, hl⟩ := tree_level hv
    cases i with
    | zero => exact hne (eq_root_of_level hl)
    | succ i =>
      obtain ⟨p, hp, hpt, hlp⟩ := exists_parent hv hl
      exact h p (parent_iff.mpr ⟨hv, hpt, hp, i, hlp, hl⟩)
  · rintro (hv | rfl) p hp
    · rw [(parent_iff.mp hp).1] at hv
      cases hv
    · obtain ⟨-, -, -, j, -, hl⟩ := parent_iff.mp hp
      rw [level_root] at hl
      cases hl

/-- No set of tree vertices is a core: its deepest vertices have one neighbour in it at most. -/
theorem tree_forestOn : ForestOn g.simpleGraph (treeVerts g root).1.toFinset := by
  intro S hS hcore
  have htree : ∀ v ∈ S, inTree g root v = true := fun v hv =>
    mem_treeVerts.mp (List.mem_toFinset.mp (hS hv))
  obtain ⟨v, hv, hmax⟩ := S.exists_max_image (fun v => (level g root v).getD 0) hcore.nonempty
  obtain ⟨a, ha, b, hb, hab, hva, hvb⟩ := two_le_degreeIn_iff.mp (hcore.two_le v hv)
  have habove : ∀ x ∈ S, g.simpleGraph.Adj v x →
      ∃ j, level g root x = some j ∧ level g root v = some (j + 1) := by
    intro x hx hadj
    obtain ⟨j, ⟨hlv, hlx⟩ | ⟨hlx, hlv⟩⟩ := tree_step (htree v hv) (htree x hx) hadj
    · have := hmax x hx
      rw [hlx, hlv, Option.getD_some, Option.getD_some] at this
      omega
    · exact ⟨j, hlx, hlv⟩
  obtain ⟨i, hla, hlv⟩ := habove a ha hva
  obtain ⟨j, hlb, hlv'⟩ := habove b hb hvb
  obtain rfl : i = j := by
    rw [hlv, Option.some.injEq] at hlv'
    omega
  exact hab (tree_parent_unique (htree v hv) hlv hva hla hvb hlb)

/-- Inside the tree every tree vertex leads to the root. -/
theorem tree_reachable : ∀ (i : ℕ) (v : {v // v ∈ (treeVerts g root).1}),
    level g root v.1 = some i →
      (g.simpleGraph.induce {v | v ∈ (treeVerts g root).1}).Reachable
        ⟨root, root_mem_treeVerts⟩ v
  | 0, v, hl => by
    obtain rfl : v = ⟨root, root_mem_treeVerts⟩ := Subtype.ext (eq_root_of_level hl)
    exact SimpleGraph.Reachable.refl _
  | i + 1, v, hl => by
    obtain ⟨p, hp, hpt, hlp⟩ := exists_parent (mem_treeVerts.mp v.2) hl
    have hadj : (g.simpleGraph.induce {v | v ∈ (treeVerts g root).1}).Adj
        ⟨p, mem_treeVerts.mpr hpt⟩ v := Graph.Simple.symm hp
    exact (tree_reachable i ⟨p, mem_treeVerts.mpr hpt⟩ hlp).trans hadj.reachable

theorem tree_isTree : (g.simpleGraph.induce {v | v ∈ (treeVerts g root).1}).IsTree where
  connected := by
    have : Nonempty {v | v ∈ (treeVerts g root).1} := ⟨⟨root, root_mem_treeVerts⟩⟩
    refine ⟨fun u v => ?_⟩
    obtain ⟨i, hu⟩ := tree_level (mem_treeVerts.mp u.2)
    obtain ⟨j, hv⟩ := tree_level (mem_treeVerts.mp v.2)
    exact (tree_reachable i u hu).symm.trans (tree_reachable j v hv)
  isAcyclic := by
    have h : ForestOn g.simpleGraph (treeVerts g root).1.toFinset := tree_forestOn
    rwa [forestOn_iff_isAcyclic, List.coe_toFinset] at h

/-! ### Orphans -/

omit [g.Simple] in
theorem mem_orphans : v ∈ orphans g root ↔
    inTree g root v = false ∧ ∀ w ∈ g.adj v, inTree g root w = true := by
  simp [orphans, hasNonTreeNeighbor]

omit [g.Simple] in
theorem inRemainder_iff : inRemainder g root v = true ↔
    inTree g root v = false ∧ ∃ w ∈ g.adj v, inTree g root w = false := by
  simp [inRemainder, hasNonTreeNeighbor]

/-- The neighbours of an orphan are one level above it. -/
theorem orphan_above (hv : v ∈ orphans g root) (hw : w ∈ g.adj v) :
    ∃ i, level g root w = some i ∧ level g root v = some (i + 1) := by
  obtain ⟨hout, hall⟩ := mem_orphans.mp hv
  obtain ⟨j, hlw⟩ := tree_level (hall w hw)
  obtain ⟨k, hlv, hkj⟩ := level_adj hlw (Graph.Simple.symm hw)
  obtain ⟨j', hlw', hjk⟩ := level_adj hlv hw
  rw [hlw, Option.some.injEq] at hlw'
  cases k with
  | zero =>
    rw [eq_root_of_level hlv, inTree_root] at hout
    cases hout
  | succ i =>
    have hband : ∀ {i' : ℕ} {p : Fin g.n}, (g.adj w).filter (inBand g root i') = [p] →
        inBand g root i' v = true → v = p := fun hp hin => by
      have hmem := List.mem_filter.mpr ⟨Graph.Simple.symm hw, hin⟩
      rwa [hp, List.mem_singleton] at hmem
    rcases Nat.lt_trichotomy j (i + 1) with hlt | heq | hgt
    · obtain rfl : j = i := by omega
      exact ⟨j, hlw, hlv⟩
    · -- on one level with it: the neighbour would have two in its band
      rw [heq] at hlw
      obtain ⟨p, hp, -⟩ := (inTree_iff hlw).mp (hall w hw)
      have hvp := hband hp (by simp [inBand, hlv])
      have := level_candidate hlw hp
      rw [← hvp, hlv, Option.some.injEq] at this
      omega
    · -- below it: the neighbour would have joined through it
      obtain rfl : j = i + 2 := by omega
      obtain ⟨p, hp, hpt⟩ := (inTree_iff hlw).mp (hall w hw)
      rw [← hband hp (by simp [inBand, hlv]), hout] at hpt
      cases hpt

/-- An orphan that is not isolated has two neighbours. -/
theorem orphan_two_le (hv : v ∈ orphans g root) (hne : g.adj v ≠ []) : 2 ≤ (g.adj v).length := by
  obtain ⟨hout, hall⟩ := mem_orphans.mp hv
  obtain ⟨w, hw⟩ := List.exists_mem_of_ne_nil _ hne
  obtain ⟨i, hlw, hlv⟩ := orphan_above hv hw
  have hband : (g.adj v).filter (inBand g root i) = g.adj v := by
    refine List.filter_eq_self.mpr fun x hx => ?_
    obtain ⟨j, hlx, hlv'⟩ := orphan_above hv hx
    obtain rfl : i = j := by
      rw [hlv, Option.some.injEq] at hlv'
      omega
    simp [inBand, hlx]
  by_contra hlt
  obtain ⟨p, hp⟩ : ∃ p, g.adj v = [p] := List.length_eq_one_iff.mp (by
    have := List.length_pos_iff.mpr hne
    omega)
  have hin : inTree g root v = true := (inTree_iff hlv).mpr
    ⟨p, hband.trans hp, hall p (by rw [hp]; exact List.mem_singleton_self p)⟩
  rw [hout] at hin
  cases hin

/-! ### Slices -/

/-- The orphans of one level. -/
def levelOrphans (g : Graph) (root : Fin g.n) (l : ℤ) : List (Fin g.n) :=
  (orphans g root).filter fun o => depth g root o = l

/-- The edges between some vertices and their neighbours. -/
def sliceGraph (g : Graph) [g.Simple] (os : List (Fin g.n)) : SimpleGraph (Fin g.n) where
  Adj v w := w ∈ g.adj v ∧ (v ∈ os ∨ w ∈ os)
  symm := ⟨fun _ _ ⟨h, hos⟩ => ⟨Graph.Simple.symm h, hos.symm⟩⟩
  loopless := ⟨fun v ⟨h, _⟩ => Graph.Simple.irrefl v h⟩

variable {os : List (Fin g.n)} {l : ℤ}

omit [g.Simple] in
theorem mem_siblings : w ∈ siblings g os v ↔ w ∈ os ∧ ∃ att ∈ g.adj v, att ∈ g.adj w := by
  simp only [siblings, List.mem_flatMap, List.mem_filter, decide_eq_true_eq]
  exact ⟨fun ⟨att, hatt, hw, hw'⟩ => ⟨hw, att, hatt, hw'⟩, fun ⟨hw, att, hatt, hw'⟩ =>
    ⟨att, hatt, hw, hw'⟩⟩

omit [g.Simple] in
theorem siblings_components (os : List (Fin g.n)) :
    IsComponents (siblings g os) os (components (siblings g os) g.n os) := by
  refine components_spec (Fintype.card_fin _).le fun v hv u w hu hw => ?_
  have hin : u ∈ os := Reach.closed (fun x _ y hy => (mem_siblings.mp hy).1) hv hu
  obtain ⟨-, att, hatt, hatt'⟩ := mem_siblings.mp hw
  exact mem_siblings.mpr ⟨hin, att, hatt', hatt⟩

omit [g.Simple] in
theorem reach_siblings_mem (hv : v ∈ os) (h : Reach (siblings g os) v w) : w ∈ os :=
  Reach.closed (fun _ _ _ hy => (mem_siblings.mp hy).1) hv h

omit [g.Simple] in
theorem mem_slices {s : Slice g.n} : s ∈ slices g root ↔ ∃ l,
    ∃ comp ∈ components (siblings g (levelOrphans g root l)) g.n (levelOrphans g root l),
      s = ⟨l, comp.insertionSort (· ≤ ·), (comp.flatMap g.adj).dedup.insertionSort (· ≤ ·)⟩ := by
  simp only [slices, List.mem_flatMap, List.mem_map, (sortOn_perm _ _).mem_iff, mem_groupBy]
  constructor
  · rintro ⟨⟨l, os⟩, ⟨-, hos⟩, comp, hcomp, rfl⟩
    obtain rfl : os = levelOrphans g root l := hos
    exact ⟨l, comp, hcomp, rfl⟩
  · rintro ⟨l, comp, hcomp, rfl⟩
    obtain ⟨v, hv, -⟩ := (siblings_components _).meets comp hcomp
    obtain ⟨hv, hl⟩ := List.mem_filter.mp hv
    refine ⟨(l, levelOrphans g root l), ⟨?_, rfl⟩, comp, hcomp, rfl⟩
    exact ⟨v, hv, of_decide_eq_true hl⟩

omit [g.Simple] in
/-- Together the slices hold every orphan once. -/
theorem slices_perm : ((slices g root).flatMap fun s => s.orphans).Perm (orphans g root) := by
  have hnd : (orphans g root).Nodup := (List.nodup_finRange g.n).filter _
  have hgroup : ∀ p ∈ sortOn (·.1) (groupBy (depth g root) (orphans g root)),
      (((components (siblings g p.2) g.n p.2).map fun comp => (⟨p.1, comp.insertionSort (· ≤ ·),
        (comp.flatMap g.adj).dedup.insertionSort (· ≤ ·)⟩ : Slice g.n)).flatMap
          fun s => s.orphans).Perm p.2 := by
    intro p hp
    rw [(sortOn_perm _ _).mem_iff, mem_groupBy] at hp
    rw [List.flatMap_map]
    refine (List.Perm.flatMap_left _ fun comp _ => List.perm_insertionSort _ comp).trans ?_
    rw [List.flatMap_id']
    refine (siblings_components p.2).flatten_perm ?_ fun v _ w hw => (mem_siblings.mp hw).1
    rw [hp.2]
    exact hnd.filter _
  rw [slices, List.flatMap_assoc]
  refine (List.Perm.flatMap_left _ hgroup).trans ?_
  refine ((sortOn_perm _ _).flatMap_right _).trans ?_
  have := flatten_groups_perm (depth g root) hnd
  rwa [groups, ← List.flatMap_def] at this

/-- What a vertex of one level is joined to through shared neighbours. -/
theorem sliceGraph_reachable_iff (hos : ∀ v ∈ os, ∀ w ∈ g.adj v, w ∉ os) (hv : v ∈ os) :
    (sliceGraph g os).Reachable v w ↔ Reach (siblings g os) v w ∨
      ∃ u, Reach (siblings g os) v u ∧ w ∈ g.adj u := by
  have hreach : ∀ u, Reach (siblings g os) v u → (sliceGraph g os).Reachable v u := fun u hu => by
    refine (Reach.closed (P := fun x => x ∈ os ∧ (sliceGraph g os).Reachable v x)
      (fun x ⟨hx, hvx⟩ y hy => ?_) ⟨hv, SimpleGraph.Reachable.refl v⟩ hu).2
    obtain ⟨hyos, att, hatt, hatt'⟩ := mem_siblings.mp hy
    have h₁ : (sliceGraph g os).Adj x att := ⟨hatt, Or.inl hx⟩
    have h₂ : (sliceGraph g os).Adj att y := ⟨Graph.Simple.symm hatt', Or.inr hyos⟩
    exact ⟨hyos, hvx.trans (h₁.reachable.trans h₂.reachable)⟩
  constructor
  · rintro ⟨p⟩
    have hwalk : ∀ {x y : Fin g.n}, (sliceGraph g os).Walk x y →
        (Reach (siblings g os) v x ∨ ∃ u, Reach (siblings g os) v u ∧ x ∈ g.adj u) →
          Reach (siblings g os) v y ∨ ∃ u, Reach (siblings g os) v u ∧ y ∈ g.adj u := by
      intro x y q
      induction q with
      | nil => exact id
      | cons h q ih =>
        refine fun hx => ih ?_
        rcases hx with hx | ⟨u, hu, hx⟩
        · exact Or.inr ⟨_, hx, h.1⟩
        · -- back from a neighbour to another vertex of the level
          have huos := reach_siblings_mem hv hu
          have hyos := h.2.resolve_left (hos u huos _ hx)
          exact Or.inl (hu.tail (mem_siblings.mpr ⟨hyos, _, hx, Graph.Simple.symm h.1⟩))
    exact hwalk p (Or.inl (Reach.refl v))
  · rintro (h | ⟨u, hu, hw⟩)
    · exact hreach w h
    · have hadj : (sliceGraph g os).Adj u w := ⟨hw, Or.inl (reach_siblings_mem hv hu)⟩
      exact (hreach u hu).trans hadj.reachable

/-! ### The whole decomposition -/

omit [g.Simple] in
theorem depth_of_level (h : level g root v = some i) : depth g root v = i := by rw [depth, h]; rfl

/-- Depth is distance where there is a way, and -1 where there is none. -/
theorem depth_eq : (g.simpleGraph.Reachable root v → depth g root v = g.simpleGraph.dist root v) ∧
    (¬g.simpleGraph.Reachable root v → depth g root v = -1) := by
  refine ⟨fun h => depth_of_level (level_eq_some.mpr (Graph.isDist_iff_dist.mpr ⟨h, rfl⟩)),
    fun h => ?_⟩
  have hnone : level g root v = none := Option.eq_none_iff_forall_ne_some.mpr fun d hd =>
    h (Graph.isDist_iff_dist.mp (level_eq_some.mp hd)).1
  rw [depth, hnone]
  rfl

theorem reachable_of_level (h : level g root v = some i) : g.simpleGraph.Reachable root v :=
  (Graph.isDist_iff_dist.mp (level_eq_some.mp h)).1

/-- The orphans of one level and their neighbours fall into components; this is one of them. -/
structure IsSlice (g : Graph) [g.Simple] (D : Decomposition g.n) (s : Slice g.n) : Prop where
  nonempty : s.orphans ≠ []
  orphans : ∀ o ∈ s.orphans, o ∈ D.orphans ∧ D.depth o = s.level
  attachments : ∀ v ∈ s.attachments, v ∈ D.treeVerts.1
  component : ∃ c : (sliceGraph g (D.orphans.filter fun o => D.depth o = s.level)).ConnectedComponent,
    ∀ v, v ∈ c.supp ↔ v ∈ s.orphans ∨ v ∈ s.attachments

/-- A component of the remainder: connected, with at least two vertices, and joined to nothing but
    the tree. -/
structure IsRemainderComp (g : Graph) [g.Simple] (D : Decomposition g.n) (c : VertexList g.n) :
    Prop where
  two_le : 2 ≤ c.1.length
  connected : (g.simpleGraph.induce {v | v ∈ c.1}).Connected
  apart : ∀ v ∈ c.1, ∀ w ∈ g.adj v, w ∉ D.orphans ∧ ∀ c' ∈ D.remainderComps, w ∈ c'.1 → c' = c

/-- The structure of a decomposition. -/
structure IsDialysis (g : Graph) [g.Simple] (D : Decomposition g.n) : Prop where
  partition : (D.treeVerts.1 ++ D.orphans ++ D.remainderComps.flatMap (·.1)).Perm (List.finRange g.n)
  root : D.root ∈ D.treeVerts.1
  tree : (g.simpleGraph.induce {v | v ∈ D.treeVerts.1}).IsTree
  parent : ∀ v p, D.parent v = some p ↔ v ∈ D.treeVerts.1 ∧ p ∈ D.treeVerts.1 ∧ p ∈ g.adj v ∧
    D.depth v = D.depth p + 1
  parent_none : ∀ v, D.parent v = none ↔ v ∉ D.treeVerts.1 ∨ v = D.root
  tree_reachable : ∀ v ∈ D.treeVerts.1, g.simpleGraph.Reachable D.root v
  depth : ∀ v, (g.simpleGraph.Reachable D.root v → D.depth v = g.simpleGraph.dist D.root v) ∧
    (¬g.simpleGraph.Reachable D.root v → D.depth v = -1)
  orphan : ∀ o ∈ D.orphans, g.adj o ≠ [] → 2 ≤ (g.adj o).length ∧
    ∀ w ∈ g.adj o, w ∈ D.treeVerts.1 ∧ D.depth o = D.depth w + 1
  slices : (D.slices.flatMap fun s => s.orphans).Perm D.orphans
  slice : ∀ s ∈ D.slices, IsSlice g D s
  remainderComp : ∀ c ∈ D.remainderComps, IsRemainderComp g D c

theorem isSlice {s : Slice g.n} (hs : s ∈ Decompose.slices g root) :
    IsSlice g (dialysis g root) s := by
  obtain ⟨l, comp, hcomp, rfl⟩ := mem_slices.mp hs
  have hcs := siblings_components (levelOrphans g root l)
  obtain ⟨o, ho, hoc⟩ := hcs.meets comp hcomp
  have hclass := hcs.isClass comp hcomp o hoc
  have hlevel : ∀ v ∈ comp, v ∈ levelOrphans g root l := fun v hv =>
    reach_siblings_mem ho ((hclass v).mp hv)
  have hmem : ∀ v ∈ comp, v ∈ orphans g root ∧ depth g root v = l := fun v hv => by
    obtain ⟨hv, hl⟩ := List.mem_filter.mp (hlevel v hv)
    exact ⟨hv, of_decide_eq_true hl⟩
  have hattach : ∀ v ∈ levelOrphans g root l, ∀ w ∈ g.adj v, inTree g root w = true := fun v hv =>
    (mem_orphans.mp (List.mem_filter.mp hv).1).2
  have hcomponent : ∃ c : (sliceGraph g (levelOrphans g root l)).ConnectedComponent,
      ∀ v, v ∈ c.supp ↔ v ∈ comp.insertionSort (· ≤ ·) ∨
        v ∈ (comp.flatMap g.adj).dedup.insertionSort (· ≤ ·) := by
    refine ⟨(sliceGraph g (levelOrphans g root l)).connectedComponentMk o, fun v => ?_⟩
    rw [SimpleGraph.ConnectedComponent.mem_supp_iff, SimpleGraph.ConnectedComponent.eq,
      SimpleGraph.reachable_comm, sliceGraph_reachable_iff (fun u hu w hw hw' => ?_) ho,
      List.mem_insertionSort, List.mem_insertionSort, List.mem_dedup, List.mem_flatMap, hclass]
    · simp only [hclass]
    · have hin := hattach u hu w hw
      rw [(mem_orphans.mp (List.mem_filter.mp hw').1).1] at hin
      cases hin
  refine ⟨?_, fun v hv => ?_, fun v hv => ?_, hcomponent⟩
  · exact List.ne_nil_of_mem ((List.mem_insertionSort _).mpr hoc)
  · exact hmem v ((List.mem_insertionSort _).mp hv)
  · rw [List.mem_insertionSort, List.mem_dedup, List.mem_flatMap] at hv
    obtain ⟨u, hu, hv⟩ := hv
    exact mem_treeVerts.mpr (hattach u (hlevel u hu) v hv)

/-- The lists behind the remainder components. -/
theorem mem_remainderComps {c : VertexList g.n} (hc : c ∈ remainderComps g root) :
    ∃ comp ∈ components (remainderAdj g root) g.n (remainder g root),
      c.1 = comp.insertionSort (· ≤ ·) := by
  obtain ⟨comp, -, rfl⟩ := List.mem_map.mp hc
  exact ⟨comp.1, comp.2, rfl⟩

omit [g.Simple] in
theorem mem_remainderAdj : w ∈ remainderAdj g root v ↔ w ∈ g.adj v ∧ inRemainder g root w = true :=
  List.mem_filter

/-- A vertex outside the tree next to one of the remainder is in the remainder. -/
theorem inRemainder_of_adj (hv : inRemainder g root v = true) (hw : w ∈ g.adj v)
    (hout : inTree g root w = false) : inRemainder g root w = true :=
  inRemainder_iff.mpr ⟨hout, v, Graph.Simple.symm hw, (inRemainder_iff.mp hv).1⟩

theorem isRemainderComp {c : VertexList g.n} (hc : c ∈ remainderComps g root) :
    IsRemainderComp g (dialysis g root) c := by
  obtain ⟨comp, hcomp, hsort⟩ := mem_remainderComps hc
  have hmem : ∀ v, v ∈ c.1 ↔ v ∈ comp := fun v => by rw [hsort, List.mem_insertionSort]
  have hcs : IsComponents (remainderAdj g root) (remainder g root) _ := remainder_components
  obtain ⟨s, hs, hsc⟩ := hcs.meets comp hcomp
  have hin : ∀ v ∈ comp, inRemainder g root v = true := fun v hv =>
    Reach.closed (P := fun u => inRemainder g root u = true)
      (fun x _ y hy => (mem_remainderAdj.mp hy).2) (List.mem_filter.mp hs).2
      ((hcs.isClass comp hcomp s hsc v).mp hv)
  have hstep : ∀ v ∈ comp, ∀ w ∈ remainderAdj g root v, w ∈ comp := fun v hv w hw =>
    (hcs.isClass comp hcomp v hv w).mpr ((Reach.refl v).tail hw)
  refine ⟨?_, ?_, fun v hv w hw => ⟨fun ho => ?_, fun c' hc' hw' => ?_⟩⟩
  · -- its first vertex has a neighbour outside the tree, which is in it as well
    obtain ⟨-, w, hw, hout⟩ := inRemainder_iff.mp (hin s hsc)
    have hwc := hstep s hsc w (mem_remainderAdj.mpr ⟨hw, inRemainder_of_adj (hin s hsc) hw hout⟩)
    have hne : s ≠ w := by
      rintro rfl
      exact Graph.Simple.irrefl s hw
    rw [← List.toFinset_card_of_nodup c.2]
    exact Finset.one_lt_card.mpr ⟨s, List.mem_toFinset.mpr ((hmem s).mpr hsc), w,
      List.mem_toFinset.mpr ((hmem w).mpr hwc), hne⟩
  · have : Nonempty {v | v ∈ c.1} := ⟨⟨s, (hmem s).mpr hsc⟩⟩
    refine ⟨fun u v => ?_⟩
    have hreach := (hcs.isClass comp hcomp u.1 ((hmem u.1).mp u.2) v.1).mp ((hmem v.1).mp v.2)
    obtain ⟨_, h⟩ := Reach.closed (P := fun x => ∃ hx : x ∈ c.1,
        (g.simpleGraph.induce {v | v ∈ c.1}).Reachable u ⟨x, hx⟩) (fun x ⟨hx, hux⟩ y hy => by
      have hyc : y ∈ c.1 := (hmem y).mpr (hstep x ((hmem x).mp hx) y hy)
      have hadj : (g.simpleGraph.induce {v | v ∈ c.1}).Adj ⟨x, hx⟩ ⟨y, hyc⟩ :=
        (mem_remainderAdj.mp hy).1
      exact ⟨hyc, hux.trans hadj.reachable⟩) ⟨u.2, SimpleGraph.Reachable.refl u⟩ hreach
    exact h
  · have hvt := (mem_orphans.mp ho).2 v (Graph.Simple.symm hw)
    rw [(inRemainder_iff.mp (hin v ((hmem v).mp hv))).1] at hvt
    cases hvt
  · obtain ⟨comp', hcomp', hsort'⟩ := mem_remainderComps hc'
    rw [hsort', List.mem_insertionSort] at hw'
    obtain ⟨s', hs', hsc'⟩ := hcs.meets comp' hcomp'
    have hwr : inRemainder g root w = true := Reach.closed (P := fun u => inRemainder g root u = true)
      (fun x _ y hy => (mem_remainderAdj.mp hy).2) (List.mem_filter.mp hs').2
      ((hcs.isClass comp' hcomp' s' hsc' w).mp hw')
    have hwc := hstep v ((hmem v).mp hv) w (mem_remainderAdj.mpr ⟨hw, hwr⟩)
    refine Subtype.ext ?_
    rw [hsort', hsort, hcs.eq_of_mem hcomp' hcomp hw' hwc]

/-- Together the remainder components hold every vertex of the remainder once. -/
theorem remainderComps_perm :
    ((remainderComps g root).flatMap fun c => c.1).Perm (remainder g root) := by
  have hcs : IsComponents (remainderAdj g root) (remainder g root) _ := remainder_components
  have hflat := hcs.flatten_perm ((List.nodup_finRange g.n).filter _) fun v _ w hw =>
      List.mem_filter.mpr ⟨List.mem_finRange w, (mem_remainderAdj.mp hw).2⟩
  refine List.Perm.trans ?_ hflat
  rw [remainderComps, List.flatMap_map]
  refine (List.Perm.flatMap_left _ fun comp _ => List.perm_insertionSort _ comp.1).trans ?_
  rw [List.flatMap_def, List.attach_map_val (f := fun c => c)]
  rw [List.map_id']

/-- The three parts are the whole graph. -/
theorem parts_perm : ((treeVerts g root).1 ++ orphans g root ++
    (remainderComps g root).flatMap fun c => c.1).Perm (List.finRange g.n) := by
  refine (List.Perm.append_left _ remainderComps_perm).trans ?_
  have hnd := List.nodup_finRange g.n
  refine (List.perm_ext_iff_of_nodup ?_ hnd).mpr fun v => ?_
  · rw [List.append_assoc]
    refine List.nodup_append.mpr ⟨hnd.filter _, List.nodup_append.mpr ⟨hnd.filter _, hnd.filter _,
      fun a ha b hb hab => ?_⟩, fun a ha b hb hab => ?_⟩
    · subst hab
      obtain ⟨-, w, hw, hout⟩ := inRemainder_iff.mp (List.mem_filter.mp hb).2
      rw [(mem_orphans.mp ha).2 w hw] at hout
      cases hout
    · subst hab
      have hin := mem_treeVerts.mp ha
      rcases List.mem_append.mp hb with hb | hb
      · rw [(mem_orphans.mp hb).1] at hin
        cases hin
      · rw [(inRemainder_iff.mp (List.mem_filter.mp hb).2).1] at hin
        cases hin
  · refine iff_of_true ?_ (List.mem_finRange v)
    rw [List.mem_append, List.mem_append, mem_treeVerts, remainder, List.mem_filter, orphans,
      List.mem_filter]
    cases h : inTree g root v <;> cases h' : hasNonTreeNeighbor g root v <;>
      simp [inRemainder, h, h']

end Dialysis.Decompose

namespace Dialysis
open Dialysis.Graph Decompose

/-- A tree, orphans hanging below it, and a remainder. -/
theorem dialysis_structure (g : Graph) [g.Simple] (root : Fin g.n) :
    IsDialysis g (dialysis g root) where
  partition := parts_perm
  root := root_mem_treeVerts
  tree := tree_isTree
  parent := fun v p => by
    refine parent_iff.trans ?_
    simp only [dialysis, mem_treeVerts]
    refine and_congr_right fun hv => and_congr_right fun hp => and_congr_right fun _ => ?_
    obtain ⟨i, hi⟩ := tree_level hv
    obtain ⟨j, hj⟩ := tree_level hp
    rw [hi, hj, depth_of_level hi, depth_of_level hj]
    constructor
    · rintro ⟨k, hk, hk'⟩
      rw [Option.some.injEq] at hk hk'
      omega
    · intro h
      exact ⟨j, rfl, by rw [Option.some.injEq]; omega⟩
  parent_none := fun v => by
    refine parent_eq_none_iff.trans ?_
    simp only [dialysis, mem_treeVerts, Bool.not_eq_true]
  tree_reachable := fun v hv => by
    obtain ⟨i, hi⟩ := tree_level (mem_treeVerts.mp hv)
    exact reachable_of_level hi
  depth := fun v => depth_eq
  orphan := fun o ho hne => ⟨orphan_two_le ho hne, fun w hw => by
    obtain ⟨i, hlw, hlo⟩ := orphan_above ho hw
    refine ⟨mem_treeVerts.mpr ((mem_orphans.mp ho).2 w hw), ?_⟩
    simp only [dialysis, depth_of_level hlo, depth_of_level hlw]
    omega⟩
  slices := slices_perm
  slice := fun s hs => isSlice hs
  remainderComp := fun c hc => isRemainderComp hc

/-- On a cycle of four vertices the one across from the root is an orphan. -/
theorem dialysis_structure_fourCycle :
    IsDialysis (ofEdges 4 [(0, 1), (1, 2), (2, 3), (0, 3)])
      (dialysis (ofEdges 4 [(0, 1), (1, 2), (2, 3), (0, 3)]) (0 : Fin 4)) ∧
    (dialysis (ofEdges 4 [(0, 1), (1, 2), (2, 3), (0, 3)]) (0 : Fin 4)).orphans.map (·.val) = [2] :=
  ⟨dialysis_structure _ _, by decide +kernel⟩

end Dialysis
