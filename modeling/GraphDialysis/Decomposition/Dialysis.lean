import GraphDialysis.Graph.Induced
import GraphDialysis.Lib.Components
import GraphDialysis.Lib.GroupBy
import GraphDialysis.Lib.SortOn

/-! `dialysis(g, root)`: the vertices split into a tree grown along breadth-first levels, orphans all
    of whose neighbours are in the tree, and the remainder, given by its connected components.

    The tree is grown level by level: a vertex of the next level joins when its only neighbour in
    the two levels together is already in the tree. `inTree_round` states a round without its loop;
    from it, the decomposition of an isomorphic copy is the copy of the decomposition
    (`mem_treeVerts_iso`, `orphans_iso`, `remainderComps_iso`), and the tree is one: neighbours in it
    are one level apart and only one of them is above (`tree_step`, `tree_parent_unique`). -/

namespace Dialysis
open Lib Lib.Bfs

/-- A connected component of the orphans of one level and the tree vertices they attach to. -/
structure Slice (n : ℕ) where
  level : ℤ
  orphans : List (Fin n)
  attachments : List (Fin n)

/-- Dialysis decomposition D(G, r); `-1` as a parent is `none`. -/
structure Decomposition (n : ℕ) where
  root : Fin n
  treeVerts : VertexList n
  parent : Fin n → Option (Fin n)
  depth : Fin n → ℤ
  orphans : List (Fin n)
  slices : List (Slice n)
  remainderComps : List (VertexList n)
  connectorEdges : List (Fin n × Fin n)

namespace Decompose
variable (g : Graph) (root : Fin g.n)

/-- The breadth-first search from the root. -/
def bfs : State (Fin g.n) ℕ := (search g.adj g.n root).get (loop_anyLabel _ _)

/-- Breadth-first depth; `none` where the search does not come. -/
def level (v : Fin g.n) : Option ℕ := (bfs g root).label v

/-- `depth[v]`. -/
def depth (v : Fin g.n) : ℤ := (level g root v).elim (-1) Int.ofNat

/-- The last level that is not empty. -/
def lastLevel : ℕ := Finset.univ.sup fun v => (level g root v).getD 0

/-- `levels[i]`, in order of discovery. -/
def levelVerts (i : ℕ) : List (Fin g.n) := (bfs g root).order.filter fun v => level g root v = some i

/-- Membership in levels `i` and `i + 1` together. -/
def inBand (i : ℕ) (w : Fin g.n) : Bool := level g root w = some i ∨ level g root w = some (i + 1)

/-- `inTree` and `parent`. -/
abbrev Grown := (Fin g.n → Bool) × (Fin g.n → Option (Fin g.n))

/-- A vertex joins when it has one neighbour in the band and that is in the tree. -/
def join (i : ℕ) (t : Grown g) (v : Fin g.n) : Grown g :=
  match (g.adj v).filter (inBand g root i) with
  | [candidate] =>
    if t.1 candidate then (Function.update t.1 v true, Function.update t.2 v (some candidate)) else t
  | _ => t

/-- The rounds before round `k`. -/
def grow (k : ℕ) : Grown g :=
  (List.range k).foldl (fun t i => (levelVerts g root (i + 1)).foldl (join g root i) t)
    (fun v => v = root, fun _ => none)

/-- `inTree` after the last round. -/
def inTree (v : Fin g.n) : Bool := (grow g root (lastLevel g root)).1 v

/-- The tree vertices, ascending. -/
def treeVerts : VertexList g.n :=
  ⟨(List.finRange g.n).filter (inTree g root), (List.nodup_finRange g.n).filter _⟩

/-- Some neighbour is not in the tree. -/
def hasNonTreeNeighbor (v : Fin g.n) : Bool := (g.adj v).any fun w => !inTree g root w

/-- Isolated vertices of `G - V(T)`. -/
def orphans : List (Fin g.n) :=
  (List.finRange g.n).filter fun v => !inTree g root v && !hasNonTreeNeighbor g root v

def inRemainder (v : Fin g.n) : Bool := !inTree g root v && hasNonTreeNeighbor g root v

def remainder : List (Fin g.n) := (List.finRange g.n).filter (inRemainder g root)

/-- Neighbours inside the remainder. -/
def remainderAdj (v : Fin g.n) : List (Fin g.n) := (g.adj v).filter (inRemainder g root)

/-- Tree -> remainder. -/
def connectorEdges : List (Fin g.n × Fin g.n) :=
  (treeVerts g root).1.flatMap fun v => ((g.adj v).filter (inRemainder g root)).map fun w => (v, w)

/-- The orphans of one level that share an attachment with `cur`. -/
def siblings (levelOrphans : List (Fin g.n)) (cur : Fin g.n) : List (Fin g.n) :=
  (g.adj cur).flatMap fun att => levelOrphans.filter fun o => att ∈ g.adj o

/-- Per level, ascending, the connected components of orphans through shared attachments. -/
def slices : List (Slice g.n) :=
  (sortOn (·.1) (groupBy (depth g root) (orphans g root))).flatMap fun p =>
    (components (siblings g p.2) g.n p.2).map fun comp =>
      { level := p.1
        orphans := comp.insertionSort (· ≤ ·)
        attachments := ((comp.flatMap g.adj).dedup).insertionSort (· ≤ ·) }

/-! ### Levels -/

variable {g root} {h : Graph}

theorem level_eq_some {v : Fin g.n} {d : ℕ} : level g root v = some d ↔ IsDist g.adj root v d :=
  search_iff (Fintype.card_fin _).le (Option.some_get _).symm v d

theorem mem_levelVerts {v : Fin g.n} {i : ℕ} : v ∈ levelVerts g root i ↔ level g root v = some i := by
  rw [levelVerts, List.mem_filter, decide_eq_true_eq, and_iff_right_iff_imp]
  intro hv
  have hok : ∀ a : ℕ, anyLabel a (Nat.succ a) = true := fun _ => rfl
  have hinv : Inv g.adj anyLabel (bfs g root) :=
    inv_loop hok (inv_start inv_empty rfl rfl) (Option.some_get _).symm
  refine (hinv.mem_order v).mpr ?_
  have hv' : (bfs g root).label v = some i := hv
  exact Option.isSome_iff_exists.mpr ⟨i, hv'⟩

theorem level_root : level g root root = some 0 := level_eq_some.mpr ⟨rfl, fun _ _ => Nat.zero_le _⟩

theorem eq_root_of_level {v : Fin g.n} (hv : level g root v = some 0) : v = root :=
  (level_eq_some.mp hv).1.symm

/-- A vertex of a later level has a neighbour in the level before. -/
theorem exists_above [g.Simple] {v : Fin g.n} {i : ℕ} (hv : level g root v = some (i + 1)) :
    ∃ w ∈ g.adj v, level g root w = some i := by
  obtain ⟨⟨w, hw, hvw⟩, hmin⟩ := level_eq_some.mp hv
  refine ⟨w, Graph.Simple.symm hvw, level_eq_some.mpr ⟨hw, fun k hk => ?_⟩⟩
  have := hmin (k + 1) ⟨w, hk, hvw⟩
  omega

/-- Neighbours are at most one level apart. -/
theorem level_adj {v w : Fin g.n} {i : ℕ} (hv : level g root v = some i) (hw : w ∈ g.adj v) :
    ∃ j, level g root w = some j ∧ j ≤ i + 1 := by
  have hsteps : Steps g.adj (i + 1) root w := ⟨v, (level_eq_some.mp hv).1, hw⟩
  classical
  have hex : ∃ k, Steps g.adj k root w := ⟨_, hsteps⟩
  exact ⟨Nat.find hex, level_eq_some.mpr ⟨Nat.find_spec hex, fun k hk => Nat.find_min' hex hk⟩,
    Nat.find_min' hex hsteps⟩

theorem level_le_last {v : Fin g.n} {i : ℕ} (hv : level g root v = some i) : i ≤ lastLevel g root := by
  have := Finset.le_sup (f := fun v => (level g root v).getD 0) (Finset.mem_univ v)
  rwa [hv, Option.getD_some] at this

theorem level_iso {e : Fin g.n ≃ Fin h.n} (he : Graph.IsIso g h e) (r v : Fin g.n) :
    level h (e r) (e v) = level g r v := by
  refine Option.ext fun d => ?_
  rw [level_eq_some, level_eq_some]
  exact isDist_map_iff e he r v d

theorem lastLevel_iso {e : Fin g.n ≃ Fin h.n} (he : Graph.IsIso g h e) (r : Fin g.n) :
    lastLevel h (e r) = lastLevel g r := by
  refine le_antisymm (Finset.sup_le fun w _ => ?_) (Finset.sup_le fun v _ => ?_)
  · obtain ⟨v, rfl⟩ := e.surjective w
    rw [level_iso he]
    exact Finset.le_sup (f := fun v => (level g r v).getD 0) (Finset.mem_univ v)
  · rw [← level_iso he]
    exact Finset.le_sup (f := fun v => (level h (e r) v).getD 0) (Finset.mem_univ (e v))

/-! ### Growing the tree -/

/-- The only neighbour in the band lies in the upper level. -/
theorem level_candidate [g.Simple] {v p : Fin g.n} {i : ℕ} (hv : level g root v = some (i + 1))
    (hp : (g.adj v).filter (inBand g root i) = [p]) : level g root p = some i := by
  obtain ⟨w, hw, hlw⟩ := exists_above hv
  have hmem : w ∈ (g.adj v).filter (inBand g root i) :=
    List.mem_filter.mpr ⟨hw, by simp [inBand, hlw]⟩
  rw [hp, List.mem_singleton] at hmem
  rwa [← hmem]

/-- What makes a vertex join in round `i`. -/
def Joins (g : Graph) (root : Fin g.n) (i : ℕ) (t : Fin g.n → Bool) (v : Fin g.n) : Prop :=
  level g root v = some (i + 1) ∧ ∃ p, (g.adj v).filter (inBand g root i) = [p] ∧ t p = true

theorem foldl_join [g.Simple] {i : ℕ} {t₀ : Grown g} : ∀ (l : List (Fin g.n)) (t : Grown g),
    (∀ v ∈ l, level g root v = some (i + 1)) →
    (∀ p, level g root p = some i → t.1 p = t₀.1 p) →
    ∀ v, (l.foldl (join g root i) t).1 v = true ↔ t.1 v = true ∨ (v ∈ l ∧ Joins g root i t₀.1 v)
  | [], t, _, _, v => by simp
  | x :: l, t, hl, ht, v => by
    have hx := hl x List.mem_cons_self
    have hstep : (∀ p, level g root p = some i → (join g root i t x).1 p = t₀.1 p) ∧
        ∀ v, (join g root i t x).1 v = true ↔ t.1 v = true ∨ (v = x ∧ Joins g root i t₀.1 v) := by
      unfold join
      split
      · rename_i p hp
        have hlp := level_candidate hx hp
        by_cases hin : t.1 p = true
        · rw [if_pos hin]
          refine ⟨fun q hq => ?_, fun v => ?_⟩
          · have hne : q ≠ x := by rintro rfl; rw [hx] at hq; simp at hq
            exact (Function.update_of_ne hne _ _).trans (ht q hq)
          · by_cases hv : v = x
            · subst hv
              simp only [Function.update_self, true_and, true_iff]
              exact Or.inr ⟨hx, p, hp, by rw [← ht p hlp]; exact hin⟩
            · simp [hv]
        · rw [if_neg hin]
          refine ⟨ht, fun v => ⟨Or.inl, fun h => h.elim id ?_⟩⟩
          rintro ⟨rfl, -, q, hq, htq⟩
          rw [hp, List.cons.injEq] at hq
          rw [← hq.1, ← ht p hlp] at htq
          exact absurd htq hin
      · rename_i hno
        refine ⟨ht, fun v => ⟨Or.inl, fun h => h.elim id ?_⟩⟩
        rintro ⟨rfl, -, q, hq, -⟩
        exact absurd hq (hno q)
    rw [List.foldl_cons, foldl_join l _ (fun w hw => hl w (List.mem_cons_of_mem _ hw)) hstep.1,
      hstep.2, List.mem_cons, or_assoc, ← or_and_right]

/-- A round: who was in stays in, and the joining vertices of the next level come in. -/
theorem grow_succ [g.Simple] (k : ℕ) (v : Fin g.n) : (grow g root (k + 1)).1 v = true ↔
    (grow g root k).1 v = true ∨ Joins g root k (grow g root k).1 v := by
  rw [grow, List.range_succ, List.foldl_append, List.foldl_cons, List.foldl_nil, ← grow,
    foldl_join _ _ (fun v hv => mem_levelVerts.mp hv) (fun _ _ => rfl),
    mem_levelVerts]
  exact or_congr_right (and_iff_right_of_imp fun h => h.1)

theorem grow_zero (v : Fin g.n) : (grow g root 0).1 v = true ↔ v = root := by simp [grow]

theorem filter_iso [g.Simple] [h.Simple] {e : Fin g.n ≃ Fin h.n} (he : Graph.IsIso g h e)
    {p : Fin g.n → Bool} {q : Fin h.n → Bool} (hpq : ∀ v, q (e v) = p v) (v : Fin g.n) :
    (((g.adj v).filter p).map e).Perm ((h.adj (e v)).filter q) := by
  have := (he.adj_perm v).filter q
  rw [List.filter_map] at this
  rwa [List.filter_congr (l := g.adj v) (p := q ∘ e) (q := p) fun w _ => hpq w] at this

theorem grow_iso [g.Simple] [h.Simple] {e : Fin g.n ≃ Fin h.n} (he : Graph.IsIso g h e)
    (r : Fin g.n) : ∀ (k : ℕ) (v : Fin g.n), (grow h (e r) k).1 (e v) = (grow g r k).1 v
  | 0, v => by
    rw [Bool.eq_iff_iff, grow_zero, grow_zero, e.injective.eq_iff]
  | k + 1, v => by
    have hband : ∀ w, inBand h (e r) k (e w) = inBand g r k w := fun w => by
      simp only [inBand, level_iso he]
    have hperm := filter_iso he hband v
    rw [Bool.eq_iff_iff, grow_succ, grow_succ, grow_iso he r k v, Joins, Joins, level_iso he]
    refine or_congr_right (and_congr_right fun _ => ⟨?_, ?_⟩)
    · rintro ⟨q, hq, htq⟩
      obtain ⟨p, rfl⟩ := e.surjective q
      rw [hq] at hperm
      have := List.perm_singleton.mp hperm
      obtain ⟨p', hp', hpe⟩ := List.map_eq_singleton_iff.mp this
      rw [e.injective.eq_iff] at hpe
      subst hpe
      exact ⟨p', hp', by rw [← grow_iso he r k p']; exact htq⟩
    · rintro ⟨p, hp, htp⟩
      rw [hp] at hperm
      exact ⟨e p, List.perm_singleton.mp hperm.symm, by rw [grow_iso he r k p]; exact htp⟩

theorem inTree_iso [g.Simple] [h.Simple] {e : Fin g.n ≃ Fin h.n} (he : Graph.IsIso g h e)
    (r v : Fin g.n) : inTree h (e r) (e v) = inTree g r v := by
  rw [inTree, inTree, lastLevel_iso he, grow_iso he]

theorem mem_treeVerts {v : Fin g.n} : v ∈ (treeVerts g root).1 ↔ inTree g root v = true := by
  simp [treeVerts]

theorem mem_treeVerts_iso [g.Simple] [h.Simple] {e : Fin g.n ≃ Fin h.n} (he : Graph.IsIso g h e)
    (r v : Fin g.n) : e v ∈ (treeVerts h (e r)).1 ↔ v ∈ (treeVerts g r).1 := by
  rw [mem_treeVerts, mem_treeVerts, inTree_iso he]

/-! ### The tree is a tree -/

theorem grow_cases [g.Simple] : ∀ (k : ℕ) {v : Fin g.n}, (grow g root k).1 v = true →
    v = root ∨ ∃ i t, Joins g root i t v
  | 0, _, hv => Or.inl (grow_zero _ |>.mp hv)
  | k + 1, v, hv => by
    rcases (grow_succ k v).mp hv with hv | hv
    · exact grow_cases k hv
    · exact Or.inr ⟨k, _, hv⟩

theorem grow_root [g.Simple] : ∀ k : ℕ, (grow g root k).1 root = true
  | 0 => (grow_zero _).mpr rfl
  | k + 1 => (grow_succ k root).mpr (Or.inl (grow_root k))

theorem root_mem_treeVerts [g.Simple] : root ∈ (treeVerts g root).1 := mem_treeVerts.mpr (grow_root _)

theorem tree_level [g.Simple] {v : Fin g.n} (hv : inTree g root v = true) :
    ∃ i, level g root v = some i := by
  rcases grow_cases _ hv with rfl | ⟨i, t, hl, -⟩
  · exact ⟨0, level_root⟩
  · exact ⟨i + 1, hl⟩

/-- In its two levels a tree vertex below the root has one neighbour only, and that is above it. -/
theorem tree_above [g.Simple] {v : Fin g.n} (hv : inTree g root v = true) {i : ℕ}
    (hl : level g root v = some (i + 1)) :
    ∃ p, (g.adj v).filter (inBand g root i) = [p] ∧ level g root p = some i := by
  rcases grow_cases _ hv with rfl | ⟨j, t, hl', p, hp, -⟩
  · rw [level_root] at hl; simp at hl
  · obtain rfl : j = i := by rw [hl'] at hl; simpa using hl
    exact ⟨p, hp, level_candidate hl hp⟩

/-- Neighbours in the tree are one level apart. -/
theorem tree_step [g.Simple] {v w : Fin g.n} (hv : inTree g root v = true)
    (hw : inTree g root w = true) (hadj : w ∈ g.adj v) :
    ∃ i, level g root v = some i ∧ level g root w = some (i + 1) ∨
      level g root w = some i ∧ level g root v = some (i + 1) := by
  obtain ⟨a, ha⟩ := tree_level hv
  obtain ⟨b, hb⟩ := tree_level hw
  obtain ⟨b', hb', hle⟩ := level_adj ha hadj
  obtain ⟨a', ha', hle'⟩ := level_adj hb (Graph.Simple.symm hadj)
  have hbb : b' = b := by rw [hb] at hb'; simpa using hb'.symm
  have haa : a' = a := by rw [ha] at ha'; simpa using ha'.symm
  rcases lt_trichotomy a b with hlt | rfl | hgt
  · exact ⟨a, Or.inl ⟨ha, by rw [hb]; congr 1; omega⟩⟩
  · cases a with
    | zero =>
      rw [eq_root_of_level ha, eq_root_of_level hb] at hadj
      exact absurd hadj (Graph.Simple.irrefl _)
    | succ i =>
      obtain ⟨p, hp, hlp⟩ := tree_above hv ha
      have hmem : w ∈ (g.adj v).filter (inBand g root i) :=
        List.mem_filter.mpr ⟨hadj, by simp [inBand, hb]⟩
      rw [hp, List.mem_singleton] at hmem
      rw [← hmem, hb] at hlp
      simp at hlp
  · exact ⟨b, Or.inr ⟨hb, by rw [ha]; congr 1; omega⟩⟩

/-- Only one neighbour is above. -/
theorem tree_parent_unique [g.Simple] {v w w' : Fin g.n} (hv : inTree g root v = true) {i : ℕ}
    (hl : level g root v = some (i + 1)) (hw : w ∈ g.adj v) (hlw : level g root w = some i)
    (hw' : w' ∈ g.adj v) (hlw' : level g root w' = some i) : w = w' := by
  obtain ⟨p, hp, -⟩ := tree_above hv hl
  have hmem : ∀ x ∈ g.adj v, level g root x = some i → x = p := by
    intro x hx hlx
    have : x ∈ (g.adj v).filter (inBand g root i) := List.mem_filter.mpr ⟨hx, by simp [inBand, hlx]⟩
    rwa [hp, List.mem_singleton] at this
  rw [hmem w hw hlw, hmem w' hw' hlw']

/-! ### Orphans and remainder -/

section Iso
variable [g.Simple] [h.Simple] {e : Fin g.n ≃ Fin h.n} (he : Graph.IsIso g h e) (r : Fin g.n)
include he

theorem hasNonTreeNeighbor_iso (v : Fin g.n) :
    hasNonTreeNeighbor h (e r) (e v) = hasNonTreeNeighbor g r v := by
  rw [hasNonTreeNeighbor, hasNonTreeNeighbor, ← (he.adj_perm v).any_eq, List.any_map]
  exact congrArg _ (funext fun w => by simp [inTree_iso he])

theorem inRemainder_iso (v : Fin g.n) : inRemainder h (e r) (e v) = inRemainder g r v := by
  rw [inRemainder, inRemainder, inTree_iso he, hasNonTreeNeighbor_iso he]

theorem mem_remainder_iso (v : Fin g.n) : e v ∈ remainder h (e r) ↔ v ∈ remainder g r := by
  simp [remainder, inRemainder_iso he]

theorem mem_remainderAdj_iso (v w : Fin g.n) :
    e w ∈ remainderAdj h (e r) (e v) ↔ w ∈ remainderAdj g r v := by
  simp only [remainderAdj, List.mem_filter, inRemainder_iso he]
  exact and_congr_left fun _ => (he v w).symm

theorem orphans_iso : (orphans h (e r)).length = (orphans g r).length := by
  rw [orphans, orphans, ← ((map_finRange_perm e).filter _).length_eq, List.filter_map, List.length_map]
  exact congrArg _ (List.filter_congr fun v _ => by
    simp only [Function.comp_apply, inTree_iso he, hasNonTreeNeighbor_iso he])

end Iso

theorem remainder_components [g.Simple] : IsComponents (remainderAdj g root) (remainder g root)
    (components (remainderAdj g root) g.n (remainder g root)) := by
  refine components_spec (Fintype.card_fin _).le fun v hv u w hu hw => ?_
  have hin : inRemainder g root u = true := by
    refine Reach.closed (P := fun u => inRemainder g root u = true)
      (fun x _ y hy => (List.mem_filter.mp hy).2) ?_ hu
    simpa [remainder] using hv
  exact List.mem_filter.mpr ⟨Graph.Simple.symm (List.mem_filter.mp hw).1, hin⟩

/-- Remainder components: connected components of G[remainder], each ascending. -/
def remainderComps (g : Graph) [g.Simple] (root : Fin g.n) : List (VertexList g.n) :=
  (components (remainderAdj g root) g.n (remainder g root)).attach.map fun comp =>
    ⟨comp.1.insertionSort (· ≤ ·), (List.perm_insertionSort _ _).nodup_iff.mpr
      ((List.nodup_flatten.mp remainder_components.nodup).1 comp.1 comp.2)⟩

theorem remainderComps_toFinset [g.Simple] : (remainderComps g root).map (fun c => c.1.toFinset) =
    (components (remainderAdj g root) g.n (remainder g root)).map List.toFinset := by
  rw [remainderComps, List.map_map, ← List.attach_map_val (l := components _ _ _)
    (f := fun c => c.toFinset)]
  refine List.map_congr_left fun c _ => ?_
  ext v
  simp

/-- The remainder components of an isomorphic copy are the copies of the remainder components. -/
theorem remainderComps_iso [g.Simple] [h.Simple] {e : Fin g.n ≃ Fin h.n} (he : Graph.IsIso g h e)
    (r : Fin g.n) : ((remainderComps g r).map fun c => c.1.toFinset.map e.toEmbedding).Perm
      ((remainderComps h (e r)).map fun c => c.1.toFinset) := by
  have := IsComponents.map e (remainder_components (g := g))
    (remainder_components (g := h)) (mem_remainder_iso he r) fun v _ w => by
      refine ⟨fun hr => ?_, Reach.map fun x y hy => (mem_remainderAdj_iso he r x y).mpr hy⟩
      have := Reach.map (f := e.symm) (fun x y hy => by
        rw [← mem_remainderAdj_iso he]; simpa using hy) hr
      simpa using this
  rw [← remainderComps_toFinset, ← remainderComps_toFinset, List.map_map] at this
  exact this

end Decompose

open Decompose in
/-- Deterministic, isomorphism-equivariant. -/
def dialysis (g : Graph) [g.Simple] (root : Fin g.n) : Decomposition g.n where
  root := root
  treeVerts := treeVerts g root
  parent := (grow g root (lastLevel g root)).2
  depth := depth g root
  orphans := orphans g root
  slices := slices g root
  remainderComps := remainderComps g root
  connectorEdges := connectorEdges g root

end Dialysis
