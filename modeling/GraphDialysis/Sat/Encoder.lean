import GraphDialysis.Graph.Bipartition
import GraphDialysis.Lib.GroupBy
import GraphDialysis.Lib.PermutationMatrix

/-! `dialysis.sat.cadical.CadicalEncoder`: the permutation encodings behind "does some automorphism
    map `u` to `v`?". Vertices are grouped by colour and degree, and for the side-preserving
    encoding also by side; an entry `(i, j)` gets a variable when `j` is a possible image of `i`.
    Rows and columns hold exactly one true entry, and every edge is kept, in conflict form or in
    support form. Colours are only ever compared for equality (they are hash keys).

    `models_hybrid` and `models_sideSwapped` say which permutations the models of the two encodings
    represent, `decodeModel_eq` that decoding gives the permutation back, and `covered_by_one` that
    on a connected or non-bipartite graph no colour-preserving automorphism is left out. -/

namespace Dialysis.Sat
open Lib.Cnf Lib.Matrix Dialysis.Graph
variable {Colour : Type*} [DecidableEq Colour]

/-- `varOf i j` is the 1-indexed variable of entry `(i, j)`, or -1 if `j` is not admissible. -/
structure CadicalEncoding (g : Graph) where
  varOf : Fin g.n → Fin g.n → ℤ
  numVars : ℕ
  groups : List (List (Fin g.n))
  bijectionConstraints : ℕ
  edgeConflictClauses : ℕ

/-- Colour, degree and side. -/
def computePreserveGroups (g : Graph) (colorOf : Fin g.n → Colour) : List (List (Fin g.n)) :=
  Lib.groups (fun v => (colorOf v, (g.adj v).length, g.side v)) (List.finRange g.n)

/-- Colour and degree; none if the graph is not bipartite or its parts differ in size. -/
def computeSwapGroups (g : Graph) (colorOf : Fin g.n → Colour) : Option (List (List (Fin g.n))) :=
  match g.bipartition with
  | none => none
  | some (partA, partB) =>
    if partA.length ≠ partB.length then none
    else some (Lib.groups (fun v => (colorOf v, (g.adj v).length)) (List.finRange g.n))

/-- All ordered pairs of members of one group. -/
def groupPairs {V : Type*} (groups : List (List V)) : List (V × V) :=
  groups.flatMap fun members => members.flatMap fun i => members.map fun j => (i, j)

/-- Rows first, then columns. -/
def groupBijection {V : Type*} (var : V → V → ℤ) (members : List V) : Formula :=
  (members.flatMap fun i => exactlyOne (members.map fun j => var i j)) ++
    members.flatMap fun j => exactlyOne (members.map fun i => var i j)

/-- The clauses of one edge: conflict form up to `edgeThreshold`, support form above it. -/
def hybridEdge (g : Graph) (edgeThreshold : ℤ) (groups : List (List (Fin g.n)))
    (var : Fin g.n → Fin g.n → ℤ) (i k : Fin g.n) : Formula :=
  let membersI := Lib.groupOf groups i
  let membersK := Lib.groupOf groups k
  let classProduct : ℤ := membersI.length * membersK.length
  if classProduct ≤ edgeThreshold then conflictClauses g.adj var i k membersI membersK
  else supportClauses g.adj var i k membersI membersK

/-- The side-preserving encoding, and the clauses the solver is given. -/
def buildCadicalEncodingHybrid (g : Graph) (edgeThreshold : ℤ) (colorOf : Fin g.n → Colour) :
    Formula × CadicalEncoding g :=
  let groups := computePreserveGroups g colorOf
  let vars := Vars.createAll (groupPairs groups)
  let bijection := groups.flatMap (groupBijection vars.varOf)
  let edges := g.edges.flatMap fun p => hybridEdge g edgeThreshold groups vars.varOf p.1 p.2
  (bijection ++ edges,
    ⟨vars.varOf, vars.nextVar, groups, (groups.map fun members => 2 * members.length).sum,
      edges.length⟩)

def defaultEdgeThreshold : ℤ := 1024

def buildCadicalEncoding (g : Graph) (colorOf : Fin g.n → Colour) : Formula × CadicalEncoding g :=
  buildCadicalEncodingHybrid g defaultEdgeThreshold colorOf

/-- Members of a group on one side. -/
def onSide (g : Graph) (s : Fin 2) (members : List (Fin g.n)) : List (Fin g.n) :=
  members.filter fun v => g.side v = s

/-- Every member on side 0 paired with every member on side 1, in both directions. -/
def crossPairs (g : Graph) (groups : List (List (Fin g.n))) : List (Fin g.n × Fin g.n) :=
  groups.flatMap fun members => (onSide g 0 members).flatMap fun i =>
    (onSide g 1 members).flatMap fun j => [(i, j), (j, i)]

def crossBijection (g : Graph) (var : Fin g.n → Fin g.n → ℤ) (members : List (Fin g.n)) : Formula :=
  let a := onSide g 0 members
  let b := onSide g 1 members
  (a.flatMap fun i => exactlyOne (b.map fun j => var i j)) ++
    (b.flatMap fun j => exactlyOne (a.map fun i => var i j)) ++
    (b.flatMap fun j => exactlyOne (a.map fun i => var j i)) ++
    a.flatMap fun i => exactlyOne (b.map fun j => var j i)

/-- Members of the group of `i` that have a variable as image of `i`. -/
def admissibleImages (g : Graph) (groups : List (List (Fin g.n))) (var : Fin g.n → Fin g.n → ℤ)
    (i : Fin g.n) : List (Fin g.n) :=
  let members := Lib.groupOf groups i
  (onSide g 0 members ++ onSide g 1 members).filter fun j => 0 ≤ var i j

/-- The side-swapping encoding; none when swapping cannot apply at all. -/
def buildCadicalEncodingSideSwapped (g : Graph) (colorOf : Fin g.n → Colour) :
    Option (Formula × CadicalEncoding g) :=
  (computeSwapGroups g colorOf).map fun groups =>
    let vars := Vars.createAll (crossPairs g groups)
    let images := admissibleImages g groups vars.varOf
    (groups.flatMap (crossBijection g vars.varOf) ++
      g.edges.flatMap fun p =>
        conflictClauses g.adj vars.varOf p.1 p.2 (images p.1) (images p.2),
      ⟨vars.varOf, vars.nextVar, groups, 0, 0⟩)

/-- Decode the permutation from the values of the variables. -/
def decodeModel {g : Graph} (encoding : CadicalEncoding g) (τ : ℕ → Bool) :
    Fin g.n → Option (Fin g.n) :=
  decode encoding.varOf τ (groupPairs encoding.groups)

/-- Every vertex keeps its colour. -/
def PreservesColour {g : Graph} (colorOf : Fin g.n → Colour) (α : Equiv.Perm (Fin g.n)) : Prop :=
  ∀ v, colorOf (α v) = colorOf v

/-- Every vertex keeps its side. -/
def KeepsSides (g : Graph) (α : Equiv.Perm (Fin g.n)) : Prop := ∀ v, g.side (α v) = g.side v

/-- Every vertex changes sides. -/
def SwapsSides (g : Graph) (α : Equiv.Perm (Fin g.n)) : Prop := ∀ v, g.side (α v) ≠ g.side v

variable {g : Graph} {colorOf : Fin g.n → Colour} {α : Equiv.Perm (Fin g.n)} {τ : ℕ → Bool}
  {edgeThreshold : ℤ}

omit [DecidableEq Colour] in
theorem mem_groupPairs {V : Type*} {groups : List (List V)} {i j : V} :
    (i, j) ∈ groupPairs groups ↔ ∃ members ∈ groups, i ∈ members ∧ j ∈ members := by
  simp [groupPairs]

/-! ### Possible images -/

/-- Vertices that agree with `i` in colour, degree and side. -/
def preserveImages (g : Graph) (colorOf : Fin g.n → Colour) (i : Fin g.n) : List (Fin g.n) :=
  (List.finRange g.n).filter fun j => (colorOf j, (g.adj j).length, g.side j) =
    (colorOf i, (g.adj i).length, g.side i)

/-- Vertices that agree with `i` in colour and degree and are on the other side. -/
def swapImages (g : Graph) (colorOf : Fin g.n → Colour) (i : Fin g.n) : List (Fin g.n) :=
  (List.finRange g.n).filter fun j => (colorOf j, (g.adj j).length) =
    (colorOf i, (g.adj i).length) ∧ g.side j ≠ g.side i

theorem mem_preserveImages {i j : Fin g.n} : j ∈ preserveImages g colorOf i ↔
    colorOf j = colorOf i ∧ (g.adj j).length = (g.adj i).length ∧ g.side j = g.side i := by
  simp [preserveImages]

theorem mem_swapImages {i j : Fin g.n} : j ∈ swapImages g colorOf i ↔
    (colorOf j = colorOf i ∧ (g.adj j).length = (g.adj i).length) ∧ g.side j ≠ g.side i := by
  simp [swapImages]

theorem groupOf_preserve (i : Fin g.n) :
    Lib.groupOf (computePreserveGroups g colorOf) i = preserveImages g colorOf i :=
  Lib.groupOf_groups (List.mem_finRange i)

/-- The side-preserving encoding has a variable for exactly the possible images. -/
theorem mem_preservePairs {i j : Fin g.n} :
    (i, j) ∈ groupPairs (computePreserveGroups g colorOf) ↔ j ∈ preserveImages g colorOf i := by
  rw [mem_groupPairs, mem_preserveImages]
  constructor
  · rintro ⟨members, hm, hi, hj⟩
    simpa using ((Lib.mem_group_iff hm hi).mp hj).2
  · intro h
    obtain ⟨members, hm, hi⟩ := Lib.exists_group
      (fun v => (colorOf v, (g.adj v).length, g.side v)) (List.mem_finRange i)
    exact ⟨members, hm, hi, (Lib.mem_group_iff hm hi).mpr ⟨List.mem_finRange j, by simpa using h⟩⟩

theorem computeSwapGroups_eq {groups : List (List (Fin g.n))}
    (h : computeSwapGroups g colorOf = some groups) :
    groups = Lib.groups (fun v => (colorOf v, (g.adj v).length)) (List.finRange g.n) := by
  unfold computeSwapGroups at h
  split at h
  · simp at h
  · split_ifs at h
    exact (Option.some.inj h).symm

theorem mem_crossPairs {groups : List (List (Fin g.n))} {i j : Fin g.n} :
    (i, j) ∈ crossPairs g groups ↔
      ∃ members ∈ groups, i ∈ members ∧ j ∈ members ∧ g.side j ≠ g.side i := by
  have hside : ∀ a b : Fin 2, a ≠ b ↔ (b = 0 ∧ a = 1) ∨ (a = 0 ∧ b = 1) := by decide
  simp only [crossPairs, onSide, List.mem_flatMap, List.mem_filter, decide_eq_true_eq,
    List.mem_cons, List.not_mem_nil, or_false, Prod.mk.injEq, hside]
  constructor
  · rintro ⟨members, hm, x, ⟨hx, hx0⟩, y, ⟨hy, hy1⟩, ⟨rfl, rfl⟩ | ⟨rfl, rfl⟩⟩
    · exact ⟨members, hm, hx, hy, Or.inl ⟨hx0, hy1⟩⟩
    · exact ⟨members, hm, hy, hx, Or.inr ⟨hx0, hy1⟩⟩
  · rintro ⟨members, hm, hi, hj, ⟨h0, h1⟩ | ⟨h0, h1⟩⟩
    · exact ⟨members, hm, i, ⟨hi, h0⟩, j, ⟨hj, h1⟩, Or.inl ⟨rfl, rfl⟩⟩
    · exact ⟨members, hm, j, ⟨hj, h0⟩, i, ⟨hi, h1⟩, Or.inr ⟨rfl, rfl⟩⟩

/-- The side-swapping encoding has a variable for exactly the possible images. -/
theorem mem_swapPairs {groups : List (List (Fin g.n))} (h : computeSwapGroups g colorOf = some groups)
    {i j : Fin g.n} : (i, j) ∈ crossPairs g groups ↔ j ∈ swapImages g colorOf i := by
  rw [mem_crossPairs, mem_swapImages, computeSwapGroups_eq h]
  constructor
  · rintro ⟨members, hm, hi, hj, hne⟩
    exact ⟨by simpa using ((Lib.mem_group_iff hm hi).mp hj).2, hne⟩
  · rintro ⟨hkey, hne⟩
    obtain ⟨members, hm, hi⟩ := Lib.exists_group
      (fun v => (colorOf v, (g.adj v).length)) (List.mem_finRange i)
    exact ⟨members, hm, hi,
      (Lib.mem_group_iff hm hi).mpr ⟨List.mem_finRange j, by simpa using hkey⟩, hne⟩

/-! ### What the clauses say -/

theorem models_groupBijection : Models τ ((computePreserveGroups g colorOf).flatMap
      (groupBijection (Vars.createAll (groupPairs (computePreserveGroups g colorOf))).varOf)) ↔
    ∃ α : Equiv.Perm (Fin g.n),
      Represents (Vars.createAll (groupPairs (computePreserveGroups g colorOf))).varOf τ α ∧
      Inside (Vars.createAll (groupPairs (computePreserveGroups g colorOf))).varOf α := by
  generalize hvar : (Vars.createAll (groupPairs (computePreserveGroups g colorOf))).varOf = var
  have hpos : ∀ i j, 0 < var i j ↔ j ∈ preserveImages g colorOf i := by
    intro i j; rw [← hvar, varOf_pos_iff, mem_preservePairs]
  rw [← models_rows_columns (preserveImages g colorOf)
    (fun i => (List.nodup_finRange _).filter _) hpos
    (fun i j => by rw [mem_preserveImages, mem_preserveImages, eq_comm, eq_comm (b := g.side i),
      eq_comm (b := (g.adj i).length)])]
  simp only [groupBijection, models_flatMap, models_append]
  have hgroups := Lib.forall_groups (fun v => (colorOf v, (g.adj v).length, g.side v))
    (l := List.finRange g.n)
    (P := fun members i => Models τ (exactlyOne (members.map fun j => var i j)) ∧
      Models τ (exactlyOne (members.map fun j => var j i)))
  constructor
  · intro h
    have := hgroups.mp fun members hm i hi => ⟨(h members hm).1 i hi, (h members hm).2 i hi⟩
    exact ⟨fun i => (this i (List.mem_finRange i)).1, fun i => (this i (List.mem_finRange i)).2⟩
  · rintro ⟨hr, hc⟩ members hm
    have := hgroups.mpr (fun i _ => ⟨hr i, hc i⟩) members hm
    exact ⟨fun i hi => (this i hi).1, fun i hi => (this i hi).2⟩

theorem models_crossBijection {groups : List (List (Fin g.n))}
    (h : computeSwapGroups g colorOf = some groups) :
    Models τ (groups.flatMap (crossBijection g (Vars.createAll (crossPairs g groups)).varOf)) ↔
      ∃ α : Equiv.Perm (Fin g.n), Represents (Vars.createAll (crossPairs g groups)).varOf τ α ∧
        Inside (Vars.createAll (crossPairs g groups)).varOf α := by
  have hpairs := fun i j => mem_swapPairs h (i := i) (j := j)
  generalize hvar : (Vars.createAll (crossPairs g groups)).varOf = var
  have hpos : ∀ i j, 0 < var i j ↔ j ∈ swapImages g colorOf i := by
    intro i j; rw [← hvar, varOf_pos_iff, hpairs]
  rw [← models_rows_columns (swapImages g colorOf)
    (fun i => (List.nodup_finRange _).filter _) hpos
    (fun i j => by
      rw [mem_swapImages, mem_swapImages, ne_comm, eq_comm, eq_comm (b := (g.adj i).length)])]
  -- inside a group, the possible images of a member are the members on the other side
  have hopp : ∀ i, swapImages g colorOf i =
      ((List.finRange g.n).filter fun j => (colorOf j, (g.adj j).length) =
        (colorOf i, (g.adj i).length)).filter fun j => g.side j ≠ g.side i := by
    intro i; simp only [swapImages, List.filter_filter, Bool.decide_and, Bool.and_comm]
  have hgroups := Lib.forall_groups (fun v => (colorOf v, (g.adj v).length))
    (l := List.finRange g.n)
    (P := fun members i => Models τ (exactlyOne
        ((members.filter fun j => g.side j ≠ g.side i).map fun j => var i j)) ∧
      Models τ (exactlyOne ((members.filter fun j => g.side j ≠ g.side i).map fun j => var j i)))
  simp only [← hopp] at hgroups
  rw [← computeSwapGroups_eq h] at hgroups
  have hside : ∀ {i : Fin g.n} {s : Fin 2} (members : List (Fin g.n)), g.side i = s →
      (members.filter fun j => g.side j ≠ g.side i) = onSide g (otherSide s) members := by
    rintro i s members rfl
    refine List.filter_congr fun j _ => ?_
    have : ∀ a b : Fin 2, (a ≠ b) = (a = otherSide b) := by decide
    simp only [this]
  have h01 : otherSide 0 = 1 ∧ otherSide 1 = 0 := by decide
  have hcases : ∀ i : Fin g.n, g.side i = 0 ∨ g.side i = 1 := by
    intro i; generalize g.side i = a; revert a; decide
  simp only [crossBijection, models_flatMap, models_append]
  constructor
  · intro hm
    have := hgroups.mp fun members hmem i hi => by
      obtain ⟨⟨⟨h1, h2⟩, h3⟩, h4⟩ := hm members hmem
      rcases hcases i with h0 | h0
      · rw [hside members h0, h01.1]
        have hi' : i ∈ onSide g 0 members := by simp [onSide, hi, h0]
        exact ⟨h1 i hi', h4 i hi'⟩
      · rw [hside members h0, h01.2]
        have hi' : i ∈ onSide g 1 members := by simp [onSide, hi, h0]
        exact ⟨h3 i hi', h2 i hi'⟩
    exact ⟨fun i => (this i (List.mem_finRange i)).1, fun i => (this i (List.mem_finRange i)).2⟩
  · rintro ⟨hr, hc⟩ members hmem
    have key := hgroups.mpr (fun i _ => ⟨hr i, hc i⟩) members hmem
    have get : ∀ {s : Fin 2} {i : Fin g.n}, i ∈ onSide g s members →
        Models τ (exactlyOne ((onSide g (otherSide s) members).map fun j => var i j)) ∧
        Models τ (exactlyOne ((onSide g (otherSide s) members).map fun j => var j i)) := by
      intro s i hi
      obtain ⟨him, hs⟩ := List.mem_filter.mp hi
      have := key i him
      rwa [hside members (of_decide_eq_true hs)] at this
    exact ⟨⟨⟨fun i hi => (get hi).1, fun j hj => (get hj).2⟩, fun j hj => (get hj).1⟩,
      fun i hi => (get hi).2⟩

theorem models_hybridEdge {groups : List (List (Fin g.n))} {var : Fin g.n → Fin g.n → ℤ}
    (hα : Represents var τ α) (hin : Inside var α)
    (hgroups : ∀ i j, j ∈ Lib.groupOf groups i ↔ 0 < var i j) (i k : Fin g.n) :
    Models τ (hybridEdge g edgeThreshold groups var i k) ↔ α k ∈ g.adj (α i) := by
  have hI : ∀ {i j}, j ∈ Lib.groupOf groups i → 0 < var i j := fun h => (hgroups _ _).mp h
  have himage : ∀ i, α i ∈ Lib.groupOf groups i := fun i => (hgroups _ _).mpr (hin i)
  unfold hybridEdge
  simp only
  split
  · exact models_conflictClauses hα (fun _ => hI) (fun _ => hI) (himage i) (himage k)
  · exact models_supportClauses hα (fun _ => hI) (fun _ => hI) (himage i) (himage k)

/-- The models of the side-preserving encoding represent exactly the automorphisms that keep colours
    and sides. -/
theorem models_hybrid [g.Simple] :
    Models τ (buildCadicalEncodingHybrid g edgeThreshold colorOf).1 ↔
      ∃ α, IsAut g α ∧ PreservesColour colorOf α ∧ KeepsSides g α ∧
        Represents (buildCadicalEncodingHybrid g edgeThreshold colorOf).2.varOf τ α := by
  simp only [buildCadicalEncodingHybrid, models_append]
  rw [models_groupBijection, models_flatMap]
  have hpos : ∀ i j, 0 < (Vars.createAll (groupPairs (computePreserveGroups g colorOf))).varOf i j ↔
      j ∈ preserveImages g colorOf i := fun i j => by rw [varOf_pos_iff, mem_preservePairs]
  generalize (Vars.createAll (groupPairs (computePreserveGroups g colorOf))).varOf = var at hpos ⊢
  have hedges : ∀ α : Equiv.Perm (Fin g.n), Represents var τ α → Inside var α →
      ((∀ p ∈ g.edges, Models τ (hybridEdge g edgeThreshold (computePreserveGroups g colorOf) var
        p.1 p.2)) ↔ IsAut g α) := by
    intro α hα hin
    rw [isAut_iff_edges]
    exact forall₂_congr fun p _ => models_hybridEdge hα hin
      (fun i j => by rw [groupOf_preserve, hpos]) p.1 p.2
  constructor
  · rintro ⟨⟨α, hα, hin⟩, hm⟩
    have himage : ∀ i, _ := fun i => mem_preserveImages.mp ((hpos _ _).mp (hin i))
    exact ⟨α, (hedges α hα hin).mp hm, fun i => (himage i).1, fun i => (himage i).2.2, hα⟩
  · rintro ⟨α, haut, hcol, hside, hα⟩
    have hin : Inside var α := fun i =>
      (hpos _ _).mpr (mem_preserveImages.mpr ⟨hcol i, haut.degree i, hside i⟩)
    exact ⟨⟨α, hα, hin⟩, (hedges α hα hin).mpr haut⟩

/-- The models of the side-swapping encoding represent exactly the automorphisms that keep colours
    and change every side. -/
theorem models_sideSwapped [g.Simple] {S : Formula × CadicalEncoding g}
    (hS : buildCadicalEncodingSideSwapped g colorOf = some S) :
    Models τ S.1 ↔ ∃ α, IsAut g α ∧ PreservesColour colorOf α ∧ SwapsSides g α ∧
      Represents S.2.varOf τ α := by
  obtain ⟨groups, hg, rfl⟩ := Option.map_eq_some_iff.mp hS
  simp only [models_append]
  rw [models_crossBijection hg, models_flatMap]
  have hpos : ∀ i j, 0 < (Vars.createAll (crossPairs g groups)).varOf i j ↔
      j ∈ swapImages g colorOf i := fun i j => by rw [varOf_pos_iff, mem_swapPairs hg]
  have hnonneg : ∀ i j, 0 ≤ (Vars.createAll (crossPairs g groups)).varOf i j ↔
      j ∈ swapImages g colorOf i := fun i j => by rw [varOf_nonneg_iff, mem_swapPairs hg]
  generalize (Vars.createAll (crossPairs g groups)).varOf = var at hpos hnonneg ⊢
  have himages : ∀ i j, j ∈ admissibleImages g groups var i ↔ 0 < var i j := by
    intro i j
    have h01 : g.side j = 0 ∨ g.side j = 1 := by generalize g.side j = a; revert a; decide
    rw [admissibleImages, computeSwapGroups_eq hg, Lib.groupOf_groups (List.mem_finRange i)]
    simp only [onSide, List.mem_filter, List.mem_append, List.mem_finRange, true_and,
      decide_eq_true_eq, ← and_or_left, h01, and_true, hnonneg, hpos, and_iff_right_iff_imp]
    intro h
    simpa using (mem_swapImages.mp h).1
  have hedges : ∀ α : Equiv.Perm (Fin g.n), Represents var τ α → Inside var α →
      ((∀ p ∈ g.edges, Models τ (conflictClauses g.adj var p.1 p.2
        (admissibleImages g groups var p.1) (admissibleImages g groups var p.2))) ↔ IsAut g α) := by
    intro α hα hin
    rw [isAut_iff_edges]
    exact forall₂_congr fun p _ => models_conflictClauses hα (fun j => (himages _ j).mp)
      (fun l => (himages _ l).mp) ((himages _ _).mpr (hin _)) ((himages _ _).mpr (hin _))
  constructor
  · rintro ⟨⟨α, hα, hin⟩, hm⟩
    have himage : ∀ i, _ := fun i => mem_swapImages.mp ((hpos _ _).mp (hin i))
    exact ⟨α, (hedges α hα hin).mp hm, fun i => (himage i).1.1, fun i => (himage i).2, hα⟩
  · rintro ⟨α, haut, hcol, hside, hα⟩
    have hin : Inside var α := fun i =>
      (hpos _ _).mpr (mem_swapImages.mpr ⟨⟨hcol i, haut.degree i⟩, hside i⟩)
    exact ⟨⟨α, hα, hin⟩, (hedges α hα hin).mpr haut⟩

/-! ### Decoding -/

/-- Decoding a representing assignment gives the automorphism back. -/
theorem decodeModel_hybrid [g.Simple] (haut : IsAut g α) (hcol : PreservesColour colorOf α)
    (hside : KeepsSides g α)
    (hα : Represents (buildCadicalEncodingHybrid g edgeThreshold colorOf).2.varOf τ α) :
    decodeModel (buildCadicalEncodingHybrid g edgeThreshold colorOf).2 τ = fun v => some (α v) := by
  have hmem : ∀ i, (i, α i) ∈ groupPairs (computePreserveGroups g colorOf) := fun i =>
    mem_preservePairs.mpr (mem_preserveImages.mpr ⟨hcol i, haut.degree i, hside i⟩)
  exact decode_eq hα (fun i => varOf_pos_iff.mpr (hmem i)) hmem

theorem decodeModel_sideSwapped [g.Simple] {S : Formula × CadicalEncoding g}
    (hS : buildCadicalEncodingSideSwapped g colorOf = some S) (haut : IsAut g α)
    (hcol : PreservesColour colorOf α) (hside : SwapsSides g α) (hα : Represents S.2.varOf τ α) :
    decodeModel S.2 τ = fun v => some (α v) := by
  obtain ⟨groups, hg, rfl⟩ := Option.map_eq_some_iff.mp hS
  have hmem : ∀ i, (i, α i) ∈ crossPairs g groups := fun i =>
    (mem_swapPairs hg).mpr (mem_swapImages.mpr ⟨⟨hcol i, haut.degree i⟩, hside i⟩)
  refine decode_eq hα (fun i => varOf_pos_iff.mpr (hmem i)) fun i => ?_
  obtain ⟨members, hm, hi, hj, -⟩ := mem_crossPairs.mp (hmem i)
  exact mem_groupPairs.mpr ⟨members, hm, hi, hj⟩

/-- The models of `S` are exactly the members of `Γ`, and decoding gives them back. -/
structure Encodes {g : Graph} (S : Formula × CadicalEncoding g) (Γ : Equiv.Perm (Fin g.n) → Prop) :
    Prop where
  models : ∀ {τ}, Models τ S.1 ↔ ∃ α, Γ α ∧ Represents S.2.varOf τ α
  assignment : ∀ {α}, Γ α → ∃ τ, Represents S.2.varOf τ α
  inside : ∀ {α}, Γ α → Inside S.2.varOf α
  decodes : ∀ {α τ}, Γ α → Represents S.2.varOf τ α → decodeModel S.2 τ = fun v => some (α v)
  pos : ∀ {i j}, 0 ≤ S.2.varOf i j → 0 < S.2.varOf i j

/-- Clauses that hold of every represented member change nothing. -/
theorem Encodes.append {S : Formula × CadicalEncoding g} {Γ : Equiv.Perm (Fin g.n) → Prop}
    (h : Encodes S Γ) {E : Formula}
    (hE : ∀ {τ α}, Γ α → Represents S.2.varOf τ α → Models τ E) : Encodes (S.1 ++ E, S.2) Γ where
  models := by
    intro τ
    rw [models_append, h.models]
    exact ⟨fun hm => hm.1, fun ⟨α, hα, hrep⟩ => ⟨⟨α, hα, hrep⟩, hE hα hrep⟩⟩
  assignment := h.assignment
  inside := h.inside
  decodes := h.decodes
  pos := h.pos

/-- A permutation is decoded from a model exactly when it is a member. -/
theorem Encodes.decoded_iff {S : Formula × CadicalEncoding g} {Γ : Equiv.Perm (Fin g.n) → Prop}
    (h : Encodes S Γ) :
    (∃ τ, Models τ S.1 ∧ decodeModel S.2 τ = fun v => some (α v)) ↔ Γ α := by
  constructor
  · rintro ⟨τ, hm, hdec⟩
    obtain ⟨β, hβ, hrep⟩ := h.models.mp hm
    rw [h.decodes hβ hrep] at hdec
    have : β = α := Equiv.ext fun v => Option.some.inj (congrFun hdec v)
    exact this ▸ hβ
  · intro hα
    obtain ⟨τ, hτ⟩ := h.assignment hα
    exact ⟨τ, h.models.mpr ⟨α, hα, hτ⟩, h.decodes hα hτ⟩

theorem encodes_hybrid [g.Simple] (edgeThreshold : ℤ) (colorOf : Fin g.n → Colour) :
    Encodes (buildCadicalEncodingHybrid g edgeThreshold colorOf)
      fun α => IsAut g α ∧ PreservesColour colorOf α ∧ KeepsSides g α where
  models := by intro τ; simp only [models_hybrid, and_assoc]
  assignment := fun _ => exists_assignment _ _
  inside := fun h i => varOf_pos_iff.mpr
    (mem_preservePairs.mpr (mem_preserveImages.mpr ⟨h.2.1 i, h.1.degree i, h.2.2 i⟩))
  decodes := fun h hrep => decodeModel_hybrid h.1 h.2.1 h.2.2 hrep
  pos := fun h => varOf_pos_iff.mpr (varOf_nonneg_iff.mp h)

theorem encodes_sideSwapped [g.Simple] {S : Formula × CadicalEncoding g}
    (hS : buildCadicalEncodingSideSwapped g colorOf = some S) :
    Encodes S fun α => IsAut g α ∧ PreservesColour colorOf α ∧ SwapsSides g α where
  models := by intro τ; simp only [models_sideSwapped hS, and_assoc]
  assignment := by
    obtain ⟨groups, hg, rfl⟩ := Option.map_eq_some_iff.mp hS
    exact fun _ => exists_assignment _ _
  inside := by
    obtain ⟨groups, hg, rfl⟩ := Option.map_eq_some_iff.mp hS
    exact fun h i => varOf_pos_iff.mpr
      ((mem_swapPairs hg).mpr (mem_swapImages.mpr ⟨⟨h.2.1 i, h.1.degree i⟩, h.2.2 i⟩))
  decodes := fun h hrep => decodeModel_sideSwapped hS h.1 h.2.1 h.2.2 hrep
  pos := by
    obtain ⟨groups, hg, rfl⟩ := Option.map_eq_some_iff.mp hS
    exact fun h => varOf_pos_iff.mpr (varOf_nonneg_iff.mp h)

/-! ### The two encodings together -/

/-- A permutation that changes every side maps one part onto the other. -/
theorem parts_length_eq {partA partB : List (Fin g.n)} (h : g.bipartition = some (partA, partB))
    (hα : SwapsSides g α) : partA.length = partB.length := by
  obtain ⟨hA, hB, -⟩ := bipartition_parts h
  have hperm : (partA.map α).Perm partB := by
    refine (List.perm_ext_iff_of_nodup (hA.map α.injective) hB).mpr fun w => ?_
    have hw := hα (α.symm w)
    rw [α.apply_symm_apply] at hw
    have hmem : w ∈ partA.map α ↔ α.symm w ∈ partA := by
      rw [List.mem_map]
      exact ⟨fun ⟨v, hv, he⟩ => by rw [← he, α.symm_apply_apply]; exact hv,
        fun hv => ⟨_, hv, α.apply_symm_apply w⟩⟩
    rw [hmem, ← side_eq_zero_iff h, ← side_eq_one_iff h]
    revert hw; generalize g.side w = a; generalize g.side (α.symm w) = b; revert a b; decide
  rw [← hperm.length_eq, List.length_map]

/-- Without a side-swapping encoding there is nothing for it to cover. -/
theorem not_swapsSides_of_none (hn : 0 < g.n)
    (hS : buildCadicalEncodingSideSwapped g colorOf = none) : ¬SwapsSides g α := by
  intro hα
  rw [buildCadicalEncodingSideSwapped, Option.map_eq_none_iff] at hS
  unfold computeSwapGroups at hS
  split at hS
  · rename_i hb
    exact hα ⟨0, hn⟩ (by rw [side_of_none hb, side_of_none hb])
  · rename_i partA partB hb
    split_ifs at hS with hlen
    exact hlen (parts_length_eq hb hα)

/-- On a connected or non-bipartite graph an automorphism keeps all sides or changes all. -/
theorem keeps_or_swaps [g.Simple] (hg : g.Connected ∨ ¬∃ c, g.ProperSides c) (haut : IsAut g α) :
    KeepsSides g α ∨ SwapsSides g α := by
  by_cases hb : g.bipartition = none
  · exact Or.inl fun v => by rw [side_of_none hb, side_of_none hb]
  · have hconn : g.Connected := hg.resolve_right fun hn => hb (bipartition_eq_none_iff.mpr hn)
    by_cases h : ∃ v, g.side (α v) = g.side v
    · obtain ⟨v, hv⟩ := h
      exact Or.inl fun w => (sides_agree hb haut (hconn v w)).mpr hv
    · exact Or.inr fun v hv => h ⟨v, hv⟩

/-- Which automorphisms are decoded from models of the side-swapping encoding, if there is one. -/
theorem decoded_sideSwapped_iff [g.Simple] (hn : 0 < g.n) (haut : IsAut g α)
    (hcol : PreservesColour colorOf α) :
    (∃ S, buildCadicalEncodingSideSwapped g colorOf = some S ∧
      ∃ τ, Models τ S.1 ∧ decodeModel S.2 τ = fun v => some (α v)) ↔ SwapsSides g α := by
  constructor
  · rintro ⟨S, hS, h⟩
    exact ((encodes_sideSwapped hS).decoded_iff.mp h).2.2
  · intro hside
    cases hS : buildCadicalEncodingSideSwapped g colorOf with
    | none => exact absurd hside (not_swapsSides_of_none hn hS)
    | some S => exact ⟨S, rfl, (encodes_sideSwapped hS).decoded_iff.mpr ⟨haut, hcol, hside⟩⟩

/-- The models of the two encodings are the colour-preserving automorphisms that keep, respectively
    change, the sides; a missing second encoding leaves none out; decoding gives the automorphism
    back; and every colour-preserving automorphism belongs to exactly one of the two. -/
theorem cadicalEncodings_exact (g : Graph) [g.Simple] (hn : 0 < g.n)
    (hg : g.Connected ∨ ¬∃ c, g.ProperSides c) (colorOf : Fin g.n → Colour) (edgeThreshold : ℤ) :
    (∀ τ, Models τ (buildCadicalEncodingHybrid g edgeThreshold colorOf).1 ↔
      ∃ α, IsAut g α ∧ PreservesColour colorOf α ∧ KeepsSides g α ∧
        Represents (buildCadicalEncodingHybrid g edgeThreshold colorOf).2.varOf τ α ∧
        decodeModel (buildCadicalEncodingHybrid g edgeThreshold colorOf).2 τ =
          fun v => some (α v)) ∧
    (∀ S, buildCadicalEncodingSideSwapped g colorOf = some S → ∀ τ, Models τ S.1 ↔
      ∃ α, IsAut g α ∧ PreservesColour colorOf α ∧ SwapsSides g α ∧ Represents S.2.varOf τ α ∧
        decodeModel S.2 τ = fun v => some (α v)) ∧
    (buildCadicalEncodingSideSwapped g colorOf = none →
      ¬∃ α, IsAut g α ∧ PreservesColour colorOf α ∧ SwapsSides g α) ∧
    ∀ α, IsAut g α → PreservesColour colorOf α →
      Xor
        (∃ τ, Models τ (buildCadicalEncodingHybrid g edgeThreshold colorOf).1 ∧
          decodeModel (buildCadicalEncodingHybrid g edgeThreshold colorOf).2 τ =
            fun v => some (α v))
        (∃ S, buildCadicalEncodingSideSwapped g colorOf = some S ∧
          ∃ τ, Models τ S.1 ∧ decodeModel S.2 τ = fun v => some (α v)) := by
  have hP := encodes_hybrid edgeThreshold colorOf
  refine ⟨fun τ => models_hybrid.trans ?_, fun S hS τ => (models_sideSwapped hS).trans ?_, ?_, ?_⟩
  · exact exists_congr fun α => ⟨fun ⟨h1, h2, h3, h4⟩ =>
      ⟨h1, h2, h3, h4, decodeModel_hybrid h1 h2 h3 h4⟩, fun ⟨h1, h2, h3, h4, _⟩ => ⟨h1, h2, h3, h4⟩⟩
  · exact exists_congr fun α => ⟨fun ⟨h1, h2, h3, h4⟩ =>
      ⟨h1, h2, h3, h4, decodeModel_sideSwapped hS h1 h2 h3 h4⟩,
      fun ⟨h1, h2, h3, h4, _⟩ => ⟨h1, h2, h3, h4⟩⟩
  · rintro hS ⟨α, -, -, hα⟩
    exact not_swapsSides_of_none hn hS hα
  · intro α haut hcol
    rw [hP.decoded_iff, decoded_sideSwapped_iff hn haut hcol]
    rcases keeps_or_swaps hg haut with h | h
    · exact Or.inl ⟨⟨haut, hcol, h⟩, fun hs => hs ⟨0, hn⟩ (h _)⟩
    · exact Or.inr ⟨h, fun hk => h ⟨0, hn⟩ (hk.2.2 _)⟩

/-- On a single edge with one colour, the identity is a model of the first encoding and the
    exchange of the two ends one of the second. -/
theorem cadicalEncodings_exact_edge :
    (∀ τ, Models τ (buildCadicalEncodingHybrid (Graph.ofEdges 2 [(0, 1)]) 1024 fun _ => ()).1 ↔
      ∃ α, IsAut (Graph.ofEdges 2 [(0, 1)]) α ∧ PreservesColour (fun _ => ()) α ∧
        KeepsSides (Graph.ofEdges 2 [(0, 1)]) α ∧
        Represents (buildCadicalEncodingHybrid (Graph.ofEdges 2 [(0, 1)]) 1024 fun _ => ()).2.varOf
          τ α ∧
        decodeModel (buildCadicalEncodingHybrid (Graph.ofEdges 2 [(0, 1)]) 1024 fun _ => ()).2 τ =
          fun v => some (α v)) ∧
    (buildCadicalEncodingSideSwapped (Graph.ofEdges 2 [(0, 1)]) (fun _ => ()) = none →
      ¬∃ α, IsAut (Graph.ofEdges 2 [(0, 1)]) α ∧ PreservesColour (fun _ => ()) α ∧
        SwapsSides (Graph.ofEdges 2 [(0, 1)]) α) := by
  suffices h : (Graph.ofEdges 2 [(0, 1)]).Connected by
    have hexact := cadicalEncodings_exact (Graph.ofEdges 2 [(0, 1)]) (by decide) (Or.inl h)
      (fun _ => ()) 1024
    exact ⟨hexact.1, hexact.2.2.1⟩
  have h01 : ∀ v w : Fin (Graph.ofEdges 2 [(0, 1)]).n, v = w ∨
      w ∈ (Graph.ofEdges 2 [(0, 1)]).adj v := by decide
  intro v w
  rcases h01 v w with rfl | h
  · exact Relation.ReflTransGen.refl
  · exact Relation.ReflTransGen.single h

end Dialysis.Sat
