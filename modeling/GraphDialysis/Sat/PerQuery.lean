import GraphDialysis.Graph.Basic
import GraphDialysis.Lib.GroupBy
import GraphDialysis.Lib.PermutationMatrix
import Mathlib.Logic.Equiv.Fin.Rotate

/-! `dialysis.sat.cadical.PerQueryCadicalEncoder`: the encoding of a single query, with one colouring
    for the rows and another for the columns. An entry `(i, j)` has a variable when `cU[i] = cV[j]`;
    a bucket is a row colour with its rows and the columns that have it. A colour that only the
    columns have makes no bucket, but then the rows cannot fill all columns, so the models are
    exactly the automorphisms that carry `cU` to `cV` (`models_perQuery`). -/

namespace Dialysis.Sat
open Lib.Cnf Lib.Matrix Dialysis.Graph
variable {Colour : Type*} [DecidableEq Colour] {n : ℕ}

/-- `rowGroups[k]` and `colGroups[k]` are the two sides of the `k`-th bucket. -/
structure PerQueryCadicalEncoding (g : Graph) where
  varOf : Fin g.n → Fin g.n → ℤ
  numVars : ℕ
  rowGroups : List (List (Fin g.n))
  colGroups : List (List (Fin g.n))
  bijectionConstraints : ℕ
  edgeConflictClauses : ℕ

/-- `colsByColour[colour] ?: emptyList()`. -/
def colsByColour (cV : Fin n → Colour) (colour : Colour) : List (Fin n) :=
  ((Lib.groupBy cV (List.finRange n)).lookup colour).getD []

/-- Rows and columns of every row colour, in the order of the rows. -/
def buckets (cU cV : Fin n → Colour) : List (List (Fin n) × List (Fin n)) :=
  (Lib.groupBy cU (List.finRange n)).map fun p => (p.2, colsByColour cV p.1)

/-- The entries that get a variable, in order. -/
def bucketPairs {V : Type*} (bs : List (List V × List V)) : List (V × V) :=
  bs.flatMap fun b => b.1.flatMap fun i => b.2.map fun j => (i, j)

/-- Rows first, then columns. -/
def bucketBijection {V : Type*} (var : V → V → ℤ) (b : List V × List V) : Formula :=
  (b.1.flatMap fun i => exactlyOne (b.2.map fun j => var i j)) ++
    b.2.flatMap fun j => exactlyOne (b.1.map fun i => var i j)

/-- `colGroups[rowGroupOfVertex[i]]`. -/
def columnsOf {V : Type*} [DecidableEq V] (bs : List (List V × List V)) (i : V) : List V :=
  ((bs.find? fun b => i ∈ b.1).map (·.2)).getD []

/-- The clauses of one edge. -/
def perQueryEdge (g : Graph) (edgeThreshold : ℤ) (bs : List (List (Fin g.n) × List (Fin g.n)))
    (var : Fin g.n → Fin g.n → ℤ) (i k : Fin g.n) : Formula :=
  let colsI := columnsOf bs i
  let colsK := columnsOf bs k
  let classProduct : ℤ := colsI.length * colsK.length
  if classProduct ≤ edgeThreshold then conflictClauses g.adj var i k colsI colsK
  else supportClauses g.adj var i k colsI colsK

/-- The encoding of one query, and the clauses its solver is given. -/
def buildPerQueryCadicalEncoding (g : Graph) (cU cV : Fin g.n → Colour) (edgeThreshold : ℤ) :
    Formula × PerQueryCadicalEncoding g :=
  let bs := buckets cU cV
  let vars := Vars.createAll (bucketPairs bs)
  let edges := g.edges.flatMap fun p => perQueryEdge g edgeThreshold bs vars.varOf p.1 p.2
  (bs.flatMap (bucketBijection vars.varOf) ++ edges,
    ⟨vars.varOf, vars.nextVar, bs.map (·.1), bs.map (·.2),
      (bs.map fun b => b.1.length + b.2.length).sum, edges.length⟩)

/-- Reads the permutation off a model, bucket by bucket. -/
def decodePerQueryModel {g : Graph} (encoding : PerQueryCadicalEncoding g) (τ : ℕ → Bool) :
    Fin g.n → Option (Fin g.n) :=
  decode encoding.varOf τ (bucketPairs (encoding.rowGroups.zip encoding.colGroups))

/-- A count in 64-bit arithmetic. -/
def toLong (k : ℕ) : ℤ := Int.bmod k (2 ^ 64)

theorem toLong_le (k : ℕ) : toLong k ≤ 2 ^ 63 - 1 := (Int.bmod_le (by decide)).trans (by decide)

theorem toLong_of_lt {k : ℕ} (h : k < 2 ^ 63) : toLong k = k :=
  Int.bmod_eq_of_le_mul_two (by omega) (by omega)

/-- Sizes of the formula. -/
structure PerQueryEncodingSizeEstimate where
  «variables» : ℤ
  edgeConflictClauses : ℤ
  bijectionClauses : ℤ

/-- `exactlyOne` once for each row and once for each column. -/
def bucketBijectionCost {V : Type*} (b : List V × List V) : ℕ :=
  let r := b.1.length
  let c := b.2.length
  r * (1 + c * (c - 1) / 2) + c * (1 + r * (r - 1) / 2)

/-- The clauses one edge needs. -/
def perQueryEdgeCost (g : Graph) (edgeThreshold : ℤ) (bs : List (List (Fin g.n) × List (Fin g.n)))
    (i k : Fin g.n) : ℕ :=
  let colsI := columnsOf bs i
  let colsK := columnsOf bs k
  if colsI = [] ∨ colsK = [] then 0
  else if (colsI.length * colsK.length : ℤ) ≤ edgeThreshold then
    (colsI.map fun j => (colsK.filter fun l => l ∉ g.adj j).length).sum
  else colsI.length

/-- The size of the encoding, without building it. -/
def estimatePerQueryEncodingSize (g : Graph) (cU cV : Fin g.n → Colour) (edgeThreshold : ℤ) :
    PerQueryEncodingSizeEstimate :=
  let bs := buckets cU cV
  ⟨toLong (bs.map fun b => b.1.length * b.2.length).sum,
    toLong (g.edges.map fun p => perQueryEdgeCost g edgeThreshold bs p.1 p.2).sum,
    toLong (bs.map bucketBijectionCost).sum⟩

/-! ### Buckets -/

variable {cU cV : Fin n → Colour}

theorem mem_colsByColour {c : Colour} {j : Fin n} : j ∈ colsByColour cV c ↔ cV j = c := by
  rw [colsByColour, Lib.lookup_groupBy]; simp

/-- A bucket holds the rows and the columns of one colour, and some row. -/
theorem mem_buckets {b : List (Fin n) × List (Fin n)} : b ∈ buckets cU cV ↔
    ∃ i, b = ((List.finRange n).filter (fun i' => cU i' = cU i), colsByColour cV (cU i)) := by
  rw [buckets, List.mem_map]
  constructor
  · rintro ⟨p, hp, rfl⟩
    obtain ⟨hk, hrows⟩ := Lib.mem_groupBy.mp hp
    obtain ⟨i, -, hi⟩ := List.mem_map.mp hk
    exact ⟨i, by rw [hrows, hi]⟩
  · rintro ⟨i, rfl⟩
    exact ⟨(cU i, _), Lib.mem_groupBy.mpr ⟨List.mem_map_of_mem (List.mem_finRange i), rfl⟩, rfl⟩

theorem mem_bucketPairs {i j : Fin n} : (i, j) ∈ bucketPairs (buckets cU cV) ↔ cV j = cU i := by
  simp only [bucketPairs, List.mem_flatMap, List.mem_map, Prod.mk.injEq]
  constructor
  · rintro ⟨b, hb, i', hi', j', hj', rfl, rfl⟩
    obtain ⟨i, rfl⟩ := mem_buckets.mp hb
    rw [mem_colsByColour.mp hj', of_decide_eq_true (List.mem_filter.mp hi').2]
  · intro h
    exact ⟨_, mem_buckets.mpr ⟨i, rfl⟩, i, by simp, j, mem_colsByColour.mpr h, rfl, rfl⟩

theorem columnsOf_buckets (i : Fin n) : columnsOf (buckets cU cV) i = colsByColour cV (cU i) := by
  have hmem : ((List.finRange n).filter (fun i' => cU i' = cU i), colsByColour cV (cU i)) ∈
      buckets cU cV := mem_buckets.mpr ⟨i, rfl⟩
  obtain ⟨b, hb⟩ := Option.isSome_iff_exists.mp (List.find?_isSome.mpr
    ⟨_, hmem, by simp⟩ : ((buckets cU cV).find? fun b => i ∈ b.1).isSome = true)
  obtain ⟨i', rfl⟩ := mem_buckets.mp (List.mem_of_find?_eq_some hb)
  have hi : cU i = cU i' := by simpa using List.find?_some hb
  rw [columnsOf, hb, hi]
  rfl

/-! ### Models -/

variable {g : Graph} {edgeThreshold : ℤ} {τ : ℕ → Bool}

/-- `α` carries the first colouring to the second. -/
def Carries {g : Graph} (cU cV : Fin g.n → Colour) (α : Equiv.Perm (Fin g.n)) : Prop :=
  ∀ i, cV (α i) = cU i

theorem models_bucketBijection {cU cV : Fin n → Colour} :
    Models τ ((buckets cU cV).flatMap
      (bucketBijection (Vars.createAll (bucketPairs (buckets cU cV))).varOf)) ↔
    ∃ α : Equiv.Perm (Fin n), Represents (Vars.createAll (bucketPairs (buckets cU cV))).varOf τ α ∧
      Inside (Vars.createAll (bucketPairs (buckets cU cV))).varOf α := by
  have hpos : ∀ i j, 0 < (Vars.createAll (bucketPairs (buckets cU cV))).varOf i j ↔ cV j = cU i :=
    fun i j => by rw [varOf_pos_iff, mem_bucketPairs]
  generalize (Vars.createAll (bucketPairs (buckets cU cV))).varOf = var at hpos ⊢
  rw [← models_images_preimages (fun i => colsByColour cV (cU i))
    (fun j => (List.finRange n).filter fun i => cU i = cV j)
    (fun i => by rw [colsByColour, Lib.lookup_groupBy]; exact (List.nodup_finRange _).filter _)
    (fun j => (List.nodup_finRange _).filter _) (fun i j => (hpos i j).trans mem_colsByColour.symm)
    (fun i j => (hpos i j).trans (by simp [eq_comm]))]
  simp only [bucketBijection, models_flatMap, models_append]
  constructor
  · intro h
    refine ⟨fun i => (h _ (mem_buckets.mpr ⟨i, rfl⟩)).1 i (by simp), fun j hj => ?_⟩
    obtain ⟨i, hi⟩ := List.exists_mem_of_ne_nil _ hj
    have hij : cU i = cV j := by simpa using hi
    have := (h _ (mem_buckets.mpr ⟨i, rfl⟩)).2 j (mem_colsByColour.mpr hij.symm)
    rwa [hij] at this
  · rintro ⟨hr, hc⟩ b hb
    obtain ⟨i, rfl⟩ := mem_buckets.mp hb
    refine ⟨fun i' hi' => ?_, fun j hj => ?_⟩
    · have := hr i'
      rwa [of_decide_eq_true (List.mem_filter.mp hi').2] at this
    · have hij := mem_colsByColour.mp hj
      have := hc j (List.ne_nil_of_mem (a := i) (by simp [hij]))
      rwa [hij] at this

/-- The models represent exactly the automorphisms that carry `cU` to `cV`. -/
theorem models_perQuery [g.Simple] {cU cV : Fin g.n → Colour} :
    Models τ (buildPerQueryCadicalEncoding g cU cV edgeThreshold).1 ↔
      ∃ α, IsAut g α ∧ Carries cU cV α ∧
        Represents (buildPerQueryCadicalEncoding g cU cV edgeThreshold).2.varOf τ α := by
  simp only [buildPerQueryCadicalEncoding, models_append]
  rw [models_bucketBijection, models_flatMap]
  have hpos : ∀ i j, 0 < (Vars.createAll (bucketPairs (buckets cU cV))).varOf i j ↔ cV j = cU i :=
    fun i j => by rw [varOf_pos_iff, mem_bucketPairs]
  generalize (Vars.createAll (bucketPairs (buckets cU cV))).varOf = var at hpos ⊢
  have hcols : ∀ {i j}, j ∈ columnsOf (buckets cU cV) i ↔ 0 < var i j := fun {i j} => by
    rw [columnsOf_buckets, mem_colsByColour, hpos]
  have hedges : ∀ α : Equiv.Perm (Fin g.n), Represents var τ α → Inside var α →
      ((∀ p ∈ g.edges, Models τ (perQueryEdge g edgeThreshold (buckets cU cV) var p.1 p.2)) ↔
        IsAut g α) := by
    intro α hα hin
    rw [isAut_iff_edges]
    refine forall₂_congr fun p _ => ?_
    rw [perQueryEdge]
    split
    · exact models_conflictClauses hα (fun _ => hcols.mp) (fun _ => hcols.mp) (hcols.mpr (hin _))
        (hcols.mpr (hin _))
    · exact models_supportClauses hα (fun _ => hcols.mp) (fun _ => hcols.mp) (hcols.mpr (hin _))
        (hcols.mpr (hin _))
  constructor
  · rintro ⟨⟨α, hα, hin⟩, hm⟩
    exact ⟨α, (hedges α hα hin).mp hm, fun i => (hpos _ _).mp (hin i), hα⟩
  · rintro ⟨α, haut, hcarry, hα⟩
    have hin : Inside var α := fun i => (hpos _ _).mpr (hcarry i)
    exact ⟨⟨α, hα, hin⟩, (hedges α hα hin).mpr haut⟩

variable (edgeThreshold) in
theorem inside_perQuery {cU cV : Fin g.n → Colour} {α : Equiv.Perm (Fin g.n)} (hα : Carries cU cV α) :
    Inside (buildPerQueryCadicalEncoding g cU cV edgeThreshold).2.varOf α := fun i =>
  varOf_pos_iff.mpr (mem_bucketPairs.mpr (hα i))

/-- Decoding a representing assignment gives the automorphism back. -/
theorem decodePerQueryModel_eq {cU cV : Fin g.n → Colour} {α : Equiv.Perm (Fin g.n)}
    (hcarry : Carries cU cV α)
    (hα : Represents (buildPerQueryCadicalEncoding g cU cV edgeThreshold).2.varOf τ α) :
    decodePerQueryModel (buildPerQueryCadicalEncoding g cU cV edgeThreshold).2 τ =
      fun v => some (α v) := by
  have hzip : ((buckets cU cV).map (·.1)).zip ((buckets cU cV).map (·.2)) = buckets cU cV :=
    (List.zip_of_prod rfl rfl).symm
  refine decode_eq hα (inside_perQuery edgeThreshold hcarry) fun i => ?_
  change (i, α i) ∈ bucketPairs (((buckets cU cV).map (·.1)).zip ((buckets cU cV).map (·.2)))
  rw [hzip]
  exact mem_bucketPairs.mpr (hcarry i)

variable (edgeThreshold) in
/-- Every automorphism that carries `cU` to `cV` has a model. -/
theorem exists_model_perQuery [g.Simple] {cU cV : Fin g.n → Colour} {α : Equiv.Perm (Fin g.n)}
    (haut : IsAut g α) (hcarry : Carries cU cV α) :
    ∃ τ, Models τ (buildPerQueryCadicalEncoding g cU cV edgeThreshold).1 ∧
      Represents (buildPerQueryCadicalEncoding g cU cV edgeThreshold).2.varOf τ α := by
  obtain ⟨τ, hτ⟩ := exists_assignment (bucketPairs (buckets cU cV)) α
  exact ⟨τ, models_perQuery.mpr ⟨α, haut, hcarry, hτ⟩, hτ⟩

/-- A permutation that carries one colouring to the other keeps the multiplicities. -/
theorem count_eq_of_carries {cU cV : Fin g.n → Colour} {α : Equiv.Perm (Fin g.n)}
    (hα : Carries cU cV α) (c : Colour) :
    ((List.finRange g.n).filter fun j => cV j = c).length =
      ((List.finRange g.n).filter fun i => cU i = c).length := by
  rw [← ((map_finRange_perm α).filter fun j => decide (cV j = c)).length_eq, List.filter_map,
    List.length_map]
  simp only [Function.comp_def, hα _]

/-- Models are the permutation matrices of the automorphisms that carry `cU` to `cV`; decoding gives
    the automorphism back; every such automorphism has a model; and colours of different
    multiplicities make the formula unsatisfiable. -/
theorem perQueryEncoding_exact (g : Graph) [g.Simple] (cU cV : Fin g.n → Colour) (edgeThreshold : ℤ) :
    (∀ τ, Models τ (buildPerQueryCadicalEncoding g cU cV edgeThreshold).1 ↔
      ∃ α, IsAut g α ∧ Carries cU cV α ∧
        Represents (buildPerQueryCadicalEncoding g cU cV edgeThreshold).2.varOf τ α ∧
        decodePerQueryModel (buildPerQueryCadicalEncoding g cU cV edgeThreshold).2 τ =
          fun v => some (α v)) ∧
    (∀ α, IsAut g α → Carries cU cV α →
      ∃ τ, Models τ (buildPerQueryCadicalEncoding g cU cV edgeThreshold).1 ∧
        Represents (buildPerQueryCadicalEncoding g cU cV edgeThreshold).2.varOf τ α) ∧
    ∀ c, ((List.finRange g.n).filter fun i => cU i = c).length ≠
        ((List.finRange g.n).filter fun j => cV j = c).length →
      ¬∃ τ, Models τ (buildPerQueryCadicalEncoding g cU cV edgeThreshold).1 := by
  refine ⟨fun τ => models_perQuery.trans (exists_congr fun α => ?_),
    fun α haut hcarry => exists_model_perQuery _ haut hcarry, fun c hc ⟨τ, hτ⟩ => ?_⟩
  · exact ⟨fun ⟨h₁, h₂, h₃⟩ => ⟨h₁, h₂, h₃, decodePerQueryModel_eq h₂ h₃⟩,
      fun ⟨h₁, h₂, h₃, _⟩ => ⟨h₁, h₂, h₃⟩⟩
  · obtain ⟨α, -, hcarry, -⟩ := models_perQuery.mp hτ
    exact hc (count_eq_of_carries hcarry c).symm

/-- The exchange of the two ends of an edge carries `0, 1` to `1, 0`. -/
theorem perQueryEncoding_exact_edge : ∃ τ, Models τ
    (buildPerQueryCadicalEncoding (ofEdges 2 [(0, 1)]) (fun v => v.val) (fun v => 1 - v.val) 1024).1 := by
  obtain ⟨τ, hτ, -⟩ := (perQueryEncoding_exact (ofEdges 2 [(0, 1)]) (fun v => v.val)
    (fun v => 1 - v.val) 1024).2.1 (finRotate 2) (fun v w => by revert v w; decide)
    fun v => by revert v; decide
  exact ⟨τ, hτ⟩

end Dialysis.Sat
