import GraphDialysis.Sat.PerQueryDriver

/-! `estimateGlobalEncodingSize` and `estimatePerQueryEncodingSize`: how large a formula would be,
    counted from the colour classes without building it. The counters are natural numbers here;
    what 64 bits make of them is `estimatePerQueryEncodingSize`.

    `encodingSizes_exact`: the counts are those of the formulas that `buildCadicalEncodingHybrid` and
    `buildPerQueryCadicalEncoding` emit, for every threshold from zero on. Below zero the two differ:
    an edge into an empty bucket is skipped when counting and given unit clauses when built. -/

namespace Dialysis.Sat
open Lib.Cnf Lib.Matrix Dialysis.Graph Refinement
variable {Colour : Type*} [DecidableEq Colour]

/-- A size estimate, with counters that do not overflow. -/
structure EncodingSize where
  «variables» : ℕ
  edgeConflictClauses : ℕ
  bijectionClauses : ℕ
  deriving DecidableEq

/-- `edgeConflictClauses > limit || bijectionClauses > limit`. -/
def EncodingSize.exceeds (size : EncodingSize) (limit : ℤ) : Bool :=
  limit < size.edgeConflictClauses ∨ limit < size.bijectionClauses

/-- `exactlyOne` once for each row and once for each column of a class. -/
def groupBijectionCost {V : Type*} (members : List V) : ℕ :=
  let k := members.length
  2 * k * (1 + k * (k - 1) / 2)

/-- The clauses one edge needs in the global encoding. -/
def globalEdgeCost (g : Graph) (edgeThreshold : ℤ) (groups : List (List (Fin g.n)))
    (i k : Fin g.n) : ℕ :=
  let membersI := Lib.groupOf groups i
  let membersK := Lib.groupOf groups k
  if (membersI.length * membersK.length : ℤ) ≤ edgeThreshold then
    (membersI.map fun j => (membersK.filter fun l => l ∉ g.adj j).length).sum
  else membersI.length

/-- The size of the global encoding, without building it. -/
def estimateGlobalEncodingSize (g : Graph) (colorOf : Fin g.n → Colour) (edgeThreshold : ℤ) :
    EncodingSize :=
  let groups := computePreserveGroups g colorOf
  ⟨(groups.map fun members => members.length * members.length).sum,
    (g.edges.map fun p => globalEdgeCost g edgeThreshold groups p.1 p.2).sum,
    (groups.map groupBijectionCost).sum⟩

/-- What `estimatePerQueryEncodingSize` counts. -/
def perQueryEncodingSize (g : Graph) (cU cV : Fin g.n → Colour) (edgeThreshold : ℤ) :
    EncodingSize :=
  let bs := buckets cU cV
  ⟨(bs.map fun b => b.1.length * b.2.length).sum,
    (g.edges.map fun p => perQueryEdgeCost g edgeThreshold bs p.1 p.2).sum,
    (bs.map bucketBijectionCost).sum⟩

/-- Is the global formula too large? -/
def globalTooBig (g : Graph) (colorOf : Fin g.n → Colour) (edgeClauseThreshold : ℤ) : Bool :=
  (estimateGlobalEncodingSize g colorOf defaultEdgeThreshold).exceeds edgeClauseThreshold

/-- The formula `F` and what its encoder reports are as large as `size` says: its variables are
    numbered from one, and the edge clauses follow the bijection clauses. -/
structure HasSize (F : Formula) (numVars edgeConflictClauses : ℕ) (bijection : Formula)
    (size : EncodingSize) : Prop where
  numVars_eq : numVars = size.variables
  occurs : ∀ x, Occurs x F ↔ 0 < x ∧ x ≤ size.variables
  bijection_length : bijection.length = size.bijectionClauses
  edges : ∃ edges, F = bijection ++ edges ∧ edges.length = size.edgeConflictClauses
  edgeConflictClauses_eq : edgeConflictClauses = size.edgeConflictClauses

/-! ### Buckets -/

/-- Buckets that share no row, each listing its rows and its columns once. -/
structure BucketsApart {V : Type*} (bs : List (List V × List V)) : Prop where
  rows : (bs.map (·.1)).flatten.Nodup
  cols : ∀ b ∈ bs, b.2.Nodup

variable {V : Type*} [DecidableEq V] {bs : List (List V × List V)}

omit [DecidableEq V] in
theorem length_bucketPairs :
    (bucketPairs bs).length = (bs.map fun b => b.1.length * b.2.length).sum := by
  simp [bucketPairs, List.length_flatMap]

omit [DecidableEq V] in
theorem mem_bucketPairs_iff {p : V × V} : p ∈ bucketPairs bs ↔ ∃ b ∈ bs, p.1 ∈ b.1 ∧ p.2 ∈ b.2 := by
  obtain ⟨i, j⟩ := p
  simp [bucketPairs]

omit [DecidableEq V] in
theorem BucketsApart.nodup_bucketPairs (h : BucketsApart bs) : (bucketPairs bs).Nodup := by
  obtain ⟨hnd, hdisj⟩ := List.nodup_flatten.mp h.rows
  refine List.nodup_flatMap.mpr ⟨fun b hb => ?_, ?_⟩
  · exact (hnd b.1 (List.mem_map_of_mem hb)).product (h.cols b hb)
  · rw [List.pairwise_map] at hdisj
    refine hdisj.imp fun hab => ?_
    rintro ⟨i, j⟩ ha hb
    simp only [List.mem_flatMap, List.mem_map, Prod.mk.injEq] at ha hb
    obtain ⟨i₁, hi₁, j₁, hj₁, rfl, rfl⟩ := ha
    obtain ⟨i₂, hi₂, j₂, hj₂, rfl, rfl⟩ := hb
    exact hab hi₁ hi₂

omit [DecidableEq V] in
/-- The bijection clauses of a bucket have the variables of its entries. -/
theorem occurs_bucketBijection {var : V → V → ℤ} {b : List V × List V} {x : ℕ} :
    Occurs x (bucketBijection var b) ↔ ∃ i ∈ b.1, ∃ j ∈ b.2, (var i j).natAbs = x := by
  rw [bucketBijection, occurs_append, occurs_flatMap, occurs_flatMap]
  simp only [occurs_exactlyOne, List.mem_map, exists_exists_and_eq_and]
  refine ⟨?_, Or.inl⟩
  rintro (h | ⟨j, hj, i, hi, hx⟩)
  · exact h
  · exact ⟨i, hi, j, hj, hx⟩

omit [DecidableEq V] in
theorem length_bucketBijection (var : V → V → ℤ) (b : List V × List V) :
    (bucketBijection var b).length = bucketBijectionCost b := by
  simp [bucketBijection, bucketBijectionCost, List.length_flatMap, length_exactlyOne]

/-- The variables of the bijection clauses are the numbers up to the number of entries. -/
theorem occurs_bijection (h : BucketsApart bs) {x : ℕ} :
    Occurs x (bs.flatMap (bucketBijection (Vars.createAll (bucketPairs bs)).varOf)) ↔
      0 < x ∧ x ≤ (bs.map fun b => b.1.length * b.2.length).sum := by
  rw [occurs_flatMap, ← length_bucketPairs]
  simp only [occurs_bucketBijection]
  constructor
  · rintro ⟨b, hb, i, hi, j, hj, rfl⟩
    have := varOf_bounds (mem_bucketPairs_iff (p := (i, j)).mpr ⟨b, hb, hi, hj⟩)
    omega
  · rintro ⟨hpos, hle⟩
    obtain ⟨⟨i, j⟩, hp, hx⟩ := exists_varOf_eq h.nodup_bucketPairs hpos hle
    obtain ⟨b, hb, hi, hj⟩ := mem_bucketPairs_iff.mp hp
    exact ⟨b, hb, i, hi, j, hj, by rw [hx]; exact Int.natAbs_natCast x⟩

/-- A formula with the bijection clauses of `bs`, and edge clauses on the same variables. -/
theorem hasSize_of_buckets (h : BucketsApart bs) {edges : Formula} {size : EncodingSize}
    (hvars : size.variables = (bs.map fun b => b.1.length * b.2.length).sum)
    (hbijection : size.bijectionClauses = (bs.map bucketBijectionCost).sum)
    (hedges : size.edgeConflictClauses = edges.length)
    (hoccurs : ∀ x, Occurs x edges →
      ∃ p ∈ bucketPairs bs, ((Vars.createAll (bucketPairs bs)).varOf p.1 p.2).natAbs = x) :
    HasSize (bs.flatMap (bucketBijection (Vars.createAll (bucketPairs bs)).varOf) ++ edges)
      (Vars.createAll (bucketPairs bs)).nextVar edges.length
      (bs.flatMap (bucketBijection (Vars.createAll (bucketPairs bs)).varOf)) size := by
  refine ⟨?_, fun x => ?_, ?_, ⟨edges, rfl, hedges.symm⟩, hedges.symm⟩
  · rw [nextVar_createAll, length_bucketPairs, hvars]
  · rw [occurs_append, occurs_bijection h, hvars]
    refine or_iff_left_of_imp fun hx => ?_
    obtain ⟨p, hp, rfl⟩ := hoccurs x hx
    have := varOf_bounds hp
    rw [← length_bucketPairs]
    omega
  · rw [List.length_flatMap, hbijection]
    simp only [length_bucketBijection]

/-! ### The two encodings -/

section Global
variable {g : Graph} {colorOf : Fin g.n → Colour} {edgeThreshold : ℤ}

/-- The classes of the global encoding as buckets, rows and columns alike. -/
def squares {V : Type*} (groups : List (List V)) : List (List V × List V) :=
  groups.map fun members => (members, members)

omit [DecidableEq V] in
theorem groupPairs_eq (groups : List (List V)) : groupPairs groups = bucketPairs (squares groups) := by
  rw [groupPairs, bucketPairs, squares, List.flatMap_map]

omit [DecidableEq V] in
theorem flatMap_groupBijection (var : V → V → ℤ) (groups : List (List V)) :
    groups.flatMap (groupBijection var) = (squares groups).flatMap (bucketBijection var) := by
  rw [squares, List.flatMap_map]
  rfl

omit [DecidableEq V] in
theorem bucketBijectionCost_square (members : List V) :
    bucketBijectionCost (members, members) = groupBijectionCost members := by
  rw [bucketBijectionCost, groupBijectionCost, mul_assoc, two_mul]

theorem squares_apart : BucketsApart (squares (computePreserveGroups g colorOf)) where
  rows := by
    rw [squares, List.map_map]
    simp only [Function.comp_def, List.map_id']
    exact (Lib.flatten_groups_perm _ (List.nodup_finRange g.n)).nodup_iff.mpr
      (List.nodup_finRange g.n)
  cols := fun b hb => by
    obtain ⟨members, hm, rfl⟩ := List.mem_map.mp hb
    exact Lib.group_nodup (List.nodup_finRange g.n) hm

theorem length_hybridEdge (groups : List (List (Fin g.n))) (var : Fin g.n → Fin g.n → ℤ)
    (i k : Fin g.n) :
    (hybridEdge g edgeThreshold groups var i k).length =
      globalEdgeCost g edgeThreshold groups i k := by
  rw [hybridEdge, globalEdgeCost]
  split
  · exact length_conflictClauses i k _ _
  · exact length_supportClauses i k _ _

theorem occurs_hybridEdge {groups : List (List (Fin g.n))} {var : Fin g.n → Fin g.n → ℤ}
    {i k : Fin g.n} {x : ℕ} (h : Occurs x (hybridEdge g edgeThreshold groups var i k)) :
    ∃ u, ∃ v ∈ Lib.groupOf groups u, (var u v).natAbs = x := by
  have hcases : (∃ j ∈ Lib.groupOf groups i, (var i j).natAbs = x) ∨
      ∃ l ∈ Lib.groupOf groups k, (var k l).natAbs = x := by
    rw [hybridEdge] at h
    split at h
    · exact occurs_conflictClauses h
    · exact occurs_supportClauses h
  exact hcases.elim (fun h => ⟨i, h⟩) fun h => ⟨k, h⟩

/-- The global estimate counts what `buildCadicalEncodingHybrid` emits. -/
theorem hasSize_hybrid (g : Graph) (colorOf : Fin g.n → Colour) (edgeThreshold : ℤ) :
    let built := buildCadicalEncodingHybrid g edgeThreshold colorOf
    HasSize built.1 built.2.numVars built.2.edgeConflictClauses
      (built.2.groups.flatMap (groupBijection built.2.varOf))
      (estimateGlobalEncodingSize g colorOf edgeThreshold) := by
  simp only [buildCadicalEncodingHybrid, groupPairs_eq, flatMap_groupBijection]
  refine hasSize_of_buckets squares_apart ?_ ?_ ?_ fun x hx => ?_
  · simp only [estimateGlobalEncodingSize, squares, List.map_map, Function.comp_def]
  · simp only [estimateGlobalEncodingSize, squares, List.map_map, Function.comp_def,
      bucketBijectionCost_square]
  · simp only [estimateGlobalEncodingSize, List.length_flatMap, length_hybridEdge]
  · obtain ⟨p, -, hx⟩ := occurs_flatMap.mp hx
    obtain ⟨u, v, hv, hx⟩ := occurs_hybridEdge hx
    rw [groupOf_preserve, ← mem_preservePairs, groupPairs_eq] at hv
    exact ⟨(u, v), hv, hx⟩

end Global

section PerQuery
variable {g : Graph} {cU cV : Fin g.n → Colour} {edgeThreshold : ℤ}

theorem buckets_apart : BucketsApart (buckets cU cV) where
  rows := by
    rw [buckets, List.map_map]
    exact (Lib.flatten_groups_perm cU (List.nodup_finRange g.n)).nodup_iff.mpr
      (List.nodup_finRange g.n)
  cols := fun b hb => by
    obtain ⟨i, rfl⟩ := mem_buckets.mp hb
    rw [colsByColour, Lib.lookup_groupBy]
    exact (List.nodup_finRange g.n).filter _

/-- From threshold zero on, an empty bucket gets no clauses. -/
theorem length_perQueryEdge (h : 0 ≤ edgeThreshold) (bs : List (List (Fin g.n) × List (Fin g.n)))
    (var : Fin g.n → Fin g.n → ℤ) (i k : Fin g.n) :
    (perQueryEdge g edgeThreshold bs var i k).length = perQueryEdgeCost g edgeThreshold bs i k := by
  rw [perQueryEdge, perQueryEdgeCost]
  by_cases hempty : columnsOf bs i = [] ∨ columnsOf bs k = []
  · have hzero : ((columnsOf bs i).length * (columnsOf bs k).length : ℤ) = 0 := by
      rcases hempty with he | he <;> rw [he] <;> simp
    rw [if_pos hempty, if_pos (hzero.trans_le h), length_conflictClauses]
    rcases hempty with he | he <;> rw [he] <;> simp
  · rw [if_neg hempty]
    split
    · exact length_conflictClauses i k _ _
    · exact length_supportClauses i k _ _

theorem occurs_perQueryEdge {bs : List (List (Fin g.n) × List (Fin g.n))}
    {var : Fin g.n → Fin g.n → ℤ} {i k : Fin g.n} {x : ℕ}
    (h : Occurs x (perQueryEdge g edgeThreshold bs var i k)) :
    ∃ u, ∃ v ∈ columnsOf bs u, (var u v).natAbs = x := by
  have hcases : (∃ j ∈ columnsOf bs i, (var i j).natAbs = x) ∨
      ∃ l ∈ columnsOf bs k, (var k l).natAbs = x := by
    rw [perQueryEdge] at h
    split at h
    · exact occurs_conflictClauses h
    · exact occurs_supportClauses h
  exact hcases.elim (fun h => ⟨i, h⟩) fun h => ⟨k, h⟩

/-- The estimate of a query counts what `buildPerQueryCadicalEncoding` emits. -/
theorem hasSize_perQuery (cU cV : Fin g.n → Colour) (edgeThreshold : ℤ) (h : 0 ≤ edgeThreshold) :
    let built := buildPerQueryCadicalEncoding g cU cV edgeThreshold
    HasSize built.1 built.2.numVars built.2.edgeConflictClauses
      ((buckets cU cV).flatMap (bucketBijection built.2.varOf))
      (perQueryEncodingSize g cU cV edgeThreshold) := by
  simp only [buildPerQueryCadicalEncoding]
  refine hasSize_of_buckets buckets_apart rfl rfl ?_ fun x hx => ?_
  · simp only [perQueryEncodingSize, List.length_flatMap, length_perQueryEdge h]
  · obtain ⟨p, -, hx⟩ := occurs_flatMap.mp hx
    obtain ⟨u, v, hv, hx⟩ := occurs_perQueryEdge hx
    rw [columnsOf_buckets, mem_colsByColour] at hv
    exact ⟨(u, v), mem_bucketPairs.mpr hv, hx⟩

end PerQuery

/-- A guard that asks the size asks the formula. -/
theorem HasSize.exceeds_iff {F bijection : Formula} {numVars edgeConflictClauses : ℕ}
    {size : EncodingSize} (h : HasSize F numVars edgeConflictClauses bijection size) (limit : ℤ) :
    size.exceeds limit = true ↔ limit < edgeConflictClauses ∨ limit < bijection.length := by
  rw [h.edgeConflictClauses_eq, h.bijection_length, EncodingSize.exceeds, decide_eq_true_iff]

/-- The guard of the driver, as long as its counters do not overflow. -/
theorem tooLarge_iff {g : Graph} [g.Simple] (d : PerQueryDrive g) (cU cV : Fin g.n → Content)
    {size : EncodingSize} (hsize : size = perQueryEncodingSize g (hashKeys cU) (hashKeys cV)
      defaultEdgeThreshold) (hedges : size.edgeConflictClauses < 2 ^ 63)
    (hbijection : size.bijectionClauses < 2 ^ 63) :
    tooLarge d cU cV = true ↔ size.exceeds d.maxEdgeClauses = true := by
  subst hsize
  have he := toLong_of_lt hedges
  have hb := toLong_of_lt hbijection
  dsimp only [perQueryEncodingSize] at he hb
  unfold tooLarge EncodingSize.exceeds
  dsimp only
  rw [decide_eq_true_iff, decide_eq_true_iff]
  dsimp only [estimatePerQueryEncodingSize, perQueryEncodingSize]
  rw [he, hb]

/-- The sizes are those of the emitted formulas, and the guards refuse exactly the formulas with more
    edge clauses or more bijection clauses than the limit. -/
theorem encodingSizes_exact (g : Graph) [g.Simple] (edgeThreshold : ℤ) (hthreshold : 0 ≤ edgeThreshold) :
    (∀ colorOf : Fin g.n → Colour,
      let built := buildCadicalEncodingHybrid g edgeThreshold colorOf
      HasSize built.1 built.2.numVars built.2.edgeConflictClauses
        (built.2.groups.flatMap (groupBijection built.2.varOf))
        (estimateGlobalEncodingSize g colorOf edgeThreshold)) ∧
    (∀ cU cV : Fin g.n → Colour,
      let built := buildPerQueryCadicalEncoding g cU cV edgeThreshold
      let size := perQueryEncodingSize g cU cV edgeThreshold
      HasSize built.1 built.2.numVars built.2.edgeConflictClauses
        ((buckets cU cV).flatMap (bucketBijection built.2.varOf)) size ∧
      estimatePerQueryEncodingSize g cU cV edgeThreshold = ⟨toLong size.variables,
        toLong size.edgeConflictClauses, toLong size.bijectionClauses⟩) ∧
    (∀ (colorOf : Fin g.n → Colour) (limit : ℤ),
      let built := buildCadicalEncoding g colorOf
      globalTooBig g colorOf limit = true ↔ limit < built.2.edgeConflictClauses ∨
        limit < (built.2.groups.flatMap (groupBijection built.2.varOf)).length) ∧
    ∀ (d : PerQueryDrive g) (cU cV : Fin g.n → Content),
      let built := buildPerQueryCadicalEncoding g (hashKeys cU) (hashKeys cV) defaultEdgeThreshold
      let bijection := (buckets (hashKeys cU) (hashKeys cV)).flatMap (bucketBijection built.2.varOf)
      built.2.edgeConflictClauses < 2 ^ 63 → bijection.length < 2 ^ 63 →
      (tooLarge d cU cV = true ↔ d.maxEdgeClauses < built.2.edgeConflictClauses ∨
        d.maxEdgeClauses < bijection.length) := by
  refine ⟨fun colorOf => hasSize_hybrid g colorOf edgeThreshold,
    fun cU cV => ⟨hasSize_perQuery cU cV edgeThreshold hthreshold, rfl⟩, fun colorOf limit => ?_,
    fun d cU cV => ?_⟩
  · exact (hasSize_hybrid g colorOf defaultEdgeThreshold).exceeds_iff limit
  · have h := hasSize_perQuery (hashKeys cU) (hashKeys cV) defaultEdgeThreshold (by decide)
    intro built bijection hedges hbijection
    have hguard := tooLarge_iff d cU cV rfl (h.edgeConflictClauses_eq ▸ hedges)
      (h.bijection_length ▸ hbijection)
    exact hguard.trans (h.exceeds_iff d.maxEdgeClauses)

/-- A triangle with one colour has nine variables, nine edge clauses and twenty-four others. -/
theorem encodingSizes_exact_triangle :
    estimateGlobalEncodingSize (ofEdges 3 [(0, 1), (1, 2), (0, 2)]) (fun _ => 0) 1024 = ⟨9, 9, 24⟩ ∧
      (buildCadicalEncodingHybrid (ofEdges 3 [(0, 1), (1, 2), (0, 2)]) 1024 fun _ => 0).1.length =
        33 := by
  have hsize : estimateGlobalEncodingSize (ofEdges 3 [(0, 1), (1, 2), (0, 2)]) (fun _ => 0) 1024 =
      ⟨9, 9, 24⟩ := by decide
  have h := (encodingSizes_exact (ofEdges 3 [(0, 1), (1, 2), (0, 2)]) 1024 (by decide)).1 fun _ => 0
  obtain ⟨edges, hedges, hlength⟩ := h.edges
  refine ⟨hsize, ?_⟩
  rw [hedges, List.length_append, hlength, h.bijection_length, hsize]
  rfl

end Dialysis.Sat
