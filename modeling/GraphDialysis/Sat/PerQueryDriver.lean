import GraphDialysis.Lib.Loop
import GraphDialysis.Refinement.PerQueryFilter
import GraphDialysis.Sat.OrbitDriver

/-! `dialysis.sat.cadical.PerQueryDriver` and the runner's PER_QUERY loop: every colour class is
    driven by itself, each pair with a formula of its own made from the filter colourings of its two
    ends. A pair is not asked about when it is settled, when its formula would be too large, or when
    the time is up; the last counts as unknown, the one before does not.

    `driveCell_spec`: what is recorded is true of the orbits, and a pair of the class is settled unless
    some query stayed unknown or some formula was too large. -/

namespace Dialysis.Sat
open Lib Lib.Cnf Lib.Matrix Dialysis.Graph Ahu Refinement

/-- The arguments of a drive, with what the clock and the solver return one time after another. -/
structure PerQueryDrive (g : Graph) [g.Simple] where
  base : Fin g.n → Content
  refine : FilterRefine g
  maxEdgeClauses : ℤ
  deadlineEpochMs : ℤ
  clock : ℕ → ℤ
  solve : ℕ → Formula → ℤ → SolverResult

/-- The variables of a drive; `clockReads` and `calls` count what has been read and called. -/
structure PerQueryState (n : ℕ) where
  uf : SeparatingUnionFind n
  colouringCache : List (Fin n × (Fin n → Content))
  pool : InternPool
  issued : ℕ
  skippedWitness : ℕ
  skippedSeparation : ℕ
  skippedTooLarge : ℕ
  sat : ℕ
  unsat : ℕ
  unknown : ℕ
  verified : ℕ
  rejected : ℕ
  perQueryVars : List ℕ
  clockReads : ℕ
  calls : ℕ
  stopped : Bool

namespace PerQueryState
variable {n : ℕ}

def start (n : ℕ) (pool : InternPool) (clockReads calls : ℕ) : PerQueryState n :=
  ⟨.init n, [], pool, 0, 0, 0, 0, 0, 0, 0, 0, 0, [], clockReads, calls, false⟩

/-- Is the pair settled already? -/
def skip (s : PerQueryState n) (u v : Fin n) : Bool × PerQueryState n :=
  let (ru, uf) := s.uf.find u
  let (rv, uf) := uf.find v
  if ru = rv then (true, { s with uf := uf, skippedWitness := s.skippedWitness + 1 })
  else
    let (apart, uf) := uf.separated u v
    if apart then (true, { s with uf := uf, skippedSeparation := s.skippedSeparation + 1 })
    else (false, { s with uf := uf })

def readClock (s : PerQueryState n) : PerQueryState n := { s with clockReads := s.clockReads + 1 }

/-- The pairs still owed a decision. -/
def remaining (uf : SeparatingUnionFind n) (pairs : List (Fin n × Fin n)) :
    ℕ × SeparatingUnionFind n :=
  pairs.foldl (fun (k, uf) (uu, vv) =>
    if vv = uu then (k, uf)
    else
      let (known, uf) := settled uf uu vv
      (if known then k else k + 1, uf)) (0, uf)

/-- The time is up: all that is left is unknown. -/
def outOfTime (s : PerQueryState n) (pairs : List (Fin n × Fin n)) : PerQueryState n :=
  let (k, uf) := remaining s.uf pairs
  { s with uf := uf, issued := s.issued + k, unknown := s.unknown + k, stopped := true }

end PerQueryState

variable {g : Graph} [g.Simple]

/-- One query, asked of a fresh solver. -/
def queryPerQueryCadical (encoding : PerQueryCadicalEncoding g) (u v : Fin g.n)
    (solve : SolverResult) : SatQueryResult g.n :=
  if encoding.varOf u v < 0 then .unsat
  else match solve with
    | .sat value => .sat (decodePerQueryModel encoding value)
    | .unsat => .unsat
    | .unknown => .unknown

variable (d : PerQueryDrive g)

/-- The colouring that singles out a vertex, computed once. -/
def colouringFor (s : PerQueryState g.n) (vertex : Fin g.n) :
    Except String ((Fin g.n → Content) × PerQueryState g.n) :=
  match s.colouringCache.lookup vertex with
  | some c => .ok (c, s)
  | none => (perQueryColouring d.refine d.base vertex s.pool).bind fun r =>
      .ok (r.1, { s with colouringCache := (vertex, r.1) :: s.colouringCache, pool := r.2 })

/-- Too many clauses for a query to be issued. -/
def tooLarge (cU cV : Fin g.n → Content) : Bool :=
  let estimate := estimatePerQueryEncodingSize g (hashKeys cU) (hashKeys cV) defaultEdgeThreshold
  d.maxEdgeClauses < estimate.edgeConflictClauses ∨ d.maxEdgeClauses < estimate.bijectionClauses

theorem tooLarge_of_bijectionClauses {cU cV : Fin g.n → Content} (h : d.maxEdgeClauses <
    toLong ((buckets (hashKeys cU) (hashKeys cV)).map bucketBijectionCost).sum) :
    tooLarge d cU cV = true := by
  unfold tooLarge
  dsimp only
  rw [decide_eq_true_iff]
  refine Or.inr ?_
  dsimp only [estimatePerQueryEncodingSize]
  exact h

/-- Learn from an answer. -/
def learn (s : PerQueryState g.n) (u v : Fin g.n) :
    SatQueryResult g.n → Except String (PerQueryState g.n)
  | .sat alpha =>
    if verifyAutomorphism g alpha then
      (applyWitness s.uf alpha).map fun uf =>
        { s with uf := uf, sat := s.sat + 1, verified := s.verified + 1 }
    else .ok { s with sat := s.sat + 1, rejected := s.rejected + 1 }
  | .unsat => (s.uf.markSeparated u v).map fun uf => { s with uf := uf, unsat := s.unsat + 1 }
  | .unknown => .ok { s with unknown := s.unknown + 1 }

/-- Ask about a pair. -/
def query (s : PerQueryState g.n) (cU cV : Fin g.n → Content) (u v : Fin g.n) :
    Except String (PerQueryState g.n) :=
  let (F, encoding) := buildPerQueryCadicalEncoding g (hashKeys cU) (hashKeys cV) defaultEdgeThreshold
  learn { s with
      issued := s.issued + 1
      calls := s.calls + 1
      perQueryVars := s.perQueryVars ++ [encoding.numVars] } u v
    (queryPerQueryCadical encoding u v (d.solve s.calls F (encoding.varOf u v)))

/-- Compute the two colourings and ask, unless the formula would be too large. -/
def decidePair (s : PerQueryState g.n) (u v : Fin g.n) : Except String (PerQueryState g.n) :=
  (colouringFor d s u).bind fun (cU, s) =>
    (colouringFor d s v).bind fun (cV, s) =>
      if tooLarge d cU cV then .ok { s with skippedTooLarge := s.skippedTooLarge + 1 }
      else query d s cU cV u v

/-- One pass of the inner loop; after `break` nothing happens any more. -/
def visit (pairs : List (Fin g.n × Fin g.n)) (s : PerQueryState g.n) (q : Fin g.n × Fin g.n) :
    Except String (PerQueryState g.n) :=
  if s.stopped ∨ q.2 = q.1 then .ok s
  else
    let (known, s) := s.skip q.1 q.2
    if known then .ok s
    else
      if d.deadlineEpochMs ≤ d.clock s.clockReads then .ok (s.readClock.outOfTime pairs)
      else decidePair d s.readClock q.1 q.2

/-- `for (u in members) for (v in members)`. -/
def orderedPairs {V : Type*} (members : List V) : List (V × V) :=
  members.flatMap fun u => members.map fun v => (u, v)

theorem mem_orderedPairs {V : Type*} {members : List V} {q : V × V} :
    q ∈ orderedPairs members ↔ q.1 ∈ members ∧ q.2 ∈ members := by
  obtain ⟨u, v⟩ := q
  simp [orderedPairs]

/-- The loop over one class, from its first state to its last. -/
def driveCell (members : List (Fin g.n)) (s : PerQueryState g.n) :
    Except String (PerQueryState g.n) :=
  (orderedPairs members).foldlM (visit d (orderedPairs members)) s

/-- What a drive over one class returns. -/
structure PerQueryDriveResult (n : ℕ) where
  orbits : List (List (Fin n))
  queriesIssued : ℕ
  queriesSkippedWitness : ℕ
  queriesSkippedSeparation : ℕ
  queriesSkippedTooLarge : ℕ
  sat : ℕ
  unsat : ℕ
  unknown : ℕ
  witnessesVerified : ℕ
  witnessesRejected : ℕ
  perQueryVars : List ℕ

/-- `members.groupBy { uf.find(it) }` and the counters. -/
def PerQueryState.result {n : ℕ} (s : PerQueryState n) (members : List (Fin n)) :
    PerQueryDriveResult n :=
  ⟨Lib.groups (fun v => (s.uf.find v).1) members, s.issued, s.skippedWitness, s.skippedSeparation,
    s.skippedTooLarge, s.sat, s.unsat, s.unknown, s.verified, s.rejected, s.perQueryVars⟩

/-- Drives one colour class; also its last state. -/
def drivePerQueryOrbits (members : List (Fin g.n)) (pool : InternPool) (clockReads calls : ℕ) :
    Except String (PerQueryDriveResult g.n × PerQueryState g.n) :=
  (driveCell d members (.start g.n pool clockReads calls)).map fun s => (s.result members, s)

/-! ### What is skipped -/

namespace PerQueryState
variable {n : ℕ} (s : PerQueryState n) (u v : Fin n)

theorem skip_iff : (s.skip u v).1 = true ↔ s.uf.view.Decided u v := by
  unfold skip
  by_cases h : s.uf.root u = s.uf.root v
  · simp [h, Knowledge.Decided, SeparatingUnionFind.mates_view]
  · cases hb : (((s.uf.find u).2.find v).2.separated u v).1
    · simp only [SeparatingUnionFind.find_fst, SeparatingUnionFind.root_find, h, hb, if_false]
      have := (SeparatingUnionFind.separated_iff ((s.uf.find u).2.find v).2 u v).not.mp (by simp [hb])
      simpa [Knowledge.Decided, SeparatingUnionFind.mates_view, h] using this
    · simp only [SeparatingUnionFind.find_fst, SeparatingUnionFind.root_find, h, hb, if_false]
      have := (SeparatingUnionFind.separated_iff ((s.uf.find u).2.find v).2 u v).mp hb
      simpa [Knowledge.Decided, SeparatingUnionFind.mates_view, h] using this

/-- A skip compresses paths and counts. -/
theorem skip_frame : ∃ uf w a, uf.view = s.uf.view ∧
    (s.skip u v).2 = { s with uf := uf, skippedWitness := w, skippedSeparation := a } := by
  unfold skip
  dsimp only
  split
  · exact ⟨_, _, _, by simp, rfl⟩
  · split
    · exact ⟨_, _, _, by simp, rfl⟩
    · exact ⟨_, _, _, by simp, rfl⟩

theorem remaining_foldl : ∀ (pairs : List (Fin n × Fin n)) (k : ℕ) (uf : SeparatingUnionFind n),
    let r := pairs.foldl (fun (k, uf) (uu, vv) =>
      if vv = uu then (k, uf)
      else
        let (known, uf) := settled uf uu vv
        (if known then k else k + 1, uf)) (k, uf)
    r.2.view = uf.view ∧ k ≤ r.1 ∧
      ∀ p ∈ pairs, p.2 = p.1 ∨ uf.view.Decided p.1 p.2 ∨ k < r.1
  | [], k, uf => ⟨rfl, le_refl k, by simp⟩
  | (uu, vv) :: pairs, k, uf => by
    rw [List.foldl_cons]
    dsimp only
    split
    · rename_i h
      obtain ⟨hview, hle, hall⟩ := remaining_foldl pairs k uf
      refine ⟨hview, hle, fun p hp => ?_⟩
      rcases List.mem_cons.mp hp with rfl | hp
      · exact Or.inl h
      · exact hall p hp
    · obtain ⟨hview, hle, hall⟩ := remaining_foldl pairs
        (if (settled uf uu vv).1 = true then k else k + 1) (settled uf uu vv).2
      have hk : k ≤ if (settled uf uu vv).1 = true then k else k + 1 := by split <;> omega
      refine ⟨hview.trans (view_settled uf uu vv), hk.trans hle, fun p hp => ?_⟩
      rcases List.mem_cons.mp hp with rfl | hp
      · by_cases hs : (settled uf uu vv).1 = true
        · exact Or.inr (Or.inl ((settled_iff uf uu vv).mp hs))
        · rw [if_neg hs] at hle
          exact Or.inr (Or.inr (Nat.lt_of_succ_le ((if_neg hs).symm ▸ hle)))
      · rcases hall p hp with h | h | h
        · exact Or.inl h
        · exact Or.inr (Or.inl (view_settled uf uu vv ▸ h))
        · exact Or.inr (Or.inr (hk.trans_lt h))

/-- A pair that is left is counted. -/
theorem remaining_spec (uf : SeparatingUnionFind n) (pairs : List (Fin n × Fin n)) :
    (remaining uf pairs).2.view = uf.view ∧
      ∀ p ∈ pairs, p.2 = p.1 ∨ uf.view.Decided p.1 p.2 ∨ 0 < (remaining uf pairs).1 :=
  have h := remaining_foldl pairs 0 uf
  ⟨h.1, h.2.2⟩

end PerQueryState

/-! ### Answers -/

section Answers
variable {u v : Fin g.n} {cU cV : Fin g.n → Content} {edgeThreshold : ℤ} {solve : SolverResult}

variable (edgeThreshold) in
/-- When the colourings of the two ends correspond, the query is answered correctly. -/
theorem queryPerQueryCadical_answers (hcarry : ∀ α ∈ g.Aut, α u = v → ∀ i, cV (α i) = cU i)
    (hsolve : solve.Correct
      (buildPerQueryCadicalEncoding g (hashKeys cU) (hashKeys cV) edgeThreshold).1
      ((buildPerQueryCadicalEncoding g (hashKeys cU) (hashKeys cV) edgeThreshold).2.varOf u v)) :
    (queryPerQueryCadical (buildPerQueryCadicalEncoding g (hashKeys cU) (hashKeys cV)
      edgeThreshold).2 u v solve).Answers (· ∈ g.Aut) u v := by
  have hkeys : ∀ α ∈ g.Aut, α u = v → Carries (hashKeys cU) (hashKeys cV) α := fun α hα huv i =>
    congrArg Content.canon (hcarry α hα huv i)
  unfold queryPerQueryCadical
  split
  · rename_i hneg
    rintro α hα huv
    have := inside_perQuery edgeThreshold (hkeys α hα huv) u
    rw [huv] at this
    omega
  · rename_i hneg
    have hpos : 0 < (buildPerQueryCadicalEncoding g (hashKeys cU) (hashKeys cV)
        edgeThreshold).2.varOf u v := varOf_pos_iff.mpr (varOf_nonneg_iff.mp (not_lt.mp hneg))
    cases solve with
    | sat value =>
      obtain ⟨α, hα, hcar, hrep⟩ := models_perQuery.mp hsolve.1
      exact ⟨α, hα, (hrep u v hpos).mp hsolve.2, decodePerQueryModel_eq hcar hrep⟩
    | unsat =>
      rintro α hα huv
      obtain ⟨τ, hτ, hrep⟩ := exists_model_perQuery edgeThreshold hα (hkeys α hα huv)
      exact hsolve τ hτ ((hrep u v hpos).mpr huv)
    | unknown => trivial

end Answers

/-! ### The cache -/

/-- The cached colourings were computed one after another on a growing pool, the last first. -/
inductive Cached : List (Fin g.n × (Fin g.n → Content)) → InternPool → Prop
  | nil (pool : InternPool) : Cached [] pool
  | cons {cache : List (Fin g.n × (Fin g.n → Content))} {pool pool₁ : InternPool} {w : Fin g.n}
      {c : Fin g.n → Content} (rest : Cached cache pool)
      (computed : perQueryColouring d.refine d.base w pool = .ok (c, pool₁)) :
      Cached ((w, c) :: cache) pool₁

variable {d} {cache : List (Fin g.n × (Fin g.n → Content))} {pool : InternPool}
  {u v w : Fin g.n} {c cU cV : Fin g.n → Content} {α : Equiv.Perm (Fin g.n)}

theorem Cached.computed (h : Cached d cache pool) (hc : (w, c) ∈ cache) : ∃ pool₀ pool₁,
    perQueryColouring d.refine d.base w pool₀ = .ok (c, pool₁) ∧ pool₁.strings <+: pool.strings := by
  induction h with
  | nil => simp at hc
  | cons rest computed ih =>
    rcases List.mem_cons.mp hc with he | hc
    · cases he
      exact ⟨_, _, computed, List.prefix_rfl⟩
    · obtain ⟨pool₀, pool₁, hw, hle⟩ := ih hc
      obtain ⟨-, -, hgrow, -⟩ := perQueryColouring_run computed
      exact ⟨pool₀, pool₁, hw, hle.trans hgrow⟩

/-- Whichever of the two was computed first, cached colourings correspond. -/
theorem Cached.carried (hα : IsAut g α) (hbase : ∀ i, (d.base (α i)).Equals (d.base i))
    (huv : α u = v) (hne : v ≠ u) (h : Cached d cache pool) (hU : (u, cU) ∈ cache)
    (hV : (v, cV) ∈ cache) : ∀ i, cV (α i) = cU i := by
  induction h with
  | nil => simp at hU
  | cons rest computed ih =>
    rcases List.mem_cons.mp hU with he | hU' <;> rcases List.mem_cons.mp hV with he' | hV'
    · cases he
      cases he'
      exact absurd rfl hne
    · cases he
      obtain ⟨pool₀, pool₁, hv, hle⟩ := rest.computed hV'
      have hinv : ∀ i, (d.base (α.symm i)).Equals (d.base i) := fun i => by
        have := hbase (α.symm i)
        rw [α.apply_symm_apply] at this
        exact this.symm
      intro i
      have := perQueryColouring_carried (α := α.symm) (g.Aut.inv_mem (mem_aut.mpr hα)) hinv
        (by rw [← huv, α.symm_apply_apply]) hv hle computed (α i)
      rw [α.symm_apply_apply] at this
      exact this.symm
    · cases he'
      obtain ⟨pool₀, pool₁, hu, hle⟩ := rest.computed hU'
      exact perQueryColouring_carried hα hbase huv hu hle computed
    · exact ih hU' hV'

variable {s s' : PerQueryState g.n}

/-- A colouring is in the cache after it was asked for; nothing is dropped from it. -/
theorem colouringFor_cached (hs : Cached d s.colouringCache s.pool)
    (h : colouringFor d s w = .ok (c, s')) : ∃ cache' pool',
      s' = { s with colouringCache := cache', pool := pool' } ∧ Cached d cache' pool' ∧
        (w, c) ∈ cache' ∧ ∀ e ∈ s.colouringCache, e ∈ cache' := by
  unfold colouringFor at h
  split at h
  · rename_i c' hc'
    cases h
    obtain ⟨l₁, l₂, he, -⟩ := List.lookup_eq_some_iff.mp hc'
    exact ⟨_, _, rfl, hs, by simp [he], fun _ he => he⟩
  · obtain ⟨r, hr, h⟩ := bind_ok h
    cases h
    exact ⟨_, _, rfl, .cons hs hr, List.mem_cons_self .., fun _ he => List.mem_cons_of_mem _ he⟩

/-! ### The invariant of a drive -/

/-- The counters add up, no witness was rejected, and what has been recorded is true. -/
structure PerQueryInv (d : PerQueryDrive g) (s : PerQueryState g.n) : Prop where
  sound : s.uf.view.Sound (OrbitMates g.Aut)
  cached : Cached d s.colouringCache s.pool
  counts : s.sat + s.unsat + s.unknown = s.issued
  rejected : s.rejected = 0

/-- The pair needs no answer, or has one, or some pair has none. -/
def Accounted (s : PerQueryState g.n) (p : Fin g.n × Fin g.n) : Prop :=
  p.2 = p.1 ∨ s.uf.view.Decided p.1 p.2 ∨ 0 < s.unknown

/-- `s'` knows and counts at least what `s` does. -/
structure Later (s s' : PerQueryState g.n) : Prop where
  knows : s.uf.view.Le s'.uf.view
  unknown : s.unknown ≤ s'.unknown

omit [g.Simple] in
theorem Later.accounted (h : Later s s') {p : Fin g.n × Fin g.n} (hp : Accounted s p) :
    Accounted s' p :=
  hp.imp_right fun hp => hp.imp h.knows.decided fun hp => hp.trans_le h.unknown

omit [g.Simple] in
/-- A correct answer is never refused, and settles the pair unless it is that it is unknown. -/
theorem learn_ok (hs : s.uf.view.Sound (OrbitMates g.Aut)) {r : SatQueryResult g.n}
    (hr : r.Answers (· ∈ g.Aut) u v) : ∃ s', learn s u v r = .ok s' ∧
      s'.uf.view.Sound (OrbitMates g.Aut) ∧ Later s s' ∧ Accounted s' (u, v) ∧
      s'.sat + s'.unsat + s'.unknown = s.sat + s.unsat + s.unknown + 1 ∧
      s'.issued = s.issued ∧ s'.rejected = s.rejected ∧ s'.stopped = s.stopped ∧
      s'.colouringCache = s.colouringCache ∧ s'.pool = s.pool ∧
      (r ≠ .unknown → s'.unknown = s.unknown) := by
  have horb := orbitMates_equivalence g.Aut
  cases r with
  | sat alpha =>
    obtain ⟨α, hα, huv, hdef⟩ := hr
    have hver : verifyAutomorphism g alpha = true := verifyAutomorphism_iff.mpr ⟨α, hα, hdef⟩
    obtain ⟨uf', hok, hsound, hle, hall⟩ :=
      applyWitness_ok horb hs hdef fun w => ⟨α, hα, rfl⟩
    refine ⟨{ s with uf := uf', sat := s.sat + 1, verified := s.verified + 1 },
      by simp only [learn, if_pos hver, hok]; rfl, hsound, ⟨hle, le_refl _⟩,
      Or.inr (Or.inl (Or.inl (huv ▸ hall u))), by simp only; omega, rfl, rfl, rfl, rfl, rfl,
      fun _ => rfl⟩
  | unsat =>
    have hnot : ¬OrbitMates g.Aut u v := fun ⟨α, hα, he⟩ => hr α hα he
    obtain ⟨uf', hok, hsound, hle, hap⟩ := markSeparated_sound horb hs hnot
    refine ⟨{ s with uf := uf', unsat := s.unsat + 1 }, by simp only [learn, hok]; rfl, hsound,
      ⟨hle, le_refl _⟩, Or.inr (Or.inl (Or.inr hap)), by simp only; omega, rfl, rfl, rfl, rfl, rfl,
      fun _ => rfl⟩
  | unknown =>
    exact ⟨_, rfl, hs, ⟨Knowledge.Le.refl _, Nat.le_succ _⟩, Or.inr (Or.inr (Nat.succ_pos _)),
      rfl, rfl, rfl, rfl, rfl, rfl, fun h => absurd rfl h⟩

/-- What the drive assumes: the base colouring is constant on orbits and the solver is correct. -/
structure PerQueryDrive.Sound (d : PerQueryDrive g) : Prop where
  base : ∀ α ∈ g.Aut, ∀ i, (d.base (α i)).Equals (d.base i)
  solve : ∀ k F l, (d.solve k F l).Correct F l

/-- Nothing in the drive is ever unknown. -/
structure PerQueryDrive.Prompt (d : PerQueryDrive g) : Prop where
  solve : ∀ k F l, d.solve k F l ≠ .unknown
  clock : ∀ t, d.clock t < d.deadlineEpochMs

/-- If the pair is visited and not settled, then its formula is not too large. -/
def FitsAt (d : PerQueryDrive g) (s : PerQueryState g.n) (q : Fin g.n × Fin g.n) : Prop :=
  s.stopped = false → q.2 ≠ q.1 → ¬s.uf.view.Decided q.1 q.2 → ∀ cU s₁ cV s₂,
    colouringFor d (s.skip q.1 q.2).2.readClock q.1 = .ok (cU, s₁) →
    colouringFor d s₁ q.2 = .ok (cV, s₂) → tooLarge d cU cV = false

/-- What a query makes of the state. -/
theorem query_ok (hd : d.Sound) (hs : PerQueryInv d s) (hne : v ≠ u)
    (hU : (u, cU) ∈ s.colouringCache) (hV : (v, cV) ∈ s.colouringCache) :
    ∃ s', query d s cU cV u v = .ok s' ∧ PerQueryInv d s' ∧ Later s s' ∧ Accounted s' (u, v) ∧
      s'.stopped = s.stopped ∧ (d.Prompt → s'.unknown = s.unknown) := by
  have hcarry : ∀ α ∈ g.Aut, α u = v → ∀ i, cV (α i) = cU i := fun α hα huv =>
    hs.cached.carried hα (hd.base α hα) huv hne hU hV
  have hanswers := queryPerQueryCadical_answers defaultEdgeThreshold hcarry
    (hd.solve s.calls _ _)
  obtain ⟨s', hok, hsound, hlater, hacc, hcounts, hissued, hrej, hstop, hcache, hpool, hunk⟩ :=
    learn_ok (s := { s with
      issued := s.issued + 1
      calls := s.calls + 1
      perQueryVars := s.perQueryVars ++ [(buildPerQueryCadicalEncoding g (hashKeys cU) (hashKeys cV)
        defaultEdgeThreshold).2.numVars] }) hs.sound hanswers
  refine ⟨s', hok, ⟨hsound, ?_, ?_, hrej.trans hs.rejected⟩, ⟨hlater.knows, hlater.unknown⟩, hacc,
    hstop, fun hp => hunk ?_⟩
  · rw [hcache, hpool]; exact hs.cached
  · have := hs.counts; simp only at hcounts hissued; omega
  · unfold queryPerQueryCadical
    split
    · simp
    · split
      · simp
      · simp
      · rename_i h
        exact absurd h (hp.solve _ _ _)

/-- What `decidePair` makes of the state: it asks, or it passes a formula that is too large. -/
theorem decidePair_cases (hd : d.Sound) (hs : PerQueryInv d s) (hne : v ≠ u)
    (h : decidePair d s u v = .ok s') : ∃ cU s₁ cV s₂, colouringFor d s u = .ok (cU, s₁) ∧
      colouringFor d s₁ v = .ok (cV, s₂) ∧ PerQueryInv d s' ∧ Later s s' ∧
      s'.stopped = s.stopped ∧ (d.Prompt → s'.unknown = s.unknown) ∧
      (tooLarge d cU cV = true → s'.uf = s.uf) ∧
      (tooLarge d cU cV = false → Accounted s' (u, v)) := by
  obtain ⟨⟨cU, s₁⟩, hU, h⟩ := bind_ok h
  obtain ⟨⟨cV, s₂⟩, hV, h⟩ := bind_ok h
  obtain ⟨cache₁, pool₁, rfl, hc₁, hmemU, hkeep₁⟩ := colouringFor_cached hs.cached hU
  obtain ⟨cache₂, pool₂, rfl, hc₂, hmemV, hkeep₂⟩ := colouringFor_cached (s := { s with
    colouringCache := cache₁, pool := pool₁ }) hc₁ hV
  have hs₂ : PerQueryInv d { s with colouringCache := cache₂, pool := pool₂ } :=
    ⟨hs.sound, hc₂, hs.counts, hs.rejected⟩
  refine ⟨cU, _, cV, _, hU, hV, ?_⟩
  simp only at h
  split at h
  · rename_i hlarge
    cases h
    exact ⟨⟨hs.sound, hc₂, hs.counts, hs.rejected⟩, ⟨Knowledge.Le.refl _, le_refl _⟩, rfl,
      fun _ => rfl, fun _ => rfl, fun h => absurd (hlarge.symm.trans h) (by decide)⟩
  · rename_i hlarge
    obtain ⟨t, ht, hinv, hlater, hacc, hstop, hunk⟩ := query_ok hd hs₂ hne (hkeep₂ _ hmemU) hmemV
    cases ht.symm.trans h
    exact ⟨hinv, ⟨hlater.knows, hlater.unknown⟩, hstop, hunk, fun h => absurd h hlarge,
      fun _ => hacc⟩

variable {pairs : List (Fin g.n × Fin g.n)} {q : Fin g.n × Fin g.n}

omit [g.Simple] in
theorem Later.trans {s₁ s₂ s₃ : PerQueryState g.n} (h : Later s₁ s₂) (h' : Later s₂ s₃) :
    Later s₁ s₃ :=
  ⟨h.knows.trans h'.knows, h.unknown.trans h'.unknown⟩

theorem skip_inv (hs : PerQueryInv d s) (u v : Fin g.n) : PerQueryInv d (s.skip u v).2 ∧
    Later s (s.skip u v).2 ∧ (s.skip u v).2.stopped = s.stopped ∧
      (s.skip u v).2.unknown = s.unknown := by
  obtain ⟨uf, w, a, hview, hframe⟩ := s.skip_frame u v
  rw [hframe]
  exact ⟨⟨hview ▸ hs.sound, hs.cached, hs.counts, hs.rejected⟩,
    ⟨hview ▸ Knowledge.Le.refl _, le_refl _⟩, rfl, rfl⟩

/-- When the time is up every pair is accounted for. -/
theorem outOfTime_inv (hs : PerQueryInv d s) (pairs : List (Fin g.n × Fin g.n)) :
    PerQueryInv d (s.outOfTime pairs) ∧ Later s (s.outOfTime pairs) ∧
      ∀ p ∈ pairs, Accounted (s.outOfTime pairs) p := by
  obtain ⟨hrest, hall⟩ := PerQueryState.remaining_spec s.uf pairs
  refine ⟨⟨?_, hs.cached, ?_, hs.rejected⟩, ⟨?_, Nat.le_add_right _ _⟩, fun p hp => ?_⟩
  · exact hrest ▸ hs.sound
  · have := hs.counts
    simp only [PerQueryState.outOfTime]
    omega
  · exact hrest ▸ Knowledge.Le.refl _
  · refine (hall p hp).imp_right fun h => h.imp (fun h => ?_) fun h => ?_
    · exact hrest ▸ h
    · exact Nat.add_pos_right _ h

/-- What a visit can do: nothing, pass a settled pair, stop, or decide the pair. -/
theorem visit_cases (h : visit d pairs s q = .ok s') :
    ((s.stopped = true ∨ q.2 = q.1) ∧ s' = s) ∨
    s.stopped = false ∧ q.2 ≠ q.1 ∧
      ((s.uf.view.Decided q.1 q.2 ∧ s' = (s.skip q.1 q.2).2) ∨
      (d.deadlineEpochMs ≤ d.clock (s.skip q.1 q.2).2.clockReads ∧
        s' = (s.skip q.1 q.2).2.readClock.outOfTime pairs) ∨
      ¬s.uf.view.Decided q.1 q.2 ∧ decidePair d (s.skip q.1 q.2).2.readClock q.1 q.2 = .ok s') := by
  unfold visit at h
  split at h
  · exact Or.inl ⟨by assumption, (Except.ok.inj h).symm⟩
  rename_i hrun
  rw [not_or] at hrun
  refine Or.inr ⟨by simpa using hrun.1, hrun.2, ?_⟩
  have hknown := s.skip_iff q.1 q.2
  generalize s.skip q.1 q.2 = r at h hknown ⊢
  obtain ⟨known, t⟩ := r
  simp only at h hknown ⊢
  split at h
  · exact Or.inl ⟨hknown.mp (by assumption), (Except.ok.inj h).symm⟩
  · rename_i hk
    split at h
    · exact Or.inr (Or.inl ⟨by assumption, (Except.ok.inj h).symm⟩)
    · exact Or.inr (Or.inr ⟨hknown.not.mp hk, h⟩)

/-- What one visit preserves, and when it accounts for its pair. -/
theorem visit_inv (hd : d.Sound) (hs : PerQueryInv d s) (h : visit d pairs s q = .ok s') :
    PerQueryInv d s' ∧ Later s s' ∧ (s.stopped = true → s' = s) ∧
      (s'.stopped = true → s.stopped = true ∨ ∀ p ∈ pairs, Accounted s' p) ∧
      (s'.stopped = false → FitsAt d s q → Accounted s' q) ∧
      (d.Prompt → s'.unknown = s.unknown ∧ s'.stopped = s.stopped) := by
  obtain ⟨hs₁, hlater₁, hstop₁, hunk₁⟩ := skip_inv hs q.1 q.2
  have hs₂ : PerQueryInv d (s.skip q.1 q.2).2.readClock :=
    ⟨hs₁.sound, hs₁.cached, hs₁.counts, hs₁.rejected⟩
  rcases visit_cases h with ⟨hskip, rfl⟩ | ⟨hrun, hne, ⟨hdec, rfl⟩ | ⟨htime, rfl⟩ | ⟨hopen, hok⟩⟩
  · refine ⟨hs, ⟨Knowledge.Le.refl _, le_refl _⟩, fun _ => rfl, Or.inl, fun hrun _ => ?_,
      fun _ => ⟨rfl, rfl⟩⟩
    exact Or.inl (hskip.resolve_left (by simp [hrun]))
  · exact ⟨hs₁, hlater₁, fun h => absurd (hrun.symm.trans h) (by decide),
      fun h => Or.inl (hstop₁.symm.trans h), fun _ _ => hlater₁.accounted (Or.inr (Or.inl hdec)),
      fun _ => ⟨hunk₁, hstop₁⟩⟩
  · obtain ⟨hinv, hlater, hall⟩ := outOfTime_inv hs₂ pairs
    exact ⟨hinv, hlater₁.trans ⟨hlater.knows, hlater.unknown⟩,
      fun h => absurd (hrun.symm.trans h) (by decide), fun _ => Or.inr hall,
      fun hstop => absurd hstop (by simp [PerQueryState.outOfTime]),
      fun hp => absurd htime (not_le.mpr (hp.clock _))⟩
  · obtain ⟨cU, s₁, cV, s₂, hU, hV, hinv, hlater, hstop, hunk, -, hacc⟩ :=
      decidePair_cases hd hs₂ hne hok
    refine ⟨hinv, hlater₁.trans ⟨hlater.knows, hlater.unknown⟩,
      fun h => absurd (hrun.symm.trans h) (by decide), fun hs' => Or.inl ?_, fun _ hfits => ?_,
      fun hp => ⟨(hunk hp).trans hunk₁, hstop.trans hstop₁⟩⟩
    · exact hstop₁.symm.trans (hstop.symm.trans hs')
    · exact hacc (hfits hrun hne hopen cU s₁ cV s₂ hU hV)

/-! ### Driving a class -/

variable {members : List (Fin g.n)}

/-- A class that has been driven: what is recorded is true; without too large formulas every pair is
    accounted for; and without delays nothing is unknown. -/
theorem driveCell_spec (hd : d.Sound) (hs : PerQueryInv d s) (hrun : s.stopped = false)
    (h : driveCell d members s = .ok s') : PerQueryInv d s' ∧ Later s s' ∧
      (d.Prompt → s'.unknown = s.unknown) ∧
      (AtEachStep (visit d (orderedPairs members)) (FitsAt d) (orderedPairs members) s →
        ∀ u ∈ members, ∀ v ∈ members, Accounted s' (u, v)) := by
  have hinv := foldlM_inv (P := fun _ t => PerQueryInv d t ∧ Later s t ∧
      (d.Prompt → t.unknown = s.unknown)) (fun done q t t' ht hq => by
    obtain ⟨hinv, hlater, -, -, -, hprompt⟩ := visit_inv hd ht.1 hq
    exact ⟨hinv, ht.2.1.trans hlater, fun hp => (hprompt hp).1.trans (ht.2.2 hp)⟩)
    (orderedPairs members) [] s s' ⟨hs, ⟨Knowledge.Le.refl _, le_refl _⟩, fun _ => rfl⟩ h
  refine ⟨hinv.1, hinv.2.1, hinv.2.2, fun hfits u hu v hv => ?_⟩
  have hcover := foldlM_inv_of (P := fun done t => PerQueryInv d t ∧
      ∀ p ∈ if t.stopped then orderedPairs members else done, Accounted t p)
    (fun done q t t' ht hq hok => by
      obtain ⟨hinv, hlater, hstay, hstop, hfit, -⟩ := visit_inv hd ht.1 hok
      refine ⟨hinv, fun p hp => ?_⟩
      by_cases hstopped : t.stopped = true
      · -- the loop was left before
        rw [hstay hstopped, if_pos hstopped] at hp
        rw [hstay hstopped]
        exact ht.2 p (by rwa [if_pos hstopped])
      · have hold := ht.2
        rw [if_neg hstopped] at hold
        by_cases hstops : t'.stopped = true
        · rw [if_pos hstops] at hp
          exact (hstop hstops).elim (fun h => absurd h hstopped) fun hall => hall p hp
        · rw [if_neg hstops] at hp
          rcases List.mem_append.mp hp with hp | hp
          · exact hlater.accounted (hold p hp)
          · rw [List.mem_singleton.mp hp]
            exact hfit (by simpa using hstops) hq)
    (orderedPairs members) [] s s' ⟨hs, by simp [hrun]⟩ hfits h
  have hmem : (u, v) ∈ orderedPairs members := mem_orderedPairs.mpr ⟨hu, hv⟩
  refine hcover.2 (u, v) ?_
  split
  · exact hmem
  · exact List.mem_append_right _ hmem

/-- Every filter colouring returns. -/
def PerQueryDrive.Returns (d : PerQueryDrive g) : Prop :=
  ∀ u pool, ∃ r, perQueryColouring d.refine d.base u pool = .ok r

theorem colouringFor_ok (hret : d.Returns) (s : PerQueryState g.n) (w : Fin g.n) :
    ∃ r, colouringFor d s w = .ok r := by
  unfold colouringFor
  split
  · exact ⟨_, rfl⟩
  · obtain ⟨r, hr⟩ := hret w s.pool
    exact ⟨_, by rw [hr]; rfl⟩

theorem decidePair_ok (hd : d.Sound) (hret : d.Returns) (hs : PerQueryInv d s) (hne : v ≠ u) :
    ∃ s', decidePair d s u v = .ok s' := by
  obtain ⟨⟨cU, s₁⟩, hU⟩ := colouringFor_ok hret s u
  obtain ⟨⟨cV, s₂⟩, hV⟩ := colouringFor_ok hret s₁ v
  obtain ⟨cache₁, pool₁, rfl, hc₁, hmemU, -⟩ := colouringFor_cached hs.cached hU
  obtain ⟨cache₂, pool₂, rfl, hc₂, hmemV, hkeep₂⟩ := colouringFor_cached (s := { s with
    colouringCache := cache₁, pool := pool₁ }) hc₁ hV
  have hs₂ : PerQueryInv d { s with colouringCache := cache₂, pool := pool₂ } :=
    ⟨hs.sound, hc₂, hs.counts, hs.rejected⟩
  obtain ⟨t, ht, -⟩ := query_ok hd hs₂ hne (hkeep₂ _ hmemU) hmemV
  simp only [decidePair, hU, hV, Except.bind]
  split
  · exact ⟨_, rfl⟩
  · exact ⟨t, ht⟩

/-- A visit never throws. -/
theorem visit_ok (hd : d.Sound) (hret : d.Returns) (hs : PerQueryInv d s)
    (pairs : List (Fin g.n × Fin g.n)) (q : Fin g.n × Fin g.n) :
    ∃ s', visit d pairs s q = .ok s' := by
  unfold visit
  split
  · exact ⟨_, rfl⟩
  rename_i hrun
  rw [not_or] at hrun
  have hs₁ := (skip_inv hs q.1 q.2).1
  generalize s.skip q.1 q.2 = r at hs₁ ⊢
  obtain ⟨known, t⟩ := r
  simp only at hs₁ ⊢
  split
  · exact ⟨_, rfl⟩
  · split
    · exact ⟨_, rfl⟩
    · exact decidePair_ok hd hret ⟨hs₁.sound, hs₁.cached, hs₁.counts, hs₁.rejected⟩ hrun.2

theorem driveCell_ok (hd : d.Sound) (hret : d.Returns) (hs : PerQueryInv d s)
    (members : List (Fin g.n)) : ∃ s', driveCell d members s = .ok s' := by
  obtain ⟨s', hs', -⟩ := foldlM_ok (P := fun _ t => PerQueryInv d t)
    (fun _ q t _ ht => by
      obtain ⟨t', ht'⟩ := visit_ok hd hret ht (orderedPairs members) q
      exact ⟨t', ht', (visit_inv hd ht ht').1⟩)
    (orderedPairs members) [] s (fun _ h => h) hs
  exact ⟨s', hs'⟩

end Dialysis.Sat
