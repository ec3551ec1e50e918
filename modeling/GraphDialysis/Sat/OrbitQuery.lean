import GraphDialysis.Lib.Distance
import GraphDialysis.Sat.Encoder
import GraphDialysis.Sat.UnionFind

/-! `dialysis.sat.OrbitQuery`, `dialysis.sat.cadical.CadicalQuery` and
    `dialysis.sat.ImpliedDistanceClauses`: one query "does some automorphism map `u` to `v`?", the
    independent check of a claimed automorphism, what a driver does with a verified one, and the
    redundant distance clauses a worker may add to its encodings.

    The solver is not part of the model. `SolverResult.Correct` is what is assumed of it: SAT comes
    with an assignment that satisfies the clauses and the assumption, UNSAT means there is none,
    and UNKNOWN may be the answer to anything. -/

namespace Dialysis.Sat
open Lib Lib.Cnf Lib.Matrix Dialysis.Graph

/-- The result of a query; a timeout is `unknown`, never `unsat`. -/
inductive SatQueryResult (n : ℕ)
  | sat (alpha : Fin n → Option (Fin n))
  | unsat
  | unknown

/-- What a solver returns under one assumed literal. -/
inductive SolverResult
  | sat (value : ℕ → Bool)
  | unsat
  | unknown

/-- A correct answer about the clauses `F` under the assumption `l`. -/
def SolverResult.Correct (F : Formula) (l : ℤ) : SolverResult → Prop
  | .sat value => Models value F ∧ holds value l
  | .unsat => ∀ value, Models value F → ¬holds value l
  | .unknown => True

/-- Ask "does some automorphism map `u` to `v`?"; `solve` is what the solver returns if asked. -/
def queryOrbitMateCadical {g : Graph} (encoding : CadicalEncoding g) (u v : Fin g.n)
    (solve : SolverResult) : SatQueryResult g.n :=
  if encoding.varOf u v < 0 then .unsat
  else match solve with
    | .sat value => .sat (decodeModel encoding value)
    | .unsat => .unsat
    | .unknown => .unknown

/-! ### Implied distance clauses -/

/-- All-pairs shortest-path distances via one BFS per vertex; -1 if unreachable. -/
def computeAllPairsDistances (g : Graph) (src v : Fin g.n) : ℤ :=
  match Bfs.search g.adj g.n src with
  | some s => (s.label v).elim (-1) fun d => (d : ℤ)
  | none => -1

/-- Exact values up to `dmax`, one bucket for everything larger, one for unreachable. -/
def distanceBucket (d dmax : ℤ) : ℤ := if d < 0 then 2147483647 else if dmax < d then dmax + 1 else d

/-- `k` vertices from the smallest classes first, ties broken by vertex id. -/
def selectAnchors {n : ℕ} (groups : List (List (Fin n))) (k : ℤ) : List (Fin n) :=
  let ordered := groups.insertionSort fun a b =>
    a.length < b.length ∨
      (a.length = b.length ∧ (a.map (·.val)).min?.getD 0 ≤ (b.map (·.val)).min?.getD 0)
  ((ordered.flatMap fun group => group.insertionSort (· ≤ ·))).take k.toNat

/-- The columns that have a variable in the row of `v`. -/
def imagesOf {g : Graph} (encoding : CadicalEncoding g) (v : Fin g.n) : List (Fin g.n) :=
  (List.finRange g.n).filter fun j => 0 ≤ encoding.varOf v j

/-- `MAX_PAIRS_PER_ANCHOR`. -/
def maxPairsPerAnchor : ℤ := 100

/-- The added clauses: no image of `u` at the wrong distance from an image of an anchor. -/
def addImpliedDistanceClausesCadical (g : Graph) (encoding : CadicalEncoding g)
    (dist : Fin g.n → Fin g.n → ℤ) (dmax anchorK : ℤ) : Formula :=
  (List.finRange g.n).flatMap fun u =>
    let vImages := imagesOf encoding u
    if vImages.length ≤ 1 then [] else
      (selectAnchors encoding.groups anchorK).flatMap fun a =>
        let aImages := imagesOf encoding a
        if aImages = [] then []
        -- the product of the two sizes is a 32-bit one
        else if maxPairsPerAnchor < Int.bmod (vImages.length * aImages.length) (2 ^ 32) then []
        else vImages.flatMap fun v =>
          (aImages.filter fun ap =>
            distanceBucket (dist u a) dmax ≠ distanceBucket (dist v ap) dmax).map fun ap =>
              [-encoding.varOf u v, -encoding.varOf a ap]

/-- Automorphisms preserve distances. -/
theorem computeAllPairsDistances_aut {g : Graph} {α : Equiv.Perm (Fin g.n)} (hα : IsAut g α)
    (u v : Fin g.n) :
    computeAllPairsDistances g (α u) (α v) = computeAllPairsDistances g u v := by
  have hsearch : ∀ r, ∃ s, Bfs.search g.adj g.n r = some s := fun r =>
    Option.isSome_iff_exists.mp (Bfs.loop_anyLabel _ _)
  obtain ⟨s, hs⟩ := hsearch u
  obtain ⟨s', hs'⟩ := hsearch (α u)
  have hk : Fintype.card (Fin g.n) ≤ g.n := (Fintype.card_fin _).le
  have hlabel : s'.label (α v) = s.label v := by
    ext d
    rw [Bfs.search_iff hk hs', Bfs.search_iff hk hs, Bfs.isDist_map_iff α hα]
  simp only [computeAllPairsDistances, hs, hs', hlabel]

/-- The added clauses are entailed: they hold of every automorphism that is represented. -/
theorem models_impliedDistance {g : Graph} {encoding : CadicalEncoding g} {dmax anchorK : ℤ}
    {τ : ℕ → Bool} {α : Equiv.Perm (Fin g.n)} (hvar : ∀ i j, 0 ≤ encoding.varOf i j →
      0 < encoding.varOf i j) (hα : IsAut g α) (hrep : Represents encoding.varOf τ α) :
    Models τ (addImpliedDistanceClausesCadical g encoding (computeAllPairsDistances g) dmax
      anchorK) := by
  rw [addImpliedDistanceClausesCadical, models_flatMap]
  intro u _
  dsimp only
  split
  · exact models_nil τ
  · rw [models_flatMap]
    intro a _
    split_ifs
    · exact models_nil τ
    · exact models_nil τ
    · rw [models_flatMap]
      intro v hv
      rw [models_map]
      intro ap hap
      have huv := hvar u v (by simpa [imagesOf] using hv)
      have haap := hvar a ap (by simpa [imagesOf] using (List.mem_filter.mp hap).1)
      have hne := of_decide_eq_true (List.mem_filter.mp hap).2
      rw [satisfied_cons, satisfied_cons, holds_neg huv, holds_neg haap, hrep u v huv,
        hrep a ap haap]
      by_contra hc
      simp only [satisfied_nil, or_false, not_or, not_not] at hc
      refine hne ?_
      rw [← hc.1, ← hc.2, computeAllPairsDistances_aut hα]

/-- The distances are those of the graph; `-1` stands for pairs without a walk. -/
theorem computeAllPairsDistances_spec (g : Graph) (u v : Fin g.n) :
    (∀ d : ℕ, computeAllPairsDistances g u v = d ↔ Bfs.IsDist g.adj u v d) ∧
      (computeAllPairsDistances g u v = -1 ↔ ∀ k, ¬Bfs.Steps g.adj k u v) := by
  obtain ⟨s, hs⟩ : ∃ s, Bfs.search g.adj g.n u = some s :=
    Option.isSome_iff_exists.mp (Bfs.loop_anyLabel _ _)
  have hdist := Bfs.search_iff (Fintype.card_fin g.n).le hs v
  simp only [computeAllPairsDistances, hs]
  cases hl : s.label v with
  | none =>
    have hnone : ∀ d, ¬Bfs.IsDist g.adj u v d := fun d hd => by simpa [hl] using (hdist d).mpr hd
    refine ⟨fun d => ⟨fun h => ?_, fun h => absurd h (hnone d)⟩, fun _ k hk => ?_, fun _ => rfl⟩
    · rw [Option.elim_none] at h
      omega
    · obtain ⟨d, hd⟩ := Bfs.exists_isDist hk
      exact hnone d hd
  | some d₀ =>
    have hd₀ := (hdist d₀).mp hl
    rw [Option.elim_some]
    refine ⟨fun d => ⟨fun h => ?_, fun h => ?_⟩, fun h => ?_, fun h => absurd hd₀.1 (h d₀)⟩
    · rwa [← Int.ofNat_inj.mp h]
    · rw [Bfs.isDist_unique hd₀ h]
    · omega

/-- Adding the clauses changes nothing: every model satisfies them already. -/
theorem Encodes.impliedDistance_iff {g : Graph} {S : Formula × CadicalEncoding g}
    {Γ : Equiv.Perm (Fin g.n) → Prop} (h : Encodes S Γ) (hΓ : ∀ α, Γ α → IsAut g α)
    (dmax anchorK : ℤ) (τ : ℕ → Bool) :
    (Models τ S.1 →
      Models τ (addImpliedDistanceClausesCadical g S.2 (computeAllPairsDistances g) dmax anchorK)) ∧
    (Models τ (S.1 ++
      addImpliedDistanceClausesCadical g S.2 (computeAllPairsDistances g) dmax anchorK) ↔
        Models τ S.1) := by
  have hentails : Models τ S.1 →
      Models τ (addImpliedDistanceClausesCadical g S.2 (computeAllPairsDistances g) dmax anchorK) := by
    intro hm
    obtain ⟨α, hα, hrep⟩ := h.models.mp hm
    exact models_impliedDistance (fun _ _ => h.pos) (hΓ α hα) hrep
  refine ⟨hentails, ?_⟩
  rw [models_append]
  exact ⟨And.left, fun hm => ⟨hm, hentails hm⟩⟩

/-- The distances are right, and the clauses made from them are redundant in both encodings. -/
theorem impliedDistanceClauses_redundant {Colour : Type*} [DecidableEq Colour] (g : Graph)
    [g.Simple] (colorOf : Fin g.n → Colour) (edgeThreshold dmax anchorK : ℤ) :
    (∀ u v, (∀ d : ℕ, computeAllPairsDistances g u v = d ↔ Bfs.IsDist g.adj u v d) ∧
      (computeAllPairsDistances g u v = -1 ↔ ∀ k, ¬Bfs.Steps g.adj k u v)) ∧
    ∀ S, S = buildCadicalEncodingHybrid g edgeThreshold colorOf ∨
        buildCadicalEncodingSideSwapped g colorOf = some S → ∀ τ,
      (Models τ S.1 →
        Models τ (addImpliedDistanceClausesCadical g S.2 (computeAllPairsDistances g) dmax anchorK)) ∧
      (Models τ (S.1 ++
        addImpliedDistanceClausesCadical g S.2 (computeAllPairsDistances g) dmax anchorK) ↔
          Models τ S.1) := by
  refine ⟨fun u v => computeAllPairsDistances_spec g u v, ?_⟩
  rintro S (rfl | hS) τ
  · exact (encodes_hybrid edgeThreshold colorOf).impliedDistance_iff (fun _ hα => hα.1) dmax anchorK τ
  · exact (encodes_sideSwapped hS).impliedDistance_iff (fun _ hα => hα.1) dmax anchorK τ

/-- On two components 2 is out of reach of 0, and all models stay. -/
theorem impliedDistanceClauses_redundant_edge_and_vertex :
    computeAllPairsDistances (ofEdges 3 [(0, 1)]) (0 : Fin 3) (2 : Fin 3) = -1 ∧
      (¬Bfs.Steps (ofEdges 3 [(0, 1)]).adj 7 (0 : Fin 3) (2 : Fin 3)) ∧
      (Models (fun _ => false) ((buildCadicalEncodingHybrid (ofEdges 3 [(0, 1)]) 1024 fun _ => ()).1 ++
        addImpliedDistanceClausesCadical (ofEdges 3 [(0, 1)])
          (buildCadicalEncodingHybrid (ofEdges 3 [(0, 1)]) 1024 fun _ => ()).2
          (computeAllPairsDistances (ofEdges 3 [(0, 1)])) 3 8) ↔
        Models (fun _ => false) (buildCadicalEncodingHybrid (ofEdges 3 [(0, 1)]) 1024 fun _ => ()).1) := by
  have h := impliedDistanceClauses_redundant (ofEdges 3 [(0, 1)]) (fun _ => ()) 1024 3 8
  have hfar : computeAllPairsDistances (ofEdges 3 [(0, 1)]) (0 : Fin 3) (2 : Fin 3) = -1 := by
    decide +kernel
  exact ⟨hfar, (h.1 _ _).2.mp hfar 7, (h.2 _ (Or.inl rfl) _).2⟩

/-- `r` is what a query about `(u, v)` can return when the solver answers correctly. -/
def QueryAnswers {g : Graph} (S : Formula × CadicalEncoding g) (u v : Fin g.n)
    (r : SatQueryResult g.n) : Prop :=
  ∃ solve : SolverResult, solve.Correct S.1 (S.2.varOf u v) ∧ r = queryOrbitMateCadical S.2 u v solve

/-- `r` is a correct answer about the members of a set of permutations. -/
def SatQueryResult.Answers {n : ℕ} (Γ : Equiv.Perm (Fin n) → Prop) (u v : Fin n) :
    SatQueryResult n → Prop
  | .sat alpha => ∃ α, Γ α ∧ α u = v ∧ alpha = fun w => some (α w)
  | .unsat => ∀ α, Γ α → α u ≠ v
  | .unknown => True

/-- A model that a query returns is a member that maps the one vertex to the other, whatever else the
    solver may say. -/
theorem Encodes.witness {g : Graph} {S : Formula × CadicalEncoding g}
    {Γ : Equiv.Perm (Fin g.n) → Prop} (h : Encodes S Γ) {u v : Fin g.n} {solve : SolverResult}
    (hsolve : ∀ value, solve = .sat value → Models value S.1 ∧ holds value (S.2.varOf u v))
    {alpha : Fin g.n → Option (Fin g.n)} (hq : queryOrbitMateCadical S.2 u v solve = .sat alpha) :
    ∃ α, Γ α ∧ α u = v ∧ alpha = fun w => some (α w) := by
  unfold queryOrbitMateCadical at hq
  split at hq
  · cases hq
  · rename_i hneg
    have hpos := h.pos (not_lt.mp hneg)
    cases solve with
    | sat value =>
      cases hq
      obtain ⟨hm, hholds⟩ := hsolve value rfl
      obtain ⟨α, hα, hrep⟩ := h.models.mp hm
      exact ⟨α, hα, (hrep u v hpos).mp hholds, h.decodes hα hrep⟩
    | unsat => cases hq
    | unknown => cases hq

/-- Queries to a correct solver over a correct encoding are answered correctly. -/
theorem Encodes.answers {g : Graph} {S : Formula × CadicalEncoding g}
    {Γ : Equiv.Perm (Fin g.n) → Prop} (h : Encodes S Γ) {u v : Fin g.n} {r : SatQueryResult g.n}
    (hr : QueryAnswers S u v r) : r.Answers Γ u v := by
  obtain ⟨solve, hsolve, rfl⟩ := hr
  cases hq : queryOrbitMateCadical S.2 u v solve with
  | sat alpha => exact h.witness (fun value he => by rwa [he] at hsolve) hq
  | unsat =>
    rintro α hα rfl
    unfold queryOrbitMateCadical at hq
    split at hq
    · have := h.inside hα u
      omega
    · rename_i hneg
      have hpos := h.pos (not_lt.mp hneg)
      cases solve with
      | sat value => cases hq
      | unsat =>
        obtain ⟨τ, hτ⟩ := h.assignment hα
        exact hsolve τ (h.models.mpr ⟨α, hα, hτ⟩) ((hτ u (α u) hpos).mpr rfl)
      | unknown => cases hq
  | unknown => trivial

/-- Independent check of a claimed automorphism against the edges of the graph. -/
def verifyAutomorphism (g : Graph) (alpha : Fin g.n → Option (Fin g.n)) : Bool :=
  decide (∀ v, alpha v ≠ none) && decide ((Finset.univ.image alpha).card = g.n) &&
    decide (∀ u, ((g.adj u).map alpha).toFinset =
      ((alpha u).elim [] fun x => (g.adj x).map some).toFinset)

/-- The check accepts exactly the automorphisms. -/
theorem verifyAutomorphism_iff {g : Graph} {alpha : Fin g.n → Option (Fin g.n)} :
    verifyAutomorphism g alpha = true ↔ ∃ α, IsAut g α ∧ alpha = fun v => some (α v) := by
  simp only [verifyAutomorphism, Bool.and_eq_true, decide_eq_true_eq]
  constructor
  · rintro ⟨⟨hdef, hcard⟩, hadj⟩
    choose f hf using fun v => Option.ne_none_iff_exists'.mp (hdef v)
    have hinj : Function.Injective f := by
      have hon := Finset.card_image_iff.mp (hcard.trans (Finset.card_fin _).symm)
      intro v w h
      exact hon (by simp) (by simp) (by rw [hf, hf, h])
    refine ⟨Equiv.ofBijective f (Finite.injective_iff_bijective.mp hinj), fun u w => ?_,
      funext hf⟩
    have hmem : some (f w) ∈ ((g.adj u).map alpha).toFinset ↔ w ∈ g.adj u := by
      rw [List.mem_toFinset, List.mem_map]
      constructor
      · rintro ⟨x, hx, he⟩
        rw [hf] at he
        exact hinj (Option.some.inj he) ▸ hx
      · intro hw; exact ⟨w, hw, hf w⟩
    rw [← hmem, hadj u, hf u]
    simp
  · rintro ⟨α, hα, rfl⟩
    refine ⟨⟨fun v => by simp, ?_⟩, fun u => ?_⟩
    · have hinj : Function.Injective fun v => some (α v) :=
        (Option.some_injective _).comp α.injective
      rw [Finset.card_image_of_injective _ hinj, Finset.card_fin]
    · ext x
      simp only [List.mem_toFinset, List.mem_map, Option.elim_some]
      constructor
      · rintro ⟨w, hw, rfl⟩; exact ⟨α w, (hα u w).mp hw, rfl⟩
      · rintro ⟨y, hy, rfl⟩
        exact ⟨α.symm y, (hα u _).mpr (by rwa [α.apply_symm_apply]), by rw [α.apply_symm_apply]⟩

/-- A verified witness closes every pair it connects: `for (w in 0 until n) uf.union(w, alpha[w])`. -/
def applyWitness {n : ℕ} (uf : SeparatingUnionFind n) (alpha : Fin n → Option (Fin n)) :
    Except String (SeparatingUnionFind n) :=
  (List.finRange n).foldlM
    (fun uf w => match alpha w with
      | some x => uf.union w x
      | none => .error "Index -1 out of bounds") uf

section Learning
variable {n : ℕ} {r : Fin n → Fin n → Prop} {uf : SeparatingUnionFind n}

/-- A witness of true pairs is never refused, and afterwards all its pairs are known. -/
theorem applyWitness_ok (hr : Equivalence r) (hs : uf.view.Sound r) {alpha : Fin n → Option (Fin n)}
    {f : Fin n → Fin n} (hf : alpha = fun w => some (f w)) (hrf : ∀ w, r w (f w)) :
    ∃ uf', applyWitness uf alpha = .ok uf' ∧ uf'.view.Sound r ∧ uf.view.Le uf'.view ∧
      ∀ w, uf'.view.mates w (f w) := by
  subst hf
  have key : ∀ (ws : List (Fin n)) (uf : SeparatingUnionFind n), uf.view.Sound r →
      ∃ uf', ws.foldlM (fun uf w => uf.union w (f w)) uf = .ok uf' ∧ uf'.view.Sound r ∧
        uf.view.Le uf'.view ∧ ∀ w ∈ ws, uf'.view.mates w (f w) := by
    intro ws
    induction ws with
    | nil => intro uf hs; exact ⟨uf, rfl, hs, Knowledge.Le.refl _, by simp⟩
    | cons w ws ih =>
      intro uf hs
      obtain ⟨uf₁, h₁, hview⟩ := uf.union_ok (hs.not_apart (hrf w))
      have hs₁ : uf₁.view.Sound r := hview ▸ Knowledge.sound_join hr hs (hrf w)
      obtain ⟨uf', h', hs', hle, hall⟩ := ih uf₁ hs₁
      refine ⟨uf', by rw [List.foldlM_cons, h₁]; exact h', hs', ?_, fun x hx => ?_⟩
      · exact (hview ▸ Knowledge.le_join _ : uf.view.Le uf₁.view).trans hle
      · rcases List.mem_cons.mp hx with rfl | hx
        · exact hle.mates (hview ▸ Knowledge.mates_join _)
        · exact hall x hx
  obtain ⟨uf', h', hs', hle, hall⟩ := key (List.finRange n) uf hs
  exact ⟨uf', h', hs', hle, fun w => hall w (List.mem_finRange w)⟩

/-- A true separation is never refused. -/
theorem markSeparated_sound (hr : Equivalence r) (hs : uf.view.Sound r) {a b : Fin n}
    (hab : ¬r a b) : ∃ uf', uf.markSeparated a b = .ok uf' ∧ uf'.view.Sound r ∧
      uf.view.Le uf'.view ∧ uf'.view.apart a b := by
  obtain ⟨uf', h', hview⟩ := uf.markSeparated_ok (hs.not_mates hab)
  exact ⟨uf', h', hview ▸ Knowledge.sound_separate hr hs hab, hview ▸ Knowledge.le_separate _,
    hview ▸ Knowledge.apart_separate _⟩

end Learning

end Dialysis.Sat
