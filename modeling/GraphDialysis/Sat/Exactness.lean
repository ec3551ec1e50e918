import GraphDialysis.Sat.ParallelInvariant

/-! When the driven classes are the orbits. First for any encodings and any group whose orbit-mates
    are admissible pairs (`orbitDrivers_correct`): both drivers are sound, complete when nothing is
    left unknown, and independent of the schedule. Then for the encodings the benchmark runner
    builds. Together they cover the automorphisms that keep all sides and those that change all
    sides; on a graph with several components there are others. `cadicalGlobal_exact_iff` and
    `cryptoMiniSatGlobal_exact_iff` say exactly when none of those matters, and the two-component
    graph and the single edge are certified wrongly. -/

namespace Dialysis.Sat
open Lib Lib.Cnf Dialysis.Graph
variable {Colour : Type*} {g : Graph}

/-! ### Any encodings, any group -/

/-- Classes that list every vertex once and never join different orbits or colours. -/
structure OrbitClasses (Γ : Subgroup (Equiv.Perm (Fin g.n))) (colorOf : Fin g.n → Colour)
    (classes : List (List (Fin g.n))) : Prop where
  once : classes.flatten.Perm (List.finRange g.n)
  orbit : ∀ a b, SameClass classes a b → OrbitMates Γ a b
  colour : ∀ a b, SameClass classes a b → colorOf a = colorOf b

theorem colorOf_eq_of_orbitMates {Γ : Subgroup (Equiv.Perm (Fin g.n))} {colorOf : Fin g.n → Colour}
    (hcol : ∀ α ∈ Γ, PreservesColour colorOf α) {a b : Fin g.n} (h : OrbitMates Γ a b) :
    colorOf a = colorOf b := by
  obtain ⟨α, hα, rfl⟩ := h
  exact (hcol α hα a).symm

/-- A sequential drive over correct answers. -/
theorem sequential_correct {Γ : Subgroup (Equiv.Perm (Fin g.n))} {colorOf : Fin g.n → Colour}
    (hΓ : Γ ≤ g.Aut) (hcol : ∀ α ∈ Γ, PreservesColour colorOf α)
    (ask : ℕ → PendingPair g.n → SatQueryResult g.n) (queue : List (PendingPair g.n))
    (hask : ∀ q ∈ queue, ∀ k, (ask k q).Answers (· ∈ Γ) q.u q.v)
    (hqueue : ∀ u v, v ≠ u → OrbitMates Γ u v → ∃ q ∈ queue, q.u = u ∧ q.v = v) :
    ∃ res, driveQueue g ask queue = .ok res ∧ OrbitClasses Γ colorOf res.orbits ∧
      res.queriesSat + res.queriesUnsat + res.queriesUnknown = res.queriesIssued ∧
      (res.queriesUnknown = 0 → ∀ a b, SameClass res.orbits a b ↔ OrbitMates Γ a b) := by
  obtain ⟨res, uf, hok, horbits, hsound, hcounts, hdec⟩ := driveQueue_spec hΓ hask
  have hsame : ∀ a b, SameClass res.orbits a b ↔ uf.view.mates a b := by
    intro a b
    rw [horbits, sameClass_groups]
    simp [SeparatingUnionFind.mates_view]
  refine ⟨res, hok, ⟨?_, fun a b h => ?_, fun a b h => ?_⟩, hcounts, fun hunk a b => ?_⟩
  · rw [horbits]; exact flatten_groups_perm _ (List.nodup_finRange _)
  · exact hsound.mates ((hsame a b).mp h)
  · exact colorOf_eq_of_orbitMates hcol (hsound.mates ((hsame a b).mp h))
  · rw [hsame]
    refine hsound.exact (fun u v huv => ?_) a b
    rcases eq_or_ne v u with rfl | hne
    · exact Or.inl (uf.view.equiv.refl v)
    · obtain ⟨q, hq, rfl, rfl⟩ := hqueue u v hne huv
      exact (hdec q hq).resolve_right (by omega)

/-- An admissible pair is on the queue of the sequential driver. -/
theorem exists_collected {cfg : ParallelConfig g} {u v : Fin g.n} (hne : v ≠ u)
    (h : cfg.AdmissiblePair u v) :
    ∃ q ∈ collect cfg.preserve false ++ cfg.swap.elim [] fun e => collect e true,
      q.u = u ∧ q.v = v := by
  rcases h with h | ⟨e, he, h, hvar⟩
  · exact ⟨⟨u, v, false⟩, List.mem_append_left _ (mem_collect.mpr ⟨rfl, hne, by simp, h⟩), rfl, rfl⟩
  · refine ⟨⟨u, v, true⟩, List.mem_append_right _ ?_, rfl, rfl⟩
    rw [he]
    exact mem_collect.mpr ⟨rfl, hne, fun _ => hvar, h⟩

/-- Soundness, completeness and schedule-independence of both drivers: for any encodings and any
    group of colour-preserving automorphisms whose distinct orbit-mates are admissible pairs, with
    answers that are correct about the group. -/
theorem orbitDrivers_correct (cfg : ParallelConfig g) (colorOf : Fin g.n → Colour)
    (Γ : Subgroup (Equiv.Perm (Fin g.n))) (hΓ : Γ ≤ g.Aut)
    (hcol : ∀ α ∈ Γ, PreservesColour colorOf α)
    (hadm : ∀ u v, v ≠ u → OrbitMates Γ u v → cfg.AdmissiblePair u v) :
    (∀ ask : ℕ → PendingPair g.n → SatQueryResult g.n,
      (∀ k q, (ask k q).Answers (· ∈ Γ) q.u q.v) →
      ∃ res, driveToOrbitsCadical cfg.preserve cfg.swap ask = .ok res ∧
        OrbitClasses Γ colorOf res.orbits ∧
        res.queriesSat + res.queriesUnsat + res.queriesUnknown = res.queriesIssued ∧
        (res.queriesUnknown = 0 → ∀ a b, SameClass res.orbits a b ↔ OrbitMates Γ a b)) ∧
    ∀ Answer : PendingPair g.n → SatQueryResult g.n → Prop,
      (∀ q r, Answer q r → r.Answers (· ∈ Γ) q.u q.v) →
      ∀ (k : ℕ) (s : System g.n k), 0 < k → Reachable cfg Answer s →
        ¬Throws cfg Answer s ∧
        s.result.sat + s.result.unsat + s.result.unknown = s.result.queriesIssued ∧
        (s.Finished →
          OrbitClasses Γ colorOf s.result.orbits ∧
          (∀ idx < cfg.queue.length, ∃ i, (∀ j, idx ∈ (s.workers j).claimed ↔ j = i) ∧
            (s.workers i).claimed.count idx = 1) ∧
          (s.result.unknown = 0 →
            (∀ a b, SameClass s.result.orbits a b ↔ OrbitMates Γ a b) ∧
            ∀ (k' : ℕ) (s' : System g.n k'), 0 < k' → Reachable cfg Answer s' → s'.Finished →
              s'.result.unknown = 0 →
              ∀ a b, SameClass s'.result.orbits a b ↔ SameClass s.result.orbits a b)) := by
  refine ⟨fun ask hask => ?_, fun Answer hA k s hk hs => ?_⟩
  · exact sequential_correct hΓ hcol _ _ (fun q _ k => hask k q)
      fun u v hne huv => exists_collected hne (hadm u v hne huv)
  · have hA' : CorrectAnswers cfg Γ Answer := fun _ q _ r => hA q r
    have hinv := reachable_inv hΓ hA' hs
    refine ⟨reachable_not_throws hΓ hA' hs, result_counts hinv, fun hf => ?_⟩
    have horbit : ∀ a b, SameClass s.result.orbits a b → OrbitMates Γ a b := fun a b h =>
      hinv.sound.mates ((sameClass_result hinv hf hk hadm a b).mp h)
    refine ⟨⟨result_perm s, horbit, fun a b h => colorOf_eq_of_orbitMates hcol (horbit a b h)⟩,
      fun idx hidx => finished_claimed hinv hf hk hidx, fun hunk => ?_⟩
    have hexact := result_exact hinv hf hk hadm hunk
    refine ⟨hexact, fun k' s' hk' hs' hf' hunk' a b => ?_⟩
    rw [hexact, result_exact (reachable_inv hΓ hA' hs') hf' hk' hadm hunk']

/-- On a triangle with one colour all six automorphisms qualify, whatever the solver answers. -/
theorem orbitDrivers_correct_triangle :
    ∃ res, driveToOrbitsCadical
      (buildCadicalEncodingHybrid (Graph.ofEdges 3 [(0, 1), (0, 2), (1, 2)]) 1024 fun _ => ()).2 none
      (fun _ _ => .unknown) = .ok res ∧
      res.queriesSat + res.queriesUnsat + res.queriesUnknown = res.queriesIssued := by
  have hpairs : ∀ u v : Fin (Graph.ofEdges 3 [(0, 1), (0, 2), (1, 2)]).n, SameClass
      (buildCadicalEncodingHybrid (Graph.ofEdges 3 [(0, 1), (0, 2), (1, 2)]) 1024
        fun _ => ()).2.groups u v := by decide
  obtain ⟨res, hres, -, hcounts, -⟩ := (orbitDrivers_correct
    ⟨(buildCadicalEncodingHybrid (Graph.ofEdges 3 [(0, 1), (0, 2), (1, 2)]) 1024 fun _ => ()).2, none⟩
    (fun _ => ()) (Graph.ofEdges 3 [(0, 1), (0, 2), (1, 2)]).Aut (le_refl _) (fun _ _ _ => rfl)
    fun u v _ _ => Or.inl (hpairs u v)).1 (fun _ _ => .unknown) fun _ _ => trivial
  exact ⟨res, hres, hcounts⟩

/-! ### The encodings of the benchmark runner -/

section Runner
variable [DecidableEq Colour]

/-- The group of the colour-preserving automorphisms that keep all sides. -/
def keepGroup (g : Graph) (colorOf : Fin g.n → Colour) : Subgroup (Equiv.Perm (Fin g.n)) where
  carrier := {α | IsAut g α ∧ PreservesColour colorOf α ∧ KeepsSides g α}
  one_mem' := ⟨g.Aut.one_mem, fun _ => rfl, fun _ => rfl⟩
  mul_mem' := fun {α β} hα hβ => ⟨g.Aut.mul_mem hα.1 hβ.1,
    fun v => (hα.2.1 (β v)).trans (hβ.2.1 v), fun v => (hα.2.2 (β v)).trans (hβ.2.2 v)⟩
  inv_mem' := fun {α} hα => ⟨g.Aut.inv_mem hα.1,
    fun v => by have := hα.2.1 (α.symm v); rw [α.apply_symm_apply] at this; exact this.symm,
    fun v => by have := hα.2.2 (α.symm v); rw [α.apply_symm_apply] at this; exact this.symm⟩

omit [DecidableEq Colour] in
theorem mem_keepGroup {colorOf : Fin g.n → Colour} {α : Equiv.Perm (Fin g.n)} :
    α ∈ keepGroup g colorOf ↔ IsAut g α ∧ PreservesColour colorOf α ∧ KeepsSides g α := Iff.rfl

/-- Which of two sides, relative to a first one: an automorphism that changes all sides does so
    twice when applied twice. -/
theorem fin2_ne_trans {a b c : Fin 2} (h : a ≠ b) (h' : b ≠ c) : a = c := by
  revert a b c; decide

/-- The group of the colour-preserving automorphisms that keep all sides or change all sides. -/
def sideGroup (g : Graph) (colorOf : Fin g.n → Colour) : Subgroup (Equiv.Perm (Fin g.n)) where
  carrier := {α | IsAut g α ∧ PreservesColour colorOf α ∧ (KeepsSides g α ∨ SwapsSides g α)}
  one_mem' := ⟨g.Aut.one_mem, fun _ => rfl, Or.inl fun _ => rfl⟩
  mul_mem' := by
    rintro α β ⟨hα, hcα, hsα⟩ ⟨hβ, hcβ, hsβ⟩
    refine ⟨g.Aut.mul_mem hα hβ, fun v => (hcα (β v)).trans (hcβ v), ?_⟩
    rcases hsα with hα | hα <;> rcases hsβ with hβ | hβ
    · exact Or.inl fun v => (hα (β v)).trans (hβ v)
    · exact Or.inr fun v => by rw [Equiv.Perm.mul_apply, hα]; exact hβ v
    · exact Or.inr fun v => by rw [Equiv.Perm.mul_apply, ← hβ v]; exact hα (β v)
    · exact Or.inl fun v => fin2_ne_trans (hα (β v)) (hβ v)
  inv_mem' := by
    rintro α ⟨hα, hcα, hsα⟩
    refine ⟨g.Aut.inv_mem hα, fun v => ?_, hsα.imp (fun hs v => ?_) fun hs v => ?_⟩
    · have := hcα (α.symm v); rw [α.apply_symm_apply] at this; exact this.symm
    · have := hs (α.symm v); rw [α.apply_symm_apply] at this; exact this.symm
    · have := hs (α.symm v); rw [α.apply_symm_apply] at this; exact this.symm

omit [DecidableEq Colour] in
theorem mem_sideGroup {colorOf : Fin g.n → Colour} {α : Equiv.Perm (Fin g.n)} :
    α ∈ sideGroup g colorOf ↔
      IsAut g α ∧ PreservesColour colorOf α ∧ (KeepsSides g α ∨ SwapsSides g α) := Iff.rfl

/-- The two encodings of `driveToOrbitsCadicalParallel`. -/
def ParallelConfig.ofColouring (g : Graph) (edgeThreshold : ℤ) (colorOf : Fin g.n → Colour) :
    ParallelConfig g :=
  ⟨(buildCadicalEncodingHybrid g edgeThreshold colorOf).2,
    (buildCadicalEncodingSideSwapped g colorOf).map (·.2)⟩

/-- The driver reads the queue off the groups alone, without building an encoding. -/
theorem queue_ofColouring (edgeThreshold : ℤ) (colorOf : Fin g.n → Colour) :
    (ParallelConfig.ofColouring g edgeThreshold colorOf).queue =
      workQueue (computePreserveGroups g colorOf) (computeSwapGroups g colorOf) := by
  have hswap : ((buildCadicalEncodingSideSwapped g colorOf).map (·.2)).map (·.groups) =
      computeSwapGroups g colorOf := by
    rw [buildCadicalEncodingSideSwapped]
    cases computeSwapGroups g colorOf <;> rfl
  simp only [ParallelConfig.queue, ParallelConfig.ofColouring, hswap]
  rfl

/-- `min(workers, max(queue.size, 1))` threads. -/
def effectiveWorkers (workers : ℕ) (queue : List WorkUnit) : ℕ := min workers (max queue.length 1)

theorem effectiveWorkers_pos {workers : ℕ} (h : 1 ≤ workers) (queue : List WorkUnit) :
    0 < effectiveWorkers workers queue := by unfold effectiveWorkers; omega

/-- The distance clauses of the ablation: which options are on, and their bounds. -/
structure ImpliedOptions where
  useImpliedDistanceClauses : Bool
  dmax : ℤ
  anchorK : ℤ

/-- The clauses a worker's solver holds. -/
def withImplied (opts : ImpliedOptions) (S : Formula × CadicalEncoding g) :
    Formula × CadicalEncoding g :=
  if opts.useImpliedDistanceClauses then
    (S.1 ++ addImpliedDistanceClausesCadical g S.2 (computeAllPairsDistances g) opts.dmax opts.anchorK,
      S.2)
  else S

theorem Encodes.withImplied {S : Formula × CadicalEncoding g} {P : Equiv.Perm (Fin g.n) → Prop}
    (h : Encodes S P) (hP : ∀ α, P α → IsAut g α) (opts : ImpliedOptions) :
    Encodes (withImplied opts S) P := by
  unfold Dialysis.Sat.withImplied
  split
  · exact h.append fun hα hrep => models_impliedDistance (fun _ _ => h.pos) (hP _ hα) hrep
  · exact h

/-- What a correct solver can answer to a worker's query. -/
def GlobalAnswer (edgeThreshold : ℤ) (opts : ImpliedOptions) (colorOf : Fin g.n → Colour)
    (q : PendingPair g.n) (r : SatQueryResult g.n) : Prop :=
  if q.swapped then ∃ S, buildCadicalEncodingSideSwapped g colorOf = some S ∧
    QueryAnswers (withImplied opts S) q.u q.v r
  else QueryAnswers (withImplied opts (buildCadicalEncodingHybrid g edgeThreshold colorOf)) q.u q.v r

variable {edgeThreshold : ℤ} {opts : ImpliedOptions} {colorOf : Fin g.n → Colour}

theorem side_eq_of_sameClass {u v : Fin g.n} (h : SameClass (computePreserveGroups g colorOf) u v) :
    g.side u = g.side v := by
  have := (sameClass_groups.mp h).2.2
  simp only [Prod.mk.injEq] at this
  exact this.2.2

/-- A correct solver's answers are correct about the automorphisms of both kinds together: two
    vertices on one side can only be exchanged by an automorphism that keeps sides, two on
    different sides only by one that changes them. -/
theorem globalAnswer_correct [g.Simple] :
    CorrectAnswers (ParallelConfig.ofColouring g edgeThreshold colorOf) (sideGroup g colorOf)
      (GlobalAnswer edgeThreshold opts colorOf) := by
  intro idx q hq r hr
  have hside := mem_unitPairs hq
  unfold GlobalAnswer at hr
  have widen : ∀ {P : Equiv.Perm (Fin g.n) → Prop}, r.Answers P q.u q.v →
      (∀ α, P α → α ∈ sideGroup g colorOf) →
      (∀ α, α ∈ sideGroup g colorOf → α q.u = q.v → P α) →
      r.Answers (· ∈ sideGroup g colorOf) q.u q.v := by
    intro P hP hsub hback
    cases r with
    | sat alpha => obtain ⟨α, hα, h⟩ := hP; exact ⟨α, hsub α hα, h⟩
    | unsat => exact fun α hα he => hP α (hback α hα he) he
    | unknown => trivial
  by_cases hsw : q.swapped = true
  · rw [if_pos hsw] at hr hside
    obtain ⟨S, hS, hr⟩ := hr
    obtain ⟨e, he, -, hvar⟩ := hside
    obtain rfl : S.2 = e := by simpa [ParallelConfig.ofColouring, hS] using he
    have hneq : g.side q.v ≠ g.side q.u := by
      obtain ⟨groups, hg, rfl⟩ := Option.map_eq_some_iff.mp hS
      exact (mem_swapImages.mp ((mem_swapPairs hg).mp (Lib.Matrix.varOf_nonneg_iff.mp hvar))).2
    refine widen (((encodes_sideSwapped hS).withImplied (fun _ h => h.1) opts).answers hr)
      (fun α h => ⟨h.1, h.2.1, Or.inr h.2.2⟩) fun α h he => ⟨h.1, h.2.1, h.2.2.resolve_left ?_⟩
    intro hk
    exact hneq (he ▸ hk q.u)
  · rw [if_neg hsw] at hr hside
    have heq := side_eq_of_sameClass hside
    refine widen (((encodes_hybrid edgeThreshold colorOf).withImplied (fun _ h => h.1) opts).answers hr)
      (fun α h => ⟨h.1, h.2.1, Or.inl h.2.2⟩) fun α h he => ⟨h.1, h.2.1, h.2.2.resolve_right ?_⟩
    intro hs
    exact hs q.u (by rw [he, heq])

/-- Orbit-mates under an automorphism that keeps sides are in one class of the first encoding. -/
theorem sameClass_of_keeps [g.Simple] {α : Equiv.Perm (Fin g.n)} (hα : IsAut g α)
    (hcol : PreservesColour colorOf α) {v : Fin g.n} (hside : g.side (α v) = g.side v) :
    SameClass (computePreserveGroups g colorOf) v (α v) :=
  sameClass_groups.mpr ⟨List.mem_finRange _, List.mem_finRange _, by
    rw [hcol v, hα.degree v, hside]⟩

theorem sideGroup_admissible [g.Simple] {u v : Fin g.n} (huv : OrbitMates (sideGroup g colorOf) u v) :
    (ParallelConfig.ofColouring g edgeThreshold colorOf).AdmissiblePair u v := by
  obtain ⟨α, ⟨hα, hcol, hside⟩, rfl⟩ := huv
  rcases hside with hside | hside
  · exact Or.inl (sameClass_of_keeps hα hcol (hside u))
  · right
    cases hS : buildCadicalEncodingSideSwapped g colorOf with
    | none => exact absurd hside (not_swapsSides_of_none (Fin.pos u) hS)
    | some S =>
      have hin := (encodes_sideSwapped hS).inside ⟨hα, hcol, hside⟩ u
      refine ⟨S.2, by simp [ParallelConfig.ofColouring, hS], ?_, hin.le⟩
      obtain ⟨groups, hg, rfl⟩ := Option.map_eq_some_iff.mp hS
      obtain ⟨members, hm, hu, hv, -⟩ := mem_crossPairs.mp (Lib.Matrix.varOf_pos_iff.mp hin)
      exact ⟨members, hm, hu, hv⟩

/-! ### When the certificate is right -/

/-- The second encoding covers what the first leaves out: every automorphism keeps all sides, or
    some automorphism changes all sides at once. -/
def SidesCovered (g : Graph) : Prop :=
  (∀ α, IsAut g α → KeepsSides g α) ∨ ∃ α, IsAut g α ∧ SwapsSides g α

omit [DecidableEq Colour] in
/-- Orbit-mates on one side are mates of an automorphism that keeps all sides. -/
theorem keepGroup_of_side_eq [g.Simple] (hcol : ∀ α, IsAut g α → PreservesColour colorOf α)
    {α : Equiv.Perm (Fin g.n)} (hα : IsAut g α) {v : Fin g.n} (hside : g.side (α v) = g.side v) :
    OrbitMates (keepGroup g colorOf) v (α v) := by
  by_cases hb : g.bipartition = none
  · exact ⟨α, ⟨hα, hcol α hα, fun x => by rw [side_of_none hb, side_of_none hb]⟩, rfl⟩
  · obtain ⟨β, hβ, hkeep, he⟩ := exists_keeps_sides hb hα hside
    exact ⟨β, ⟨hβ, hcol β hβ, hkeep⟩, he⟩

omit [DecidableEq Colour] in
/-- When the orbits of the two kinds of automorphisms together are all the orbits. -/
theorem sideGroup_orbits_iff [g.Simple] (hcol : ∀ α, IsAut g α → PreservesColour colorOf α) :
    (∀ a b, OrbitMates (sideGroup g colorOf) a b ↔ OrbitMates g.Aut a b) ↔ SidesCovered g := by
  constructor
  · intro h
    by_contra hn
    obtain ⟨hkeep, hswap⟩ := not_or.mp hn
    push Not at hkeep
    obtain ⟨α, hα, hmoves⟩ := hkeep
    obtain ⟨v, hv⟩ := not_forall.mp hmoves
    obtain ⟨β, ⟨hβ, -, hside⟩, he⟩ := (h v (α v)).mpr ⟨α, hα, rfl⟩
    rcases hside with hside | hside
    · exact hv (he ▸ hside v)
    · exact hswap ⟨β, hβ, hside⟩
  · intro h a b
    refine ⟨fun ⟨α, hα, he⟩ => ⟨α, hα.1, he⟩, ?_⟩
    rintro ⟨α, hα, rfl⟩
    have widen : ∀ {a b}, OrbitMates (keepGroup g colorOf) a b → OrbitMates (sideGroup g colorOf) a b :=
      fun ⟨β, hβ, he⟩ => ⟨β, ⟨hβ.1, hβ.2.1, Or.inl hβ.2.2⟩, he⟩
    by_cases hside : g.side (α a) = g.side a
    · exact widen (keepGroup_of_side_eq hcol hα hside)
    · rcases h with hkeep | ⟨σ, hσ, hswap⟩
      · exact absurd (hkeep α hα a) hside
      · -- first change all sides with `σ`, then move within the side
        have hmem : σ ∈ sideGroup g colorOf := ⟨hσ, hcol σ hσ, Or.inr hswap⟩
        have haut : IsAut g (α * σ⁻¹) := g.Aut.mul_mem hα (g.Aut.inv_mem hσ)
        have himage : (α * σ⁻¹) (σ a) = α a := congrArg α (σ.symm_apply_apply a)
        have hback := keepGroup_of_side_eq hcol haut (v := σ a)
          (by rw [himage]; exact fin2_ne_trans hside (hswap a).symm)
        rw [himage] at hback
        exact (orbitMates_equivalence _).trans ⟨σ, hmem, rfl⟩ (widen hback)

/-- The classes of a finished run that left nothing unknown are the orbits of the automorphism group
    exactly when every automorphism keeps all sides or some automorphism changes all of them. -/
theorem cadicalGlobal_exact_iff (g : Graph) [g.Simple] (colorOf : Fin g.n → Colour)
    (hcol : ∀ α, IsAut g α → PreservesColour colorOf α) (edgeThreshold : ℤ) (opts : ImpliedOptions)
    (k : ℕ) (hk : 0 < k) (s : System g.n k)
    (hs : Reachable (ParallelConfig.ofColouring g edgeThreshold colorOf)
      (GlobalAnswer edgeThreshold opts colorOf) s)
    (hf : s.Finished) (hunknown : s.result.unknown = 0) :
    (∀ a b, SameClass s.result.orbits a b ↔ OrbitMates g.Aut a b) ↔ SidesCovered g := by
  have hinv := reachable_inv (fun α (hα : α ∈ sideGroup g colorOf) => hα.1) globalAnswer_correct hs
  have hexact := result_exact hinv hf hk (fun u v _ huv => sideGroup_admissible huv) hunknown
  simp only [hexact]
  exact sideGroup_orbits_iff hcol

/-- A system of one worker. -/
def System.single {n : ℕ} (shared : Shared n) (w : Worker n) : System n 1 := ⟨shared, fun _ => w⟩

theorem step_single {cfg : ParallelConfig g} {Answer : PendingPair g.n → SatQueryResult g.n → Prop}
    {shared shared' : Shared g.n} {w w' : Worker g.n} (r : SatQueryResult g.n)
    (hr : Allowed Answer w r) (h : stepWorker cfg r shared w = .ok (shared', w')) :
    Step cfg Answer (System.single shared w) (System.single shared' w') := by
  have hw : Function.update (fun _ : Fin 1 => w) 0 w' = fun _ => w' := funext fun i => by
    rw [Subsingleton.elim i 0, Function.update_self]
  have := Step.mk (s := System.single shared w) 0 r hr h
  rw [System.single, System.single]
  rwa [System.single, hw] at this

/-- The end of a run that finds nothing to do. -/
def idleRun (n : ℕ) : System n 1 :=
  System.single ⟨1, SeparatingUnionFind.init n⟩ { Worker.start n with phase := .done }

theorem reachable_idleRun {cfg : ParallelConfig g} {Answer : PendingPair g.n → SatQueryResult g.n → Prop}
    (hq : cfg.queue = []) : Reachable cfg Answer (idleRun g.n) := by
  have h1 : Step cfg Answer (System.start g.n 1) (System.single ⟨1, SeparatingUnionFind.init g.n⟩
      { Worker.start g.n with phase := .checkMate .long [] }) :=
    step_single .unknown
      (fun _ _ _ hp => by simp [Worker.start] at hp)
      (by simp only [stepWorker, Worker.start, hq]; rfl)
  have h2 : Step cfg Answer (System.single ⟨1, SeparatingUnionFind.init g.n⟩
      { Worker.start g.n with phase := .checkMate .long [] }) (idleRun g.n) :=
    step_single .unknown (fun _ _ _ hp => by simp at hp) rfl
  exact (Relation.ReflTransGen.refl.tail h1).tail h2

/-- On an edge and a separate vertex nothing is asked, and the two ends of the edge are certified
    to be in different orbits. -/
theorem cadicalGlobal_misses_component_swap :
    ∃ s : System (Graph.ofEdges 3 [(0, 1)]).n 1,
      Reachable (ParallelConfig.ofColouring (Graph.ofEdges 3 [(0, 1)]) 1024 fun _ => ())
        (GlobalAnswer 1024 ⟨false, 0, 0⟩ fun _ => ()) s ∧
      s.Finished ∧ s.result.unknown = 0 ∧ s.result.witnessesRejected = 0 ∧
      ¬SameClass s.result.orbits ⟨0, by decide⟩ ⟨1, by decide⟩ ∧
      OrbitMates (Graph.ofEdges 3 [(0, 1)]).Aut ⟨0, by decide⟩ ⟨1, by decide⟩ := by
  refine ⟨idleRun _, reachable_idleRun (by decide +kernel), fun _ => rfl, rfl, rfl, by decide +kernel,
    Equiv.swap ⟨0, by decide⟩ ⟨1, by decide⟩, mem_aut.mpr (by decide), by decide⟩

/-- The exactness criterion at that run: the classes are not the orbits, because the exchange of the
    two ends moves neither all vertices nor none to the other side. -/
theorem cadicalGlobal_exact_iff_edge_and_vertex :
    (∀ a b, SameClass (idleRun (Graph.ofEdges 3 [(0, 1)]).n).result.orbits a b ↔
      OrbitMates (Graph.ofEdges 3 [(0, 1)]).Aut a b) ↔ SidesCovered (Graph.ofEdges 3 [(0, 1)]) :=
  cadicalGlobal_exact_iff (Graph.ofEdges 3 [(0, 1)]) (fun _ => ()) (fun _ _ _ => rfl) 1024
    ⟨false, 0, 0⟩ 1 (by decide) (idleRun _) (reachable_idleRun (by decide +kernel)) (fun _ => rfl) rfl

/-! ### The CryptoMiniSat path -/

/-- The same clauses for another solver; there is no side-swapping counterpart. -/
def buildCryptoMiniSatEncoding (g : Graph) (colorOf : Fin g.n → Colour) (edgeThreshold : ℤ) :
    Formula × CadicalEncoding g := buildCadicalEncodingHybrid g edgeThreshold colorOf

/-- The run never throws; when it leaves nothing unknown, its classes are the orbits exactly when
    every automorphism keeps all sides. -/
theorem cryptoMiniSatGlobal_exact_iff (g : Graph) [g.Simple] (colorOf : Fin g.n → Colour)
    (hcol : ∀ α, IsAut g α → PreservesColour colorOf α) (edgeThreshold : ℤ)
    (ask : ℕ → PendingPair g.n → SatQueryResult g.n)
    (hask : ∀ k q, QueryAnswers (buildCryptoMiniSatEncoding g colorOf edgeThreshold) q.u q.v
      (ask k q)) :
    ∃ res, driveToOrbitsCryptoMiniSat (buildCryptoMiniSatEncoding g colorOf edgeThreshold).2 ask =
        .ok res ∧
      (res.queriesUnknown = 0 →
        ((∀ a b, SameClass res.orbits a b ↔ OrbitMates g.Aut a b) ↔
          ∀ α, IsAut g α → KeepsSides g α)) := by
  obtain ⟨res, hok, -, -, hexact⟩ := sequential_correct (Γ := keepGroup g colorOf)
    (fun α hα => hα.1) (fun α hα => hα.2.1) ask
    (collect (buildCryptoMiniSatEncoding g colorOf edgeThreshold).2 false)
    (fun q _ k => (encodes_hybrid edgeThreshold colorOf).answers (hask k q))
    (fun u v hne ⟨α, hα, he⟩ => ⟨⟨u, v, false⟩, mem_collect.mpr ⟨rfl, hne, by simp,
      he ▸ sameClass_of_keeps hα.1 hα.2.1 (hα.2.2 u)⟩, rfl, rfl⟩)
  refine ⟨res, hok, fun hunk => ?_⟩
  simp only [hexact hunk]
  constructor
  · intro h α hα v
    obtain ⟨β, ⟨-, -, hkeep⟩, he⟩ := (h v (α v)).mpr ⟨α, hα, rfl⟩
    rw [← he]; exact hkeep v
  · intro h a b
    exact ⟨fun ⟨α, hα, he⟩ => ⟨α, hα.1, he⟩,
      fun ⟨α, hα, he⟩ => ⟨α, ⟨hα, hcol α hα, h α hα⟩, he⟩⟩

/-- On a single edge nothing is asked, and the two ends are certified to be in different orbits. -/
theorem cryptoMiniSatGlobal_misses_edge_flip :
    ∃ res, driveToOrbitsCryptoMiniSat
        (buildCryptoMiniSatEncoding (Graph.ofEdges 2 [(0, 1)]) (fun _ => ()) 1024).2
        (fun _ q => queryOrbitMateCadical
          (buildCryptoMiniSatEncoding (Graph.ofEdges 2 [(0, 1)]) (fun _ => ()) 1024).2 q.u q.v
          .unknown) = .ok res ∧
      res.queriesUnknown = 0 ∧ res.witnessesRejected = 0 ∧
      ¬SameClass res.orbits ⟨0, by decide⟩ ⟨1, by decide⟩ ∧
      OrbitMates (Graph.ofEdges 2 [(0, 1)]).Aut ⟨0, by decide⟩ ⟨1, by decide⟩ := by
  refine ⟨_, rfl, rfl, rfl, by decide +kernel, Equiv.swap ⟨0, by decide⟩ ⟨1, by decide⟩,
    mem_aut.mpr (by decide), by decide⟩

/-- The exactness criterion on a single edge: flipping it changes sides. -/
theorem cryptoMiniSatGlobal_exact_iff_edge :
    ∃ res, driveToOrbitsCryptoMiniSat
        (buildCryptoMiniSatEncoding (Graph.ofEdges 2 [(0, 1)]) (fun _ => ()) 1024).2
        (fun _ q => queryOrbitMateCadical
          (buildCryptoMiniSatEncoding (Graph.ofEdges 2 [(0, 1)]) (fun _ => ()) 1024).2 q.u q.v
          .unknown) = .ok res ∧
      (res.queriesUnknown = 0 →
        ((∀ a b, SameClass res.orbits a b ↔ OrbitMates (Graph.ofEdges 2 [(0, 1)]).Aut a b) ↔
          ∀ α, IsAut (Graph.ofEdges 2 [(0, 1)]) α → KeepsSides (Graph.ofEdges 2 [(0, 1)]) α)) :=
  cryptoMiniSatGlobal_exact_iff (Graph.ofEdges 2 [(0, 1)]) (fun _ => ()) (fun _ _ _ => rfl) 1024 _
    fun _ _ => ⟨.unknown, trivial, rfl⟩

end Runner

end Dialysis.Sat
