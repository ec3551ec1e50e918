import GraphDialysis.Fvs.SemidisjointCycle
import Mathlib.Algebra.Order.Field.Rat
import Mathlib.Tactic.FieldSimp
import Mathlib.Tactic.Ring

/-! `dialysis.fvs.FeedbackVertexSet.compute`: every round charges a semidisjoint cycle, or all
    vertices by their degree less one, takes what has no weight left, and cleans up; a last pass
    drops what is redundant, the vertices taken last first. The sets iterate in any order.

    `round_spec` says what one round does to the two solutions that are compared, `feedbackLoop_spec`
    carries the ratio from the end of the run back to its start, and `compute_two_approximation` is
    the result: a feedback vertex set at most twice as large as any other. -/

namespace Dialysis.Fvs
open Lib Dialysis.Graph
variable {n : ℕ}

/-- The neighbour lists as hash sets list them. -/
structure HashSets (g : Graph) where
  toList : Fin g.n → List (Fin g.n)
  perm : ∀ v, (toList v).Perm (g.adj v)

/-- `minOf`, which throws on an empty list. -/
def minOf (f : Fin n → ℚ) (l : List (Fin n)) : Except String ℚ :=
  match (l.map f).min? with
  | some gamma => .ok gamma
  | none => .error "NoSuchElementException"

/-- `for (v in cycle) weight[v] -= gamma`; a vertex that is listed twice pays twice. -/
def chargeCycle (s : FvsState n) (cycle : List (Fin n)) : Except String (FvsState n) :=
  (minOf s.weight cycle).map fun gamma =>
    { s with weight := cycle.foldl (fun w v => Function.update w v (w v - gamma)) s.weight }

/-- `for (v in aliveVerts) weight[v] -= gamma * (degree(v) - 1)`. -/
def chargeDegrees (s : FvsState n) : Except String (FvsState n) :=
  let aliveVerts := (List.finRange n).filter fun v => s.alive v
  (minOf (fun v => s.weight v / (s.degree v - 1)) aliveVerts).map fun gamma =>
    { s with weight := fun v =>
        if s.alive v then s.weight v - gamma * (s.degree v - 1) else s.weight v }

/-- One vertex of the pass that takes what has no weight left. -/
def takeStep (s : FvsState n × Bool) (v : Fin n) : FvsState n × Bool :=
  if s.1.spent v then (s.1.take v, true) else s

/-- Charges the cycle, or all vertices when there is none. -/
def charge (s : FvsState n) : Option (List (Fin n)) → Except String (FvsState n)
  | some cycle => chargeCycle s cycle
  | none => chargeDegrees s

/-- One round of the outer loop. -/
def feedbackRound (s : FvsState n) : Except String (FvsState n) :=
  (findSemidisjointCycle s).bind fun cycle =>
    (charge s cycle).bind fun s =>
      let (s, madeProgress) := (List.finRange n).foldl takeStep (s, false)
      (cleanup s).bind fun s =>
        if madeProgress then .ok s
        else .error "FEEDBACK made no progress in one iteration -- algorithm invariant violated"

/-- The outer loop; the first argument bounds the number of rounds. -/
def feedbackLoop : ℕ → FvsState n → Except String (FvsState n)
  | 0, s => if (List.finRange n).any s.alive then .error "more rounds than vertices" else .ok s
  | k + 1, s =>
    if (List.finRange n).any s.alive then (feedbackRound s).bind (feedbackLoop k) else .ok s

/-- The last pass, over the vertices that were taken, latest first. -/
def dropRedundant (g : Graph) :
    List (Fin g.n) → Finset (Fin g.n) → Except String (Finset (Fin g.n))
  | [], fvs => .ok fvs
  | v :: rest, fvs => (isForest g (fvs.erase v)).bind fun forest =>
      dropRedundant g rest (if !forest then insert v (fvs.erase v) else fvs.erase v)

/-- Returns a feedback vertex set. -/
def compute (g : Graph) (sets : HashSets g) : Except String (Finset (Fin g.n)) :=
  (cleanup ⟨fun _ => 1, fun _ => true, sets.toList, []⟩).bind fun s =>
    (feedbackLoop g.n s).bind fun s =>
      dropRedundant g s.fvsOrder.reverse s.fvsOrder.toFinset

/-- Without `F` the graph has no cycle. -/
def IsFeedbackVertexSet (g : Graph) [g.Simple] (F : Finset (Fin g.n)) : Prop :=
  (g.simpleGraph.induce (F : Set (Fin g.n))ᶜ).IsAcyclic

/-! ### Charges -/

theorem minOf_spec {f : Fin n → ℚ} {l : List (Fin n)} (hl : l ≠ []) :
    ∃ gamma, minOf f l = .ok gamma ∧ (∃ v ∈ l, f v = gamma) ∧ ∀ v ∈ l, gamma ≤ f v := by
  have hne : l.map f ≠ [] := by simpa using hl
  obtain ⟨gamma, hmin⟩ : ∃ gamma, (l.map f).min? = some gamma :=
    Option.isSome_iff_exists.mp (List.isSome_min?_of_ne_nil hne)
  obtain ⟨hmem, hle⟩ := List.min?_eq_some_iff.mp hmin
  obtain ⟨v, hv, he⟩ := List.mem_map.mp hmem
  refine ⟨gamma, by rw [minOf, hmin], ⟨v, hv, he⟩, fun u hu => ?_⟩
  exact hle (f u) (List.mem_map_of_mem hu)

/-- Every listing costs once. -/
theorem foldl_charge (gamma : ℚ) : ∀ (cycle : List (Fin n)) (w : Fin n → ℚ) (v : Fin n),
    cycle.foldl (fun w v => Function.update w v (w v - gamma)) w v = w v - cycle.count v * gamma
  | [], w, v => by simp
  | u :: cycle, w, v => by
    rw [List.foldl_cons, foldl_charge gamma cycle]
    rcases eq_or_ne u v with rfl | hne
    · rw [Function.update_self, List.count_cons_self]
      push_cast
      ring
    · rw [Function.update_of_ne hne.symm, List.count_cons_of_ne hne]

variable {g : Graph} [g.Simple] {s t : FvsState g.n}

theorem isFeedbackVertexSet_iff {F : Finset (Fin g.n)} :
    IsFeedbackVertexSet g F ↔ ForestOn g.simpleGraph (Finset.univ \ F) := by
  rw [IsFeedbackVertexSet, forestOn_iff_isAcyclic, Finset.coe_sdiff, Finset.coe_univ,
    Set.compl_eq_univ_sdiff]

/-- Between two rounds. -/
structure RoundInv (g : Graph) [g.Simple] (s : FvsState g.n) : Prop where
  mirrors : Mirrors g s
  intact : Intact g s
  clean : ∀ v, s.alive v = true → 2 ≤ s.degree v
  pos : ∀ v, s.alive v = true → 0 < s.weight v
  taken : ∀ v ∈ s.fvsOrder, s.alive v = false
  nodup : s.fvsOrder.Nodup

/-- The weights `w` after a charge: some vertex has none left, and a solution without a redundant
    member pays at most twice what any solution pays. -/
structure Charged (g : Graph) [g.Simple] (s : FvsState g.n) (w : Fin g.n → ℚ) : Prop where
  spent : ∃ v, s.alive v = true ∧ w v ≤ 0
  ratio : ∀ F F' : Finset (Fin g.n), Irredundant g.simpleGraph s.aliveSet F →
    ForestOn g.simpleGraph (s.aliveSet \ F) → ForestOn g.simpleGraph (s.aliveSet \ F') →
    ∑ v ∈ F ∩ s.aliveSet, (s.weight v - max (w v) 0) ≤
      2 * ∑ v ∈ F' ∩ s.aliveSet, (s.weight v - max (w v) 0)

theorem chargeCycle_spec (hs : RoundInv g s) {cycle : List (Fin g.n)} (hc : ListsCycle g s cycle) :
    ∃ w, chargeCycle s cycle = .ok { s with weight := w } ∧ Charged g s w := by
  obtain ⟨hub, hhub, -⟩ := hc.semidisjoint.hub
  obtain ⟨gamma, hmin, ⟨u, hu, hgamma⟩, hle⟩ := minOf_spec (f := s.weight) (l := cycle)
    (List.ne_nil_of_mem (List.mem_toFinset.mp hhub))
  have halive : ∀ v ∈ cycle, s.alive v = true := fun v hv =>
    FvsState.mem_aliveSet.mp (hc.semidisjoint.sub (List.mem_toFinset.mpr hv))
  have hpos : 0 < gamma := hgamma ▸ hs.pos u (halive u hu)
  have hone : ∀ v ∈ cycle, (1 : ℚ) ≤ cycle.count v := fun v hv =>
    Nat.one_le_cast.mpr (List.one_le_count_iff.mpr hv)
  refine ⟨fun v => s.weight v - cycle.count v * gamma, ?_, ⟨u, halive u hu, ?_⟩, fun F F' hF _ hF' =>
    hc.semidisjoint.charge_le hF hF' hpos.le (fun v hv hvc => ?_) (fun v hv => ?_) fun v hv => ?_⟩
  · rw [chargeCycle, hmin]
    have hw : (fun v => s.weight v - cycle.count v * gamma) =
        cycle.foldl (fun w v => Function.update w v (w v - gamma)) s.weight :=
      funext fun v => (foldl_charge gamma cycle s.weight v).symm
    rw [hw]
    rfl
  · have := mul_le_mul_of_nonneg_right (hone u hu) hpos.le
    rw [hgamma]
    linarith
  · rw [List.mem_toFinset] at hvc
    rw [List.count_eq_zero_of_not_mem hvc, Nat.cast_zero, zero_mul, sub_zero,
      max_eq_left (hs.pos v (FvsState.mem_aliveSet.mp hv)).le, sub_self]
  · have htwo : (cycle.count v : ℚ) ≤ 2 := by exact_mod_cast hc.count_le v
    have := mul_le_mul_of_nonneg_right htwo hpos.le
    have := le_max_left (s.weight v - cycle.count v * gamma) 0
    linarith
  · rw [List.mem_toFinset] at hv
    have := mul_le_mul_of_nonneg_right (hone v hv) hpos.le
    have := hle v hv
    rcases max_choice (s.weight v - cycle.count v * gamma) 0 with h | h <;> rw [h] <;> linarith

theorem chargeDegrees_spec (hs : RoundInv g s) (hne : s.aliveSet.Nonempty)
    (hhandle : ∀ T f, ¬Handle g.simpleGraph s.aliveSet T f) :
    ∃ w, chargeDegrees s = .ok { s with weight := w } ∧ Charged g s w := by
  obtain ⟨x, hx⟩ := hne
  have hmem : ∀ v, v ∈ (List.finRange g.n).filter (fun v => s.alive v) ↔ s.alive v = true :=
    fun v => by simp
  obtain ⟨gamma, hmin, ⟨u, hu, hgamma⟩, hle⟩ := minOf_spec
    (f := fun v => s.weight v / (s.degree v - 1)) (l := (List.finRange g.n).filter fun v => s.alive v)
    (List.ne_nil_of_mem ((hmem x).mpr (FvsState.mem_aliveSet.mp hx)))
  have hdeg : ∀ v, s.alive v = true → (0 : ℚ) < s.degree v - 1 := by
    intro v hv
    have : (2 : ℚ) ≤ s.degree v := by exact_mod_cast hs.clean v hv
    linarith
  have hgammapos : 0 ≤ gamma := by
    rw [← hgamma]
    exact (div_pos (hs.pos u ((hmem u).mp hu)) (hdeg u ((hmem u).mp hu))).le
  have hpaid : ∀ v, s.alive v = true → gamma * (s.degree v - 1) ≤ s.weight v := fun v hv =>
    (le_div_iff₀ (hdeg v hv)).mp (hle v ((hmem v).mpr hv))
  refine ⟨fun v => if s.alive v then s.weight v - gamma * (s.degree v - 1) else s.weight v, ?_,
    ⟨u, (hmem u).mp hu, ?_⟩, fun F F' hF hforest hF' => ?_⟩
  · rw [chargeDegrees, hmin]
    rfl
  · have := (div_eq_iff (hdeg u ((hmem u).mp hu)).ne').mp hgamma
    rw [if_pos ((hmem u).mp hu)]
    linarith
  · -- nobody is charged more than there is
    have hcharge : ∀ R : Finset (Fin g.n), ∑ v ∈ R ∩ s.aliveSet, (s.weight v -
        max (if s.alive v then s.weight v - gamma * (s.degree v - 1) else s.weight v) 0) =
        gamma * ∑ v ∈ R ∩ s.aliveSet, ((degreeIn g.simpleGraph s.aliveSet v : ℚ) - 1) := by
      intro R
      rw [Finset.mul_sum]
      refine Finset.sum_congr rfl fun v hv => ?_
      have hv := FvsState.mem_aliveSet.mp (Finset.mem_of_mem_inter_right hv)
      have := hpaid v hv
      rw [if_pos hv, max_eq_left (by linarith), ← hs.mirrors.degree_eq hv]
      ring
    have hratio := degree_charge_le (fun v hv => by
      rw [← hs.mirrors.degree_eq (FvsState.mem_aliveSet.mp hv)]
      exact hs.clean v (FvsState.mem_aliveSet.mp hv)) hhandle hforest hF hF'
    rw [hcharge, hcharge, mul_left_comm]
    exact mul_le_mul_of_nonneg_left hratio hgammapos

/-! ### Taking vertices -/

/-- What the pass over `vs` does: it takes the vertices without weight, in their order. -/
structure Takes (g : Graph) [g.Simple] (vs : List (Fin g.n)) (s t : FvsState g.n) : Prop where
  weight : t.weight = s.weight
  fvsOrder : t.fvsOrder = s.fvsOrder ++ vs.filter s.spent
  alive : ∀ v, t.alive v = true ↔ s.alive v = true ∧ (v ∈ vs → 0 < s.weight v)
  mirrors : Mirrors g t
  intact : Intact g t

theorem takePass_spec : ∀ (vs : List (Fin g.n)) (s : FvsState g.n) (b : Bool), vs.Nodup →
    Mirrors g s → Intact g s →
      ∃ t, vs.foldl takeStep (s, b) = (t, b || vs.any s.spent) ∧ Takes g vs s t
  | [], s, b, _, hm, hi => ⟨s, by simp, rfl, by simp, fun v => by simp, hm, hi⟩
  | u :: vs, s, b, hnd, hm, hi => by
    obtain ⟨hu, hvs⟩ := List.nodup_cons.mp hnd
    rw [List.foldl_cons, takeStep]
    by_cases htake : s.spent u = true
    · rw [if_pos htake]
      obtain ⟨t, ht, hw, ho, ha, hmt, hit⟩ := takePass_spec vs (s.take u) true hvs (hm.take u)
        (hi.take u)
      -- the other vertices are as they were
      have hsame : vs.filter (s.take u).spent = vs.filter s.spent :=
        List.filter_congr fun v hv => by
          have hne : v ≠ u := by
            rintro rfl
            exact hu hv
          rw [FvsState.spent, FvsState.spent, s.alive_take_of_ne hne, FvsState.weight_take]
      refine ⟨t, ?_, hw, ?_, fun v => ?_, hmt, hit⟩
      · rw [ht, List.any_cons, htake]
        simp
      · rw [ho, hsame, List.filter_cons_of_pos htake, FvsState.fvsOrder_take, List.append_assoc]
        rfl
      · rw [ha v, FvsState.weight_take]
        obtain ⟨-, hnone⟩ := FvsState.spent_iff.mp htake
        rcases eq_or_ne v u with rfl | hne
        · rw [FvsState.alive_take_self]
          refine ⟨fun h => absurd h.1 (by simp), fun h => absurd (h.2 (by simp)) (not_lt.mpr hnone)⟩
        · rw [s.alive_take_of_ne hne]
          simp [hne]
    · rw [if_neg htake]
      obtain ⟨t, ht, hw, ho, ha, hmt, hit⟩ := takePass_spec vs s b hvs hm hi
      refine ⟨t, ?_, hw, ?_, fun v => ?_, hmt, hit⟩
      · rw [ht, List.any_cons, Bool.eq_false_iff.mpr htake, Bool.false_or]
      · rw [ho, List.filter_cons_of_neg htake]
      · rw [ha v]
        refine and_congr_right fun hv => ⟨fun h hmem => ?_, fun h hmem =>
          h (List.mem_cons_of_mem _ hmem)⟩
        rcases List.mem_cons.mp hmem with rfl | hmem
        · by_contra hle
          exact htake (FvsState.spent_iff.mpr ⟨hv, not_lt.mp hle⟩)
        · exact h hmem

/-! ### One round -/

/-- What a round does. -/
structure RoundSpec (g : Graph) [g.Simple] (s t : FvsState g.n) : Prop where
  inv : RoundInv g t
  alive : t.aliveSet ⊂ s.aliveSet
  fvsOrder : ∃ taken, t.fvsOrder = s.fvsOrder ++ taken ∧
    ∀ v ∈ taken, s.alive v = true ∧ t.weight v ≤ 0
  charged : Charged g s t.weight

theorem feedbackRound_spec (hs : RoundInv g s) (hne : s.aliveSet.Nonempty) :
    ∃ t, feedbackRound s = .ok t ∧ RoundSpec g s t := by
  obtain ⟨cycle, hfind, hsome, hnone⟩ := findSemidisjointCycle_spec hs.mirrors
  obtain ⟨w, hw, hcharged⟩ :
      ∃ w, charge s cycle = .ok { s with weight := w } ∧ Charged g s w := by
    cases cycle with
    | some cycle => exact chargeCycle_spec hs (hsome cycle rfl)
    | none => exact chargeDegrees_spec hs hne (hnone rfl)
  obtain ⟨u, hu, huw⟩ := hcharged.spent
  obtain ⟨t, ht, htakes⟩ := takePass_spec (List.finRange g.n) { s with weight := w } false
    (List.nodup_finRange _) ⟨hs.mirrors.mem, hs.mirrors.nodup⟩ hs.intact
  have hprogress : (List.finRange g.n).any ({ s with weight := w } : FvsState g.n).spent = true :=
    List.any_eq_true.mpr ⟨u, List.mem_finRange u, FvsState.spent_iff.mpr ⟨hu, huw⟩⟩
  obtain ⟨t', ht', hcleans⟩ := cleanup_spec htakes.mirrors htakes.intact
  have hweight : t'.weight = w := hcleans.weight.trans htakes.weight
  have halive : ∀ v, t.alive v = true → s.alive v = true ∧ 0 < w v := fun v hv =>
    ⟨((htakes.alive v).mp hv).1, ((htakes.alive v).mp hv).2 (List.mem_finRange v)⟩
  have hkept : ∀ v, t'.alive v = true → t.alive v = true := fun v hv =>
    FvsState.mem_aliveSet.mp (hcleans.alive (FvsState.mem_aliveSet.mpr hv))
  have htaken : ∀ v ∈ (List.finRange g.n).filter ({ s with weight := w } : FvsState g.n).spent,
      s.alive v = true ∧ w v ≤ 0 := fun v hv => FvsState.spent_iff.mp (List.mem_filter.mp hv).2
  refine ⟨t', ?_, ⟨hcleans.mirrors, hcleans.intact, hcleans.clean, fun v hv => ?_, fun v hv => ?_, ?_⟩,
    ?_, ⟨_, hcleans.fvsOrder.trans htakes.fvsOrder, fun v hv => hweight ▸ htaken v hv⟩,
    hweight ▸ hcharged⟩
  · rw [feedbackRound, hfind, Except.bind, hw, Except.bind, ht, hprogress]
    dsimp only
    rw [ht', Except.bind]
    rfl
  · rw [hweight]
    exact (halive v (hkept v hv)).2
  · by_contra hv'
    have hvt := halive v (hkept v (by simpa using hv'))
    rw [hcleans.fvsOrder, htakes.fvsOrder] at hv
    rcases List.mem_append.mp hv with hv | hv
    · rw [hs.taken v hv] at hvt
      exact absurd hvt.1 (by simp)
    · exact absurd hvt.2 (not_lt.mpr (htaken v hv).2)
  · rw [hcleans.fvsOrder, htakes.fvsOrder]
    refine List.nodup_append.mpr ⟨hs.nodup, (List.nodup_finRange _).filter _, fun a ha b hb hab => ?_⟩
    have := hs.taken a ha
    rw [hab, (htaken b hb).1] at this
    cases this
  · refine Finset.ssubset_iff_subset_ne.mpr ⟨fun v hv => ?_, fun he => ?_⟩
    · exact FvsState.mem_aliveSet.mpr (halive v (hkept v (FvsState.mem_aliveSet.mp hv))).1
    · have hmem : u ∈ t'.aliveSet := he ▸ FvsState.mem_aliveSet.mpr hu
      exact absurd (halive u (hkept u (FvsState.mem_aliveSet.mp hmem))).2 (not_lt.mpr huw)

/-! ### The whole run -/

/-- Every member of `F` is on a core that no other member, and no vertex taken earlier, is on. The
    list has the vertices taken latest first. -/
def Needed (g : Graph) [g.Simple] (order : List (Fin g.n)) (F : Finset (Fin g.n)) : Prop :=
  ∀ f ∈ F, f ∈ order ∧ ∃ S, IsCore g.simpleGraph S ∧ f ∈ S ∧ (∀ u ∈ S, u ∈ F → u = f) ∧
    ∀ u ∈ older order f, u ∉ S

/-- A member that is still there was taken later, so that its core is still there. -/
theorem Needed.irredundant (hs : RoundInv g s) (taken : List (Fin g.n)) {F : Finset (Fin g.n)}
    (hF : Needed g (s.fvsOrder ++ taken).reverse F) :
    Irredundant g.simpleGraph s.aliveSet F := by
  intro f hf hfA
  obtain ⟨hmem, S, hcore, hfS, honly, hold⟩ := hF f hf
  refine ⟨S, hs.intact S hcore fun u hu huo => hold u ?_ hu, hcore, hfS, honly⟩
  have hnot : f ∉ s.fvsOrder := fun h => by
    have := hs.taken f h
    rw [FvsState.mem_aliveSet.mp hfA] at this
    cases this
  rw [List.reverse_append] at hmem ⊢
  have hlate : f ∈ taken.reverse :=
    (List.mem_append.mp hmem).resolve_right fun h => hnot (List.mem_reverse.mp h)
  rw [older_append_of_mem _ hlate]
  exact List.mem_append_right _ (List.mem_reverse.mpr huo)

/-- What the loop leaves, and the ratio of every solution that uses nothing redundant. -/
structure RunSpec (g : Graph) [g.Simple] (s t : FvsState g.n) : Prop where
  gone : ∀ v, t.alive v = false
  inv : RoundInv g t
  fvsOrder : ∃ taken, t.fvsOrder = s.fvsOrder ++ taken ∧ ∀ v ∈ taken, s.alive v = true
  ratio : ∀ F F' : Finset (Fin g.n), Needed g t.fvsOrder.reverse F →
    ForestOn g.simpleGraph (Finset.univ \ F) → ForestOn g.simpleGraph (Finset.univ \ F') →
    ∑ v ∈ F ∩ s.aliveSet, s.weight v ≤ 2 * ∑ v ∈ F' ∩ s.aliveSet, s.weight v

theorem any_alive_iff {s : FvsState n} :
    (List.finRange n).any s.alive = true ↔ s.aliveSet.Nonempty := by
  rw [List.any_eq_true]
  exact ⟨fun ⟨v, _, hv⟩ => ⟨v, FvsState.mem_aliveSet.mpr hv⟩,
    fun ⟨v, hv⟩ => ⟨v, List.mem_finRange v, FvsState.mem_aliveSet.mp hv⟩⟩

theorem runSpec_of_empty (hs : RoundInv g s) (h : ¬s.aliveSet.Nonempty) : RunSpec g s s := by
  have hempty := Finset.not_nonempty_iff_eq_empty.mp h
  refine ⟨fun v => Bool.eq_false_iff.mpr fun hv => h ⟨v, FvsState.mem_aliveSet.mpr hv⟩, hs,
    ⟨[], by simp, by simp⟩, fun F F' _ _ _ => ?_⟩
  rw [hempty, Finset.inter_empty, Finset.inter_empty]
  simp

/-- One round in front of a run. -/
theorem RoundSpec.run (hs : RoundInv g s) {t u : FvsState g.n} (h : RoundSpec g s t)
    (hrun : RunSpec g t u) : RunSpec g s u := by
  obtain ⟨first, hfirst, hspent⟩ := h.fvsOrder
  obtain ⟨rest, hrest, hlater⟩ := hrun.fvsOrder
  have hsub := h.alive.subset
  refine ⟨hrun.gone, hrun.inv, ⟨first ++ rest, ?_, fun v hv => ?_⟩, fun F F' hF hforest hF' => ?_⟩
  · rw [hrest, hfirst, List.append_assoc]
  · rcases List.mem_append.mp hv with hv | hv
    · exact (hspent v hv).1
    · exact FvsState.mem_aliveSet.mp (hsub (FvsState.mem_aliveSet.mpr (hlater v hv)))
  · have hirr : Irredundant g.simpleGraph s.aliveSet F := by
      refine Needed.irredundant hs (first ++ rest) ?_
      rwa [← List.append_assoc, ← hfirst, ← hrest]
    have hres : ∀ R : Finset (Fin g.n), ForestOn g.simpleGraph (Finset.univ \ R) →
        ForestOn g.simpleGraph (s.aliveSet \ R) := fun R hR =>
      hR.mono (Finset.sdiff_subset_sdiff (Finset.subset_univ _) (Finset.Subset.refl R))
    refine local_ratio_step hsub (fun v hv => (h.inv.pos v (FvsState.mem_aliveSet.mp hv)).le)
      (fun v hvF hvs hvt => ?_) (h.charged.ratio F F' hirr (hres F hforest) (hres F' hF'))
      (hrun.ratio F F' hF hforest hF')
    -- a member that goes in this round was taken in it
    have hmem := (hF v hvF).1
    rw [List.mem_reverse, hrest, hfirst, List.append_assoc] at hmem
    rcases List.mem_append.mp hmem with hv | hv
    · have := hs.taken v hv
      rw [FvsState.mem_aliveSet.mp hvs] at this
      cases this
    · rcases List.mem_append.mp hv with hv | hv
      · exact (hspent v hv).2
      · exact absurd (FvsState.mem_aliveSet.mpr (hlater v hv)) hvt

theorem feedbackLoop_spec : ∀ (k : ℕ) (s : FvsState g.n), RoundInv g s → s.aliveSet.card ≤ k →
    ∃ t, feedbackLoop k s = .ok t ∧ RunSpec g s t
  | k, s, hs, hk => by
    by_cases hany : (List.finRange g.n).any s.alive = true
    · have hne := any_alive_iff.mp hany
      cases k with
      | zero =>
        have := Finset.card_pos.mpr hne
        omega
      | succ k =>
        obtain ⟨t, ht, hround⟩ := feedbackRound_spec hs hne
        have hless := Finset.card_lt_card hround.alive
        obtain ⟨u, hu, hrun⟩ := feedbackLoop_spec k t hround.inv (by omega)
        exact ⟨u, by rw [feedbackLoop, if_pos hany, ht]; exact hu, hround.run hs hrun⟩
    · refine ⟨s, ?_, runSpec_of_empty hs fun hne => hany (any_alive_iff.mpr hne)⟩
      cases k with
      | zero => rw [feedbackLoop, if_neg hany]
      | succ k => rw [feedbackLoop, if_neg hany]

/-! ### The last pass -/

/-- What is kept is still a solution, and every vertex that is kept was needed when it was tried. -/
theorem dropRedundant_spec : ∀ (order : List (Fin g.n)) (fvs : Finset (Fin g.n)), order.Nodup →
    (∀ v ∈ order, v ∈ fvs) → ForestOn g.simpleGraph (Finset.univ \ fvs) →
      ∃ F, dropRedundant g order fvs = .ok F ∧ F ⊆ fvs ∧
        ForestOn g.simpleGraph (Finset.univ \ F) ∧
        ∀ f ∈ F, f ∈ order → ∃ S, IsCore g.simpleGraph S ∧ f ∈ S ∧ (∀ u ∈ S, u ∈ F → u = f) ∧
          ∀ u ∈ older order f, u ∉ S
  | [], fvs, _, _, hforest => ⟨fvs, rfl, Finset.Subset.refl _, hforest, by simp⟩
  | v :: rest, fvs, hnd, hsub, hforest => by
    obtain ⟨hv, hrest⟩ := List.nodup_cons.mp hnd
    have hvfvs := hsub v (by simp)
    obtain ⟨b, hb, hiff⟩ := isForest_spec g (fvs.erase v)
    have hin : ∀ u ∈ rest, u ∈ fvs.erase v := fun u hu =>
      Finset.mem_erase.mpr ⟨fun he => hv (he ▸ hu), hsub u (List.mem_cons_of_mem _ hu)⟩
    have hskip : ∀ u ∈ rest, older (v :: rest) u = older rest u := fun u hu =>
      older_cons_of_ne (by rintro rfl; exact hv hu) rest
    rw [dropRedundant, hb, Except.bind]
    cases b with
    | true =>
      rw [Bool.not_true, if_neg Bool.false_ne_true]
      obtain ⟨F, hF, hFsub, hFforest, hneed⟩ :=
        dropRedundant_spec rest (fvs.erase v) hrest hin (hiff.mp rfl)
      refine ⟨F, hF, hFsub.trans (Finset.erase_subset _ _), hFforest, fun f hf hfo => ?_⟩
      have hfr : f ∈ rest := (List.mem_cons.mp hfo).resolve_left fun he =>
        (Finset.mem_erase.mp (hFsub hf)).1 he
      rw [hskip f hfr]
      exact hneed f hf hfr
    | false =>
      rw [Bool.not_false, if_pos rfl, Finset.insert_erase hvfvs]
      obtain ⟨F, hF, hFsub, hFforest, hneed⟩ := dropRedundant_spec rest fvs hrest
        (fun u hu => (Finset.mem_erase.mp (hin u hu)).2) hforest
      refine ⟨F, hF, hFsub, hFforest, fun f hf hfo => ?_⟩
      rcases List.mem_cons.mp hfo with rfl | hfr
      · -- without it there is a core, which must be one that it is on
        have hnot : ¬ForestOn g.simpleGraph (Finset.univ \ fvs.erase f) := fun h => by
          have := hiff.mpr h
          cases this
        unfold ForestOn at hnot
        push Not at hnot
        obtain ⟨S, hS, hcore⟩ := hnot
        have havoid : ∀ u ∈ S, u ∈ fvs → u = f := fun u hu hufvs => by
          by_contra hne
          exact (Finset.mem_sdiff.mp (hS hu)).2 (Finset.mem_erase.mpr ⟨hne, hufvs⟩)
        refine ⟨S, hcore, ?_, fun u hu huF => havoid u hu (hFsub huF), fun u hu huS => ?_⟩
        · by_contra hfS
          refine hforest S (fun u hu => Finset.mem_sdiff.mpr ⟨Finset.mem_univ u, fun huf => ?_⟩) hcore
          exact hfS (havoid u hu huf ▸ hu)
        · rw [older_cons_self] at hu
          exact hv (havoid u huS (Finset.mem_erase.mp (hin u hu)).2 ▸ hu)
      · rw [hskip f hfr]
        exact hneed f hf hfr

/-! ### The result -/

omit [g.Simple] in
theorem HashSets.mem (sets : HashSets g) {v w : Fin g.n} : w ∈ sets.toList v ↔ w ∈ g.adj v :=
  (sets.perm v).mem_iff

/-- A whole call: the outer loop runs from `s` to `t`, and the last pass returns `F`. -/
structure Computes (g : Graph) [g.Simple] (sets : HashSets g) (s t : FvsState g.n)
    (F : Finset (Fin g.n)) : Prop where
  run : RunSpec g s t
  weight : ∀ v, s.weight v = 1
  result : compute g sets = .ok F
  sub : ∀ f ∈ F, f ∈ t.fvsOrder ∧ s.alive f = true
  forest : ForestOn g.simpleGraph (Finset.univ \ F)
  needed : Needed g t.fvsOrder.reverse F

theorem compute_spec (g : Graph) [g.Simple] (sets : HashSets g) :
    ∃ s t F, Computes g sets s t F := by
  obtain ⟨s₀, hs₀⟩ : ∃ s₀ : FvsState g.n, s₀ = ⟨fun _ => 1, fun _ => true, sets.toList, []⟩ :=
    ⟨_, rfl⟩
  have hm : Mirrors g s₀ := by
    rw [hs₀]
    exact ⟨fun v w => by simp [sets.mem], fun v => (sets.perm v).nodup_iff.mpr (g.adj_nodup v)⟩
  have hi : Intact g s₀ := fun S _ _ v _ => FvsState.mem_aliveSet.mpr (by rw [hs₀])
  obtain ⟨s, hclean, hcleans⟩ := cleanup_spec hm hi
  have horder : s.fvsOrder = [] := by rw [hcleans.fvsOrder, hs₀]
  have hweight : ∀ v, s.weight v = 1 := fun v => by rw [hcleans.weight, hs₀]
  have hinv : RoundInv g s := ⟨hcleans.mirrors, hcleans.intact, hcleans.clean,
    fun v _ => by rw [hweight]; exact one_pos, by simp [horder], by simp [horder]⟩
  obtain ⟨t, hloop, hrun⟩ := feedbackLoop_spec g.n s hinv (by
    simpa using Finset.card_le_univ s.aliveSet)
  -- every core has lost a vertex to the stack
  have hall : ForestOn g.simpleGraph (Finset.univ \ t.fvsOrder.toFinset) := fun S hS hcore => by
    obtain ⟨v, hv⟩ := hcore.nonempty
    have hin := hrun.inv.intact S hcore (fun u hu huo =>
      (Finset.mem_sdiff.mp (hS hu)).2 (List.mem_toFinset.mpr huo)) hv
    rw [FvsState.mem_aliveSet, hrun.gone v] at hin
    cases hin
  obtain ⟨F, hF, hsub, hforest, hneed⟩ := dropRedundant_spec t.fvsOrder.reverse
    t.fvsOrder.toFinset (List.nodup_reverse.mpr hrun.inv.nodup) (by simp) hall
  have hmem : ∀ f ∈ F, f ∈ t.fvsOrder := fun f hf => List.mem_toFinset.mp (hsub hf)
  refine ⟨s, t, F, hrun, hweight, ?_, fun f hf => ⟨hmem f hf, ?_⟩, hforest, fun f hf =>
    ⟨List.mem_reverse.mpr (hmem f hf), hneed f hf (List.mem_reverse.mpr (hmem f hf))⟩⟩
  · rw [compute, ← hs₀, hclean, Except.bind, hloop]
    exact hF
  · obtain ⟨taken, htaken, hlive⟩ := hrun.fvsOrder
    rw [horder, List.nil_append] at htaken
    exact hlive f (htaken ▸ hmem f hf)

/-- The call returns a feedback vertex set, at most twice as large as any other. -/
theorem compute_two_approximation (g : Graph) [g.Simple] (sets : HashSets g) :
    ∃ F, compute g sets = .ok F ∧ IsFeedbackVertexSet g F ∧
      ∀ F', IsFeedbackVertexSet g F' → F.card ≤ 2 * F'.card := by
  obtain ⟨s, t, F, h⟩ := compute_spec g sets
  have halive : F ∩ s.aliveSet = F := Finset.inter_eq_left.mpr fun f hf =>
    FvsState.mem_aliveSet.mpr (h.sub f hf).2
  refine ⟨F, h.result, isFeedbackVertexSet_iff.mpr h.forest, fun F' hF' => ?_⟩
  have hratio := h.run.ratio F F' h.needed h.forest (isFeedbackVertexSet_iff.mp hF')
  rw [halive, Finset.sum_congr rfl fun v _ => h.weight v,
    Finset.sum_congr rfl fun v _ => h.weight v, Finset.sum_const, Finset.sum_const, nsmul_eq_mul,
    nsmul_eq_mul, mul_one, mul_one] at hratio
  have hle : ((F' ∩ s.aliveSet).card : ℚ) ≤ F'.card :=
    Nat.cast_le.mpr (Finset.card_le_card Finset.inter_subset_left)
  have hfinal : (F.card : ℚ) ≤ ((2 * F'.card : ℕ) : ℚ) := by
    push_cast
    linarith
  exact Nat.cast_le.mp hfinal

/-- The hash sets that list the neighbours in order. -/
def HashSets.ordered (g : Graph) : HashSets g := ⟨g.adj, fun _ => List.Perm.refl _⟩

theorem compute_two_approximation_fourCycle :
    ∃ F, compute (ofEdges 4 [(0, 1), (1, 2), (2, 3), (0, 3)]) (.ordered _) = .ok F ∧ F.card ≤ 2 := by
  obtain ⟨F, hF, -, hle⟩ :=
    compute_two_approximation (ofEdges 4 [(0, 1), (1, 2), (2, 3), (0, 3)]) (.ordered _)
  refine ⟨F, hF, hle {(0 : Fin 4)} (isFeedbackVertexSet_iff.mpr ?_)⟩
  obtain ⟨forest, hrun, hiff⟩ := isForest_spec (ofEdges 4 [(0, 1), (1, 2), (2, 3), (0, 3)]) {(0 : Fin 4)}
  exact hiff.mp (Except.ok.inj (hrun.symm.trans (by decide)))

/-- A member that is missing leaves a core, and so a cycle. -/
theorem Needed.not_forestOn {order : List (Fin g.n)} {F : Finset (Fin g.n)} (h : Needed g order F)
    {f : Fin g.n} (hf : f ∈ F) : ¬ForestOn g.simpleGraph (Finset.univ \ F.erase f) := by
  obtain ⟨-, S, hcore, -, honly, -⟩ := h f hf
  intro hforest
  refine hforest S (fun u hu => Finset.mem_sdiff.mpr ⟨Finset.mem_univ u, fun huF => ?_⟩) hcore
  obtain ⟨hne, huF⟩ := Finset.mem_erase.mp huF
  exact hne (honly u hu huF)

/-- The call returns a feedback vertex set from which no vertex can be dropped, and `isForest`
    decides whether one is left. -/
theorem compute_minimal (g : Graph) [g.Simple] (sets : HashSets g) :
    (∃ F, compute g sets = .ok F ∧ IsFeedbackVertexSet g F ∧
      ∀ v ∈ F, ¬IsFeedbackVertexSet g (F.erase v)) ∧
    ∀ excluded, ∃ forest, isForest g excluded = .ok forest ∧
      (forest = true ↔ IsFeedbackVertexSet g excluded) := by
  refine ⟨?_, fun excluded => ?_⟩
  · obtain ⟨s, t, F, h⟩ := compute_spec g sets
    refine ⟨F, h.result, isFeedbackVertexSet_iff.mpr h.forest, fun v hv hless => ?_⟩
    exact h.needed.not_forestOn hv (isFeedbackVertexSet_iff.mp hless)
  · obtain ⟨forest, hrun, hiff⟩ := isForest_spec g excluded
    exact ⟨forest, hrun, hiff.trans isFeedbackVertexSet_iff.symm⟩

theorem compute_minimal_fourCycle :
    ∃ F, compute (ofEdges 4 [(0, 1), (1, 2), (2, 3), (0, 3)]) (.ordered _) = .ok F ∧
      ∀ v ∈ F, ¬IsFeedbackVertexSet _ (F.erase v) := by
  obtain ⟨⟨F, hF, -, hmin⟩, -⟩ :=
    compute_minimal (ofEdges 4 [(0, 1), (1, 2), (2, 3), (0, 3)]) (.ordered _)
  exact ⟨F, hF, hmin⟩

end Dialysis.Fvs
