import GraphDialysis.Lib.PrefixCode
import GraphDialysis.Refinement.ColouringDispatch
import GraphDialysis.Sat.Exactness
import GraphDialysis.Sat.PerQueryDriver
import Mathlib.GroupTheory.GroupAction.Basic

/-! `dialysis.fvs.FvsSeededCampaign.runOne`: a feedback vertex set is closed under the classes of the
    encoding, the pairs of the closure are settled by orbit queries, and 1-WL starts from the
    classes found. The feedback vertex set is whatever `FeedbackVertexSet.compute` returns; its
    weights are doubles, so nothing is assumed of it here.

    The queries go to the side-preserving encoding alone. `runOne_sound_iff`: when nothing stayed
    unknown, the refined colouring keeps orbits together exactly when no automorphism moves a vertex
    of the closure to the other side, and on a cycle of four vertices one does. -/

namespace Dialysis.Fvs
open Lib Dialysis.Graph Ahu Refinement Dialysis.Sat

/-- The variables of the query loop; the source does not count the queries that stayed unknown. -/
structure CampaignState (n : ℕ) where
  uf : SeparatingUnionFind n
  queriesIssued : ℕ
  unknown : ℕ

/-- The numbers of a written row. -/
structure CampaignRow where
  n : ℕ
  m : ℕ
  fvsSize : ℕ
  seededSize : ℕ
  fvsQueries : ℕ
  fullAdmissiblePairs : ℕ
  wlCells : ℕ
  plainWlCells : ℕ
  trueOrbits : ℤ
  matched : Bool

/-- What a run has computed when it writes its row. -/
structure SeededRun (n : ℕ) where
  seeded : Finset (Fin n)
  last : CampaignState n
  refined : StablePartition n
  row : CampaignRow

section
variable {n : ℕ}

/-- `for (members in encoding.groups) if (members.any { it in fvs }) seeded.addAll(members)`. -/
def seededOf (groups : List (List (Fin n))) (fvs : Finset (Fin n)) : Finset (Fin n) :=
  groups.foldl
    (fun seeded members => if members.any (· ∈ fvs) then seeded ∪ members.toFinset else seeded) ∅

/-- The pairs the loops go through, group by group. -/
def seededPairs (groups : List (List (Fin n))) (seeded : Finset (Fin n)) : List (Fin n × Fin n) :=
  groups.flatMap fun members =>
    let inSeeded := members.filter (· ∈ seeded)
    if inSeeded.length ≤ 1 then [] else orderedPairs inSeeded

/-- `"fvs-orbit-${uf.find(v)}"`. -/
def fvsOrbit (r : Fin n) : Content := .str ("fvs-orbit-".toList ++ Content.digits r.val)

def nonFvs : Content := .str "non-fvs".toList

/-- The initial colouring of the second refinement. -/
def seedColouring (seeded : Finset (Fin n)) (uf : SeparatingUnionFind n) (v : Fin n) : Content :=
  if v ∈ seeded then fvsOrbit (uf.find v).1 else nonFvs

end

variable {g : Graph}

/-- One pair of the query loop; `solve` is what the solver returns to its calls, one after another,
    under the literal it is called with. A witness is used without a check. -/
def visitSeeded (encoding : CadicalEncoding g) (solve : ℕ → ℤ → SolverResult)
    (s : CampaignState g.n) (q : Fin g.n × Fin g.n) : Except String (CampaignState g.n) :=
  if q.1 = q.2 then .ok s
  else
    let (known, uf) := settled s.uf q.1 q.2
    if known then .ok { s with uf := uf }
    else
      let issued := s.queriesIssued + 1
      match queryOrbitMateCadical encoding q.1 q.2
          (solve s.queriesIssued (encoding.varOf q.1 q.2)) with
      | .sat alpha => (applyWitness uf alpha).map fun uf => { s with uf := uf, queriesIssued := issued }
      | .unsat => (uf.markSeparated q.1 q.2).map fun uf => { s with uf := uf, queriesIssued := issued }
      | .unknown => .ok ⟨uf, issued, s.unknown + 1⟩

/-- What follows the loop: both refinements and the row. -/
def seededRun (g : Graph) [g.Simple] (fvs : Finset (Fin g.n)) (trueOrbits : ℤ)
    (groups : List (List (Fin g.n))) (seeded : Finset (Fin g.n)) (s : CampaignState g.n) :
    SeededRun g.n :=
  let refined := colorRefine1WL g (seedColouring seeded s.uf)
  let plainRefined := colorRefine1WL g (uniformSeed g.n)
  { seeded := seeded
    last := s
    refined := refined
    row :=
      { n := g.n, m := g.m, fvsSize := fvs.card, seededSize := seeded.card
        fvsQueries := s.queriesIssued
        fullAdmissiblePairs := (groups.map fun c => c.length * (c.length - 1)).sum
        wlCells := refined.cells.length
        plainWlCells := plainRefined.cells.length
        trueOrbits := trueOrbits
        matched := (refined.cells.length : ℤ) = trueOrbits } }

/-- One instance of the campaign, up to the row it writes. -/
def runOne (g : Graph) [g.Simple] (fvs : Finset (Fin g.n)) (trueOrbits : ℤ)
    (solve : ℕ → ℤ → SolverResult) (pool : InternPool) :
    Except String (SeededRun g.n × InternPool) :=
  (dispatchColouring g false pool).bind fun (dispatch, pool) =>
    let encoding := (buildCadicalEncoding g fun v => (dispatch.colouring v).canon).2
    let seeded := seededOf encoding.groups fvs
    ((seededPairs encoding.groups seeded).foldlM (visitSeeded encoding solve)
      ⟨.init g.n, 0, 0⟩).map fun s =>
        (seededRun g fvs trueOrbits encoding.groups seeded s, pool)

/-! ### What a refined colouring should prove -/

/-- Orbits stay together, so the classes bound the number of orbits from below and a discrete
    colouring proves the graph rigid. -/
structure BoundsOrbits (g : Graph) (p : StablePartition g.n) : Prop where
  together : ∀ u v, OrbitMates g.Aut u v → (p.color u).Equals (p.color v)
  cells_le : p.cells.length ≤ Nat.card (MulAction.orbitRel.Quotient g.Aut (Fin g.n))
  rigid : p.isDiscrete = true → ∀ α ∈ g.Aut, α = 1

/-- A colouring that is constant on orbits has at most as many classes as there are orbits. -/
theorem classCount_le_card_orbits {Γ : Subgroup (Equiv.Perm (Fin g.n))} {c : Fin g.n → Content}
    (h : ∀ u v, OrbitMates Γ u v → (c u).Equals (c v)) :
    classCount c ≤ Nat.card (MulAction.orbitRel.Quotient Γ (Fin g.n)) := by
  classical
  have hlift : ∀ u v, MulAction.orbitRel Γ (Fin g.n) u v → (c u).canon = (c v).canon := by
    rintro u v ⟨α, rfl⟩
    exact ((h v (α.1 v) ⟨α.1, α.2, rfl⟩).symm : _)
  let f : MulAction.orbitRel.Quotient Γ (Fin g.n) → Content :=
    Quotient.lift (fun v => (c v).canon) hlift
  have hsub : (Finset.univ.image fun v => (c v).canon) ⊆ Finset.univ.image f := by
    intro k hk
    obtain ⟨v, -, rfl⟩ := Finset.mem_image.mp hk
    exact Finset.mem_image.mpr ⟨Quotient.mk _ v, Finset.mem_univ _, rfl⟩
  rw [classCount_eq_card, Nat.card_eq_fintype_card]
  exact (Finset.card_le_card hsub).trans Finset.card_image_le

theorem boundsOrbits_iff {ids : Fin g.n → ℕ} :
    BoundsOrbits g (stablePartitionFromNativeColors ids) ↔
      ∀ u v, OrbitMates g.Aut u v → ids u = ids v := by
  refine ⟨fun h u v huv => numColors_equals.mp (h.together u v huv), fun h => ?_⟩
  have htogether : ∀ u v, OrbitMates g.Aut u v → (numColors ids u).Equals (numColors ids v) :=
    fun u v huv => numColors_equals.mpr (h u v huv)
  refine ⟨htogether, ?_, fun hdisc α hα => Equiv.ext fun v => ?_⟩
  · exact (length_cellsOf ids).le.trans (classCount_le_card_orbits htogether)
  · obtain ⟨cell, hc, hv⟩ := exists_cell ids v
    have hαv : α v ∈ cell := (mem_cell_iff hc hv).mpr (h v (α v) ⟨α, hα, rfl⟩).symm
    have hlen := isDiscrete_iff.mp hdisc cell hc
    obtain ⟨x, rfl⟩ : ∃ x, cell = [x] := List.length_eq_one_iff.mp (by
      have := List.length_pos_of_mem hv; omega)
    rw [List.mem_singleton.mp hαv, Equiv.Perm.one_apply, List.mem_singleton.mp hv]

/-! ### The closure and its seeds -/

theorem mem_seededOf {n : ℕ} {groups : List (List (Fin n))} {fvs : Finset (Fin n)} {v : Fin n} :
    v ∈ seededOf groups fvs ↔ ∃ f ∈ fvs, SameClass groups f v := by
  have key : ∀ (groups : List (List (Fin n))) (acc : Finset (Fin n)),
      v ∈ groups.foldl (fun seeded members =>
          if members.any (· ∈ fvs) then seeded ∪ members.toFinset else seeded) acc ↔
        v ∈ acc ∨ ∃ f ∈ fvs, SameClass groups f v := by
    intro groups
    induction groups with
    | nil => intro acc; simp [SameClass]
    | cons members groups ih =>
      intro acc
      rw [List.foldl_cons, ih]
      have hmem : v ∈ (if members.any (· ∈ fvs) then acc ∪ members.toFinset else acc) ↔
          v ∈ acc ∨ ∃ f ∈ fvs, f ∈ members ∧ v ∈ members := by
        split
        · rename_i hany
          obtain ⟨f, hf, hfvs⟩ := List.any_eq_true.mp hany
          simp only [Finset.mem_union, List.mem_toFinset]
          refine or_congr_right ⟨fun hv => ⟨f, by simpa using hfvs, hf, hv⟩, ?_⟩
          rintro ⟨-, -, -, hv⟩
          exact hv
        · rename_i hany
          refine ⟨Or.inl, fun h => h.resolve_right ?_⟩
          rintro ⟨f, hfvs, hf, -⟩
          exact hany (List.any_eq_true.mpr ⟨f, hf, by simpa using hfvs⟩)
      rw [hmem, or_assoc]
      refine or_congr_right ⟨?_, ?_⟩
      · rintro (⟨f, hfvs, hf, hv⟩ | ⟨f, hfvs, c, hc, hf, hv⟩)
        · exact ⟨f, hfvs, members, by simp, hf, hv⟩
        · exact ⟨f, hfvs, c, List.mem_cons_of_mem _ hc, hf, hv⟩
      · rintro ⟨f, hfvs, c, hc, hf, hv⟩
        rcases List.mem_cons.mp hc with rfl | hc
        · exact Or.inl ⟨f, hfvs, hf, hv⟩
        · exact Or.inr ⟨f, hfvs, c, hc, hf, hv⟩
  rw [seededOf, key]
  simp

theorem mem_seededPairs {n : ℕ} {groups : List (List (Fin n))} {seeded : Finset (Fin n)}
    {q : Fin n × Fin n} (hne : q.1 ≠ q.2) :
    q ∈ seededPairs groups seeded ↔ SameClass groups q.1 q.2 ∧ q.1 ∈ seeded ∧ q.2 ∈ seeded := by
  simp only [seededPairs, List.mem_flatMap, SameClass]
  constructor
  · rintro ⟨members, hm, hq⟩
    split at hq
    · cases hq
    · obtain ⟨h₁, h₂⟩ := mem_orderedPairs.mp hq
      simp only [List.mem_filter, decide_eq_true_eq] at h₁ h₂
      exact ⟨⟨members, hm, h₁.1, h₂.1⟩, h₁.2, h₂.2⟩
  · rintro ⟨⟨members, hm, h₁, h₂⟩, hs₁, hs₂⟩
    have hin₁ : q.1 ∈ members.filter (· ∈ seeded) := List.mem_filter.mpr ⟨h₁, by simpa using hs₁⟩
    have hin₂ : q.2 ∈ members.filter (· ∈ seeded) := List.mem_filter.mpr ⟨h₂, by simpa using hs₂⟩
    refine ⟨members, hm, ?_⟩
    rw [if_neg ?_]
    · exact mem_orderedPairs.mpr ⟨hin₁, hin₂⟩
    · intro hlen
      have hone : (members.filter (· ∈ seeded)).length = 1 := by
        have := List.length_pos_of_mem hin₁; omega
      obtain ⟨x, hx⟩ := List.length_eq_one_iff.mp hone
      rw [hx, List.mem_singleton] at hin₁ hin₂
      exact hne (hin₁.trans hin₂.symm)

theorem fvsOrbit_equals {n : ℕ} {a b : Fin n} : (fvsOrbit a).Equals (fvsOrbit b) ↔ a = b := by
  refine ⟨fun h => ?_, fun h => h ▸ rfl⟩
  have hstr : "fvs-orbit-".toList ++ Content.digits a.val =
      "fvs-orbit-".toList ++ Content.digits b.val := by injection h
  exact Fin.ext (toDigits_inj (List.append_cancel_left hstr))

theorem fvsOrbit_ne_nonFvs {n : ℕ} (a : Fin n) : ¬(fvsOrbit a).Equals nonFvs := by
  intro h
  have hstr : "fvs-orbit-".toList ++ Content.digits a.val = "non-fvs".toList := by injection h
  have hhead : 'f' = 'n' := by injection hstr
  exact absurd hhead (by decide)

/-- Two seeds are equal when both vertices are in the closure and known to be mates, or neither is
    in the closure. -/
theorem seedColouring_equals {n : ℕ} {seeded : Finset (Fin n)} {uf : SeparatingUnionFind n}
    {u v : Fin n} : (seedColouring seeded uf u).Equals (seedColouring seeded uf v) ↔
      (u ∈ seeded ↔ v ∈ seeded) ∧ (u ∈ seeded → uf.view.mates u v) := by
  unfold seedColouring
  rw [SeparatingUnionFind.mates_view, SeparatingUnionFind.find_fst, SeparatingUnionFind.find_fst]
  by_cases hu : u ∈ seeded <;> by_cases hv : v ∈ seeded <;>
    simp only [hu, hv, if_true, if_false, fvsOrbit_equals, forall_const, true_and, false_and,
      iff_false, not_true, IsEmpty.forall_iff, and_true, iff_true]
  · exact fvsOrbit_ne_nonFvs _
  · exact fun h => fvsOrbit_ne_nonFvs _ h.symm
  · rfl

/-! ### The query loop -/

/-- After the pairs `done`: what is recorded is true of the orbits of `Γ`, and every pair is settled
    unless a query stayed unknown. -/
structure CampaignInv (Γ : Subgroup (Equiv.Perm (Fin g.n))) (done : List (Fin g.n × Fin g.n))
    (s : CampaignState g.n) : Prop where
  sound : s.uf.view.Sound (OrbitMates Γ)
  settled : ∀ q ∈ done, q.1 = q.2 ∨ s.uf.view.Decided q.1 q.2 ∨ 0 < s.unknown

theorem CampaignInv.next {Γ : Subgroup (Equiv.Perm (Fin g.n))} {done : List (Fin g.n × Fin g.n)}
    {s s' : CampaignState g.n} {q : Fin g.n × Fin g.n} (h : CampaignInv Γ done s)
    (hsound : s'.uf.view.Sound (OrbitMates Γ)) (hle : s.uf.view.Le s'.uf.view)
    (hunk : s.unknown ≤ s'.unknown)
    (hq : q.1 = q.2 ∨ s'.uf.view.Decided q.1 q.2 ∨ 0 < s'.unknown) :
    CampaignInv Γ (done ++ [q]) s' := by
  refine ⟨hsound, fun p hp => ?_⟩
  rcases List.mem_append.mp hp with hp | hp
  · exact (h.settled p hp).imp_right (Or.imp hle.decided hunk.trans_lt')
  · exact List.mem_singleton.mp hp ▸ hq

/-- One pair, asked of a solver whose answers are correct about `Γ`. -/
theorem visitSeeded_ok {Γ : Subgroup (Equiv.Perm (Fin g.n))} {encoding : CadicalEncoding g}
    {solve : ℕ → ℤ → SolverResult} {done : List (Fin g.n × Fin g.n)} {s : CampaignState g.n}
    {q : Fin g.n × Fin g.n}
    (hans : ∀ k, (queryOrbitMateCadical encoding q.1 q.2
      (solve k (encoding.varOf q.1 q.2))).Answers (· ∈ Γ) q.1 q.2)
    (h : CampaignInv Γ done s) :
    ∃ s', visitSeeded encoding solve s q = .ok s' ∧ CampaignInv Γ (done ++ [q]) s' := by
  have horb := orbitMates_equivalence Γ
  unfold visitSeeded
  split
  · rename_i heq
    exact ⟨s, rfl, h.next h.sound (Knowledge.Le.refl _) le_rfl (Or.inl heq)⟩
  dsimp only
  have hview := view_settled s.uf q.1 q.2
  have hsound : (settled s.uf q.1 q.2).2.view.Sound (OrbitMates Γ) := hview ▸ h.sound
  have hle : s.uf.view.Le (settled s.uf q.1 q.2).2.view := hview ▸ Knowledge.Le.refl _
  split
  · rename_i hknown
    refine ⟨_, rfl, h.next hsound hle le_rfl (Or.inr (Or.inl ?_))⟩
    exact hview ▸ (settled_iff s.uf q.1 q.2).mp hknown
  · have hr := hans s.queriesIssued
    generalize queryOrbitMateCadical encoding q.1 q.2
      (solve s.queriesIssued (encoding.varOf q.1 q.2)) = r at hr ⊢
    cases r with
    | sat alpha =>
      obtain ⟨α, hα, huv, hdef⟩ := hr
      obtain ⟨uf', hok, hsound', hle', hall⟩ :=
        applyWitness_ok horb hsound hdef fun w => ⟨α, hα, rfl⟩
      refine ⟨⟨uf', s.queriesIssued + 1, s.unknown⟩, by simp only [hok]; rfl,
        h.next hsound' (hle.trans hle') le_rfl (Or.inr (Or.inl (Or.inl ?_)))⟩
      exact huv ▸ hall q.1
    | unsat =>
      have hnot : ¬OrbitMates Γ q.1 q.2 := fun ⟨α, hα, he⟩ => hr α hα he
      obtain ⟨uf', hok, hsound', hle', hap⟩ := markSeparated_sound horb hsound hnot
      exact ⟨⟨uf', s.queriesIssued + 1, s.unknown⟩, by simp only [hok]; rfl,
        h.next hsound' (hle.trans hle') le_rfl (Or.inr (Or.inl (Or.inr hap)))⟩
    | unknown =>
      exact ⟨_, rfl, h.next hsound hle (Nat.le_succ _) (Or.inr (Or.inr (Nat.succ_pos _)))⟩

/-- The whole loop never throws, and what it knows at its end is true. -/
theorem querySeeded_ok {Γ : Subgroup (Equiv.Perm (Fin g.n))} (encoding : CadicalEncoding g)
    (solve : ℕ → ℤ → SolverResult) (pairs : List (Fin g.n × Fin g.n))
    (hans : ∀ k u v, (queryOrbitMateCadical encoding u v
      (solve k (encoding.varOf u v))).Answers (· ∈ Γ) u v) :
    ∃ s, pairs.foldlM (visitSeeded encoding solve) ⟨.init g.n, 0, 0⟩ = .ok s ∧
      CampaignInv Γ pairs s := by
  have hstart : CampaignInv Γ [] (⟨.init g.n, 0, 0⟩ : CampaignState g.n) :=
    ⟨by simpa using Knowledge.sound_nothing (orbitMates_equivalence Γ), by simp⟩
  obtain ⟨s, hs, hinv⟩ := foldlM_ok (f := visitSeeded encoding solve) (P := CampaignInv Γ)
    (fun done q s _ h => visitSeeded_ok (fun k => hans k q.1 q.2) h) pairs [] _ (fun _ h => h) hstart
  exact ⟨s, hs, by rwa [List.nil_append] at hinv⟩

theorem queryOrbitMateCadical_ne_unknown {encoding : CadicalEncoding g} {u v : Fin g.n}
    {solve : SolverResult} (h : solve ≠ .unknown) :
    queryOrbitMateCadical encoding u v solve ≠ .unknown := by
  unfold queryOrbitMateCadical
  split
  · nofun
  · cases solve with
    | sat value => nofun
    | unsat => nofun
    | unknown => exact absurd rfl h

/-- Only a query that stayed unknown is counted as one. -/
theorem querySeeded_unknown {encoding : CadicalEncoding g} {solve : ℕ → ℤ → SolverResult}
    (hsolve : ∀ k l, solve k l ≠ .unknown) {pairs : List (Fin g.n × Fin g.n)}
    {s s' : CampaignState g.n} (h : pairs.foldlM (visitSeeded encoding solve) s = .ok s')
    (hs : s.unknown = 0) : s'.unknown = 0 := by
  refine foldlM_inv (f := visitSeeded encoding solve) (P := fun _ s => s.unknown = 0)
    (fun _ q s s' hs hstep => ?_) pairs [] s s' hs h
  unfold visitSeeded at hstep
  split at hstep
  · cases hstep; exact hs
  dsimp only at hstep
  split at hstep
  · cases hstep; exact hs
  · split at hstep
    · obtain ⟨uf, -, rfl⟩ := map_ok hstep; exact hs
    · obtain ⟨uf, -, rfl⟩ := map_ok hstep; exact hs
    · exact absurd ‹_› (queryOrbitMateCadical_ne_unknown (hsolve _ _))

/-! ### When the run is sound -/

/-- The classes of the encoding. -/
def encodingGroups (g : Graph) (colouring : Fin g.n → Content) : List (List (Fin g.n)) :=
  computePreserveGroups g fun v => (colouring v).canon

/-- No automorphism moves a vertex of the closure to the other side; the closure consists of the
    vertices that share a class of the encoding with a vertex of the feedback vertex set. -/
def ClosureKeepsSides (g : Graph) (fvs : Finset (Fin g.n)) (colouring : Fin g.n → Content) : Prop :=
  ∀ α ∈ g.Aut, ∀ f ∈ fvs, ∀ v,
    SameClass (encodingGroups g colouring) f v → g.side (α v) = g.side v

section
variable [g.Simple] {fvs : Finset (Fin g.n)} {trueOrbits : ℤ} {solve : ℕ → ℤ → SolverResult}
  {pool pool' : InternPool} {dispatch : ColouringDispatch g.n}

/-- With a correct solver a run writes its row. -/
theorem runOne_ok (hd : dispatchColouring g false pool = .ok (dispatch, pool'))
    (hsolve : ∀ k l, (solve k l).Correct
      (buildCadicalEncoding g fun v => (dispatch.colouring v).canon).1 l) :
    ∃ s, runOne g fvs trueOrbits solve pool = .ok (seededRun g fvs trueOrbits
        (encodingGroups g dispatch.colouring)
        (seededOf (encodingGroups g dispatch.colouring) fvs) s, pool') ∧
      ((∀ k l, solve k l ≠ .unknown) → s.unknown = 0) ∧
      CampaignInv (keepGroup g fun v => (dispatch.colouring v).canon)
        (seededPairs (encodingGroups g dispatch.colouring)
          (seededOf (encodingGroups g dispatch.colouring) fvs)) s := by
  have henc := encodes_hybrid (g := g) defaultEdgeThreshold fun v => (dispatch.colouring v).canon
  obtain ⟨s, hs, hinv⟩ := querySeeded_ok (Γ := keepGroup g fun v => (dispatch.colouring v).canon)
    (buildCadicalEncoding g fun v => (dispatch.colouring v).canon).2 solve
    (seededPairs (encodingGroups g dispatch.colouring)
      (seededOf (encodingGroups g dispatch.colouring) fvs))
    fun k u v => henc.answers ⟨_, hsolve k _, rfl⟩
  refine ⟨s, ?_, fun hdef => querySeeded_unknown hdef hs rfl, hinv⟩
  rw [runOne, hd]
  exact congrArg (Except.map _) hs

omit [g.Simple] in
/-- Two vertices of the closure with equal seeds are on one side. -/
theorem side_eq_of_seeds {colorOf : Fin g.n → Content} {seeded : Finset (Fin g.n)}
    {pairs : List (Fin g.n × Fin g.n)} (hinv : CampaignInv (keepGroup g colorOf) pairs s)
    {u v : Fin g.n} (hu : u ∈ seeded)
    (h : (seedColouring seeded s.uf u).Equals (seedColouring seeded s.uf v)) :
    g.side v = g.side u := by
  obtain ⟨α, ⟨-, -, hkeep⟩, rfl⟩ := hinv.sound.mates ((seedColouring_equals.mp h).2 hu)
  exact hkeep u

/-- When automorphisms keep the sides of the closure and nothing stayed unknown, they keep seeds. -/
theorem seeds_of_keepsSides {colouring : Fin g.n → Content}
    (hcol : ∀ α ∈ g.Aut, ∀ v, colouring (α v) = colouring v)
    (hinv : CampaignInv (keepGroup g fun v => (colouring v).canon)
      (seededPairs (encodingGroups g colouring)
        (seededOf (encodingGroups g colouring) fvs)) s)
    (hunknown : s.unknown = 0) (hkeep : ClosureKeepsSides g fvs colouring)
    {α : Equiv.Perm (Fin g.n)} (hα : α ∈ g.Aut) (v : Fin g.n) :
    (seedColouring (seededOf (encodingGroups g colouring) fvs) s.uf
      (α v)).Equals
    (seedColouring (seededOf (encodingGroups g colouring) fvs) s.uf v) := by
  set groups := encodingGroups g colouring with hgroups
  have hpres : ∀ β, IsAut g β → PreservesColour (fun v => (colouring v).canon) β :=
    fun β hβ w => congrArg Content.canon (hcol β hβ w)
  have hside : ∀ β ∈ g.Aut, ∀ w ∈ seededOf groups fvs, g.side (β w) = g.side w := by
    intro β hβ w hw
    obtain ⟨f, hf, hfw⟩ := mem_seededOf.mp hw
    exact hkeep β hβ f hf w hfw
  have hclosed : ∀ β ∈ g.Aut, ∀ w ∈ seededOf groups fvs, β w ∈ seededOf groups fvs := by
    intro β hβ w hw
    obtain ⟨f, hf, hfw⟩ := mem_seededOf.mp hw
    have hwβ := sameClass_of_keeps hβ (hpres β hβ) (hside β hβ w hw)
    refine mem_seededOf.mpr ⟨f, hf, ?_⟩
    rw [hgroups, encodingGroups, computePreserveGroups, sameClass_groups] at hfw ⊢
    rw [computePreserveGroups, sameClass_groups] at hwβ
    exact ⟨hfw.1, hwβ.2.1, hfw.2.2.trans hwβ.2.2⟩
  refine Content.Equals.symm (seedColouring_equals.mpr ⟨⟨hclosed α hα v, fun h => ?_⟩, fun hv => ?_⟩)
  · have hback := hclosed α⁻¹ (g.Aut.inv_mem hα) _ h
    rwa [show α⁻¹ (α v) = v from α.symm_apply_apply v] at hback
  · -- the pair was settled, and it cannot have been separated
    have hmates := keepGroup_of_side_eq hpres hα (hside α hα v hv)
    rcases eq_or_ne v (α v) with heq | hne
    · rw [← heq]
      exact s.uf.view.equiv.refl v
    · have hpair := (mem_seededPairs (q := (v, α v)) hne).mpr
        ⟨sameClass_of_keeps hα (hpres α hα) (hside α hα v hv), hv, hclosed α hα v hv⟩
      rcases hinv.settled _ hpair with h | h | h
      · exact absurd h hne
      · exact h.resolve_right (hinv.sound.not_apart hmates)
      · omega

/-- The criterion, for the last state of the loop. -/
theorem boundsOrbits_iff_keepsSides {colouring : Fin g.n → Content}
    (hcol : ∀ α ∈ g.Aut, ∀ v, colouring (α v) = colouring v)
    (hinv : CampaignInv (keepGroup g fun v => (colouring v).canon)
      (seededPairs (encodingGroups g colouring)
        (seededOf (encodingGroups g colouring) fvs)) s)
    (hunknown : s.unknown = 0) :
    BoundsOrbits g (colorRefine1WL g (seedColouring
      (seededOf (encodingGroups g colouring) fvs) s.uf)) ↔
      ClosureKeepsSides g fvs colouring := by
  rw [colorRefine1WL, boundsOrbits_iff]
  constructor
  · intro h α hα f hf v hfv
    exact side_eq_of_seeds hinv (mem_seededOf.mpr ⟨f, hf, hfv⟩)
      (stableInts_refines (h v (α v) ⟨α, hα, rfl⟩))
  · rintro hkeep u v ⟨α, hα, rfl⟩
    exact (stableInts_iso hα (fun w => seeds_of_keepsSides hcol hinv hunknown hkeep hα w) u).symm

end

/-- With a correct solver and no query left unknown, the classes of a run keep orbits together, and
    so bound their number and prove rigidity, exactly when no automorphism moves a vertex of the
    closure to the other side. On a graph that is not bipartite there is one side only. -/
theorem runOne_sound_iff (g : Graph) [g.Simple] (fvs : Finset (Fin g.n)) (trueOrbits : ℤ)
    (solve : ℕ → ℤ → SolverResult) (pool pool' : InternPool) (dispatch : ColouringDispatch g.n)
    (hd : dispatchColouring g false pool = .ok (dispatch, pool'))
    (hsolve : ∀ k l, (solve k l).Correct
      (buildCadicalEncoding g fun v => (dispatch.colouring v).canon).1 l) :
    ∃ run, runOne g fvs trueOrbits solve pool = .ok (run, pool') ∧
      run.row.wlCells = run.refined.cells.length ∧
      (run.last.unknown = 0 →
        (BoundsOrbits g run.refined ↔ ClosureKeepsSides g fvs dispatch.colouring)) := by
  have horbits := (dispatchColouring_sound g false pool pool' dispatch hd).1
  obtain ⟨s, hrun, -, hinv⟩ := runOne_ok hd hsolve
  exact ⟨_, hrun, rfl, fun hunknown => boundsOrbits_iff_keepsSides horbits hinv hunknown⟩

/-! ### A cycle of four vertices -/

abbrev fourCycle : Graph := ofEdges 4 [(0, 1), (1, 2), (2, 3), (0, 3)]

/-- A solver that decides every call. -/
theorem exists_deciding_solver (F : Cnf.Formula) : ∃ solve : ℕ → ℤ → SolverResult,
    (∀ k l, (solve k l).Correct F l) ∧ ∀ k l, solve k l ≠ .unknown := by
  have hone : ∀ l, ∃ r : SolverResult, r.Correct F l ∧ r ≠ .unknown := by
    intro l
    by_cases h : ∃ value, Cnf.Models value F ∧ Cnf.holds value l
    · obtain ⟨value, hvalue⟩ := h
      exact ⟨.sat value, hvalue, nofun⟩
    · exact ⟨.unsat, fun value hF hl => h ⟨value, hF, hl⟩, nofun⟩
  choose solve hcorrect hdecides using hone
  exact ⟨fun _ l => solve l, fun _ l => hcorrect l, fun _ l => hdecides l⟩

theorem dispatchColouring_fourCycle : ∃ r, dispatchColouring fourCycle false .empty = .ok r := by
  obtain ⟨pi, hpi⟩ : ∃ r,
      initialPhase fourCycle (uniformSeed fourCycle.n) true none .empty = .ok r := by
    refine initialPhase_ok (fun _ h => by cases h) (by decide +kernel) fun v s hs => ?_
    obtain ⟨i, -, rfl⟩ := hs
    revert v i
    decide +kernel
  rw [dispatchColouring, if_pos (by decide +kernel), hpi]
  exact ⟨_, rfl⟩

/-- The rotation of the cycle. -/
def rotation : Equiv.Perm (Fin fourCycle.n) := finRotate 4

/-- On a cycle of four vertices with a single feedback vertex the queries are all answered, and the
    refined colouring separates two neighbours although the rotation carries one to the other. -/
theorem runOne_separates_neighbours : ∃ (dispatch : ColouringDispatch fourCycle.n)
    (pool' : InternPool) (solve : ℕ → ℤ → SolverResult) (run : SeededRun fourCycle.n),
    dispatchColouring fourCycle false .empty = .ok (dispatch, pool') ∧
    (∀ k l, (solve k l).Correct (buildCadicalEncoding fourCycle
      fun v => (dispatch.colouring v).canon).1 l) ∧
    runOne fourCycle {(0 : Fin 4)} 1 solve .empty = .ok (run, pool') ∧
    run.last.unknown = 0 ∧
    OrbitMates fourCycle.Aut (0 : Fin 4) (1 : Fin 4) ∧
    ¬(run.refined.color (0 : Fin 4)).Equals (run.refined.color (1 : Fin 4)) := by
  obtain ⟨⟨dispatch, pool'⟩, hd⟩ := dispatchColouring_fourCycle
  obtain ⟨solve, hsolve, hdecides⟩ := exists_deciding_solver
    (buildCadicalEncoding fourCycle fun v => (dispatch.colouring v).canon).1
  obtain ⟨s, hrun, hunknown, hinv⟩ := runOne_ok hd hsolve
  refine ⟨dispatch, pool', solve, _, hd, hsolve, hrun, hunknown hdecides,
    ⟨rotation, mem_aut.mpr (by decide), rfl⟩, fun h => ?_⟩
  have hself : SameClass (encodingGroups fourCycle dispatch.colouring) (0 : Fin 4) (0 : Fin 4) :=
    sameClass_groups.mpr ⟨List.mem_finRange _, List.mem_finRange _, rfl⟩
  have hseeded := mem_seededOf.mpr ⟨(0 : Fin 4), Finset.mem_singleton_self (0 : Fin 4), hself⟩
  have hside := side_eq_of_seeds hinv hseeded (stableInts_refines (numColors_equals.mp h))
  exact absurd hside (by decide +kernel)

/-- The criterion on the same cycle: the rotation moves the feedback vertex to the other side. -/
theorem runOne_sound_iff_fourCycle : ∃ (dispatch : ColouringDispatch fourCycle.n)
    (pool' : InternPool) (solve : ℕ → ℤ → SolverResult) (run : SeededRun fourCycle.n),
    dispatchColouring fourCycle false .empty = .ok (dispatch, pool') ∧
    runOne fourCycle {(0 : Fin 4)} 1 solve .empty = .ok (run, pool') ∧
    (run.last.unknown = 0 →
      (BoundsOrbits fourCycle run.refined ↔
        ClosureKeepsSides fourCycle {(0 : Fin 4)} dispatch.colouring)) := by
  obtain ⟨⟨dispatch, pool'⟩, hd⟩ := dispatchColouring_fourCycle
  obtain ⟨solve, hsolve, -⟩ := exists_deciding_solver
    (buildCadicalEncoding fourCycle fun v => (dispatch.colouring v).canon).1
  obtain ⟨run, hrun, -, hiff⟩ :=
    runOne_sound_iff fourCycle {(0 : Fin 4)} 1 solve .empty pool' dispatch hd hsolve
  exact ⟨dispatch, pool', solve, run, hd, hrun, hiff⟩

end Dialysis.Fvs
