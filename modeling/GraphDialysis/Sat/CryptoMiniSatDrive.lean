import GraphDialysis.Sat.CryptoMiniSatSolver
import GraphDialysis.Sat.EncodingSize
import GraphDialysis.Sat.Exactness

/-! The CryptoMiniSat path from the library to the orbits. One solver is given the clauses of the encoding
    and then answers every query of a drive, each under one assumption. As the handle stands for the
    same clauses after every query (`Ready`), no answer depends on the queries before it, and the drive
    ends with the orbits of the automorphisms that the encoding is about (`drive_orbits`). -/

namespace Dialysis.Sat.CryptoMiniSat
open Lib Lib.Cnf Lib.Parity Lib.Matrix Dialysis.Graph
variable {Colour : Type*} [DecidableEq Colour] {σ : Type*} (S : SATSolver σ) {g : Graph}

/-- `queryOrbitMateCryptoMiniSat`, with the solver before and after. -/
def queryOrbitMateCryptoMiniSat (encoding : CadicalEncoding g) (h : Handle σ) (u v : Fin g.n)
    (timeoutMs : ℤ) : SatQueryResult g.n × Handle σ :=
  let varUV := encoding.varOf u v
  if varUV < 0 then (.unsat, h)
  else
    let r := solve S (nativeAssume S h varUV) timeoutMs
    match r.1 with
    | .SAT => (.sat (decodeModel encoding fun vid => decide (0 < nativeVal S r.2 vid)), r.2)
    | .UNSAT => (.unsat, r.2)
    | .UNKNOWN => (.unknown, r.2)

/-- The solver that `buildCryptoMiniSatEncoding` returns. -/
def buildSolver (g : Graph) (colorOf : Fin g.n → Colour) (edgeThreshold : ℤ) : Handle σ :=
  (buildCryptoMiniSatEncoding g colorOf edgeThreshold).1.foldl (addClause S) (nativeInit S)

/-- One pair of a pass, with the solver: it is asked only about a pair that is not settled. -/
def askFor (encoding : CadicalEncoding g) (timeoutMs : ℤ)
    (pass : (ℕ → PendingPair g.n → SatQueryResult g.n) → DriveState g.n → PendingPair g.n →
      Except String (DriveState g.n))
    (p : DriveState g.n × Handle σ) (q : PendingPair g.n) : Except String (DriveState g.n × Handle σ) :=
  if (settled p.1.uf q.u q.v).1 then (pass (fun _ _ => .unknown) p.1 q).map fun s => (s, p.2)
  else
    let r := queryOrbitMateCryptoMiniSat S encoding p.2 q.u q.v timeoutMs
    (pass (fun _ _ => r.1) p.1 q).map fun s => (s, r.2)

def driveToOrbitsCryptoMiniSat (h : Handle σ) (encoding : CadicalEncoding g) (timeoutMs shortMs : ℤ) :
    Except String (OrbitDriveResult g.n × Handle σ) := do
  let p ← (collect encoding false).foldlM (askFor S encoding shortMs (shortPass g))
    (⟨SeparatingUnionFind.init g.n, 0, 0, 0, 0, 0, 0, 0, [], 0⟩, h)
  let p ← p.1.survivors.foldlM (askFor S encoding timeoutMs (longPass g)) p
  return (⟨Lib.groups (fun v => (p.1.uf.find v).1) (List.finRange g.n), p.1.queriesIssued, p.1.sat,
    p.1.unsat, p.1.unknown, p.1.skipped, p.1.generators, p.1.verified, 0⟩, p.2)

/-! ### One solver for all queries -/

section
variable {S} {sat : σ → (ℕ → Bool) → Prop} (hS : S.Keeps sat) {h : Handle σ} {F : Formula}

/-- The handle stands for the clauses alone, with nothing begun or assumed. -/
def Ready (S : SATSolver σ) (sat : σ → (ℕ → Bool) → Prop) (F : Formula) (h : Handle σ) : Prop :=
  ∃ top, Refines S sat h ⟨F, [], [], [], top⟩

include hS

theorem refines_literals : ∀ {lits : List ℤ} {h : Handle σ} {c : Clause} {top : ℕ},
    Refines S sat h ⟨F, [], c, [], top⟩ → (∀ l ∈ lits, IsLiteral l) →
    ∃ top', Refines S sat (lits.foldl (nativeAdd S) h) ⟨F, [], c ++ lits, [], top'⟩
  | [], _, c, top, hr, _ => ⟨top, by rwa [List.append_nil]⟩
  | l :: lits, h, c, top, hr, hlits => by
    have hstep := refines_add hS hr (Or.inr (hlits l List.mem_cons_self))
    rw [Session.step, if_neg (hlits l List.mem_cons_self).1] at hstep
    obtain ⟨top', hr'⟩ := refines_literals hstep fun x hx => hlits x (List.mem_cons_of_mem _ hx)
    refine ⟨top', ?_⟩
    rw [List.append_assoc] at hr'
    exact hr'

theorem ready_addClause (hr : Ready S sat F h) {c : Clause} (hc : ∀ l ∈ c, IsLiteral l) :
    Ready S sat (F ++ [c]) (addClause S h c) := by
  obtain ⟨top, hr⟩ := hr
  obtain ⟨top', hr'⟩ := refines_literals hS hr hc
  have hclosed := refines_add hS hr' (Or.inl rfl)
  rw [Session.step, if_pos rfl] at hclosed
  exact ⟨top', hclosed⟩

theorem ready_addClauses : ∀ {G : Formula} {h : Handle σ} {F : Formula}, Ready S sat F h →
    (∀ c ∈ G, ∀ l ∈ c, IsLiteral l) → Ready S sat (F ++ G) (G.foldl (addClause S) h)
  | [], _, _, hr, _ => by rwa [List.append_nil]
  | c :: G, h, F, hr, hG => by
    have hr₁ := ready_addClause hS hr (hG c List.mem_cons_self)
    have hr' := ready_addClauses hr₁ fun d hd => hG d (List.mem_cons_of_mem _ hd)
    rwa [List.append_assoc] at hr'

/-- A query is answered correctly and leaves the solver as it was, up to what it has learned. -/
theorem query_spec {encoding : CadicalEncoding g} (hr : Ready S sat F h) {u v : Fin g.n}
    (hvar : 0 ≤ encoding.varOf u v → IsLiteral (encoding.varOf u v)) (timeoutMs : ℤ) :
    QueryAnswers (F, encoding) u v (queryOrbitMateCryptoMiniSat S encoding h u v timeoutMs).1 ∧
      Ready S sat F (queryOrbitMateCryptoMiniSat S encoding h u v timeoutMs).2 := by
  rw [queryOrbitMateCryptoMiniSat]
  by_cases hneg : encoding.varOf u v < 0
  · simp only [if_pos hneg]
    exact ⟨⟨.unknown, trivial, by rw [queryOrbitMateCadical, if_pos hneg]⟩, hr⟩
  simp only [if_neg hneg]
  obtain ⟨top, hr⟩ := hr
  have hlit := hvar (not_lt.mp hneg)
  have hassumed : Refines S sat (nativeAssume S h (encoding.varOf u v)) _ :=
    @refines_step σ S sat hS h _ hr (.assume (encoding.varOf u v)) hlit
  have hsolved := @refines_step σ S sat hS _ _ hassumed (.solve timeoutMs) trivial
  obtain ⟨hsat, hunsat⟩ := solve_spec hS hassumed timeoutMs
  have hready : Ready S sat F (solve S (nativeAssume S h (encoding.varOf u v)) timeoutMs).2 := ⟨_, hsolved⟩
  cases hres : (solve S (nativeAssume S h (encoding.varOf u v)) timeoutMs).1 with
  | SAT =>
    obtain ⟨⟨hmodels, -⟩, hholds⟩ := hsat hres
    exact ⟨⟨.sat _, ⟨hmodels, hholds _ (by simp [Session.step])⟩, by
      rw [queryOrbitMateCadical, if_neg hneg]⟩, hready⟩
  | UNSAT =>
    refine ⟨⟨.unsat, fun τ hτ hholds => hunsat hres τ ⟨hτ, by simp [Session.step]⟩ ?_, by
      rw [queryOrbitMateCadical, if_neg hneg]⟩, hready⟩
    simpa [Session.step] using hholds
  | UNKNOWN => exact ⟨⟨.unknown, trivial, by rw [queryOrbitMateCadical, if_neg hneg]⟩, hready⟩

/-! ### The drive -/

variable {encoding : CadicalEncoding g} {Γ : Subgroup (Equiv.Perm (Fin g.n))}
  (hΓ : Γ ≤ g.Aut) (hencodes : Encodes (F, encoding) (· ∈ Γ))
  (hlits : ∀ u v, 0 ≤ encoding.varOf u v → IsLiteral (encoding.varOf u v))
include hΓ hencodes hlits

theorem askFor_short {p : DriveState g.n × Handle σ} {q : PendingPair g.n} {done : List (PendingPair g.n)}
    (hs : ShortInv Γ done p.1) (hr : Ready S sat F p.2) (timeoutMs : ℤ) :
    ∃ p', askFor S encoding timeoutMs (shortPass g) p q = .ok p' ∧
      ShortInv Γ (done ++ [q]) p'.1 ∧ Ready S sat F p'.2 := by
  rw [askFor]
  split_ifs
  · obtain ⟨s', hok, hinv⟩ := @shortPass_ok g Γ p.1 q (fun _ _ => .unknown) hΓ (fun _ => trivial) done hs
    exact ⟨(s', p.2), by rw [hok]; rfl, hinv, hr⟩
  · obtain ⟨hanswers, hr'⟩ := query_spec hS hr (hlits q.u q.v) timeoutMs
    obtain ⟨s', hok, hinv⟩ := @shortPass_ok g Γ p.1 q (fun _ _ => _) hΓ
      (fun _ => hencodes.answers hanswers) done hs
    exact ⟨(s', _), by dsimp only; rw [hok]; rfl, hinv, hr'⟩

theorem askFor_long {p : DriveState g.n × Handle σ} {q : PendingPair g.n} {queue done : List (PendingPair g.n)}
    (hs : LongInv Γ queue done p.1) (hr : Ready S sat F p.2) (timeoutMs : ℤ) :
    ∃ p', askFor S encoding timeoutMs (longPass g) p q = .ok p' ∧
      LongInv Γ queue (done ++ [q]) p'.1 ∧ p'.1.survivors = p.1.survivors ∧ Ready S sat F p'.2 := by
  rw [askFor]
  split_ifs
  · obtain ⟨s', hok, hinv, hsurv⟩ :=
      @longPass_ok g Γ p.1 q (fun _ _ => .unknown) hΓ (fun _ => trivial) queue done hs
    exact ⟨(s', p.2), by rw [hok]; rfl, hinv, hsurv, hr⟩
  · obtain ⟨hanswers, hr'⟩ := query_spec hS hr (hlits q.u q.v) timeoutMs
    obtain ⟨s', hok, hinv, hsurv⟩ := @longPass_ok g Γ p.1 q (fun _ _ => _) hΓ
      (fun _ => hencodes.answers hanswers) queue done hs
    exact ⟨(s', _), by dsimp only; rw [hok]; rfl, hinv, hsurv, hr'⟩

/-- Both passes, as `driveQueue_spec` has it for answers that do not come from one solver. -/
theorem drive_spec (hr : Ready S sat F h) (timeoutMs shortMs : ℤ) :
    ∃ (res : OrbitDriveResult g.n) (h' : Handle σ) (uf : SeparatingUnionFind g.n),
      driveToOrbitsCryptoMiniSat S h encoding timeoutMs shortMs = .ok (res, h') ∧ Ready S sat F h' ∧
      res.orbits = Lib.groups uf.root (List.finRange g.n) ∧ uf.view.Sound (OrbitMates Γ) ∧
      res.queriesSat + res.queriesUnsat + res.queriesUnknown = res.queriesIssued ∧
      ∀ q ∈ collect encoding false, uf.view.Decided q.u q.v ∨ 0 < res.queriesUnknown := by
  have hstart : ShortInv Γ [] (⟨SeparatingUnionFind.init g.n, 0, 0, 0, 0, 0, 0, 0, [], 0⟩ :
      DriveState g.n) :=
    ⟨⟨by simpa using Knowledge.sound_nothing (orbitMates_equivalence Γ), rfl⟩, by simp, by simp⟩
  obtain ⟨p₁, h₁, hinv₁, hr₁⟩ := foldlM_ok (f := askFor S encoding shortMs (shortPass g))
    (P := fun done p => ShortInv Γ done p.1 ∧ Ready S sat F p.2)
    (fun done q p _ hp => askFor_short hS hΓ hencodes hlits hp.1 hp.2 shortMs)
    (collect encoding false) [] (_, h) (fun _ hq => hq) ⟨hstart, hr⟩
  rw [List.nil_append] at hinv₁
  obtain ⟨p₂, h₂, ⟨hinv₂, hsurv⟩, hr₂⟩ := foldlM_ok (f := askFor S encoding timeoutMs (longPass g))
    (P := fun done p => (LongInv Γ (collect encoding false) done p.1 ∧
      p.1.survivors = p₁.1.survivors) ∧ Ready S sat F p.2)
    (fun done q p _ hp => by
      obtain ⟨p', hok, hinv, hsurv, hr'⟩ := askFor_long (q := q) hS hΓ hencodes hlits hp.1.1 hp.2 timeoutMs
      exact ⟨p', hok, ⟨hinv, hsurv.trans hp.1.2⟩, hr'⟩)
    p₁.1.survivors [] p₁ (fun _ hq => hq) ⟨⟨⟨hinv₁.toDriveInv, hinv₁.cover, by simp⟩, rfl⟩, hr₁⟩
  rw [List.nil_append] at hinv₂
  refine ⟨_, p₂.2, p₂.1.uf, by simp only [driveToOrbitsCryptoMiniSat, h₁, bind, Except.bind, h₂]; rfl,
    hr₂, rfl, hinv₂.sound, hinv₂.counts, fun q hq => ?_⟩
  rcases hinv₂.cover q hq with hdec | hsurvives | hunknown
  · exact Or.inl hdec
  · exact hinv₂.settled q (hsurv ▸ hsurvives)
  · exact Or.inr hunknown

end

/-- The literals of the encoding are variables that it has counted. -/
theorem literals_hybrid {g : Graph} {colorOf : Fin g.n → Colour} {edgeThreshold : ℤ}
    (hsize : (buildCryptoMiniSatEncoding g colorOf edgeThreshold).2.numVars < 2 ^ 31) :
    (∀ c ∈ (buildCryptoMiniSatEncoding g colorOf edgeThreshold).1, ∀ l ∈ c, IsLiteral l) ∧
    ∀ u v, 0 ≤ (buildCryptoMiniSatEncoding g colorOf edgeThreshold).2.varOf u v →
      IsLiteral ((buildCryptoMiniSatEncoding g colorOf edgeThreshold).2.varOf u v) := by
  have hhas := hasSize_hybrid g colorOf edgeThreshold
  have hvars : (buildCryptoMiniSatEncoding g colorOf edgeThreshold).2.numVars =
      (estimateGlobalEncodingSize g colorOf edgeThreshold).variables := hhas.numVars_eq
  refine ⟨fun c hc l hl => ?_, fun u v huv => ?_⟩
  · have hoccurs := (hhas.occurs l.natAbs).mp ⟨c, hc, l, hl, rfl⟩
    exact ⟨Int.natAbs_ne_zero.mp (by omega), by omega⟩
  · have hmem := varOf_nonneg_iff.mp huv
    obtain ⟨hpos, hle⟩ := varOf_bounds hmem
    have hnum : (buildCryptoMiniSatEncoding g colorOf edgeThreshold).2.numVars =
        (groupPairs (computePreserveGroups g colorOf)).length := nextVar_createAll _
    rw [hnum] at hsize
    have hlt : ((Vars.createAll (groupPairs (computePreserveGroups g colorOf))).varOf u v).natAbs < 2 ^ 31 := by
      omega
    exact ⟨ne_of_gt hpos, hlt⟩

/-- With a library that keeps its promises the drive never throws. It ends with classes inside the orbits of
    the automorphisms that keep colours and sides, and with these orbits when no query stayed unknown,
    whatever limits were set and whatever the solver learned on the way. -/
theorem drive_orbits {σ : Type*} (S : SATSolver σ) (sat : σ → (ℕ → Bool) → Prop) (hS : S.Keeps sat) (g : Graph)
    [g.Simple] (colorOf : Fin g.n → Colour) (edgeThreshold timeoutMs shortMs : ℤ)
    (hsize : (buildCryptoMiniSatEncoding g colorOf edgeThreshold).2.numVars < 2 ^ 31) :
    ∃ res h, driveToOrbitsCryptoMiniSat S (buildSolver S g colorOf edgeThreshold)
        (buildCryptoMiniSatEncoding g colorOf edgeThreshold).2 timeoutMs shortMs = .ok (res, h) ∧
      OrbitClasses (keepGroup g colorOf) colorOf res.orbits ∧
      res.queriesSat + res.queriesUnsat + res.queriesUnknown = res.queriesIssued ∧
      (res.queriesUnknown = 0 → ∀ a b, SameClass res.orbits a b ↔ OrbitMates (keepGroup g colorOf) a b) := by
  obtain ⟨hclauses, hlits⟩ := literals_hybrid hsize
  have hready : Ready S sat (buildCryptoMiniSatEncoding g colorOf edgeThreshold).1
      (buildSolver S g colorOf edgeThreshold) :=
    ready_addClauses hS ⟨0, refines_start hS⟩ hclauses
  obtain ⟨res, h, uf, hok, -, horbits, hsound, hcounts, hdec⟩ := drive_spec hS
    (fun α (hα : α ∈ keepGroup g colorOf) => hα.1) (encodes_hybrid edgeThreshold colorOf) hlits hready
    timeoutMs shortMs
  have hsame : ∀ a b, SameClass res.orbits a b ↔ uf.view.mates a b := fun a b => by
    rw [horbits, sameClass_groups]
    simp [SeparatingUnionFind.mates_view]
  refine ⟨res, h, hok, ⟨?_, fun a b hab => hsound.mates ((hsame a b).mp hab), fun a b hab => ?_⟩, hcounts,
    fun hunknown a b => ?_⟩
  · rw [horbits]
    exact flatten_groups_perm _ (List.nodup_finRange _)
  · exact colorOf_eq_of_orbitMates (fun α (hα : α ∈ keepGroup g colorOf) => hα.2.1) (hsound.mates ((hsame a b).mp hab))
  · rw [hsame]
    refine hsound.exact (fun u v huv => ?_) a b
    rcases eq_or_ne v u with rfl | hne
    · exact Or.inl (uf.view.equiv.refl v)
    · obtain ⟨α, hα, rfl⟩ := huv
      refine (hdec ⟨u, α u, false⟩ (mem_collect.mpr ⟨rfl, hne, by simp, ?_⟩)).resolve_right (by omega)
      exact sameClass_of_keeps hα.1 hα.2.1 (hα.2.2 u)

/-- A path of three vertices, driven with the solver that tries everything. -/
theorem drive_orbits_path : ∃ res h,
    driveToOrbitsCryptoMiniSat Exhaustive.solver
        (buildSolver Exhaustive.solver (ofEdges 3 [(0, 1), (1, 2)]) (fun _ => ()) 1024)
        (buildCryptoMiniSatEncoding (ofEdges 3 [(0, 1), (1, 2)]) (fun _ => ()) 1024).2 0 0 = .ok (res, h) ∧
      OrbitClasses (keepGroup (ofEdges 3 [(0, 1), (1, 2)]) fun _ => ()) (fun _ => ()) res.orbits := by
  obtain ⟨res, h, hok, hclasses, -⟩ := drive_orbits Exhaustive.solver Exhaustive.Satisfies Exhaustive.keeps
    (ofEdges 3 [(0, 1), (1, 2)]) (fun _ => ()) 1024 0 0 (by decide +kernel)
  exact ⟨res, h, hok, hclasses⟩

end Dialysis.Sat.CryptoMiniSat
