import GraphDialysis.Gadgetxor.RealFileGadgetXor
import GraphDialysis.Lib.Parity
import GraphDialysis.Sat.Exactness

/-! `RealFileGadgetXor.addClusterParityXors`: a variable for every port of a cluster that says whether its
    vertex changes sides, and for every cluster the constraint that an even number of its odd ports does.
    Sides are labels of vertices, so that a port may be mapped to another one.

    On top of the side-preserving encoding this leaves exactly the automorphisms with `EvenFlips`, and
    the check on constants never fails (`addClusterParityXors_exact`). -/

namespace Dialysis.RealFileGadgetXor
open Lib Lib.Cnf Lib.Parity Lib.Matrix Sat Dialysis.Graph
variable {g : Graph}

/-- The group that `groupOfVertex` has for `p`: a later one replaces an earlier one. -/
def groupOfVertex (encoding : CadicalEncoding g) (p : Fin g.n) : List (Fin g.n) :=
  (encoding.groups.reverse.find? fun members => p ∈ members).getD [p]

/-- `sideOf`, with the exception of `getValue`. -/
def getSide {n : ℕ} (sided : SidedReconstruction n) (v : Fin n) : Except String ℕ :=
  match sided.sideOf v with
  | some side => .ok side
  | none => .error ("Key " ++ toString v ++ " is missing in the map.")

structure FlipState (n : ℕ) where
  nextVar : ℕ
  flipVar : Fin n → Option ℕ
  flipConst : Fin n → Option Bool
  clauses : Formula

def FlipState.init (encoding : CadicalEncoding g) : FlipState g.n :=
  ⟨encoding.numVars, fun _ => none, fun _ => none, []⟩

/-- A constant, where only one of the two is possible, and else a variable. -/
def FlipState.enter (s : FlipState g.n) (encoding : CadicalEncoding g) (p : Fin g.n)
    (oppositeTargets sameTargets : List (Fin g.n)) : FlipState g.n :=
  if oppositeTargets = [] then { s with flipConst := Function.update s.flipConst p (some false) }
  else if sameTargets = [] then { s with flipConst := Function.update s.flipConst p (some true) }
  else
    let fv := s.nextVar + 1
    { s with
      nextVar := fv
      flipVar := Function.update s.flipVar p (some fv)
      clauses := s.clauses ++ orGate fv (oppositeTargets.map fun k => encoding.varOf p k) }

def ensureFlip (encoding : CadicalEncoding g) (sided : SidedReconstruction g.n) (s : FlipState g.n)
    (p : Fin g.n) : Except String (FlipState g.n) :=
  if (s.flipVar p).isSome ∨ (s.flipConst p).isSome then .ok s
  else do
    let sideP ← getSide sided p
    let sides ← (groupOfVertex encoding p).mapM fun k => (getSide sided k).map fun side => (k, side)
    let oppositeTargets := sides.filter fun e => e.2 ≠ sideP ∧ 0 ≤ encoding.varOf p e.1
    let sameTargets := sides.filter fun e => e.2 = sideP ∧ 0 ≤ encoding.varOf p e.1
    return s.enter encoding p (oppositeTargets.map (·.1)) (sameTargets.map (·.1))

/-- A constant is added to the right side, a variable to the left. -/
def portFlip {n : ℕ} (s : FlipState n) (acc : List ℕ × Bool) (port : Fin n × Fin n) :
    Except String (List ℕ × Bool) :=
  match s.flipConst port.1 with
  | some c => .ok (acc.1, if c then !acc.2 else acc.2)
  | none =>
    match s.flipVar port.1 with
    | some fv => .ok (acc.1 ++ [fv], acc.2)
    | none => .error ("Key " ++ toString port.1 ++ " is missing in the map.")

def addClusterXor {n : ℕ} (s : FlipState n) (acc : List XorClause × ℕ) (ports : List (Fin n × Fin n)) :
    Except String (List XorClause × ℕ) :=
  if ports = [] then .ok acc
  else do
    let sum ← ports.foldlM (portFlip s) ([], false)
    if sum.1 = [] then
      if sum.2 then
        .error "cluster with all-constant port-flip pattern violates the parity invariant -- do not proceed"
      else .ok acc
    else .ok (acc.1 ++ [⟨sum.1, sum.2⟩], acc.2 + 1)

/-- What the solver is given, and what is returned. -/
structure ParityXors where
  clauses : Formula
  xors : List XorClause
  clustersConstrained : ℕ

def addClusterParityXors (encoding : CadicalEncoding g) (sided : SidedReconstruction g.n) :
    Except String ParityXors := do
  let values := sided.clusterOddPorts.map (·.2)
  let s ← (values.flatten.map (·.1)).foldlM (ensureFlip encoding sided) (FlipState.init encoding)
  let sum ← values.foldlM (addClusterXor s) ([], 0)
  return ⟨s.clauses, sum.1, sum.2⟩

/-! ### Sides -/

/-- The vertex changes sides. -/
def Flips {n : ℕ} (sided : SidedReconstruction n) (α : Equiv.Perm (Fin n)) (p : Fin n) : Prop :=
  sided.sideOf (α p) ≠ sided.sideOf p

instance {n : ℕ} (sided : SidedReconstruction n) (α : Equiv.Perm (Fin n)) (p : Fin n) :
    Decidable (Flips sided α p) := by unfold Flips; infer_instance

/-- In every cluster an even number of the odd ports changes sides. -/
def EvenFlips {n : ℕ} (sided : SidedReconstruction n) (α : Equiv.Perm (Fin n)) : Prop :=
  ∀ cluster ∈ sided.clusterOddPorts, Even (cluster.2.countP fun port => Flips sided α port.1)

/-- The possible images of `p` on the side, for `p` itself its own. -/
def targets (encoding : CadicalEncoding g) (sided : SidedReconstruction g.n) (p : Fin g.n) :
    List (Fin g.n) × List (Fin g.n) :=
  ((groupOfVertex encoding p).filter fun k => sided.sideOf k ≠ sided.sideOf p ∧ 0 ≤ encoding.varOf p k,
    (groupOfVertex encoding p).filter fun k => sided.sideOf k = sided.sideOf p ∧ 0 ≤ encoding.varOf p k)

section
variable {encoding : CadicalEncoding g} {sided : SidedReconstruction g.n}

theorem getSide_ok {v : Fin g.n} {side : ℕ} (h : sided.sideOf v = some side) : getSide sided v = .ok side := by
  rw [getSide, h]

theorem getSide_error {v : Fin g.n} (h : sided.sideOf v = none) : ∃ e, getSide sided v = .error e := by
  rw [getSide, h]
  exact ⟨_, rfl⟩

/-- The sides of a list, when there is one for each. -/
theorem mapM_getSide : ∀ {l : List (Fin g.n)}, (∀ k ∈ l, sided.sideOf k ≠ none) →
    (l.mapM fun k => (getSide sided k).map fun side => (k, side)) =
      .ok (l.map fun k => (k, (sided.sideOf k).getD 0))
  | [], _ => rfl
  | k :: l, h => by
    obtain ⟨side, hside⟩ := Option.ne_none_iff_exists'.mp (h k List.mem_cons_self)
    rw [List.mapM_cons, getSide_ok hside, mapM_getSide fun k hk => h k (List.mem_cons_of_mem _ hk),
      List.map_cons, hside]
    rfl

theorem mapM_getSide_error : ∀ {l : List (Fin g.n)}, ¬(∀ k ∈ l, sided.sideOf k ≠ none) →
    ∃ e, (l.mapM fun k => (getSide sided k).map fun side => (k, side)) = .error e
  | [], h => absurd (fun _ hk => absurd hk List.not_mem_nil) h
  | k :: l, h => by
    rw [List.mapM_cons]
    cases hside : sided.sideOf k with
    | none =>
      obtain ⟨e, he⟩ := getSide_error hside
      rw [he]
      exact ⟨e, rfl⟩
    | some side =>
      rw [getSide_ok hside]
      obtain ⟨e, he⟩ := mapM_getSide_error (l := l) fun hl => h fun x hx => by
        rcases List.mem_cons.mp hx with rfl | hx
        · rw [hside]
          exact Option.some_ne_none side
        · exact hl x hx
      rw [he]
      exact ⟨e, rfl⟩

/-- The filters over the sides, once these are there. -/
theorem filter_sides (encoding : CadicalEncoding g) {l : List (Fin g.n)} {sideP : ℕ} {p : Fin g.n} (hp : sided.sideOf p = some sideP)
    (h : ∀ k ∈ l, sided.sideOf k ≠ none) (test : Bool → Bool) :
    (((l.map fun k => (k, (sided.sideOf k).getD 0)).filter fun e =>
      test (decide (e.2 = sideP)) ∧ 0 ≤ encoding.varOf p e.1).map (·.1)) =
      l.filter fun k => test (decide (sided.sideOf k = sided.sideOf p)) ∧ 0 ≤ encoding.varOf p k := by
  rw [List.filter_map, List.map_map]
  refine (List.map_congr_left fun k _ => rfl).trans ((List.map_id _).trans (List.filter_congr fun k hk => ?_))
  obtain ⟨side, hside⟩ := Option.ne_none_iff_exists'.mp (h k hk)
  simp only [Function.comp_apply, hside, hp, Option.getD_some, Option.some.injEq]

/-- What `ensureFlip` does for a new vertex. -/
theorem ensureFlip_new {s : FlipState g.n} {p : Fin g.n} (hnew : s.flipVar p = none ∧ s.flipConst p = none)
    (hp : sided.sideOf p ≠ none) (h : ∀ k ∈ groupOfVertex encoding p, sided.sideOf k ≠ none) :
    ensureFlip encoding sided s p =
      .ok (s.enter encoding p (targets encoding sided p).1 (targets encoding sided p).2) := by
  obtain ⟨sideP, hsideP⟩ := Option.ne_none_iff_exists'.mp hp
  rw [ensureFlip, hnew.1, hnew.2, if_neg (by simp), getSide_ok hsideP, mapM_getSide h]
  have hopp := filter_sides encoding hsideP h not
  have hsame := filter_sides encoding hsideP h id
  simp only [Bool.not_eq_true', decide_eq_false_iff_not, id_eq, decide_eq_true_eq] at hopp hsame
  simp only [targets, ← hopp, ← hsame]
  rfl

/-! ### Variables and constants -/

/-- There is a side for everything that `ensureFlip` asks about. -/
def SidesKnown (encoding : CadicalEncoding g) (sided : SidedReconstruction g.n) (p : Fin g.n) : Prop :=
  sided.sideOf p ≠ none ∧ ∀ k ∈ groupOfVertex encoding p, sided.sideOf k ≠ none

/-- What the variables and constants stand for, after the vertices `done`. -/
structure FlipInv (encoding : CadicalEncoding g) (sided : SidedReconstruction g.n) (s : FlipState g.n)
    (done : List (Fin g.n)) : Prop where
  known : ∀ p, p ∈ done ↔ s.flipVar p ≠ none ∨ s.flipConst p ≠ none
  const : ∀ p c, s.flipConst p = some c →
    if c then (targets encoding sided p).2 = [] else (targets encoding sided p).1 = []
  apart : ∀ p v, s.flipVar p = some v → s.flipConst p = none
  fresh : ∀ p v, s.flipVar p = some v → encoding.numVars < v ∧ v ≤ s.nextVar
  inj : ∀ p q v, s.flipVar p = some v → s.flipVar q = some v → p = q
  models : ∀ τ, Models τ s.clauses ↔ ∀ p v, s.flipVar p = some v →
    (τ v = true ↔ ∃ k ∈ (targets encoding sided p).1, holds τ (encoding.varOf p k))
  counted : encoding.numVars ≤ s.nextVar

theorem flipInv_init : FlipInv encoding sided (FlipState.init encoding) [] := by
  refine ⟨?_, ?_, ?_, ?_, ?_, ?_, le_refl _⟩ <;> simp [FlipState.init]

/-- Entering a new vertex. -/
theorem FlipInv.enter {s : FlipState g.n} {done : List (Fin g.n)} (h : FlipInv encoding sided s done)
    (hpos : ∀ i j, 0 ≤ encoding.varOf i j → 0 < encoding.varOf i j) {p : Fin g.n}
    (hnew : s.flipVar p = none ∧ s.flipConst p = none) :
    FlipInv encoding sided
      (s.enter encoding p (targets encoding sided p).1 (targets encoding sided p).2) (done ++ [p]) := by
  have hknown : ∀ q, q ∈ done ++ [p] ↔ (s.flipVar q ≠ none ∨ s.flipConst q ≠ none) ∨ q = p := fun q => by
    rw [List.mem_append, List.mem_singleton, h.known]
  -- the constant `c` is entered for `p`
  have hconst : ∀ c : Bool, (if c then (targets encoding sided p).2 = [] else (targets encoding sided p).1 = []) →
      FlipInv encoding sided { s with flipConst := Function.update s.flipConst p (some c) } (done ++ [p]) := by
    intro c hc
    refine ⟨fun q => ?_, fun q c' hq => ?_, fun q v hq => ?_, h.fresh, h.inj, h.models, h.counted⟩
    · rw [hknown]
      rcases eq_or_ne q p with rfl | hne
      · simp
      · simp [hne]
    · rcases eq_or_ne q p with rfl | hne
      · obtain rfl : c = c' := by simpa using hq
        exact hc
      · exact h.const q c' (by simpa [Function.update_of_ne hne] using hq)
    · have hne : q ≠ p := by
        rintro rfl
        rw [hnew.1] at hq
        cases hq
      exact (Function.update_of_ne hne _ _).trans (h.apart q v hq)
  rw [FlipState.enter]
  split_ifs with hopp hsame
  · exact hconst false hopp
  · exact hconst true hsame
  · have hlt : ∀ q v, s.flipVar q = some v → v ≠ s.nextVar + 1 := fun q v hq => by
      have := (h.fresh q v hq).2
      omega
    have hupdate : ∀ q v, Function.update s.flipVar p (some (s.nextVar + 1)) q = some v ↔
        (q = p ∧ v = s.nextVar + 1) ∨ s.flipVar q = some v := by
      intro q v
      rcases eq_or_ne q p with rfl | hne
      · rw [Function.update_self, hnew.1, Option.some.injEq]
        simp [eq_comm]
      · simp [hne]
    refine ⟨fun q => ?_, h.const, fun q v hq => ?_, fun q v hq => ?_, fun q q' v hq hq' => ?_, fun τ => ?_, ?_⟩
    · rw [hknown]
      rcases eq_or_ne q p with rfl | hne
      · simp
      · simp [hne]
    · rcases (hupdate q v).mp hq with ⟨rfl, -⟩ | hq
      · exact hnew.2
      · exact h.apart q v hq
    · rcases (hupdate q v).mp hq with ⟨-, rfl⟩ | hq
      · exact ⟨Nat.lt_succ_of_le h.counted, le_refl _⟩
      · exact ⟨(h.fresh q v hq).1, Nat.le_succ_of_le (h.fresh q v hq).2⟩
    · rcases (hupdate q v).mp hq with ⟨rfl, rfl⟩ | hold <;>
        rcases (hupdate q' _).mp hq' with ⟨rfl, hv⟩ | hold'
      · rfl
      · exact absurd rfl (hlt _ _ hold')
      · exact absurd hv (hlt _ _ hold)
      · exact h.inj q q' v hold hold'
    · have hgate : Models τ (orGate ((s.nextVar + 1 : ℕ) : ℤ)
          ((targets encoding sided p).1.map fun k => encoding.varOf p k)) ↔
          (τ (s.nextVar + 1) = true ↔ ∃ k ∈ (targets encoding sided p).1, holds τ (encoding.varOf p k)) := by
        rw [models_orGate (by omega), holds_pos (by omega), Int.natAbs_natCast]
        · simp only [List.mem_map, exists_exists_and_eq_and]
        · intro l hl
          obtain ⟨k, hk, rfl⟩ := List.mem_map.mp hl
          exact hpos p k (by simpa using (List.mem_filter.mp hk).2 |> of_decide_eq_true |>.2)
      rw [models_append, h.models, hgate]
      constructor
      · rintro ⟨hold, hnew'⟩ q v hq
        rcases (hupdate q v).mp hq with ⟨rfl, rfl⟩ | hq
        · exact hnew'
        · exact hold q v hq
      · intro hall
        exact ⟨fun q v hq => hall q v ((hupdate q v).mpr (Or.inr hq)), hall p _ ((hupdate p _).mpr (Or.inl ⟨rfl, rfl⟩))⟩
    · exact Nat.le_succ_of_le h.counted

/-- One call of `ensureFlip`. -/
theorem ensureFlip_spec {s : FlipState g.n} {done : List (Fin g.n)} (h : FlipInv encoding sided s done)
    (hpos : ∀ i j, 0 ≤ encoding.varOf i j → 0 < encoding.varOf i j)
    (hdone : ∀ p ∈ done, SidesKnown encoding sided p) (p : Fin g.n) :
    (SidesKnown encoding sided p →
      ∃ s', ensureFlip encoding sided s p = .ok s' ∧ FlipInv encoding sided s' (done ++ [p])) ∧
    (¬SidesKnown encoding sided p → ∃ e, ensureFlip encoding sided s p = .error e) := by
  by_cases hp : p ∈ done
  · have hknown := (h.known p).mp hp
    have hok : ensureFlip encoding sided s p = .ok s := by
      rw [ensureFlip, if_pos (by simpa [Option.isSome_iff_ne_none] using hknown)]
    refine ⟨fun _ => ⟨s, hok, ?_⟩, fun hno => absurd (hdone p hp) hno⟩
    refine ⟨fun q => ?_, h.const, h.apart, h.fresh, h.inj, h.models, h.counted⟩
    rw [List.mem_append, List.mem_singleton, ← h.known]
    exact or_iff_left_of_imp fun hq => hq ▸ hp
  · have hnew : s.flipVar p = none ∧ s.flipConst p = none := by
      simpa [not_or] using (h.known p).not.mp hp
    refine ⟨fun hsides => ⟨_, ensureFlip_new hnew hsides.1 hsides.2, h.enter hpos hnew⟩, fun hno => ?_⟩
    rw [ensureFlip, hnew.1, hnew.2, if_neg (by simp)]
    cases hsideP : sided.sideOf p with
    | none =>
      obtain ⟨e, he⟩ := getSide_error hsideP
      exact ⟨e, by rw [he]; rfl⟩
    | some sideP =>
      have hgroup : ¬∀ k ∈ groupOfVertex encoding p, sided.sideOf k ≠ none := fun hall =>
        hno ⟨by rw [hsideP]; exact Option.some_ne_none _, hall⟩
      obtain ⟨e, he⟩ := mapM_getSide_error hgroup
      exact ⟨e, by rw [getSide_ok hsideP, he]; rfl⟩

/-- The loop over the vertices. -/
theorem foldlM_ensureFlip (hpos : ∀ i j, 0 ≤ encoding.varOf i j → 0 < encoding.varOf i j) :
    ∀ {l : List (Fin g.n)} {s : FlipState g.n} {done : List (Fin g.n)}, FlipInv encoding sided s done →
    (∀ p ∈ done, SidesKnown encoding sided p) →
    ((∀ p ∈ l, SidesKnown encoding sided p) →
      ∃ s', l.foldlM (ensureFlip encoding sided) s = .ok s' ∧ FlipInv encoding sided s' (done ++ l)) ∧
    ((∃ p ∈ l, ¬SidesKnown encoding sided p) → ∃ e, l.foldlM (ensureFlip encoding sided) s = .error e)
  | [], s, done, h, _ => ⟨fun _ => ⟨s, rfl, by rwa [List.append_nil]⟩, fun ⟨_, hp, _⟩ => by cases hp⟩
  | p :: l, s, done, h, hdone => by
    obtain ⟨hok, herr⟩ := ensureFlip_spec h hpos hdone p
    rw [List.foldlM_cons]
    by_cases hp : SidesKnown encoding sided p
    · obtain ⟨s₁, hrun₁, hs₁⟩ := hok hp
      have hdone₁ : ∀ q ∈ done ++ [p], SidesKnown encoding sided q := by
        intro q hq
        rcases List.mem_append.mp hq with hq | hq
        · exact hdone q hq
        · rwa [List.mem_singleton.mp hq]
      obtain ⟨ih, iherr⟩ := foldlM_ensureFlip hpos (l := l) hs₁ hdone₁
      rw [hrun₁]
      refine ⟨fun hall => ?_, ?_⟩
      · obtain ⟨s', hrun, hs'⟩ := ih fun q hq => hall q (List.mem_cons_of_mem _ hq)
        exact ⟨s', hrun, by rwa [List.append_assoc] at hs'⟩
      · rintro ⟨q, hq, hno⟩
        rcases List.mem_cons.mp hq with rfl | hq
        · exact absurd hp hno
        · exact iherr ⟨q, hq, hno⟩
    · obtain ⟨e, he⟩ := herr hp
      rw [he]
      exact ⟨fun hall => absurd (hall p List.mem_cons_self) hp, fun _ => ⟨e, rfl⟩⟩

end

/-! ### The constraints -/

section
variable {n : ℕ} {s : FlipState n}

/-- The value of a port's variable or constant. -/
def FlipState.value (s : FlipState n) (τ : ℕ → Bool) (p : Fin n) : Bool :=
  match s.flipConst p with
  | some c => c
  | none => ((s.flipVar p).map τ).getD false

/-- Every constant says that the side is kept. -/
def FlipState.Settled (s : FlipState n) : Prop := ∀ p c, s.flipConst p = some c → c = false

theorem odd_countP_concat {τ : ℕ → Bool} {vars : List ℕ} {v : ℕ} :
    Odd ((vars ++ [v]).countP τ) ↔ (Odd (vars.countP τ) ↔ τ v = false) := by
  rw [List.countP_append, List.countP_singleton, Nat.odd_add]
  cases τ v <;> simp

theorem portFlip_spec (hs : s.Settled) (acc : List ℕ × Bool) {port : Fin n × Fin n}
    (hknown : s.flipVar port.1 ≠ none ∨ s.flipConst port.1 ≠ none) :
    ∃ sum, portFlip s acc port = .ok sum ∧ sum.2 = acc.2 ∧
      ∀ τ, Odd (sum.1.countP τ) ↔ (Odd (acc.1.countP τ) ↔ s.value τ port.1 = false) := by
  rw [portFlip]
  cases hc : s.flipConst port.1 with
  | some c =>
    obtain rfl := hs _ c hc
    exact ⟨acc, rfl, rfl, fun τ => by simp [FlipState.value, hc]⟩
  | none =>
    obtain ⟨v, hv⟩ := Option.ne_none_iff_exists'.mp (hknown.resolve_right (not_not_intro hc))
    refine ⟨(acc.1 ++ [v], acc.2), by rw [hv], rfl, fun τ => ?_⟩
    rw [odd_countP_concat, FlipState.value, hc, hv]
    rfl

/-- The sum over a list of ports. -/
theorem foldlM_portFlip (hs : s.Settled) : ∀ {ports : List (Fin n × Fin n)} (acc : List ℕ × Bool),
    (∀ port ∈ ports, s.flipVar port.1 ≠ none ∨ s.flipConst port.1 ≠ none) →
    ∃ sum, ports.foldlM (portFlip s) acc = .ok sum ∧ sum.2 = acc.2 ∧
      ∀ τ, Odd (sum.1.countP τ) ↔ (Odd (acc.1.countP τ) ↔ Even (ports.countP fun port => s.value τ port.1))
  | [], acc, _ => ⟨acc, rfl, rfl, fun τ => by simp⟩
  | port :: ports, acc, hknown => by
    obtain ⟨acc₁, hrun₁, hrhs₁, hsum₁⟩ := portFlip_spec hs acc (hknown port List.mem_cons_self)
    obtain ⟨sum, hrun, hrhs, hsum⟩ := foldlM_portFlip hs acc₁ fun q hq => hknown q (List.mem_cons_of_mem _ hq)
    refine ⟨sum, by rw [List.foldlM_cons, hrun₁]; exact hrun, hrhs.trans hrhs₁, fun τ => ?_⟩
    rw [hsum, hsum₁, List.countP_cons, Nat.even_add]
    cases s.value τ port.1 with
    | false => simp
    | true =>
      simp only [Bool.true_eq_false, iff_false, if_true, Nat.not_even_one]
      tauto

theorem addClusterXor_spec (hs : s.Settled) (acc : List XorClause × ℕ) {ports : List (Fin n × Fin n)}
    (hknown : ∀ port ∈ ports, s.flipVar port.1 ≠ none ∨ s.flipConst port.1 ≠ none) :
    ∃ acc', addClusterXor s acc ports = .ok acc' ∧
      (acc.2 = acc.1.length → acc'.2 = acc'.1.length) ∧
      ((∀ x ∈ acc.1, x.rhs = false) → ∀ x ∈ acc'.1, x.rhs = false) ∧
      ∀ τ, XorModels τ acc'.1 ↔ XorModels τ acc.1 ∧ Even (ports.countP fun port => s.value τ port.1) := by
  rw [addClusterXor]
  split_ifs with hnil
  · subst hnil
    exact ⟨acc, rfl, id, id, fun τ => by simp⟩
  obtain ⟨sum, hrun, hrhs, hsum⟩ := foldlM_portFlip hs ([], false) hknown
  have hodd : ∀ τ, Odd (sum.1.countP τ) ↔ ¬Even (ports.countP fun port => s.value τ port.1) := fun τ => by
    rw [hsum τ]
    simp
  change sum.2 = false at hrhs
  rw [hrun]
  dsimp only [bind, Except.bind]
  rw [hrhs]
  by_cases hvars : sum.1 = []
  · rw [if_pos hvars, if_neg Bool.false_ne_true]
    refine ⟨acc, rfl, id, id, fun τ => ?_⟩
    have heven := hodd τ
    rw [hvars] at heven
    rw [and_iff_left (by simpa using heven)]
  · rw [if_neg hvars]
    refine ⟨_, rfl, fun h => by simp [h], fun h x hx => ?_, fun τ => ?_⟩
    · rcases List.mem_append.mp hx with hx | hx
      · exact h x hx
      · rw [List.mem_singleton.mp hx]
    · rw [xorModels_concat, XorClause.Satisfied]
      simp [hodd τ]

/-- The loop over the clusters. -/
theorem foldlM_addClusterXor (hs : s.Settled) : ∀ {values : List (List (Fin n × Fin n))}
    (acc : List XorClause × ℕ),
    (∀ ports ∈ values, ∀ port ∈ ports, s.flipVar port.1 ≠ none ∨ s.flipConst port.1 ≠ none) →
    ∃ acc', values.foldlM (addClusterXor s) acc = .ok acc' ∧
      (acc.2 = acc.1.length → acc'.2 = acc'.1.length) ∧
      ((∀ x ∈ acc.1, x.rhs = false) → ∀ x ∈ acc'.1, x.rhs = false) ∧
      ∀ τ, XorModels τ acc'.1 ↔ XorModels τ acc.1 ∧
        ∀ ports ∈ values, Even (ports.countP fun port => s.value τ port.1)
  | [], acc, _ => ⟨acc, rfl, id, id, fun τ => by simp⟩
  | ports :: values, acc, hknown => by
    obtain ⟨acc₁, hrun₁, hcount₁, hrhs₁, hxors₁⟩ := addClusterXor_spec hs acc (hknown ports List.mem_cons_self)
    obtain ⟨acc', hrun, hcount, hrhs, hxors⟩ := foldlM_addClusterXor hs acc₁ fun q hq =>
      hknown q (List.mem_cons_of_mem _ hq)
    refine ⟨acc', by rw [List.foldlM_cons, hrun₁]; exact hrun, hcount ∘ hcount₁, hrhs ∘ hrhs₁, fun τ => ?_⟩
    rw [hxors, hxors₁, List.forall_mem_cons, and_assoc]

end

/-! ### On top of the side-preserving encoding -/

section
variable {Colour : Type*} [DecidableEq Colour] {colorOf : Fin g.n → Colour} {edgeThreshold : ℤ}
  {sided : SidedReconstruction g.n} {α : Equiv.Perm (Fin g.n)}

theorem mem_groupOfVertex {p k : Fin g.n} :
    k ∈ groupOfVertex (buildCryptoMiniSatEncoding g colorOf edgeThreshold).2 p ↔
      k ∈ preserveImages g colorOf p := by
  change k ∈ ((computePreserveGroups g colorOf).reverse.find? fun members => decide (p ∈ members)).getD [p] ↔ _
  obtain ⟨xs, hxs, hmem⟩ := Lib.exists_group
    (fun v => (colorOf v, (g.adj v).length, g.side v)) (List.mem_finRange p)
  have hfind : ((computePreserveGroups g colorOf).reverse.find? fun members => decide (p ∈ members)).isSome :=
    List.find?_isSome.mpr ⟨xs, List.mem_reverse.mpr hxs, by simpa using hmem⟩
  obtain ⟨ys, hys⟩ := Option.isSome_iff_exists.mp hfind
  have hys' : ys ∈ computePreserveGroups g colorOf := List.mem_reverse.mp (List.mem_of_find?_eq_some hys)
  have hp : p ∈ ys := by simpa using List.find?_some hys
  rw [hys, Option.getD_some, mem_preserveImages, Lib.mem_group_iff hys' hp]
  simp

theorem varOf_nonneg {i j : Fin g.n} :
    0 ≤ (buildCryptoMiniSatEncoding g colorOf edgeThreshold).2.varOf i j ↔ j ∈ preserveImages g colorOf i :=
  varOf_nonneg_iff.trans mem_preservePairs

theorem varOf_pos {i j : Fin g.n} :
    0 < (buildCryptoMiniSatEncoding g colorOf edgeThreshold).2.varOf i j ↔ j ∈ preserveImages g colorOf i :=
  varOf_pos_iff.trans mem_preservePairs

theorem varOf_le {i j : Fin g.n} (h : j ∈ preserveImages g colorOf i) :
    (buildCryptoMiniSatEncoding g colorOf edgeThreshold).2.varOf i j ≤
      (buildCryptoMiniSatEncoding g colorOf edgeThreshold).2.numVars := by
  refine (varOf_bounds (mem_preservePairs.mpr h)).2.trans ?_
  exact_mod_cast (nextVar_createAll (groupPairs (computePreserveGroups g colorOf))).ge

theorem mem_targets {p k : Fin g.n} :
    (k ∈ (targets (buildCryptoMiniSatEncoding g colorOf edgeThreshold).2 sided p).1 ↔
      k ∈ preserveImages g colorOf p ∧ sided.sideOf k ≠ sided.sideOf p) ∧
    (k ∈ (targets (buildCryptoMiniSatEncoding g colorOf edgeThreshold).2 sided p).2 ↔
      k ∈ preserveImages g colorOf p ∧ sided.sideOf k = sided.sideOf p) := by
  simp only [targets, List.mem_filter, mem_groupOfVertex, varOf_nonneg, decide_eq_true_eq]
  tauto

theorem self_mem_preserveImages (p : Fin g.n) : p ∈ preserveImages g colorOf p :=
  mem_preserveImages.mpr ⟨rfl, rfl, rfl⟩

theorem sidesKnown_iff {p : Fin g.n} :
    SidesKnown (buildCryptoMiniSatEncoding g colorOf edgeThreshold).2 sided p ↔
      ∀ k ∈ preserveImages g colorOf p, sided.sideOf k ≠ none := by
  simp only [SidesKnown, mem_groupOfVertex]
  exact and_iff_right_of_imp fun h => h p (self_mem_preserveImages p)

variable {s : FlipState g.n} {done : List (Fin g.n)}

/-- A vertex can always keep its side, so no constant says that it changes it. -/
theorem FlipInv.settled
    (h : FlipInv (buildCryptoMiniSatEncoding g colorOf edgeThreshold).2 sided s done) : s.Settled := by
  intro p c hc
  have := h.const p c hc
  cases c with
  | false => rfl
  | true =>
    rw [if_pos rfl] at this
    have hself : p ∈ (targets (buildCryptoMiniSatEncoding g colorOf edgeThreshold).2 sided p).2 :=
      mem_targets.2.mpr ⟨self_mem_preserveImages p, rfl⟩
    rw [this] at hself
    cases hself

/-- In a model the value says whether the vertex changes sides. -/
theorem FlipInv.value_iff
    (h : FlipInv (buildCryptoMiniSatEncoding g colorOf edgeThreshold).2 sided s done)
    {τ : ℕ → Bool} (hτ : Represents (buildCryptoMiniSatEncoding g colorOf edgeThreshold).2.varOf τ α)
    (himage : ∀ p, α p ∈ preserveImages g colorOf p) (hclauses : Models τ s.clauses) {p : Fin g.n}
    (hp : p ∈ done) : s.value τ p = true ↔ Flips sided α p := by
  have hflip : Flips sided α p ↔
      α p ∈ (targets (buildCryptoMiniSatEncoding g colorOf edgeThreshold).2 sided p).1 := by
    rw [mem_targets.1, Flips, and_iff_right (himage p)]
  rw [hflip, FlipState.value]
  cases hc : s.flipConst p with
  | some c =>
    obtain rfl := h.settled p c hc
    have hnil := h.const p false hc
    rw [if_neg Bool.false_ne_true] at hnil
    simp [hnil]
  | none =>
    obtain ⟨v, hv⟩ := Option.ne_none_iff_exists'.mp (((h.known p).mp hp).resolve_right (not_not_intro hc))
    rw [hv]
    refine ((h.models τ).mp hclauses p v hv).trans ⟨?_, fun hmem => ⟨α p, hmem, ?_⟩⟩
    · rintro ⟨k, hk, hholds⟩
      have hkα := (hτ p k (varOf_pos.mpr (mem_targets.1.mp hk).1)).mp hholds
      rwa [hkα]
    · exact (hτ p (α p) (varOf_pos.mpr (himage p))).mpr rfl

/-- A representing assignment can be chosen to be right about the new variables. -/
theorem FlipInv.exists_model
    (h : FlipInv (buildCryptoMiniSatEncoding g colorOf edgeThreshold).2 sided s done)
    (himage : ∀ p, α p ∈ preserveImages g colorOf p) :
    ∃ τ, Represents (buildCryptoMiniSatEncoding g colorOf edgeThreshold).2.varOf τ α ∧ Models τ s.clauses := by
  obtain ⟨τ, hτ⟩ := exists_assignment (groupPairs (computePreserveGroups g colorOf)) α
  let τ' : ℕ → Bool := fun v =>
    if v ≤ (buildCryptoMiniSatEncoding g colorOf edgeThreshold).2.numVars then τ v
    else decide (∃ p, s.flipVar p = some v ∧ Flips sided α p)
  have hτ' : Represents (buildCryptoMiniSatEncoding g colorOf edgeThreshold).2.varOf τ' α := by
    intro i j hpos
    refine (holds_congr ?_).trans (hτ i j hpos)
    have hle : (buildCryptoMiniSatEncoding g colorOf edgeThreshold).2.varOf i j ≤ _ :=
      varOf_le (varOf_pos.mp hpos)
    exact if_pos (by omega)
  refine ⟨τ', hτ', (h.models τ').mpr fun p v hv => ?_⟩
  have hnew : τ' v = true ↔ Flips sided α p := by
    rw [show τ' v = _ from if_neg (not_le.mpr (h.fresh p v hv).1), decide_eq_true_eq]
    refine ⟨?_, fun hflip => ⟨p, hv, hflip⟩⟩
    rintro ⟨q, hq, hflip⟩
    rwa [h.inj p q v hv hq]
  rw [hnew]
  constructor
  · intro hflip
    exact ⟨α p, mem_targets.1.mpr ⟨himage p, hflip⟩, (hτ' p (α p) (varOf_pos.mpr (himage p))).mpr rfl⟩
  · rintro ⟨k, hk, hholds⟩
    obtain ⟨hk, hside⟩ := mem_targets.1.mp hk
    rw [Flips, (hτ' p k (varOf_pos.mpr hk)).mp hholds]
    exact hside

/-- It fails exactly when it asks for the side of a vertex without partner. Otherwise every constraint is
    of even parity, and the models of all that the solver is given are the automorphisms that keep
    colours and sides of the graph and let an even number of ports flip in every cluster. -/
theorem addClusterParityXors_exact (g : Graph) [g.Simple] (colorOf : Fin g.n → Colour) (edgeThreshold : ℤ)
    (sided : SidedReconstruction g.n) :
    ((∃ x, addClusterParityXors (buildCryptoMiniSatEncoding g colorOf edgeThreshold).2 sided = .ok x) ↔
      ∀ cluster ∈ sided.clusterOddPorts, ∀ port ∈ cluster.2, ∀ k ∈ preserveImages g colorOf port.1,
        sided.sideOf k ≠ none) ∧
    ∀ x, addClusterParityXors (buildCryptoMiniSatEncoding g colorOf edgeThreshold).2 sided = .ok x →
      x.clustersConstrained = x.xors.length ∧ (∀ c ∈ x.xors, c.rhs = false) ∧
      (∀ τ, Models τ ((buildCryptoMiniSatEncoding g colorOf edgeThreshold).1 ++ x.clauses) →
        XorModels τ x.xors → ∃ α : Equiv.Perm (Fin g.n),
          decodeModel (buildCryptoMiniSatEncoding g colorOf edgeThreshold).2 τ = fun v => some (α v)) ∧
      ∀ α : Equiv.Perm (Fin g.n),
        (∃ τ, Models τ ((buildCryptoMiniSatEncoding g colorOf edgeThreshold).1 ++ x.clauses) ∧
          XorModels τ x.xors ∧
          decodeModel (buildCryptoMiniSatEncoding g colorOf edgeThreshold).2 τ = fun v => some (α v)) ↔
        IsAut g α ∧ PreservesColour colorOf α ∧ KeepsSides g α ∧ EvenFlips sided α := by
  have hencodes := encodes_hybrid (g := g) edgeThreshold colorOf
  have himage : ∀ {α : Equiv.Perm (Fin g.n)}, IsAut g α ∧ PreservesColour colorOf α ∧ KeepsSides g α →
      ∀ p, α p ∈ preserveImages g colorOf p := fun h p =>
    mem_preserveImages.mpr ⟨h.2.1 p, h.1.degree p, h.2.2 p⟩
  have hmem : ∀ {port : Fin g.n × Fin g.n}, (∃ cluster ∈ sided.clusterOddPorts, port ∈ cluster.2) →
      port.1 ∈ ((sided.clusterOddPorts.map (·.2)).flatten.map (·.1)) := by
    rintro port ⟨cluster, hcluster, hport⟩
    exact List.mem_map_of_mem (List.mem_flatten.mpr ⟨_, List.mem_map_of_mem hcluster, hport⟩)
  have hpos : ∀ i j, 0 ≤ (buildCryptoMiniSatEncoding g colorOf edgeThreshold).2.varOf i j →
      0 < (buildCryptoMiniSatEncoding g colorOf edgeThreshold).2.varOf i j := fun i j h =>
    varOf_pos.mpr (varOf_nonneg.mp h)
  obtain ⟨hok, herr⟩ := @foldlM_ensureFlip g _ sided hpos
    ((sided.clusterOddPorts.map (·.2)).flatten.map (·.1)) _ _ flipInv_init fun _ hp => by cases hp
  by_cases hsides : ∀ p ∈ (sided.clusterOddPorts.map (·.2)).flatten.map (·.1),
      SidesKnown (buildCryptoMiniSatEncoding g colorOf edgeThreshold).2 sided p
  · obtain ⟨s, hrun, hinv⟩ := hok hsides
    obtain ⟨acc, hacc, hcount, hrhs, hxors⟩ := @foldlM_addClusterXor _ s hinv.settled
      (sided.clusterOddPorts.map (·.2)) ([], 0) fun ports hports port hport => by
        obtain ⟨cluster, hcluster, rfl⟩ := List.mem_map.mp hports
        exact (hinv.known port.1).mp (hmem ⟨cluster, hcluster, hport⟩)
    have hreturns : addClusterParityXors (buildCryptoMiniSatEncoding g colorOf edgeThreshold).2 sided =
        .ok ⟨s.clauses, acc.1, acc.2⟩ := by
      rw [addClusterParityXors, hrun]
      dsimp only [bind, Except.bind]
      rw [hacc]
      rfl
    -- in a model of the clauses the constraints say `EvenFlips`
    have heven : ∀ {τ α}, (IsAut g α ∧ PreservesColour colorOf α ∧ KeepsSides g α) →
        Represents (buildCryptoMiniSatEncoding g colorOf edgeThreshold).2.varOf τ α → Models τ s.clauses →
        (XorModels τ acc.1 ↔ EvenFlips sided α) := by
      intro τ α hα hτ hclauses
      rw [hxors, and_iff_right (xorModels_nil τ), List.forall_mem_map]
      refine forall₂_congr fun cluster hcluster => ?_
      rw [List.countP_congr fun port hport => ?_]
      rw [decide_eq_true_eq]
      exact hinv.value_iff hτ (himage hα) hclauses (hmem ⟨cluster, hcluster, hport⟩)
    refine ⟨iff_of_true ⟨_, hreturns⟩ fun cluster hcluster port hport =>
      sidesKnown_iff.mp (hsides _ (hmem ⟨cluster, hcluster, hport⟩)), ?_⟩
    rintro x hx
    obtain rfl : (⟨s.clauses, acc.1, acc.2⟩ : ParityXors) = x := Except.ok.inj (hreturns.symm.trans hx)
    refine ⟨hcount rfl, hrhs (by simp), fun τ hτ _ => ?_, fun α => ⟨?_, ?_⟩⟩
    · obtain ⟨α, hα, hrep⟩ := hencodes.models.mp (models_append.mp hτ).1
      exact ⟨α, hencodes.decodes hα hrep⟩
    · rintro ⟨τ, hτ, hxor, hdec⟩
      obtain ⟨hτ, hclauses⟩ := models_append.mp hτ
      obtain ⟨β, hβ, hrep⟩ := hencodes.models.mp hτ
      have hβα : β = α := Equiv.ext fun v =>
        Option.some.inj (congrFun ((hencodes.decodes hβ hrep).symm.trans hdec) v)
      subst hβα
      exact ⟨hβ.1, hβ.2.1, hβ.2.2, (heven hβ hrep hclauses).mp hxor⟩
    · rintro ⟨haut, hcol, hside, hflips⟩
      obtain ⟨τ, hrep, hclauses⟩ := hinv.exists_model (himage ⟨haut, hcol, hside⟩)
      refine ⟨τ, models_append.mpr ⟨hencodes.models.mpr ⟨α, ⟨haut, hcol, hside⟩, hrep⟩, hclauses⟩,
        (heven ⟨haut, hcol, hside⟩ hrep hclauses).mpr hflips, hencodes.decodes ⟨haut, hcol, hside⟩ hrep⟩
  · push Not at hsides
    obtain ⟨e, he⟩ := herr hsides
    have hfails : addClusterParityXors (buildCryptoMiniSatEncoding g colorOf edgeThreshold).2 sided = .error e := by
      rw [addClusterParityXors, he]
      rfl
    refine ⟨iff_of_false ?_ fun hall => ?_, fun x hx => ?_⟩
    · rintro ⟨x, hx⟩
      cases hfails.symm.trans hx
    · obtain ⟨p, hp, hno⟩ := hsides
      obtain ⟨port, hport, rfl⟩ := List.mem_map.mp hp
      obtain ⟨ports, hports, hport⟩ := List.mem_flatten.mp hport
      obtain ⟨cluster, hcluster, rfl⟩ := List.mem_map.mp hports
      exact hno (sidesKnown_iff.mpr (hall cluster hcluster port hport))
    · cases hfails.symm.trans hx

end

/-- A path whose ends are the two vertices of one port. -/
def onePort : SidedReconstruction 3 where
  recon := ⟨[⟨[1], [(0, 2)]⟩], 1, 2⟩
  partnerOf := fun v => if v = 0 then some 2 else if v = 2 then some 0 else none
  clusters := [(⟨0, Nat.one_pos⟩, [⟨0, Nat.one_pos⟩])]
  clusterOddPorts := [(⟨0, Nat.one_pos⟩, [(0, 2)])]

def exchangeEnds : Equiv.Perm (Fin (ofEdges 3 [(0, 1), (1, 2)]).n) := (Equiv.swap 0 2 : Equiv.Perm (Fin 3))

/-- No model is left for the automorphism that exchanges the ends. -/
theorem addClusterParityXors_exact_onePort :
    ∃ x, addClusterParityXors
        (buildCryptoMiniSatEncoding (ofEdges 3 [(0, 1), (1, 2)]) (fun _ => ()) 1024).2 onePort = .ok x ∧
      ¬∃ τ, Models τ ((buildCryptoMiniSatEncoding (ofEdges 3 [(0, 1), (1, 2)]) (fun _ => ()) 1024).1 ++
          x.clauses) ∧ XorModels τ x.xors ∧
        decodeModel (buildCryptoMiniSatEncoding (ofEdges 3 [(0, 1), (1, 2)]) (fun _ => ()) 1024).2 τ =
          fun v => some (exchangeEnds v) := by
  obtain ⟨hreturns, hexact⟩ :=
    addClusterParityXors_exact (ofEdges 3 [(0, 1), (1, 2)]) (fun _ => ()) 1024 onePort
  obtain ⟨x, hx⟩ := hreturns.mpr (by decide)
  refine ⟨x, hx, fun hmodel => ?_⟩
  have heven := (((hexact x hx).2.2.2 exchangeEnds).mp hmodel).2.2.2
  exact absurd (heven _ List.mem_cons_self) (by decide)

end Dialysis.RealFileGadgetXor
