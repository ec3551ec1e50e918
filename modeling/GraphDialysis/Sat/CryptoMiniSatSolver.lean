import GraphDialysis.Lib.Parity
import GraphDialysis.Lib.Cnf
import Mathlib.Data.List.Basic

/-! `CryptoMiniSatSolver` and the shim `cryptominisat_jni.cpp` behind it: literals arrive one at a time and
    assumptions before each solve, as IPASIR has it, while `SATSolver` takes whole clauses over variables
    it has been told about. The library is a parameter; `SATSolver.Keeps` is what its header promises.

    `Refines` relates a handle to the `Session` it stands for, and every call keeps it (`refines_step`).
    So over any sequence of calls the solver never sees a variable that it was not grown to, an
    assumption lives until the next solve, and the answers are right (`nativeSolve_spec`). -/

namespace Dialysis.Sat.CryptoMiniSat
open Lib.Cnf Lib.Parity

/-! ### The library -/

/-- `CMSat::Lit`, a variable counted from 0 and whether it is inverted. -/
structure Lit where
  var : ℕ
  sign : Bool

inductive Lbool
  | l_True
  | l_False
  | l_Undef
  deriving DecidableEq

/-- What the shim uses of `CMSat::SATSolver`, over the states of a solver. Limits are milliseconds. -/
structure SATSolver (σ : Type*) where
  fresh : σ
  nVars : σ → ℕ
  new_vars : σ → ℕ → σ
  add_clause : σ → List Lit → σ
  add_xor_clause : σ → List ℕ → Bool → σ
  set_max_time : σ → ℤ → σ
  solve : σ → List Lit → Lbool × σ
  simplify : σ → Lbool × σ
  backbone_simpl : σ → ℤ → (Bool × Bool) × σ
  get_model : σ → List Lbool

def Lit.Holds (τ : ℕ → Bool) (l : Lit) : Prop := τ l.var = !l.sign

/-- The assignment agrees with the model where that decides one of the `n` variables. -/
def Completes (n : ℕ) (model : List Lbool) (τ : ℕ → Bool) : Prop :=
  ∀ v < n, (model[v]? = some .l_True → τ v = true) ∧ (model[v]? = some .l_False → τ v = false)

/-- The same variables and the same satisfying assignments. -/
def Same {σ : Type*} (S : SATSolver σ) (sat : σ → (ℕ → Bool) → Prop) (s s' : σ) : Prop :=
  S.nVars s' = S.nVars s ∧ ∀ τ, sat s' τ ↔ sat s τ

/-- What the library promises, about literals of variables that it has: `sat` are the assignments that
    satisfy all that was added, a verdict is right, and a model may leave only variables open that do
    not matter. -/
structure SATSolver.Keeps {σ : Type*} (S : SATSolver σ) (sat : σ → (ℕ → Bool) → Prop) : Prop where
  fresh : S.nVars S.fresh = 0 ∧ ∀ τ, sat S.fresh τ
  new_vars : ∀ s k, S.nVars (S.new_vars s k) = S.nVars s + k ∧ ∀ τ, sat (S.new_vars s k) τ ↔ sat s τ
  add_clause : ∀ s c, (∀ l ∈ c, l.var < S.nVars s) → S.nVars (S.add_clause s c) = S.nVars s ∧
    ∀ τ, sat (S.add_clause s c) τ ↔ sat s τ ∧ ∃ l ∈ c, l.Holds τ
  add_xor_clause : ∀ s vars rhs, (∀ v ∈ vars, v < S.nVars s) →
    S.nVars (S.add_xor_clause s vars rhs) = S.nVars s ∧
    ∀ τ, sat (S.add_xor_clause s vars rhs) τ ↔ sat s τ ∧ (Odd (vars.countP τ) ↔ rhs = true)
  set_max_time : ∀ s ms, Same S sat s (S.set_max_time s ms)
  solve : ∀ s assumptions, (∀ l ∈ assumptions, l.var < S.nVars s) →
    Same S sat s (S.solve s assumptions).2 ∧
    ((S.solve s assumptions).1 = .l_True →
      ∀ τ, Completes (S.nVars s) (S.get_model (S.solve s assumptions).2) τ →
        sat s τ ∧ ∀ l ∈ assumptions, l.Holds τ) ∧
    ((S.solve s assumptions).1 = .l_False → ∀ τ, sat s τ → ¬∀ l ∈ assumptions, l.Holds τ)
  simplify : ∀ s, Same S sat s (S.simplify s).2
  backbone_simpl : ∀ s maxConfl, Same S sat s (S.backbone_simpl s maxConfl).2

/-! ### The shim -/

structure Handle (σ : Type*) where
  solver : σ
  currentClause : List Lit
  pendingAssumptions : List Lit

section
variable {σ : Type*} (S : SATSolver σ)

/-- `static_cast<uint32_t>(std::abs(lit) - 1)`. -/
def var0 (lit : ℤ) : ℕ := (lit.natAbs + (2 ^ 32 - 1)) % 2 ^ 32

def toLit (dimacsLit : ℤ) : Lit := ⟨var0 dimacsLit, decide (dimacsLit < 0)⟩

def ensureVar (h : Handle σ) (v : ℕ) : Handle σ :=
  if S.nVars h.solver ≤ v then
    { h with solver := S.new_vars h.solver ((v + 1 - S.nVars h.solver) % 2 ^ 32) }
  else h

def nativeInit : Handle σ := ⟨S.fresh, [], []⟩

def nativeAdd (h : Handle σ) (lit : ℤ) : Handle σ :=
  if lit = 0 then { h with solver := S.add_clause h.solver h.currentClause, currentClause := [] }
  else
    let h := ensureVar S h (var0 lit)
    { h with currentClause := h.currentClause ++ [toLit lit] }

def nativeAddXorClause (h : Handle σ) (vars : List ℤ) (rhs : Bool) : Handle σ :=
  let h := (vars.map var0).foldl (ensureVar S) h
  { h with solver := S.add_xor_clause h.solver (vars.map var0) rhs }

def nativeAssume (h : Handle σ) (lit : ℤ) : Handle σ :=
  let h := ensureVar S h (var0 lit)
  { h with pendingAssumptions := h.pendingAssumptions ++ [toLit lit] }

/-- No limit is set when there is none. -/
def limit (s : σ) (timeoutMs : ℤ) : σ := if 0 < timeoutMs then S.set_max_time s timeoutMs else s

def verdict : Lbool → ℤ
  | .l_True => 10
  | .l_False => 20
  | .l_Undef => 0

def nativeSolve (h : Handle σ) (timeoutMs : ℤ) : ℤ × Handle σ :=
  let result := S.solve (limit S h.solver timeoutMs) h.pendingAssumptions
  (verdict result.1, { h with solver := result.2, pendingAssumptions := [] })

def nativeSimplify (h : Handle σ) (timeoutMs : ℤ) : ℤ × Handle σ :=
  let result := S.simplify (limit S h.solver timeoutMs)
  (verdict result.1, { h with solver := result.2 })

def nativeBackboneSimplify (h : Handle σ) (maxConfl : ℤ) : ℤ × Handle σ :=
  let result := S.backbone_simpl h.solver maxConfl
  ((if result.1.1 then 1 else 0) + (if result.1.2 then 2 else 0), { h with solver := result.2 })

def nativeVal (h : Handle σ) (lit : ℤ) : ℤ :=
  match (S.get_model h.solver)[var0 lit]? with
  | some .l_True => if 0 < lit then lit else -lit
  | some .l_False => if 0 < lit then -lit else lit
  | _ => 0

/-! ### The class -/

def addClause (h : Handle σ) (lits : List ℤ) : Handle σ := nativeAdd S (lits.foldl (nativeAdd S) h) 0

inductive Result
  | SAT
  | UNSAT
  | UNKNOWN
  deriving DecidableEq

def resultOf (code : ℤ) : Result := if code = 10 then .SAT else if code = 20 then .UNSAT else .UNKNOWN

def solve (h : Handle σ) (timeoutMs : ℤ) : Result × Handle σ :=
  (resultOf (nativeSolve S h timeoutMs).1, (nativeSolve S h timeoutMs).2)

end

/-! ### What a handle stands for -/

/-- The clauses and constraints added, the clause being built and what is assumed; `top` is the greatest
    variable that was mentioned. -/
structure Session where
  clauses : Formula
  xors : List XorClause
  current : Clause
  assumed : List ℤ
  top : ℕ

def Session.start : Session := ⟨[], [], [], [], 0⟩

def Session.Satisfied (a : Session) (τ : ℕ → Bool) : Prop := Models τ a.clauses ∧ XorModels τ a.xors

inductive Call
  | add (lit : ℤ)
  | addXorClause (vars : List ℤ) (rhs : Bool)
  | assume (lit : ℤ)
  | solve (timeoutMs : ℤ)
  | simplify (timeoutMs : ℤ)
  | backboneSimplify (maxConfl : ℤ)

/-- A literal that a DIMACS file could have: a nonzero `jint` other than the least. -/
def IsLiteral (lit : ℤ) : Prop := lit ≠ 0 ∧ lit.natAbs < 2 ^ 31

instance (lit : ℤ) : Decidable (IsLiteral lit) := by unfold IsLiteral; infer_instance

/-- The calls that the documentation of the class allows. -/
def Call.Proper : Call → Prop
  | .add lit => lit = 0 ∨ IsLiteral lit
  | .addXorClause vars _ => ∀ v ∈ vars, 0 < v ∧ v < 2 ^ 31
  | .assume lit => IsLiteral lit
  | .solve _ => True
  | .simplify _ => True
  | .backboneSimplify _ => True

def Session.step (a : Session) : Call → Session
  | .add lit =>
    if lit = 0 then { a with clauses := a.clauses ++ [a.current], current := [] }
    else { a with current := a.current ++ [lit], top := max a.top lit.natAbs }
  | .addXorClause vars rhs =>
    { a with xors := a.xors ++ [⟨vars.map Int.natAbs, rhs⟩], top := (vars.map Int.natAbs).foldl max a.top }
  | .assume lit => { a with assumed := a.assumed ++ [lit], top := max a.top lit.natAbs }
  | .solve _ => { a with assumed := [] }
  | .simplify _ => a
  | .backboneSimplify _ => a

def step {σ : Type*} (S : SATSolver σ) (h : Handle σ) : Call → Handle σ
  | .add lit => nativeAdd S h lit
  | .addXorClause vars rhs => nativeAddXorClause S h vars rhs
  | .assume lit => nativeAssume S h lit
  | .solve timeoutMs => (solve S h timeoutMs).2
  | .simplify timeoutMs => (nativeSimplify S h timeoutMs).2
  | .backboneSimplify maxConfl => (nativeBackboneSimplify S h maxConfl).2

/-- The buffers hold what the session has, the solver has the variables up to `top`, and its satisfying
    assignments are those of the session, with the variables counted from 0. -/
structure Refines {σ : Type*} (S : SATSolver σ) (sat : σ → (ℕ → Bool) → Prop) (h : Handle σ) (a : Session) :
    Prop where
  currentClause : h.currentClause = a.current.map toLit
  pendingAssumptions : h.pendingAssumptions = a.assumed.map toLit
  literals : ∀ l, l ∈ a.current ∨ l ∈ a.assumed → IsLiteral l ∧ l.natAbs ≤ a.top
  nVars : S.nVars h.solver = a.top
  top : a.top < 2 ^ 31
  sat : ∀ τ, sat h.solver (fun v => τ (v + 1)) ↔ a.Satisfied τ

/-! ### Literals -/

theorem var0_succ {lit : ℤ} (h : IsLiteral lit) : var0 lit + 1 = lit.natAbs := by
  have hne : lit.natAbs ≠ 0 := Int.natAbs_ne_zero.mpr h.1
  have hlt := h.2
  rw [var0]
  omega

theorem holds_toLit {lit : ℤ} (h : IsLiteral lit) {τ : ℕ → Bool} :
    (toLit lit).Holds (fun v => τ (v + 1)) ↔ holds τ lit := by
  rw [Lit.Holds, toLit]
  simp only [var0_succ h]
  rw [holds]
  split_ifs with hneg
  · simp [hneg]
  · simp [hneg]

/-! ### Every call keeps the relation -/

section
variable {σ : Type*} {S : SATSolver σ} {sat : σ → (ℕ → Bool) → Prop} (hS : S.Keeps sat) {h : Handle σ}
  {a : Session}
include hS

/-- Growing the solver to a literal's variable. -/
theorem refines_ensureVar (hr : Refines S sat h a) {lit : ℤ} (hlit : IsLiteral lit) :
    Refines S sat (ensureVar S h (var0 lit)) { a with top := max a.top lit.natAbs } ∧
      var0 lit < S.nVars (ensureVar S h (var0 lit)).solver := by
  have hvar := var0_succ hlit
  have hlt := hlit.2
  have hliterals : ∀ l, l ∈ a.current ∨ l ∈ a.assumed → IsLiteral l ∧ l.natAbs ≤ max a.top lit.natAbs :=
    fun l hl => ⟨(hr.literals l hl).1, (hr.literals l hl).2.trans (le_max_left _ _)⟩
  have htop := hr.top
  rw [ensureVar]
  split_ifs with hgrow
  · rw [hr.nVars] at hgrow
    obtain ⟨hn, hsat⟩ := hS.new_vars h.solver ((var0 lit + 1 - a.top) % 2 ^ 32)
    rw [hr.nVars] at hn
    refine ⟨⟨hr.currentClause, hr.pendingAssumptions, hliterals, ?_, max_lt htop hlt, fun τ => ?_⟩, ?_⟩
    · simp only [hr.nVars, hn]
      omega
    · simp only [hr.nVars, hsat]
      exact hr.sat τ
    · simp only [hr.nVars, hn]
      omega
  · rw [hr.nVars] at hgrow
    refine ⟨⟨hr.currentClause, hr.pendingAssumptions, hliterals, ?_, max_lt htop hlt, hr.sat⟩, ?_⟩
    · rw [hr.nVars]
      exact (max_eq_left (by omega)).symm
    · rw [hr.nVars]
      omega

theorem refines_ensureVars : ∀ {vars : List ℤ} {h : Handle σ} {a : Session}, Refines S sat h a →
    (∀ v ∈ vars, IsLiteral v) →
    Refines S sat ((vars.map var0).foldl (ensureVar S) h)
        { a with top := (vars.map Int.natAbs).foldl max a.top } ∧
      S.nVars h.solver ≤ S.nVars ((vars.map var0).foldl (ensureVar S) h).solver ∧
      ∀ v ∈ vars, var0 v < S.nVars ((vars.map var0).foldl (ensureVar S) h).solver
  | [], _, _, hr, _ => ⟨hr, le_refl _, fun _ hv => by cases hv⟩
  | v :: vars, h, a, hr, hvars => by
    obtain ⟨hr₁, hlt₁⟩ := refines_ensureVar hS hr (hvars v List.mem_cons_self)
    obtain ⟨hr', hle, hlt⟩ := refines_ensureVars hr₁ fun w hw => hvars w (List.mem_cons_of_mem _ hw)
    have hgrows : S.nVars h.solver ≤ S.nVars (ensureVar S h (var0 v)).solver := by
      rw [hr.nVars, hr₁.nVars]
      exact le_max_left _ _
    refine ⟨hr', hgrows.trans hle, fun w hw => ?_⟩
    rcases List.mem_cons.mp hw with rfl | hw
    · exact hlt₁.trans_le hle
    · exact hlt w hw

omit hS in
/-- A change of the solver that keeps its variables and assignments. -/
theorem Refines.same (hr : Refines S sat h a) {s : σ} (hs : Same S sat h.solver s) :
    Refines S sat { h with solver := s } a where
  currentClause := hr.currentClause
  pendingAssumptions := hr.pendingAssumptions
  literals := hr.literals
  nVars := hs.1.trans hr.nVars
  top := hr.top
  sat := fun τ => (hs.2 _).trans (hr.sat τ)

theorem same_limit (s : σ) (timeoutMs : ℤ) : Same S sat s (limit S s timeoutMs) := by
  rw [limit]
  split_ifs
  · exact hS.set_max_time s timeoutMs
  · exact ⟨rfl, fun _ => Iff.rfl⟩

theorem refines_add (hr : Refines S sat h a) {lit : ℤ} (hlit : lit = 0 ∨ IsLiteral lit) :
    Refines S sat (nativeAdd S h lit) (a.step (.add lit)) := by
  rw [nativeAdd, Session.step]
  rcases hlit with rfl | hlit
  · rw [if_pos rfl, if_pos rfl]
    have hvars : ∀ l ∈ h.currentClause, l.var < S.nVars h.solver := by
      rw [hr.currentClause, hr.nVars]
      intro x hx
      obtain ⟨l, hl, rfl⟩ := List.mem_map.mp hx
      have hle := (hr.literals l (Or.inl hl)).2
      have := var0_succ (hr.literals l (Or.inl hl)).1
      exact Nat.lt_of_succ_le (this.le.trans hle)
    obtain ⟨hn, hsat⟩ := hS.add_clause h.solver h.currentClause hvars
    refine ⟨rfl, hr.pendingAssumptions, fun l hl => hr.literals l (Or.inr (hl.resolve_left List.not_mem_nil)),
      hn.trans hr.nVars, hr.top, fun τ => ?_⟩
    rw [hsat, hr.sat, Session.Satisfied, Session.Satisfied, models_append, hr.currentClause]
    have hclause : (∃ l ∈ a.current.map toLit, l.Holds fun v => τ (v + 1)) ↔ Clause.Satisfied τ a.current := by
      rw [Clause.Satisfied]
      constructor
      · rintro ⟨x, hx, hholds⟩
        obtain ⟨l, hl, rfl⟩ := List.mem_map.mp hx
        exact ⟨l, hl, (holds_toLit (hr.literals l (Or.inl hl)).1).mp hholds⟩
      · rintro ⟨l, hl, hholds⟩
        exact ⟨_, List.mem_map_of_mem hl, (holds_toLit (hr.literals l (Or.inl hl)).1).mpr hholds⟩
    rw [hclause, models_cons, and_iff_left (models_nil τ)]
    tauto
  · rw [if_neg hlit.1, if_neg hlit.1]
    obtain ⟨hr', -⟩ := refines_ensureVar hS hr hlit
    refine ⟨?_, hr'.pendingAssumptions, fun l hl => ?_, hr'.nVars, hr'.top, hr'.sat⟩
    · simp only [hr'.currentClause, List.map_append, List.map_cons, List.map_nil]
    · rw [List.mem_append, List.mem_singleton] at hl
      rcases hl with (hl | rfl) | hl
      · exact hr'.literals l (Or.inl hl)
      · exact ⟨hlit, le_max_right _ _⟩
      · exact hr'.literals l (Or.inr hl)

/-- What one call does. -/
theorem refines_step (hr : Refines S sat h a) {call : Call} (hcall : call.Proper) :
    Refines S sat (step S h call) (a.step call) := by
  cases call with
  | add lit => exact refines_add hS hr hcall
  | addXorClause vars rhs =>
    have hvars : ∀ v ∈ vars, IsLiteral v := fun v hv => by
      have := hcall v hv
      exact ⟨by omega, by omega⟩
    obtain ⟨hr', -, hlt⟩ := refines_ensureVars hS hr hvars
    obtain ⟨hn, hsat⟩ := hS.add_xor_clause _ (vars.map var0) rhs fun v hv => by
      obtain ⟨w, hw, rfl⟩ := List.mem_map.mp hv
      exact hlt w hw
    refine ⟨hr'.currentClause, hr'.pendingAssumptions, hr'.literals, hn.trans hr'.nVars, hr'.top,
      fun τ => ?_⟩
    have hcount : (vars.map var0).countP (fun v => τ (v + 1)) = (vars.map Int.natAbs).countP τ := by
      rw [List.countP_map, List.countP_map]
      refine List.countP_congr fun v hv => ?_
      simp only [Function.comp_apply, var0_succ (hvars v hv)]
    refine (hsat _).trans ?_
    rw [hr'.sat, hcount]
    simp only [Session.step, Session.Satisfied, xorModels_concat, XorClause.Satisfied]
    tauto
  | assume lit =>
    obtain ⟨hr', -⟩ := refines_ensureVar hS hr hcall
    refine ⟨hr'.currentClause, ?_, fun l hl => ?_, hr'.nVars, hr'.top, hr'.sat⟩
    · simp only [step, nativeAssume, Session.step, hr'.pendingAssumptions, List.map_append, List.map_cons,
        List.map_nil]
    · simp only [Session.step, List.mem_append, List.mem_singleton] at hl
      rcases hl with hl | hl | rfl
      · exact hr'.literals l (Or.inl hl)
      · exact hr'.literals l (Or.inr hl)
      · exact ⟨hcall, le_max_right _ _⟩
  | solve timeoutMs =>
    have hlimit := hr.same (same_limit hS h.solver timeoutMs)
    have hpending : ∀ l ∈ h.pendingAssumptions, l.var < S.nVars (limit S h.solver timeoutMs) := by
      intro x hx
      rw [hr.pendingAssumptions] at hx
      obtain ⟨l, hl, rfl⟩ := List.mem_map.mp hx
      have := var0_succ (hr.literals l (Or.inr hl)).1
      have hle := (hr.literals l (Or.inr hl)).2
      exact (Nat.lt_of_succ_le (this.le.trans hle)).trans_eq hlimit.nVars.symm
    have hsolved := hlimit.same (hS.solve _ _ hpending).1
    exact ⟨hsolved.currentClause, rfl, fun l hl => hr.literals l (Or.inl (hl.resolve_right List.not_mem_nil)),
      hsolved.nVars, hsolved.top, hsolved.sat⟩
  | simplify timeoutMs =>
    exact (hr.same (same_limit hS h.solver timeoutMs)).same (hS.simplify _)
  | backboneSimplify maxConfl => exact hr.same (hS.backbone_simpl _ maxConfl)

theorem refines_start : Refines S sat (nativeInit S) Session.start where
  currentClause := rfl
  pendingAssumptions := rfl
  literals := by simp [Session.start]
  nVars := hS.fresh.1
  top := by decide
  sat := fun τ => iff_of_true (hS.fresh.2 _) (by simp [Session.Satisfied, Session.start])

/-- Any sequence of calls. -/
theorem refines_run : ∀ {calls : List Call} {h : Handle σ} {a : Session}, Refines S sat h a →
    (∀ call ∈ calls, call.Proper) → Refines S sat (calls.foldl (step S) h) (calls.foldl Session.step a)
  | [], _, _, hr, _ => hr
  | call :: calls, h, a, hr, hcalls =>
    @refines_run calls (step S h call) (a.step call) (refines_step hS hr (hcalls call List.mem_cons_self))
      fun c hc => hcalls c (List.mem_cons_of_mem _ hc)

omit hS in
theorem resultOf_verdict (r : Lbool) :
    (resultOf (verdict r) = .SAT ↔ r = .l_True) ∧ (resultOf (verdict r) = .UNSAT ↔ r = .l_False) := by
  cases r <;> decide

omit hS in
/-- The values read after a solve complete its model. -/
theorem completes_nativeVal {n : ℕ} (hn : n < 2 ^ 31) (h : Handle σ) :
    Completes n (S.get_model h.solver) fun v => decide (0 < nativeVal S h ((v + 1 : ℕ) : ℤ)) := by
  intro v hv
  have hvar : var0 ((v + 1 : ℕ) : ℤ) = v := by
    rw [var0, Int.natAbs_natCast]
    omega
  have hpos : (0 : ℤ) < ((v + 1 : ℕ) : ℤ) := by omega
  refine ⟨fun hm => decide_eq_true ?_, fun hm => decide_eq_false ?_⟩
  · simp only [nativeVal, hvar, hm, if_pos hpos]
    exact hpos
  · simp only [nativeVal, hvar, hm, if_pos hpos]
    omega

/-- A verdict on what the handle stands for, under what is assumed. -/
theorem solve_spec (hr : Refines S sat h a) (timeoutMs : ℤ) :
    ((solve S h timeoutMs).1 = .SAT →
      a.Satisfied (fun v => decide (0 < nativeVal S (solve S h timeoutMs).2 v)) ∧
        ∀ l ∈ a.assumed, holds (fun v => decide (0 < nativeVal S (solve S h timeoutMs).2 v)) l) ∧
    ((solve S h timeoutMs).1 = .UNSAT → ∀ τ, a.Satisfied τ → ¬∀ l ∈ a.assumed, holds τ l) := by
  have hlimit := hr.same (same_limit hS h.solver timeoutMs)
  have hpending : ∀ l ∈ h.pendingAssumptions, l.var < S.nVars (limit S h.solver timeoutMs) := by
    intro x hx
    rw [hr.pendingAssumptions] at hx
    obtain ⟨l, hl, rfl⟩ := List.mem_map.mp hx
    have := var0_succ (hr.literals l (Or.inr hl)).1
    have hle := (hr.literals l (Or.inr hl)).2
    exact (Nat.lt_of_succ_le (this.le.trans hle)).trans_eq hlimit.nVars.symm
  have hassumed : ∀ τ : ℕ → Bool, (∀ l ∈ h.pendingAssumptions, l.Holds fun v => τ (v + 1)) ↔
      ∀ l ∈ a.assumed, holds τ l := fun τ => by
    rw [hr.pendingAssumptions, List.forall_mem_map]
    exact forall₂_congr fun l hl => holds_toLit (hr.literals l (Or.inr hl)).1
  obtain ⟨-, hsat, hunsat⟩ := hS.solve _ _ hpending
  refine ⟨fun hres => ?_, fun hres τ hτ hall => ?_⟩
  · have hmodel := hsat ((resultOf_verdict _).1.mp hres) _
      (completes_nativeVal (hlimit.nVars.trans_lt hr.top) (solve S h timeoutMs).2)
    exact ⟨(hlimit.sat _).mp hmodel.1, (hassumed _).mp hmodel.2⟩
  · exact hunsat ((resultOf_verdict _).2.mp hres) _ ((hlimit.sat τ).mpr hτ) ((hassumed τ).mpr hall)

end

/-- After any calls that its documentation allows, a solve answers for the clauses that have been closed
    and the constraints, under what was assumed since the solve before; the solver has exactly the
    variables mentioned, and nothing stays assumed. -/
theorem session_answers {σ : Type*} (S : SATSolver σ) (sat : σ → (ℕ → Bool) → Prop) (hS : S.Keeps sat)
    (calls : List Call) (hcalls : ∀ call ∈ calls, call.Proper) (timeoutMs : ℤ) :
    let a := calls.foldl Session.step Session.start
    let r := solve S (calls.foldl (step S) (nativeInit S)) timeoutMs
    (r.1 = .SAT → a.Satisfied (fun v => decide (0 < nativeVal S r.2 v)) ∧
      ∀ l ∈ a.assumed, holds (fun v => decide (0 < nativeVal S r.2 v)) l) ∧
    (r.1 = .UNSAT → ∀ τ, a.Satisfied τ → ¬∀ l ∈ a.assumed, holds τ l) ∧
    Refines S sat r.2 (a.step (.solve timeoutMs)) := by
  intro a r
  have hr := refines_run hS (refines_start hS) hcalls
  obtain ⟨hsat, hunsat⟩ := solve_spec hS hr timeoutMs
  exact ⟨hsat, hunsat, @refines_step _ S sat hS _ _ hr (.solve timeoutMs) trivial⟩

/-! ### A solver that tries all assignments -/

/-- The rows are the satisfying assignments, one entry for each variable. -/
structure Exhaustive where
  nVars : ℕ
  rows : List (List Bool)
  model : List Lbool

namespace Exhaustive

def grow : ℕ → List (List Bool) → List (List Bool)
  | 0, rows => rows
  | k + 1, rows => (grow k rows).flatMap fun row => [row ++ [false], row ++ [true]]

def value (row : List Bool) (v : ℕ) : Bool := row.getD v false

def agrees (row : List Bool) (l : Lit) : Bool := value row l.var == !l.sign

def search (s : Exhaustive) (assumptions : List Lit) : Option (List Bool) :=
  s.rows.find? fun row => row.length = s.nVars ∧ assumptions.all (agrees row)

def modelOf (row : List Bool) : List Lbool := row.map fun b => if b then .l_True else .l_False

def solver : SATSolver Exhaustive where
  fresh := ⟨0, [[]], []⟩
  nVars := nVars
  new_vars := fun s k => { s with nVars := s.nVars + k, rows := grow k s.rows }
  add_clause := fun s c => { s with rows := s.rows.filter fun row => c.any (agrees row) }
  add_xor_clause := fun s vars rhs =>
    { s with rows := s.rows.filter fun row => decide (vars.countP (value row) % 2 = 1) = rhs }
  set_max_time := fun s _ => s
  solve := fun s assumptions =>
    match search s assumptions with
    | some row => (.l_True, { s with model := modelOf row })
    | none => (.l_False, s)
  simplify := fun s => (.l_Undef, s)
  backbone_simpl := fun s _ => ((true, false), s)
  get_model := model

/-- The assignment as a row. -/
def row (n : ℕ) (τ : ℕ → Bool) : List Bool := (List.range n).map τ

def Satisfies (s : Exhaustive) (τ : ℕ → Bool) : Prop := row s.nVars τ ∈ s.rows

theorem value_row {n v : ℕ} (h : v < n) (τ : ℕ → Bool) : value (row n τ) v = τ v := by
  simp [value, row, h]

theorem agrees_row {n : ℕ} {l : Lit} (h : l.var < n) (τ : ℕ → Bool) :
    agrees (row n τ) l = true ↔ l.Holds τ := by
  rw [agrees, value_row h, beq_iff_eq, Lit.Holds]

theorem mem_grow {τ : ℕ → Bool} {n : ℕ} {rows : List (List Bool)} : ∀ k,
    row (n + k) τ ∈ grow k rows ↔ row n τ ∈ rows
  | 0 => Iff.rfl
  | k + 1 => by
    have hrow : row (n + (k + 1)) τ = row (n + k) τ ++ [τ (n + k)] := by
      rw [row, ← Nat.add_assoc, List.range_succ, List.map_append]
      rfl
    rw [hrow, ← mem_grow k, grow, List.mem_flatMap]
    constructor
    · rintro ⟨r, hr, hmem⟩
      have hlast : ∀ b, row (n + k) τ ++ [τ (n + k)] = r ++ [b] → r = row (n + k) τ := fun b h =>
        (List.append_inj_left' h rfl).symm
      rcases List.mem_cons.mp hmem with h | h
      · exact hlast _ h ▸ hr
      · exact hlast _ (List.mem_singleton.mp h) ▸ hr
    · intro hr
      refine ⟨_, hr, ?_⟩
      cases τ (n + k) <;> simp

theorem row_eq_of_completes {n : ℕ} {r : List Bool} (hlength : r.length = n) {τ : ℕ → Bool}
    (h : Completes n (modelOf r) τ) : row n τ = r := by
  subst hlength
  refine List.ext_getElem (by simp [row]) fun v hv hv' => ?_
  obtain ⟨htrue, hfalse⟩ := h v hv'
  simp only [modelOf, List.getElem?_map, List.getElem?_eq_getElem hv', Option.map_some, Option.some.injEq] at htrue hfalse
  simp only [row, List.getElem_map, List.getElem_range]
  cases hr : r[v] with
  | true => exact htrue (by rw [hr]; rfl)
  | false => exact hfalse (by rw [hr]; rfl)

theorem all_agrees_row {n : ℕ} {assumptions : List Lit} (h : ∀ l ∈ assumptions, l.var < n) (τ : ℕ → Bool) :
    assumptions.all (agrees (row n τ)) = true ↔ ∀ l ∈ assumptions, l.Holds τ := by
  rw [List.all_eq_true]
  exact forall₂_congr fun l hl => agrees_row (h l hl) τ

theorem keeps : solver.Keeps Satisfies where
  fresh := ⟨rfl, fun _ => List.mem_singleton_self _⟩
  new_vars := fun s k => ⟨rfl, fun τ => mem_grow k⟩
  add_clause := fun s c hc => ⟨rfl, fun τ => by
    change row s.nVars τ ∈ List.filter _ _ ↔ _
    rw [List.mem_filter, List.any_eq_true]
    exact and_congr_right fun _ => exists_congr fun l =>
      and_congr_right fun hl => agrees_row (hc l hl) τ⟩
  add_xor_clause := fun s vars rhs hvars => ⟨rfl, fun τ => by
    change row s.nVars τ ∈ List.filter _ _ ↔ _
    have hcount : vars.countP (value (row s.nVars τ)) = vars.countP τ :=
      List.countP_congr fun v hv => Iff.of_eq (congrArg (· = true) (value_row (hvars v hv) τ))
    rw [List.mem_filter, hcount, decide_eq_true_eq, Nat.odd_iff]
    refine and_congr_right fun _ => ?_
    cases rhs <;> simp⟩
  set_max_time := fun _ _ => ⟨rfl, fun _ => Iff.rfl⟩
  solve := fun s assumptions hvars => by
    cases hsearch : search s assumptions with
    | some r =>
      have hmem := List.mem_of_find?_eq_some hsearch
      obtain ⟨hlength, hall⟩ := of_decide_eq_true (List.find?_some
        (p := fun row : List Bool => decide (row.length = s.nVars ∧ assumptions.all (agrees row))) hsearch)
      simp only [solver, hsearch]
      refine ⟨⟨rfl, fun _ => Iff.rfl⟩, fun _ τ hτ => ?_, (nomatch ·)⟩
      have hrow := row_eq_of_completes hlength hτ
      rw [← hrow] at hmem hall
      exact ⟨hmem, (all_agrees_row hvars τ).mp hall⟩
    | none =>
      simp only [solver, hsearch]
      refine ⟨⟨rfl, fun _ => Iff.rfl⟩, (nomatch ·), fun _ τ hτ hall => ?_⟩
      have := List.find?_eq_none.mp hsearch _ hτ
      exact this (decide_eq_true ⟨by simp [row], (all_agrees_row hvars τ).mpr hall⟩)
  simplify := fun _ => ⟨rfl, fun _ => Iff.rfl⟩
  backbone_simpl := fun _ _ => ⟨rfl, fun _ => Iff.rfl⟩

end Exhaustive

/-- Variable 1 is true, which no solve denies once its negation is no longer assumed. -/
theorem session_answers_unit :
    let h := [Call.add 1, .add 0, .assume (-1), .solve 0].foldl (step Exhaustive.solver)
      (nativeInit Exhaustive.solver)
    (solve Exhaustive.solver h 0).1 = .SAT ∧ 0 < nativeVal Exhaustive.solver (solve Exhaustive.solver h 0).2 1 := by
  have hanswers := session_answers Exhaustive.solver Exhaustive.Satisfies Exhaustive.keeps
    [.add 1, .add 0, .assume (-1), .solve 0] (by simp [Call.Proper, IsLiteral]) 0
  have hsat : (solve Exhaustive.solver ([Call.add 1, .add 0, .assume (-1), .solve 0].foldl
      (step Exhaustive.solver) (nativeInit Exhaustive.solver)) 0).1 = .SAT := by decide
  obtain ⟨hmodel, -⟩ := (hanswers.1 hsat).1
  have hunit := hmodel [1] (by decide)
  simp only [satisfied_cons, satisfied_nil, or_false, holds_pos Int.one_pos, decide_eq_true_eq] at hunit
  exact ⟨hsat, hunit⟩

end Dialysis.Sat.CryptoMiniSat
