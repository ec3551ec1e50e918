import Mathlib.Data.List.Basic
import Mathlib.Data.List.Nodup
import Mathlib.Data.List.Pairwise
import Mathlib.Data.Int.Order.Basic
import Mathlib.Data.Nat.Choose.Basic

/-! Propositional formulas in conjunctive normal form, with literals as nonzero integers: `v` is
    variable `v`, `-v` its negation. `exactlyOne` is the pairwise encoding — one clause asking for
    a true literal, one binary clause for every two positions — and `models_exactlyOne` says that
    over distinct variables it means what its name says. -/

namespace Lib.Cnf

abbrev Clause := List ℤ
abbrev Formula := List Clause

/-- Truth of a literal under an assignment of the variables. -/
def holds (τ : ℕ → Bool) (l : ℤ) : Prop :=
  if l < 0 then τ l.natAbs = false else τ l.natAbs = true

instance (τ : ℕ → Bool) (l : ℤ) : Decidable (holds τ l) := by unfold holds; infer_instance

/-- A clause is satisfied by one of its literals; the empty clause is not satisfiable. -/
def Clause.Satisfied (τ : ℕ → Bool) (c : Clause) : Prop := ∃ l ∈ c, holds τ l

/-- An assignment is a model when it satisfies every clause. -/
def Models (τ : ℕ → Bool) (F : Formula) : Prop := ∀ c ∈ F, Clause.Satisfied τ c

theorem holds_pos {τ : ℕ → Bool} {l : ℤ} (h : 0 < l) : holds τ l ↔ τ l.natAbs = true := by
  rw [holds, if_neg (by omega)]

theorem holds_neg {τ : ℕ → Bool} {l : ℤ} (h : 0 < l) : holds τ (-l) ↔ ¬holds τ l := by
  rw [holds_pos h, holds, if_pos (by omega), Int.natAbs_neg, Bool.not_eq_true]

@[simp] theorem models_nil (τ : ℕ → Bool) : Models τ [] := by simp [Models]

@[simp] theorem models_cons {τ : ℕ → Bool} {c : Clause} {F : Formula} :
    Models τ (c :: F) ↔ Clause.Satisfied τ c ∧ Models τ F := by simp [Models]

@[simp] theorem models_append {τ : ℕ → Bool} {F G : Formula} :
    Models τ (F ++ G) ↔ Models τ F ∧ Models τ G := by
  simp only [Models, List.mem_append]
  exact ⟨fun h => ⟨fun c hc => h c (Or.inl hc), fun c hc => h c (Or.inr hc)⟩,
    fun h c hc => hc.elim (h.1 c) (h.2 c)⟩

theorem models_flatMap {τ : ℕ → Bool} {ι : Type*} {l : List ι} {f : ι → Formula} :
    Models τ (l.flatMap f) ↔ ∀ i ∈ l, Models τ (f i) := by
  simp only [Models, List.mem_flatMap]
  exact ⟨fun h i hi c hc => h c ⟨i, hi, hc⟩, fun h c ⟨i, hi, hc⟩ => h i hi c hc⟩

theorem models_map {τ : ℕ → Bool} {ι : Type*} {l : List ι} {f : ι → Clause} :
    Models τ (l.map f) ↔ ∀ i ∈ l, Clause.Satisfied τ (f i) := by simp [Models]

@[simp] theorem satisfied_nil (τ : ℕ → Bool) : ¬Clause.Satisfied τ [] := by simp [Clause.Satisfied]

@[simp] theorem satisfied_cons {τ : ℕ → Bool} {l : ℤ} {c : Clause} :
    Clause.Satisfied τ (l :: c) ↔ holds τ l ∨ Clause.Satisfied τ c := by simp [Clause.Satisfied]

/-- `¬a ∨ ¬b` for every two positions of the list. -/
def pairwiseExclusions : List ℤ → Formula
  | [] => []
  | a :: ls => ls.map (fun b => [-a, -b]) ++ pairwiseExclusions ls

/-- "Exactly one of `lits` is true": at least one in a single clause, at most one pairwise. -/
def exactlyOne (lits : List ℤ) : Formula := lits :: pairwiseExclusions lits

theorem models_pairwiseExclusions {τ : ℕ → Bool} : ∀ {lits : List ℤ}, (∀ l ∈ lits, 0 < l) →
    (Models τ (pairwiseExclusions lits) ↔ lits.Pairwise fun a b => ¬(holds τ a ∧ holds τ b))
  | [], _ => by simp [pairwiseExclusions]
  | a :: ls, hpos => by
    have ha : 0 < a := hpos a (List.mem_cons_self ..)
    have hls : ∀ l ∈ ls, 0 < l := fun l hl => hpos l (List.mem_cons_of_mem _ hl)
    rw [pairwiseExclusions, models_append, models_pairwiseExclusions hls, List.pairwise_cons,
      models_map]
    refine and_congr_left fun _ => forall₂_congr fun b hb => ?_
    rw [satisfied_cons, satisfied_cons, holds_neg ha, holds_neg (hls b hb)]
    simp [imp_iff_not_or]

/-- Over the variables of distinct indices, `exactlyOne` means that exactly one of them is true. -/
theorem models_exactlyOne {τ : ℕ → Bool} {ι : Type*} {js : List ι} {var : ι → ℤ} (hjs : js.Nodup)
    (hpos : ∀ j ∈ js, 0 < var j) :
    Models τ (exactlyOne (js.map var)) ↔
      (∃ j ∈ js, holds τ (var j)) ∧
        ∀ j ∈ js, ∀ j' ∈ js, holds τ (var j) → holds τ (var j') → j = j' := by
  have hpos' : ∀ l ∈ js.map var, 0 < l := by
    intro l hl
    obtain ⟨j, hj, rfl⟩ := List.mem_map.mp hl
    exact hpos j hj
  rw [exactlyOne, models_cons, models_pairwiseExclusions hpos']
  refine and_congr (by simp [Clause.Satisfied]) ?_
  rw [List.pairwise_map]
  constructor
  · intro h j hj j' hj' ht ht'
    have : Std.Symm fun a b => ¬(holds τ (var a) ∧ holds τ (var b)) :=
      ⟨fun _ _ hab hba => hab ⟨hba.2, hba.1⟩⟩
    by_contra hne
    exact h.forall hj hj' hne ⟨ht, ht'⟩
  · intro h
    refine hjs.imp_of_mem fun hj hj' hne hh => hne (h _ hj _ hj' hh.1 hh.2)

/-! ### Size -/

/-- The formula has a literal of variable `x`. -/
def Occurs (x : ℕ) (F : Formula) : Prop := ∃ c ∈ F, ∃ l ∈ c, l.natAbs = x

theorem occurs_append {x : ℕ} {F G : Formula} : Occurs x (F ++ G) ↔ Occurs x F ∨ Occurs x G := by
  simp only [Occurs, List.mem_append]
  exact ⟨fun ⟨c, hc, h⟩ => hc.imp (fun hc => ⟨c, hc, h⟩) fun hc => ⟨c, hc, h⟩,
    fun h => h.elim (fun ⟨c, hc, h⟩ => ⟨c, Or.inl hc, h⟩) fun ⟨c, hc, h⟩ => ⟨c, Or.inr hc, h⟩⟩

theorem occurs_flatMap {x : ℕ} {ι : Type*} {l : List ι} {f : ι → Formula} :
    Occurs x (l.flatMap f) ↔ ∃ i ∈ l, Occurs x (f i) := by
  simp only [Occurs, List.mem_flatMap]
  exact ⟨fun ⟨c, ⟨i, hi, hc⟩, h⟩ => ⟨i, hi, c, hc, h⟩, fun ⟨i, hi, c, hc, h⟩ => ⟨c, ⟨i, hi, hc⟩, h⟩⟩

theorem mem_of_occurs_pairwiseExclusions {x : ℕ} : ∀ {lits : List ℤ},
    Occurs x (pairwiseExclusions lits) → ∃ l ∈ lits, l.natAbs = x
  | [], ⟨_, hc, _⟩ => by cases hc
  | a :: ls, h => by
    rcases occurs_append.mp h with ⟨c, hc, l, hl, hx⟩ | h
    · obtain ⟨b, hb, rfl⟩ := List.mem_map.mp hc
      simp only [List.mem_cons, List.not_mem_nil, or_false] at hl
      rcases hl with rfl | rfl
      · exact ⟨a, by simp, by rwa [Int.natAbs_neg] at hx⟩
      · exact ⟨b, List.mem_cons_of_mem _ hb, by rwa [Int.natAbs_neg] at hx⟩
    · obtain ⟨l, hl, hx⟩ := mem_of_occurs_pairwiseExclusions h
      exact ⟨l, List.mem_cons_of_mem _ hl, hx⟩

/-- `exactlyOne` has the variables of its literals. -/
theorem occurs_exactlyOne {x : ℕ} {lits : List ℤ} :
    Occurs x (exactlyOne lits) ↔ ∃ l ∈ lits, l.natAbs = x := by
  refine ⟨fun ⟨c, hc, h⟩ => ?_, fun h => ⟨lits, List.mem_cons_self .., h⟩⟩
  rcases List.mem_cons.mp hc with rfl | hc
  · exact h
  · exact mem_of_occurs_pairwiseExclusions ⟨c, hc, h⟩

theorem length_pairwiseExclusions : ∀ lits : List ℤ,
    (pairwiseExclusions lits).length = lits.length.choose 2
  | [] => rfl
  | a :: ls => by
    rw [pairwiseExclusions, List.length_append, List.length_map, length_pairwiseExclusions ls,
      List.length_cons, Nat.choose_succ_succ' ls.length 1, Nat.choose_one_right]

/-- One clause, and one for every two positions. -/
theorem length_exactlyOne (lits : List ℤ) :
    (exactlyOne lits).length = 1 + lits.length * (lits.length - 1) / 2 := by
  rw [exactlyOne, List.length_cons, length_pairwiseExclusions, Nat.choose_two_right, Nat.add_comm]

end Lib.Cnf
