import GraphDialysis.Lib.Cnf
import GraphDialysis.Lib.GroupBy
import Mathlib.Algebra.BigOperators.Ring.List
import Mathlib.Algebra.Ring.Parity
import Mathlib.Algebra.Ring.Nat

/-! Constraints on the parity of the number of true variables, next to clauses: a gate that defines a
    variable as a disjunction (`models_orGate`), and counting modulo two over the groups of a list,
    where only the groups of odd length matter (`even_countP_oddHeads`). -/

namespace Lib.Parity
open Lib.Cnf

/-- An odd number of the variables is true when `rhs` is, an even number otherwise. -/
structure XorClause where
  vars : List ℕ
  rhs : Bool

def XorClause.Satisfied (τ : ℕ → Bool) (x : XorClause) : Prop := Odd (x.vars.countP τ) ↔ x.rhs = true

def XorModels (τ : ℕ → Bool) (xors : List XorClause) : Prop := ∀ x ∈ xors, x.Satisfied τ

@[simp] theorem xorModels_nil (τ : ℕ → Bool) : XorModels τ [] := by simp [XorModels]

@[simp] theorem xorModels_concat {τ : ℕ → Bool} {xors : List XorClause} {x : XorClause} :
    XorModels τ (xors ++ [x]) ↔ XorModels τ xors ∧ x.Satisfied τ := by
  simp only [XorModels, List.mem_append, List.mem_singleton]
  constructor
  · intro h
    exact ⟨fun y hy => h y (Or.inl hy), h x (Or.inr rfl)⟩
  · rintro ⟨h, hx⟩ y (hy | rfl)
    · exact h y hy
    · exact hx

/-! ### Gates -/

/-- Literals of variables with the same value hold together. -/
theorem holds_congr {τ τ' : ℕ → Bool} {l : ℤ} (h : τ l.natAbs = τ' l.natAbs) : holds τ l ↔ holds τ' l := by
  simp only [holds, h]

/-- The variable `f` is true exactly when one of the literals is. -/
def orGate (f : ℤ) (lits : List ℤ) : Formula := (-f :: lits) :: lits.map fun l => [-l, f]

theorem models_orGate {τ : ℕ → Bool} {f : ℤ} {lits : List ℤ} (hf : 0 < f) (hlits : ∀ l ∈ lits, 0 < l) :
    Models τ (orGate f lits) ↔ (holds τ f ↔ ∃ l ∈ lits, holds τ l) := by
  rw [orGate, models_cons, satisfied_cons, holds_neg hf, models_map]
  have hback : (∀ l ∈ lits, Clause.Satisfied τ [-l, f]) ↔ ((∃ l ∈ lits, holds τ l) → holds τ f) := by
    constructor
    · rintro h ⟨l, hl, ht⟩
      have := h l hl
      simp only [satisfied_cons, holds_neg (hlits l hl), satisfied_nil, or_false] at this
      exact this.resolve_left (not_not_intro ht)
    · intro h l hl
      simp only [satisfied_cons, holds_neg (hlits l hl), satisfied_nil, or_false]
      exact not_or_of_imp fun ht => h ⟨l, hl, ht⟩
  rw [hback, Clause.Satisfied, ← imp_iff_not_or]
  exact ⟨fun h => ⟨h.1, h.2⟩, fun h => ⟨h.mp, h.mpr⟩⟩

/-! ### Counting modulo two -/

variable {α κ : Type*} [DecidableEq κ]

omit [DecidableEq κ] in
theorem even_countP_bne (f h : α → Bool) (l : List α) :
    Even (l.countP f + l.countP h + l.countP fun a => f a != h a) := by
  induction l with
  | nil => simp
  | cons a l ih =>
    simp only [List.countP_cons]
    cases f a <;> cases h a <;> simp only [bne_self_eq_false, Bool.false_eq_true, if_false, if_true,
      Bool.bne_true, Bool.bne_false, Bool.not_false] <;> grind

/-- If `k` is added where the parity changes, and in sum nothing is added, it changes evenly often. -/
theorem even_sum_of_balanced {ι : Type*} {before after changes : ι → ℕ} {k : ℕ} (hk : 0 < k)
    (h : ∀ i, Even (before i + after i + changes i)) {l : List ι}
    (hsum : (l.map fun i => k * after i).sum = (l.map fun i => k * before i).sum) :
    Even (l.map changes).sum := by
  have heven : Even ((l.map before).sum + (l.map after).sum + (l.map changes).sum) := by
    clear hsum
    induction l with
    | nil => exact ⟨0, rfl⟩
    | cons i l ih =>
      simp only [List.map_cons, List.sum_cons]
      have := (h i).add ih
      grind
  rw [List.sum_map_mul_left, List.sum_map_mul_left] at hsum
  rw [Nat.eq_of_mul_eq_mul_left hk hsum] at heven
  exact (Nat.even_add.mp heven).mp ⟨_, rfl⟩

/-! ### Groups of odd length -/

theorem flatten_addToGroup (k : κ) (x : α) (acc : List (κ × List α)) :
    ((addToGroup k x acc).map (·.2)).flatten.Perm (x :: (acc.map (·.2)).flatten) := by
  induction acc with
  | nil => exact List.Perm.refl _
  | cons p t ih =>
    obtain ⟨k', xs⟩ := p
    rw [addToGroup]
    split
    · simp only [List.map_cons, List.flatten_cons, List.append_assoc]
      exact List.perm_middle
    · simp only [List.map_cons, List.flatten_cons]
      exact (ih.append_left xs).trans List.perm_middle

/-- Put one after another, the groups are a rearrangement, also of a list with repetitions. -/
theorem perm_flatten_groups (key : α → κ) (l : List α) : (groups key l).flatten.Perm l := by
  induction l using List.reverseRecOn with
  | nil => exact List.Perm.refl _
  | append_singleton l x ih =>
    rw [groups, groupBy_concat]
    refine (flatten_addToGroup _ x _).trans ?_
    exact (List.Perm.cons x ih).trans (List.perm_append_singleton x l).symm

/-- The first elements of the groups of odd length. -/
def oddHeads (gs : List (List α)) : List α := (gs.filter fun xs => xs.length % 2 = 1).filterMap List.head?

theorem even_countP_flatten (P : α → Bool) : ∀ {gs : List (List α)}, (∀ xs ∈ gs, xs ≠ []) →
    (∀ xs ∈ gs, ∀ a ∈ xs, ∀ b ∈ xs, P a = P b) →
    (Even ((oddHeads gs).countP P) ↔ Even (gs.flatten.countP P))
  | [], _, _ => Iff.rfl
  | [] :: gs, hne, _ => absurd rfl (hne [] List.mem_cons_self)
  | (a :: t) :: gs, hne, hP => by
    have ih := even_countP_flatten P (fun xs hxs => hne xs (List.mem_cons_of_mem _ hxs))
      fun xs hxs => hP xs (List.mem_cons_of_mem _ hxs)
    have hcount : (a :: t).countP P = if P a then (a :: t).length else 0 := by
      split_ifs with ha
      · exact List.countP_eq_length.mpr fun b hb =>
          (hP _ List.mem_cons_self b hb a List.mem_cons_self).trans ha
      · exact List.countP_eq_zero.mpr fun b hb => by
          rw [hP _ List.mem_cons_self b hb a List.mem_cons_self]
          exact ha
    rw [List.flatten_cons, List.countP_append, Nat.even_add, hcount, ← ih]
    by_cases hodd : (a :: t).length % 2 = 1
    · have hheads : oddHeads ((a :: t) :: gs) = a :: oddHeads gs := by
        rw [oddHeads, List.filter_cons_of_pos (by simpa using hodd)]
        rfl
      rw [hheads, List.countP_cons, Nat.even_add]
      have hlen : ¬Even (a :: t).length := Nat.not_even_iff.mpr hodd
      split_ifs <;> simp only [hlen, Nat.not_even_one, Even.zero] <;> tauto
    · have hheads : oddHeads ((a :: t) :: gs) = oddHeads gs := by
        rw [oddHeads, List.filter_cons_of_neg (by simpa using hodd)]
        rfl
      have hlen : Even (a :: t).length := Nat.even_iff.mpr (by omega)
      rw [hheads]
      split_ifs <;> simp only [hlen, Even.zero, true_iff]

/-- Of the first elements of the odd groups as many have the property, modulo two, as of the list. -/
theorem even_countP_oddHeads (P : α → Bool) (key : α → κ) {l : List α}
    (hP : ∀ a ∈ l, ∀ b ∈ l, key a = key b → P a = P b) :
    Even ((oddHeads (groups key l)).countP P) ↔ Even (l.countP P) := by
  rw [even_countP_flatten P (fun xs hxs => group_ne_nil hxs) ?_, (perm_flatten_groups key l).countP_eq]
  intro xs hxs a ha b hb
  obtain ⟨hbl, hkey⟩ := (mem_group_iff hxs ha).mp hb
  exact hP a (mem_of_mem_groups hxs ha) b hbl hkey.symm

end Lib.Parity
