import Mathlib.Algebra.BigOperators.Group.Finset.Basic
import Mathlib.Data.Fintype.BigOperators
import Mathlib.Data.List.Count

/-! Equitable colourings of a finite graph given by neighbour lists. A colouring is equitable when
    two vertices of one class have equally many neighbours in every class, and the coarsest
    equitable refinement of a colouring is the one every other equitable refinement refines.
    Colours may be of any type: only the partition counts. -/

namespace Lib
variable {V W κ κ' κ'' : Type*}

/-- Every class of `a` lies in one class of `b`. -/
def Refines (a : V → κ) (b : V → κ') : Prop := ∀ u v, a u = a v → b u = b v

theorem Refines.refl (a : V → κ) : Refines a a := fun _ _ h => h

theorem Refines.trans {a : V → κ} {b : V → κ'} {c : V → κ''} (hab : Refines a b)
    (hbc : Refines b c) : Refines a c := fun u v h => hbc u v (hab u v h)

/-- A list counted through a classification of the elements that satisfy `p`. -/
theorem countP_eq_sum {α ι : Type*} (p : α → Prop) [DecidablePred p] (q : ι → α → Prop)
    [∀ i, DecidablePred (q i)] (s : Finset ι) (f : α → ι)
    (hq : ∀ x, ∀ i ∈ s, q i x ↔ p x ∧ f x = i) (hf : ∀ x, p x → f x ∈ s) (l : List α) :
    l.countP (fun x => p x) = ∑ i ∈ s, l.countP (fun x => q i x) := by
  classical
  induction l with
  | nil => simp
  | cons x t ih =>
    have hone : (if p x then 1 else 0) = ∑ i ∈ s, if q i x then 1 else 0 := by
      rw [Finset.sum_congr rfl fun i hi => if_congr (hq x i hi) rfl rfl]
      by_cases h : p x
      · simp [h, hf x h]
      · simp [h]
    simp only [List.countP_cons, decide_eq_true_eq, ih, hone, Finset.sum_add_distrib]

section
variable (nbr : V → List V)

/-- Number of neighbours of `v` in class `k`. -/
def degIn [DecidableEq κ] (color : V → κ) (k : κ) (v : V) : ℕ :=
  (nbr v).countP fun w => color w = k

/-- Equally coloured vertices have equally many neighbours in every class. -/
def Equitable [DecidableEq κ] (color : V → κ) : Prop :=
  ∀ u v, color u = color v → ∀ k, degIn nbr color k u = degIn nbr color k v

/-- `color` is the coarsest equitable colouring that refines `init`. -/
structure IsCoarsest [DecidableEq κ] (init : V → κ') (color : V → κ) : Prop where
  refines : Refines color init
  equitable : Equitable nbr color
  coarsest : ∀ {ι : Type} [DecidableEq ι] (π : V → ι), Refines π init → Equitable nbr π →
    Refines π color

end

variable {nbr : V → List V}

/-- The neighbours in one class of a coarser colouring, counted class by class of a finer one. -/
theorem degIn_eq_sum [Fintype V] [DecidableEq κ] [DecidableEq κ'] {fine : V → κ} {coarse : V → κ'}
    (h : Refines fine coarse) (k : κ') (u : V) :
    degIn nbr coarse k u =
      ∑ i ∈ (Finset.univ.filter fun v => coarse v = k).image fine, degIn nbr fine i u := by
  refine countP_eq_sum _ _ _ fine ?_ ?_ (nbr u)
  · intro w i hi
    obtain ⟨v, hv, rfl⟩ := Finset.mem_image.mp hi
    rw [Finset.mem_filter] at hv
    exact ⟨fun hw => ⟨(h w v hw).trans hv.2, hw⟩, fun hw => hw.2⟩
  · intro w hw
    exact Finset.mem_image.mpr ⟨w, Finset.mem_filter.mpr ⟨Finset.mem_univ w, hw⟩, rfl⟩

/-- Within a class of an equitable colouring, degrees into the classes of a coarser one agree. -/
theorem Equitable.degIn_coarse [Fintype V] [DecidableEq κ] [DecidableEq κ'] {fine : V → κ}
    {coarse : V → κ'} (he : Equitable nbr fine) (h : Refines fine coarse) {u v : V}
    (huv : fine u = fine v) (k : κ') : degIn nbr coarse k u = degIn nbr coarse k v := by
  rw [degIn_eq_sum h, degIn_eq_sum h]
  exact Finset.sum_congr rfl fun i _ => he u v huv i

/-- Equitability is a property of the partition alone. -/
theorem Equitable.of_refines [Fintype V] [DecidableEq κ] [DecidableEq κ'] {a : V → κ} {b : V → κ'}
    (he : Equitable nbr a) (hab : Refines a b) (hba : Refines b a) : Equitable nbr b :=
  fun u v huv => he.degIn_coarse hab (hba u v huv)

/-- An isomorphism preserves degrees into corresponding classes. -/
theorem degIn_map [DecidableEq κ] {nbr' : W → List W} {e : V ≃ W}
    (hadj : ∀ v, ((nbr v).map e).Perm (nbr' (e v))) {color : V → κ} {color' : W → κ}
    (hcolor : ∀ v, color' (e v) = color v) (k : κ) (v : V) :
    degIn nbr' color' k (e v) = degIn nbr color k v := by
  rw [degIn, ← (hadj v).countP_eq, List.countP_map]
  exact List.countP_congr fun w _ => by simp [hcolor]

end Lib
