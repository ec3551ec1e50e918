import Mathlib.Data.List.Perm.Basic
import Mathlib.Data.List.Sort
import Mathlib.Order.Compare

/-! Sorting by a key. When no two different elements have the same key, the sorted list depends on
    the elements and their multiplicities only. -/

namespace Lib
variable {α β : Type*} [LinearOrder β]

/-- Comparison by a key. -/
def compareOn (key : α → β) (a b : α) : Ordering := cmp (key a) (key b)

theorem compareOn_eq {key : α → β} (hinj : Function.Injective key) {a b : α} :
    compareOn key a b = .eq ↔ a = b := by rw [compareOn, cmp_eq_eq_iff, hinj.eq_iff]

theorem compareOn_swap (key : α → β) (a b : α) : compareOn key b a = (compareOn key a b).swap := by
  rw [compareOn, compareOn, cmp_swap]

theorem compareOn_trans {key : α → β} {a b c : α} (hab : compareOn key a b = .lt)
    (hbc : compareOn key b c = .lt) : compareOn key a c = .lt := by
  rw [compareOn, cmp_eq_lt_iff] at hab hbc ⊢
  exact hab.trans hbc

/-- The list in ascending order of the keys. -/
def sortOn (key : α → β) (l : List α) : List α := l.insertionSort fun a b => key a ≤ key b

theorem sortOn_perm (key : α → β) (l : List α) : (sortOn key l).Perm l := List.perm_insertionSort _ l

@[simp] theorem mem_sortOn {key : α → β} {l : List α} {a : α} : a ∈ sortOn key l ↔ a ∈ l :=
  (sortOn_perm key l).mem_iff

theorem sortOn_sorted (key : α → β) (l : List α) :
    (sortOn key l).Pairwise fun a b => key a ≤ key b := by
  have : Std.Total fun a b => key a ≤ key b := ⟨fun a b => le_total (key a) (key b)⟩
  have : IsTrans α fun a b => key a ≤ key b := ⟨fun _ _ _ => le_trans⟩
  exact List.pairwise_insertionSort _ l

/-- A sorted list is determined by its elements. -/
theorem eq_of_sorted {key : α → β} {l l' : List α}
    (hinj : ∀ a ∈ l, ∀ b ∈ l', key a = key b → a = b)
    (hl : l.Pairwise fun a b => key a ≤ key b) (hl' : l'.Pairwise fun a b => key a ≤ key b)
    (hp : l.Perm l') : l = l' :=
  List.Perm.eq_of_pairwise (fun a b ha hb hab hba => hinj a ha b hb (le_antisymm hab hba)) hl hl' hp

theorem sortOn_eq_of_perm {key : α → β} (hinj : Function.Injective key) {l l' : List α}
    (hp : l.Perm l') : sortOn key l = sortOn key l' :=
  eq_of_sorted (fun _ _ _ _ h => hinj h) (sortOn_sorted key l) (sortOn_sorted key l')
    (((sortOn_perm key l).trans hp).trans (sortOn_perm key l').symm)

/-- Sorting commutes with a map that preserves the keys. -/
theorem sortOn_map {γ : Type*} {key : α → β} {key' : γ → β} {f : α → γ}
    (hf : ∀ a, key' (f a) = key a) (l : List α) : sortOn key' (l.map f) = (sortOn key l).map f := by
  exact (List.map_insertionSort (fun a b => key a ≤ key b) (fun a b => key' a ≤ key' b) f l
    fun a _ b _ => by rw [hf, hf]).symm

omit [LinearOrder β] in
/-- Lists whose elements match through `f` and `f'`, one after another, have the same images under
    maps that respect the matching. -/
theorem map_eq_of_match {α' γ : Type*} {f : α → β} {f' : α' → β} {p : α → γ} {p' : α' → γ} :
    ∀ {l : List α} {l' : List α'}, l.map f = l'.map f' →
      (∀ a ∈ l, ∀ b ∈ l', f a = f' b → p a = p' b) → l.map p = l'.map p'
  | [], [], _, _ => rfl
  | a :: l, b :: l', h, hp => by
    rw [List.map_cons, List.map_cons, List.cons.injEq] at h
    rw [List.map_cons, List.map_cons, hp a (by simp) b (by simp) h.1,
      map_eq_of_match h.2 fun a ha b hb => hp a (List.mem_cons_of_mem _ ha) b
        (List.mem_cons_of_mem _ hb)]

omit [LinearOrder β] in
/-- The same up to order. -/
theorem perm_map_of_match {α' γ : Type*} {f : α → β} {f' : α' → β} {p : α → γ} {p' : α' → γ}
    {l : List α} {l' : List α'} (h : (l.map f).Perm (l'.map f'))
    (hp : ∀ a ∈ l, ∀ b ∈ l', f a = f' b → p a = p' b) : (l.map p).Perm (l'.map p') := by
  have hmatch : List.Forall₂ (fun k b => k = f' b) (l'.map f') l' := by
    rw [List.forall₂_map_left_iff]
    exact List.forall₂_same.mpr fun _ _ => rfl
  obtain ⟨l'', hl, hperm⟩ := List.perm_comp_forall₂ h hmatch
  have hmap : l.map f = l''.map f' := by
    rw [← List.forall₂_eq_eq_eq, List.forall₂_map_right_iff]
    exact hl
  rw [map_eq_of_match hmap fun a ha b hb => hp a ha b (hperm.mem_iff.mp hb)]
  exact hperm.map p'

end Lib
