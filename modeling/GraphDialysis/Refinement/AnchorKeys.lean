import GraphDialysis.Lib.Membership
import GraphDialysis.Content.KeyOrder
import GraphDialysis.Lib.SortedGroups
import Mathlib.Data.Fin.VecNotation

/-! The keys by which `anchor` tells the vertices of a class apart. It groups and ranks them by the
    texts of the keys. The groups are those that the keys themselves would give, but the ranks are
    the same only where the texts are in the order of `compareTo`, and sizes come first in a text:
    `textGroups_eq_iff` says for which classes the two rankings agree. -/

namespace Dialysis.Refinement
open Lib Content
variable {n : ℕ}

/-- A key of Phase 1, a tuple of numbers, or of Phase 2, for each component of the remainder the
    multiset of its colours. -/
inductive AnchorKey where
  | tuple (xs : List Long)
  | components (xss : List (List Long))

/-- The key as a value. -/
def AnchorKey.content : AnchorKey → Content
  | tuple xs => .tup (xs.map fun v => .num v.1)
  | components xss => .mset (xss.map component)

/-- The groups of a class by ascending rank, as `anchor` forms them from the texts of the keys. -/
def textGroups (key : Fin n → AnchorKey) (cls : List (Fin n)) : List (List (Fin n)) :=
  (sortedGroups utf16 (fun v => (key v).content.serialize) cls).map (·.2)

/-- As they would be formed from the keys, with `equals` and `compareTo`. -/
def contentGroups (key : Fin n → AnchorKey) (cls : List (Fin n)) : List (List (Fin n)) :=
  (sortedGroups id (fun v => (key v).content.canon) cls).map (·.2)

/-- Two tuples of different sizes are in the order in which their sizes are written. Of two multisets
    with equally many components, the one that comes first by its smallest components is the same
    whether a component's size, as it is written, or its colours are looked at first; with different
    numbers of components, it is the one whose number is written first. A tuple and a multiset are
    never in the same order. -/
def OrderedAlike : AnchorKey → AnchorKey → Prop
  | .tuple xs, .tuple ys =>
    xs.length ≠ ys.length → (sizeText xs.length < sizeText ys.length ↔ xs < ys)
  | .components xss, .components yss =>
    let colours := fun xs : List Long => xs.insertionSort (· ≤ ·)
    if xss.length = yss.length then
      Precedes (xss.map fun xs => bySize (colours xs)) (yss.map fun ys => bySize (colours ys)) ↔
        Precedes (xss.map colours) (yss.map colours)
    else sizeText xss.length < sizeText yss.length ↔ Precedes (xss.map colours) (yss.map colours)
  | _, _ => False

/-! ### One pair of keys -/

theorem tuple_alike (xs ys : List Long) : OrderedAlike (.tuple xs) (.tuple ys) ↔
    (bySize xs < bySize ys ↔ xs < ys) := by
  rw [OrderedAlike, bySize_lt_iff]
  rcases eq_or_ne xs.length ys.length with h | h
  · simp [h]
  · simp [h]

theorem components_alike (xss yss : List (List Long)) :
    OrderedAlike (.components xss) (.components yss) ↔
      (bySize ((xss.map fun xs => bySize (xs.insertionSort (· ≤ ·))).insertionSort (· ≤ ·)) <
          bySize ((yss.map fun ys => bySize (ys.insertionSort (· ≤ ·))).insertionSort (· ≤ ·)) ↔
        (xss.map fun xs => xs.insertionSort (· ≤ ·)).insertionSort (· ≤ ·) <
          (yss.map fun ys => ys.insertionSort (· ≤ ·)).insertionSort (· ≤ ·)) := by
  rw [OrderedAlike, bySize_lt_iff, insertionSort_lt_iff, insertionSort_lt_iff,
    List.length_insertionSort, List.length_insertionSort, List.length_map, List.length_map]
  split
  · rename_i h
    simp [h]
  · rename_i h
    simp [h]

/-- The texts of two keys are in the order of the keys. -/
theorem orderedAlike_iff : ∀ a b : AnchorKey, OrderedAlike a b ↔
    (utf16 a.content.serialize < utf16 b.content.serialize ↔ a.content.canon < b.content.canon)
  | .tuple xs, .tuple ys => by
    rw [tuple_alike, AnchorKey.content, AnchorKey.content, tup_text_lt_iff, canon_tup_lt_iff]
  | .components xss, .components yss => by
    rw [components_alike, AnchorKey.content, AnchorKey.content, components_text_lt_iff,
      canon_components_lt_iff]
  | .tuple xs, .components yss => by
    refine iff_of_false id fun h => ?_
    have hlt : (AnchorKey.tuple xs).content.canon < (AnchorKey.components yss).content.canon := by
      rw [AnchorKey.content, AnchorKey.content, canon_tup, canon_mset]
      exact rfl
    have htext := h.mpr hlt
    rw [AnchorKey.content, AnchorKey.content, utf16_serialize_tup, utf16_serialize_mset,
      List.cons_lt_cons_iff] at htext
    simp at htext
  | .components xss, .tuple ys => by
    refine iff_of_false id fun h => ?_
    have htext : utf16 (AnchorKey.components xss).content.serialize <
        utf16 (AnchorKey.tuple ys).content.serialize := by
      rw [AnchorKey.content, AnchorKey.content, utf16_serialize_tup, utf16_serialize_mset,
        List.cons_lt_cons_iff]
      simp
    have hlt := h.mp htext
    rw [AnchorKey.content, AnchorKey.content, canon_tup, canon_mset] at hlt
    exact absurd (show structCmp _ _ = .lt from hlt) (by simp [structCmp, typeRank])

/-! ### A class -/

/-- The texts rank the vertices of a class as the keys themselves would exactly when every two of the
    keys are ordered alike. -/
theorem textGroups_eq_iff (key : Fin n → AnchorKey) (cls : List (Fin n)) :
    textGroups key cls = contentGroups key cls ↔
      ∀ v ∈ cls, ∀ w ∈ cls, OrderedAlike (key v) (key w) := by
  rw [textGroups, contentGroups,
    sortedGroups_members_eq_iff utf16_injective Function.injective_id]
  simp only [orderedAlike_iff, id]

/-- A remainder that is a path of three vertices and one that is a cycle of four: `M3:` comes before
    `M4:`, but the colours `0 0 0 0` of the cycle before the colours `0 0 1` of the path. -/
theorem textGroups_pathAndCycle :
    let zero : Long := ⟨0, by decide⟩
    let one : Long := ⟨1, by decide⟩
    let key : Fin 2 → AnchorKey :=
      ![.components [[zero, zero, one]], .components [[zero, zero, zero, zero]]]
    textGroups key [0, 1] = [[0], [1]] ∧ contentGroups key [0, 1] = [[1], [0]] := by
  decide +kernel

end Dialysis.Refinement
