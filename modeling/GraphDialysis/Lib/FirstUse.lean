import Mathlib.Data.List.Basic

/-! Lists to which an element is appended when it is used for the first time. The elements stand in the
    order of their first uses (`idxOf_foldl_addNew_lt`). -/

namespace Lib
variable {α : Type*} [BEq α] [LawfulBEq α]

/-- Appended if it is new. -/
def addNew (l : List α) (x : α) : List α := if x ∈ l then l else l ++ [x]

theorem addNew_of_mem {l : List α} {x : α} (h : x ∈ l) : addNew l x = l := if_pos h

theorem mem_addNew {l : List α} {x y : α} : y ∈ addNew l x ↔ y ∈ l ∨ y = x := by
  rw [addNew]
  split
  · rename_i hx
    exact ⟨Or.inl, fun h => h.elim id fun he => he ▸ hx⟩
  · rw [List.mem_append, List.mem_singleton]

theorem length_foldl_addNew_le : ∀ us l : List α, (us.foldl addNew l).length ≤ l.length + us.length
  | [], l => by simp
  | u :: us, l => by
    have hrest := length_foldl_addNew_le us (addNew l u)
    have hstep : (addNew l u).length ≤ l.length + 1 := by
      rw [addNew]
      split <;> simp
    rw [List.foldl_cons, List.length_cons]
    omega

/-- Using an element again changes nothing in the order of first uses. -/
theorem idxOf_used_again {l us : List α} {u x y : α} (hu : u ∈ l) :
    (l ++ u :: us).idxOf x < (l ++ u :: us).idxOf y ↔ (l ++ us).idxOf x < (l ++ us).idxOf y := by
  have hidx : ∀ {z}, z ∉ l → (l ++ u :: us).idxOf z = l.length + us.idxOf z + 1 := fun {z} hz => by
    have hne : u ≠ z := by
      rintro rfl
      exact hz hu
    rw [List.idxOf_append_of_notMem hz, List.idxOf_cons_ne _ hne]
    omega
  have hlt : ∀ {z}, z ∈ l → l.idxOf z < l.length := List.idxOf_lt_length_of_mem
  by_cases hx : x ∈ l <;> by_cases hy : y ∈ l
  · rw [List.idxOf_append_of_mem hx, List.idxOf_append_of_mem hy, List.idxOf_append_of_mem hx,
      List.idxOf_append_of_mem hy]
  · have := hlt hx
    rw [List.idxOf_append_of_mem hx, hidx hy, List.idxOf_append_of_mem hx,
      List.idxOf_append_of_notMem hy]
    omega
  · have := hlt hy
    rw [hidx hx, List.idxOf_append_of_mem hy, List.idxOf_append_of_notMem hx,
      List.idxOf_append_of_mem hy]
    omega
  · rw [hidx hx, hidx hy, List.idxOf_append_of_notMem hx, List.idxOf_append_of_notMem hy]
    omega

theorem idxOf_foldl_addNew_lt (x y : α) : ∀ us l : List α,
    (us.foldl addNew l).idxOf x < (us.foldl addNew l).idxOf y ↔
      (l ++ us).idxOf x < (l ++ us).idxOf y
  | [], l => by rw [List.foldl_nil, List.append_nil]
  | u :: us, l => by
    rw [List.foldl_cons, idxOf_foldl_addNew_lt x y us, addNew]
    split
    · rename_i hu
      exact (idxOf_used_again hu).symm
    · rw [List.append_assoc, List.singleton_append]

end Lib
