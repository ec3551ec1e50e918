import Mathlib.Data.List.Basic

/-! A growing memory of equal segments, written at increasing positions. `Holds` says that a code stands
    at an address, inside one segment; it survives growth and every later write behind it
    (`Holds.append`, `Holds.write`), and a write establishes it (`holds_write`). -/

namespace Lib
variable {β : Type*} {size : ℕ} {segments : List (List β)} {code code' : List β} {off pos : ℕ}

/-- Puts `code` over what stands from `i` on. -/
def overwrite (code : List β) (i : ℕ) (l : List β) : List β :=
  l.take i ++ code ++ l.drop (i + code.length)

theorem length_overwrite {i : ℕ} {l : List β} (h : i + code.length ≤ l.length) :
    (overwrite code i l).length = l.length := by
  simp only [overwrite, List.length_append, List.length_take, List.length_drop]
  omega

theorem prefix_drop_overwrite {i : ℕ} {l : List β} (h : i ≤ l.length) :
    code <+: (overwrite code i l).drop i := by
  have hlen : (l.take i).length = i := List.length_take_of_le h
  rw [overwrite, List.append_assoc, List.drop_left' hlen]
  exact List.prefix_append _ _

/-- What ends before `i` is still there. -/
theorem prefix_drop_overwrite_of_le {i j : ℕ} {l : List β} (hcode : code <+: l.drop j)
    (hj : j + code.length ≤ i) (hi : i ≤ l.length) : code <+: (overwrite code' i l).drop j := by
  obtain ⟨t, ht⟩ := hcode
  have hlen : j ≤ (l.take i).length := by
    rw [List.length_take_of_le hi]
    omega
  rw [overwrite, List.append_assoc, List.drop_append_of_le_length hlen, List.drop_take, ← ht,
    List.take_append, List.take_of_length_le (by omega), List.append_assoc]
  exact List.prefix_append _ _

/-- `code` stands at the address `off`. -/
def Holds (size : ℕ) (segments : List (List β)) (off : ℕ) (code : List β) : Prop :=
  ∃ segment, segments[off / size]? = some segment ∧ code <+: segment.drop (off % size)

/-- Writes into the segment of the address. -/
def write (size : ℕ) (segments : List (List β)) (pos : ℕ) (code : List β) : List (List β) :=
  segments.modify (pos / size) (overwrite code (pos % size))

theorem Holds.append (h : Holds size segments off code) (more : List (List β)) :
    Holds size (segments ++ more) off code := by
  obtain ⟨segment, hsegment, hcode⟩ := h
  exact ⟨segment, by rw [List.getElem?_append_left (List.getElem?_eq_some_iff.mp hsegment).1, hsegment], hcode⟩

/-- No code crosses the end of a segment. -/
theorem Holds.le (h : Holds size segments off code) (hsize : ∀ segment ∈ segments, segment.length = size)
    (hpos : 0 < size) : off % size + code.length ≤ size := by
  obtain ⟨segment, hsegment, hcode⟩ := h
  have hlen := hcode.length_le
  rw [List.length_drop, hsize segment (List.mem_of_getElem? hsegment)] at hlen
  have := Nat.mod_lt off hpos
  omega

theorem Holds.write (h : Holds size segments off code) (hsize : ∀ segment ∈ segments, segment.length = size)
    (hpos : 0 < size) (hle : off + code.length ≤ pos) : Holds size (write size segments pos code') off code := by
  obtain ⟨segment, hsegment, hcode⟩ := h
  by_cases hsame : pos / size = off / size
  · refine ⟨overwrite code' (pos % size) segment, ?_, ?_⟩
    · rw [Lib.write, hsame, List.getElem?_modify_eq, hsegment]
      rfl
    · refine prefix_drop_overwrite_of_le hcode ?_ ?_
      · have h₁ := Nat.div_add_mod off size
        have h₂ := Nat.div_add_mod pos size
        rw [hsame] at h₂
        omega
      · rw [hsize segment (List.mem_of_getElem? hsegment)]
        exact Nat.le_of_lt (Nat.mod_lt _ hpos)
  · exact ⟨segment, by rw [Lib.write, List.getElem?_modify_ne _ _ hsame, hsegment], hcode⟩

theorem holds_write (hsize : ∀ segment ∈ segments, segment.length = size) (hpos : 0 < size)
    (h : pos / size < segments.length) : Holds size (write size segments pos code) pos code := by
  refine ⟨overwrite code (pos % size) segments[pos / size], ?_, prefix_drop_overwrite ?_⟩
  · rw [write, List.getElem?_modify_eq, List.getElem?_eq_getElem h]
    rfl
  · rw [hsize _ (List.getElem_mem h)]
    exact Nat.le_of_lt (Nat.mod_lt _ hpos)

theorem length_write : (write size segments pos code).length = segments.length := by
  rw [write, List.length_modify]

/-- The segments keep their size. -/
theorem length_of_mem_write (hsize : ∀ segment ∈ segments, segment.length = size)
    (hfit : pos % size + code.length ≤ size) :
    ∀ segment ∈ write size segments pos code, segment.length = size := by
  intro segment h
  obtain ⟨i, hi, rfl⟩ := List.mem_iff_getElem.mp h
  rw [length_write] at hi
  simp only [write, List.getElem_modify]
  split
  · rw [length_overwrite (by rwa [hsize _ (List.getElem_mem hi)])]
    exact hsize _ (List.getElem_mem hi)
  · exact hsize _ (List.getElem_mem hi)

end Lib
