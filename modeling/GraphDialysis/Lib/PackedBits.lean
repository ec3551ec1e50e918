import Mathlib.Data.List.Basic
import Mathlib.Data.Nat.Bitwise
import Mathlib.Logic.Function.Basic
import Mathlib.Algebra.Ring.Nat

/-! A set of numbers as the bits of a byte buffer, the highest bit of a byte first. Setting a bit
    adds its number to the set (`testBit_setBit`), so a buffer that starts empty holds what was put in
    (`testBit_foldl_setBit`), and two buffers of one length that hold the same set are the same
    (`eq_of_testBit`). -/

namespace Lib.PackedBits

/-- The bit `i` within its byte. -/
def mask (i : ℕ) : UInt8 := UInt8.ofNat (2 ^ (7 - i % 8))

/-- Sets the bit `i`. -/
def setBit (bytes : List UInt8) (i : ℕ) : List UInt8 := bytes.modify (i / 8) (· ||| mask i)

/-- Looks up the bit `i`. -/
def testBit (bytes : List UInt8) (i : ℕ) : Bool := (bytes.getD (i / 8) 0).toNat.testBit (7 - i % 8)

@[simp] theorem length_setBit (bytes : List UInt8) (i : ℕ) : (setBit bytes i).length = bytes.length := by
  simp [setBit]

theorem toNat_mask (i : ℕ) : (mask i).toNat = 2 ^ (7 - i % 8) := by
  have hlt : 2 ^ (7 - i % 8) < 2 ^ 8 := Nat.pow_lt_pow_right (by decide) (by omega)
  rw [mask, UInt8.toNat_ofNat']
  exact Nat.mod_eq_of_lt hlt

theorem getD_setBit {bytes : List UInt8} {i : ℕ} (hi : i / 8 < bytes.length) (k : ℕ) :
    (setBit bytes i).getD k 0 = if k = i / 8 then bytes.getD k 0 ||| mask i else bytes.getD k 0 := by
  rw [setBit, List.getD_eq_getElem?_getD, List.getElem?_modify, List.getD_eq_getElem?_getD]
  by_cases hk : i / 8 = k
  · subst hk
    simp [hi]
  · simp [hk, Ne.symm hk]

/-- The bit is set, the others stay. -/
theorem testBit_setBit {bytes : List UInt8} {i : ℕ} (hi : i / 8 < bytes.length) (j : ℕ) :
    testBit (setBit bytes i) j = (testBit bytes j || decide (j = i)) := by
  rw [testBit, getD_setBit hi, testBit]
  by_cases hij : j / 8 = i / 8
  · rw [if_pos hij, UInt8.toNat_or, Nat.testBit_or, toNat_mask, Nat.testBit_two_pow]
    congr 2
    exact propext ⟨fun h => by omega, fun h => by rw [h]⟩
  · have hne : j ≠ i := fun h => hij (by rw [h])
    simp [hij, hne]

theorem length_foldl_setBit (l : List ℕ) (bytes : List UInt8) :
    (l.foldl setBit bytes).length = bytes.length := by
  induction l generalizing bytes with
  | nil => rfl
  | cons i l ih => rw [List.foldl_cons, ih, length_setBit]

/-- What is put in is added to what is there. -/
theorem testBit_foldl_setBit {l : List ℕ} {bytes : List UInt8} (hl : ∀ i ∈ l, i / 8 < bytes.length)
    (j : ℕ) : testBit (l.foldl setBit bytes) j = (testBit bytes j || decide (j ∈ l)) := by
  induction l generalizing bytes with
  | nil => simp
  | cons i l ih =>
    have hi := hl i List.mem_cons_self
    have hrest : ∀ i' ∈ l, i' / 8 < (setBit bytes i).length := fun i' hi' => by
      rw [length_setBit]
      exact hl i' (List.mem_cons_of_mem _ hi')
    rw [List.foldl_cons, ih hrest, testBit_setBit hi, Bool.or_assoc]
    simp [List.mem_cons]

theorem testBit_zeros (k j : ℕ) : testBit (List.replicate k 0) j = false := by
  have hzero : (List.replicate k (0 : UInt8)).getD (j / 8) 0 = 0 := by
    rw [List.getD_eq_getElem?_getD, List.getElem?_replicate]
    split <;> rfl
  rw [testBit, hzero]
  exact Nat.zero_testBit _

/-- A buffer that starts empty holds what was put in. -/
theorem testBit_filled {l : List ℕ} {k : ℕ} (hl : ∀ i ∈ l, i / 8 < k) (j : ℕ) :
    testBit (l.foldl setBit (List.replicate k 0)) j = decide (j ∈ l) := by
  rw [testBit_foldl_setBit (by simpa using hl), testBit_zeros, Bool.false_or]

/-- The bits determine the buffer. -/
theorem eq_of_testBit {bytes bytes' : List UInt8} (hlen : bytes.length = bytes'.length)
    (h : ∀ j, testBit bytes j = testBit bytes' j) : bytes = bytes' := by
  refine List.ext_getElem hlen fun k hk hk' => UInt8.toNat_inj.mp (Nat.eq_of_testBit_eq fun b => ?_)
  by_cases hb : b < 8
  · have := h (k * 8 + (7 - b))
    have hdiv : (k * 8 + (7 - b)) / 8 = k := by omega
    have hmod : 7 - (k * 8 + (7 - b)) % 8 = b := by omega
    rwa [testBit, testBit, hdiv, hmod, List.getD_eq_getElem _ _ hk, List.getD_eq_getElem _ _ hk'] at this
  · have hbig : ∀ x : UInt8, x.toNat.testBit b = false := fun x =>
      Nat.testBit_lt_two_pow ((UInt8.toNat_lt x).trans_le (Nat.pow_le_pow_right (by decide) (by omega)))
    rw [hbig, hbig]

end Lib.PackedBits
