import Mathlib.Data.List.Basic
import Mathlib.Algebra.Ring.Nat

/-! Texts that tell by themselves where they end. `SelfDelimiting f` says that no code of `f` is a proper
    prefix of another one's, so that codes can be written one after another without separators:
    `flatten_inj` reads a concatenation back. A number in decimal digits is self-delimiting once
    something that is not a digit follows (`toDigits_delimited`) or once it is padded to a fixed
    width (`leftpad_delimited`). -/

namespace Lib
variable {α β : Type*}

/-- Two codes of which one begins the other are the same code. -/
def SelfDelimiting (p q : List α) : Prop := ∀ s t, p ++ s = q ++ t → p = q ∧ s = t

/-- Concatenations of equally many self-delimiting codes are read back code by code. -/
theorem flatten_inj : ∀ {L L' : List (List α)}, L.length = L'.length →
    (∀ p ∈ L, ∀ q ∈ L', SelfDelimiting p q) → ∀ {s t}, L.flatten ++ s = L'.flatten ++ t →
      L = L' ∧ s = t
  | [], [], _, _, _, _, h => ⟨rfl, h⟩
  | p :: L, q :: L', hlen, hpq, s, t, h => by
    rw [List.flatten_cons, List.flatten_cons, List.append_assoc, List.append_assoc] at h
    obtain ⟨rfl, hrest⟩ := hpq p (by simp) q (by simp) _ _ h
    obtain ⟨rfl, hst⟩ := flatten_inj (by simpa using hlen)
      (fun p' hp' q' hq' => hpq p' (List.mem_cons_of_mem _ hp') q' (List.mem_cons_of_mem _ hq')) hrest
    exact ⟨rfl, hst⟩

/-- Up to the first delimiter two texts agree. -/
theorem delimited_inj {P : α → Prop} {d : α} (hd : ¬P d) : ∀ {p q : List α}, (∀ x ∈ p, P x) →
    (∀ x ∈ q, P x) → ∀ {s t}, p ++ d :: s = q ++ d :: t → p = q ∧ s = t
  | [], [], _, _, _, _, h => ⟨rfl, (List.cons.inj h).2⟩
  | [], y :: q, _, hq, _, _, h => absurd ((List.cons.inj h).1 ▸ hq y (by simp)) hd
  | x :: p, [], hp, _, _, _, h => absurd ((List.cons.inj h).1 ▸ hp x (by simp)) hd
  | x :: p, y :: q, hp, hq, s, t, h => by
    obtain ⟨rfl, hrest⟩ := List.cons.inj h
    obtain ⟨rfl, hst⟩ := delimited_inj hd (fun z hz => hp z (List.mem_cons_of_mem _ hz))
      (fun z hz => hq z (List.mem_cons_of_mem _ hz)) hrest
    exact ⟨rfl, hst⟩

theorem toDigits_inj {j k : ℕ} (h : Nat.toDigits 10 j = Nat.toDigits 10 k) : j = k := by
  rw [← Nat.ofDigitChars_ten_toDigits (n := j), h, Nat.ofDigitChars_ten_toDigits]

/-- A number in digits ends at the first character that is not a digit. -/
theorem toDigits_delimited {d : Char} (hd : d.isDigit = false) {j k : ℕ} {s t : List Char}
    (h : Nat.toDigits 10 j ++ d :: s = Nat.toDigits 10 k ++ d :: t) : j = k ∧ s = t := by
  obtain ⟨hjk, hst⟩ := delimited_inj (P := fun c : Char => c.isDigit = true) (by simp [hd])
    (fun c hc => Nat.isDigit_of_mem_toDigits (by decide) (by decide) hc)
    (fun c hc => Nat.isDigit_of_mem_toDigits (by decide) (by decide) hc) h
  exact ⟨toDigits_inj hjk, hst⟩

/-- Padding with zeros keeps the number. -/
theorem ofDigitChars_leftpad (w k : ℕ) :
    Nat.ofDigitChars 10 ((Nat.toDigits 10 k).leftpad w '0') 0 = k := by
  rw [List.leftpad, Nat.ofDigitChars_append, Nat.ofDigitChars_replicate_zero, Nat.mul_zero,
    Nat.ofDigitChars_ten_toDigits]

/-- Numbers below `10 ^ w`, padded to the width `w`, are self-delimiting. -/
theorem leftpad_delimited {w j k : ℕ} (hw : 0 < w) (hj : j < 10 ^ w) (hk : k < 10 ^ w)
    {s t : List Char} (h : (Nat.toDigits 10 j).leftpad w '0' ++ s =
      (Nat.toDigits 10 k).leftpad w '0' ++ t) : j = k ∧ s = t := by
  have hlen : ∀ {k}, k < 10 ^ w → ((Nat.toDigits 10 k).leftpad w '0').length = w := fun {k} hk => by
    have := (Nat.length_toDigits_le_iff (n := k) (by decide : 1 < 10) hw).mpr hk
    rw [List.leftpad, List.length_append, List.length_replicate]
    omega
  obtain ⟨hpad, hst⟩ := List.append_inj h ((hlen hj).trans (hlen hk).symm)
  refine ⟨?_, hst⟩
  rw [← ofDigitChars_leftpad w j, hpad, ofDigitChars_leftpad]

end Lib
