import Mathlib.Data.Fin.Basic
import Mathlib.Data.List.Basic
import Mathlib.Algebra.GroupWithZero.Nat

/-! Looking up a vertex or a text in a list. The instances have names of their own, so that a definition
    that tests for membership carries no proof with it. -/

namespace Lib

instance decidableMemFin {n : ℕ} (a : Fin n) (l : List (Fin n)) : Decidable (a ∈ l) :=
  List.instDecidableMemOfLawfulBEq a l

instance decidableMemText (a : List Char) (l : List (List Char)) : Decidable (a ∈ l) :=
  List.instDecidableMemOfLawfulBEq a l

instance neZeroTwo : NeZero 2 := ⟨by decide⟩

end Lib
