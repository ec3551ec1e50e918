import Mathlib.Algebra.BigOperators.Group.List.Basic
import Mathlib.Data.Int.Notation

/-! Reading back what a writer wrote. A `Reader` takes a value from the front of a buffer and leaves
    the rest. `Reads p code a` says that `p` takes exactly `code`, whatever follows it, and returns
    `a`; the rules follow the shape of a reader (`Reads.bind`, `Reads.times`, `Reads.counted`), so a
    format is checked field by field. Numbers are 32-bit and big-endian (`reads_getInt`).
    A `window` is one of the equal parts a long buffer is cut into; what lies inside one part is
    read from it as from the whole buffer (`window_drop`). -/

universe u

namespace Lib
variable {β : Type u} {α γ : Type u}

/-- Takes a value from the front of a buffer. -/
abbrev Reader (β α : Type u) := StateT (List β) Option α

/-- `p` takes exactly `code` and returns `a`. -/
def Reads (p : Reader β α) (code : List β) (a : α) : Prop :=
  ∀ rest, p.run (code ++ rest) = some (a, rest)

/-- Passes over some elements. -/
def skip (k : ℕ) : Reader β PUnit := fun s => if k ≤ s.length then some (⟨⟩, s.drop k) else none

/-- So many values, one after another. -/
def times (p : Reader β α) : ℕ → Reader β (List α)
  | 0 => pure []
  | k + 1 => do
    let a ← p
    let as ← times p k
    pure (a :: as)

theorem reads_pure (a : α) : Reads (pure a : Reader β α) [] a := fun _ => rfl

theorem Reads.bind {p : Reader β α} {k : α → Reader β γ} {code code' : List β} {a : α} {c : γ}
    (hp : Reads p code a) (hk : Reads (k a) code' c) : Reads (p >>= k) (code ++ code') c := by
  intro rest
  rw [StateT.run_bind, List.append_assoc, hp]
  exact hk rest

/-- The last part of a reader, after which nothing is left to take. -/
theorem Reads.bind_pure {p : Reader β α} {f : α → γ} {code : List β} {a : α} (hp : Reads p code a) :
    Reads (p >>= fun a => pure (f a)) code (f a) := by
  have := Reads.bind (k := fun a => pure (f a)) hp (reads_pure (f a))
  rwa [List.append_nil] at this

theorem reads_skip {k : ℕ} {code : List β} (hk : k = code.length) : Reads (skip k) code ⟨⟩ := by
  subst hk
  intro rest
  change (if _ then _ else _) = _
  rw [if_pos (by simp), List.drop_left]

/-- Values written by `code` are read back by `p`, one after another. -/
theorem Reads.times {ι : Type*} {p : Reader β α} {code : ι → List β} {f : ι → α} :
    ∀ {l : List ι}, (∀ x ∈ l, Reads p (code x) (f x)) →
      Reads (times p l.length) (l.flatMap code) (l.map f)
  | [], _ => reads_pure []
  | x :: l, h => (h x (by simp)).bind
      (Reads.bind_pure (Reads.times fun y hy => h y (List.mem_cons_of_mem _ hy)))

/-! ### 32-bit numbers -/

/-- What fits into 32 bits. -/
def IsInt32 (x : ℤ) : Prop := -2 ^ 31 ≤ x ∧ x < 2 ^ 31

/-- The bytes of a number, the highest first. -/
def putInt (x : ℤ) : List UInt8 :=
  let bits := (x % 2 ^ 32).toNat
  [UInt8.ofNat (bits / 2 ^ 24), UInt8.ofNat (bits / 2 ^ 16), UInt8.ofNat (bits / 2 ^ 8),
    UInt8.ofNat bits]

/-- Four bytes as a signed number. -/
def getInt : Reader UInt8 ℤ
  | a :: b :: c :: d :: rest =>
    let bits : ℤ := (a.toNat * 2 ^ 24 + b.toNat * 2 ^ 16 + c.toNat * 2 ^ 8 + d.toNat : ℕ)
    some (if bits < 2 ^ 31 then bits else bits - 2 ^ 32, rest)
  | _ => none

theorem isInt32_natCast {k : ℕ} (h : k < 2 ^ 31) : IsInt32 (k : ℤ) := ⟨by omega, by exact_mod_cast h⟩

theorem length_putInt (x : ℤ) : (putInt x).length = 4 := rfl

theorem length_flatMap_putInt {ι : Type*} (f : ι → ℤ) (l : List ι) :
    (l.flatMap fun x => putInt (f x)).length = l.length * 4 := by
  simp [List.length_flatMap, length_putInt]

/-- The four bytes of a number put together again. -/
theorem bytes_sum {bits : ℕ} (h : bits < 2 ^ 32) :
    (UInt8.ofNat (bits / 2 ^ 24)).toNat * 2 ^ 24 + (UInt8.ofNat (bits / 2 ^ 16)).toNat * 2 ^ 16 +
      (UInt8.ofNat (bits / 2 ^ 8)).toNat * 2 ^ 8 + (UInt8.ofNat bits).toNat = bits := by
  simp only [UInt8.toNat_ofNat']
  omega

theorem reads_getInt {x : ℤ} (hx : IsInt32 x) : Reads getInt (putInt x) x := by
  intro rest
  obtain ⟨hlo, hhi⟩ := hx
  have hbits : ((x % 2 ^ 32).toNat : ℤ) = x % 2 ^ 32 := Int.toNat_of_nonneg (by omega)
  refine congrArg (fun y => some (y, rest)) ?_
  rw [bytes_sum (by omega), hbits]
  split <;> omega

/-- A number, and so many values. -/
def counted {α : Type} (p : Reader UInt8 α) : Reader UInt8 (List α) := do
  let size ← getInt
  if size < 0 then failure else times p size.toNat

theorem reads_counted {α : Type} {ι : Type*} {p : Reader UInt8 α} {code : ι → List UInt8} {f : ι → α}
    {l : List ι} (hlen : l.length < 2 ^ 31) (h : ∀ x ∈ l, Reads p (code x) (f x)) :
    Reads (counted p) (putInt l.length ++ l.flatMap code) (l.map f) := by
  refine (reads_getInt (isInt32_natCast hlen)).bind ?_
  rw [if_neg (by omega), Int.toNat_natCast]
  exact Reads.times h

/-! ### Windows of a buffer -/

/-- The `i`-th part of a buffer cut into parts of `size`. -/
def window (size : ℕ) (file : List β) (i : ℕ) : List β := (file.drop (i * size)).take size

/-- What lies inside one part is found there. -/
theorem window_drop {size off : ℕ} {before code : List β} (after : List β) (hoff : before.length = off)
    (hfit : off % size + code.length ≤ size) :
    ∃ rest, (window size (before ++ code ++ after) (off / size)).drop (off % size) = code ++ rest := by
  have hdiv : off / size * size + off % size = off := Nat.div_add_mod' off size
  refine ⟨after.take (size - off % size - code.length), ?_⟩
  rw [window, List.drop_take, List.drop_drop, hdiv, List.append_assoc, ← hoff, List.drop_left,
    List.take_append, hoff, List.take_of_length_le (by omega)]

end Lib
