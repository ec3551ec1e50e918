import GraphDialysis.Lib.SortOn
import Mathlib.Data.List.Lex
import Mathlib.Data.Char
import Mathlib.Algebra.Ring.Nat
import Mathlib.Algebra.Ring.Int.Defs

/-! Kotlin strings as far as the program looks into them: their length and their order are those of
    the UTF-16 code units, and the native side orders them by the bytes of modified UTF-8. Text is a
    list of Unicode scalar values, so a string never holds half of a surrogate pair and survives
    being written out and read back. Both encodings are injective, which is what makes sorting by
    them canonical. -/

namespace Dialysis

/-- A Kotlin string. -/
abbrev KString := List Char

/-- The code units of one character. -/
def utf16Units (c : Char) : List ℕ :=
  if c.toNat < 0x10000 then [c.toNat]
  else [0xD800 + (c.toNat - 0x10000) / 0x400, 0xDC00 + (c.toNat - 0x10000) % 0x400]

/-- `String` as a sequence of code units; `String.length` is its length. -/
def utf16 (s : KString) : List ℕ := s.flatMap utf16Units

/-- The bytes the JNI string functions use for a code unit. -/
def modifiedUtf8Bytes (u : ℕ) : List ℕ :=
  if 0 < u ∧ u < 0x80 then [u]
  else if u < 0x800 then [0xC0 + u / 0x40, 0x80 + u % 0x40]
  else [0xE0 + u / 0x1000, 0x80 + u / 0x40 % 0x40, 0x80 + u % 0x40]

/-- A string as the native side sees it. -/
def modifiedUtf8 (s : KString) : List ℕ := (utf16 s).flatMap modifiedUtf8Bytes

/-- `Iterable<String>.sorted()`. -/
def sortStrings (l : List KString) : List KString := Lib.sortOn utf16 l

/-- `std::sort` on native strings. -/
def sortNative (l : List KString) : List KString := Lib.sortOn modifiedUtf8 l

/-- A code whose words tell by themselves where they end can be read back. -/
theorem flatMap_injective {α : Type*} {f : α → List ℕ} (hne : ∀ a, f a ≠ [])
    (hf : ∀ a b s t, f a ++ s = f b ++ t → a = b ∧ s = t) :
    Function.Injective fun l : List α => l.flatMap f := by
  intro l
  induction l with
  | nil =>
    intro l' h
    cases l' with
    | nil => rfl
    | cons b l' =>
      have := (List.append_eq_nil_iff.mp (h.symm.trans rfl : f b ++ l'.flatMap f = [])).1
      exact absurd this (hne b)
  | cons a l ih =>
    intro l' h
    cases l' with
    | nil =>
      have := (List.append_eq_nil_iff.mp (h.trans rfl : f a ++ l.flatMap f = [])).1
      exact absurd this (hne a)
    | cons b l' =>
      obtain ⟨rfl, ht⟩ := hf a b _ _ h
      rw [ih ht]

theorem utf16Units_prefix (c d : Char) (s t : List ℕ) (h : utf16Units c ++ s = utf16Units d ++ t) :
    c = d ∧ s = t := by
  have hc := c.valid
  have hd := d.valid
  have hext : c.toNat = d.toNat → c = d := fun h => Char.toNat_inj.mp h
  simp only [UInt32.isValidChar, Nat.isValidChar] at hc hd
  change c.toNat < 0xd800 ∨ 0xdfff < c.toNat ∧ c.toNat < 0x110000 at hc
  change d.toNat < 0xd800 ∨ 0xdfff < d.toNat ∧ d.toNat < 0x110000 at hd
  simp only [utf16Units] at h
  split at h <;> split at h <;> simp only [List.cons_append, List.nil_append, List.cons.injEq] at h
  · exact ⟨hext h.1, h.2⟩
  · omega
  · omega
  · exact ⟨hext (by omega), h.2.2⟩

theorem utf16_injective : Function.Injective utf16 :=
  flatMap_injective (fun c => by rw [utf16Units]; split <;> simp) utf16Units_prefix

theorem utf16Units_lt (c : Char) : ∀ u ∈ utf16Units c, u < 0x10000 := by
  have hc : c.toNat < 0x110000 := by
    have := c.valid
    simp only [UInt32.isValidChar, Nat.isValidChar] at this
    change c.toNat < 0xd800 ∨ 0xdfff < c.toNat ∧ c.toNat < 0x110000 at this
    omega
  intro u hu
  rw [utf16Units] at hu
  split at hu
  · rw [List.mem_singleton] at hu; omega
  · simp only [List.mem_cons, List.not_mem_nil, or_false] at hu; omega

theorem modifiedUtf8Bytes_prefix {u v : ℕ} (hu : u < 0x10000) (hv : v < 0x10000) (s t : List ℕ)
    (h : modifiedUtf8Bytes u ++ s = modifiedUtf8Bytes v ++ t) : u = v ∧ s = t := by
  simp only [modifiedUtf8Bytes] at h
  split at h <;> split at h <;> try split at h
  all_goals try split at h
  all_goals simp only [List.cons_append, List.nil_append, List.cons.injEq] at h
  all_goals first | (exfalso; omega) | exact ⟨by omega, by simp_all⟩

theorem modifiedUtf8_injective : Function.Injective modifiedUtf8 := by
  intro s t h
  have hinj := flatMap_injective (α := { u : ℕ // u < 0x10000 }) (f := fun u => modifiedUtf8Bytes u.1)
    (fun u => by rw [modifiedUtf8Bytes]; split <;> [simp; split <;> simp])
    (fun u v s t h => by
      obtain ⟨h₁, h₂⟩ := modifiedUtf8Bytes_prefix u.2 v.2 s t h
      exact ⟨Subtype.ext h₁, h₂⟩)
  have hlt : ∀ s : KString, ∀ u ∈ utf16 s, u < 0x10000 := fun s u hu => by
    obtain ⟨c, -, hc⟩ := List.mem_flatMap.mp hu
    exact utf16Units_lt c u hc
  have heq : ∀ s : KString, modifiedUtf8 s =
      ((utf16 s).attach.map fun u => (⟨u.1, hlt s u.1 u.2⟩ : { u : ℕ // u < 0x10000 })).flatMap
        fun u : { u : ℕ // u < 0x10000 } => modifiedUtf8Bytes u.1 := fun s => by
    rw [List.flatMap_map, modifiedUtf8]
    simp only [List.flatMap_subtype, List.unattach_attach]
  rw [heq, heq] at h
  have := congrArg (List.map Subtype.val) (hinj h)
  simp only [List.map_map] at this
  exact utf16_injective (by simpa [Function.comp_def] using this)

theorem sortStrings_eq_of_perm {l l' : List KString} (h : l.Perm l') : sortStrings l = sortStrings l' :=
  Lib.sortOn_eq_of_perm utf16_injective h

theorem sortNative_eq_of_perm {l l' : List KString} (h : l.Perm l') : sortNative l = sortNative l' :=
  Lib.sortOn_eq_of_perm modifiedUtf8_injective h

end Dialysis
