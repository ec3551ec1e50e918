import GraphDialysis.Content.KString
import Mathlib

/-! `dialysis.content.Content`: the structural values used as colours and keys. Multisets are stored
    as lists whose order has no meaning, so both `equals` and `compareTo` look at multisets in
    canonical order, at every depth. Here that is `canon`, which sorts every multiset inside, followed
    by the plain structural order `cmp`; `cmp` is a linear order, hence `compareTo` a total preorder
    whose equivalence is `equals`, and `serialize` cannot tell equal values apart. -/

namespace Dialysis

/-- `Content.Num` holds a `Long`. -/
inductive Content where
  | str (s : KString)
  | num (v : ℤ)
  | tup (items : List Content)
  | mset (items : List Content)

namespace Content

/-- `typeRank`. -/
def typeRank : Content → ℕ
  | str _ => 0
  | num _ => 1
  | tup _ => 2
  | mset _ => 3

mutual
/-- Type rank first, then value or items; the items of a multiset in the order in which they are
    listed. -/
def structCmp : Content → Content → Ordering
  | str s, str t => Lib.compareOn utf16 s t
  | num v, num w => cmp v w
  | tup xs, tup ys => structCmpItems xs ys
  | mset xs, mset ys => structCmpItems xs ys
  | a, b => cmp a.typeRank b.typeRank
/-- Item by item, then by size. -/
def structCmpItems : List Content → List Content → Ordering
  | [], [] => .eq
  | [], _ :: _ => .lt
  | _ :: _, [] => .gt
  | x :: xs, y :: ys => (structCmp x y).then (structCmpItems xs ys)
end

/-! ### The structural order is linear -/

/-- The values agree up to the type. -/
theorem structCmp_of_rank_ne {a b : Content} (h : a.typeRank ≠ b.typeRank) :
    structCmp a b = cmp a.typeRank b.typeRank := by
  cases a <;> cases b <;> first | rfl | exact absurd rfl h

mutual
theorem structCmp_eq : ∀ a b : Content, structCmp a b = .eq ↔ a = b
  | str s, b => by
    cases b with
    | str t => rw [structCmp, Lib.compareOn_eq utf16_injective, str.injEq]
    | _ =>
      rw [structCmp_of_rank_ne (by simp [typeRank]), cmp_eq_eq_iff]
      simp [typeRank]
  | num v, b => by
    cases b with
    | num w => rw [structCmp, cmp_eq_eq_iff, num.injEq]
    | _ =>
      rw [structCmp_of_rank_ne (by simp [typeRank]), cmp_eq_eq_iff]
      simp [typeRank]
  | tup xs, b => by
    cases b with
    | tup ys => rw [structCmp, structCmpItems_eq xs ys, tup.injEq]
    | _ =>
      rw [structCmp_of_rank_ne (by simp [typeRank]), cmp_eq_eq_iff]
      simp [typeRank]
  | mset xs, b => by
    cases b with
    | mset ys => rw [structCmp, structCmpItems_eq xs ys, mset.injEq]
    | _ =>
      rw [structCmp_of_rank_ne (by simp [typeRank]), cmp_eq_eq_iff]
      simp [typeRank]
theorem structCmpItems_eq : ∀ xs ys : List Content, structCmpItems xs ys = .eq ↔ xs = ys
  | [], ys => by cases ys <;> simp [structCmpItems]
  | x :: xs, ys => by
    cases ys with
    | nil => simp [structCmpItems]
    | cons y ys =>
      rw [structCmpItems, Ordering.then_eq_eq, structCmp_eq x y, structCmpItems_eq xs ys,
        List.cons.injEq]
end

mutual
theorem structCmp_swap : ∀ a b : Content, structCmp b a = (structCmp a b).swap
  | str s, b => by
    cases b with
    | str t => rw [structCmp, structCmp, Lib.compareOn_swap]
    | _ => rw [structCmp_of_rank_ne (by simp [typeRank]), structCmp_of_rank_ne (by simp [typeRank]),
        cmp_swap]
  | num v, b => by
    cases b with
    | num w => rw [structCmp, structCmp, cmp_swap]
    | _ => rw [structCmp_of_rank_ne (by simp [typeRank]), structCmp_of_rank_ne (by simp [typeRank]),
        cmp_swap]
  | tup xs, b => by
    cases b with
    | tup ys => rw [structCmp, structCmp, structCmpItems_swap xs ys]
    | _ => rw [structCmp_of_rank_ne (by simp [typeRank]), structCmp_of_rank_ne (by simp [typeRank]),
        cmp_swap]
  | mset xs, b => by
    cases b with
    | mset ys => rw [structCmp, structCmp, structCmpItems_swap xs ys]
    | _ => rw [structCmp_of_rank_ne (by simp [typeRank]), structCmp_of_rank_ne (by simp [typeRank]),
        cmp_swap]
theorem structCmpItems_swap : ∀ xs ys : List Content,
    structCmpItems ys xs = (structCmpItems xs ys).swap
  | [], ys => by cases ys <;> simp [structCmpItems]
  | x :: xs, ys => by
    cases ys with
    | nil => simp [structCmpItems]
    | cons y ys =>
      rw [structCmpItems, structCmpItems, structCmp_swap x y, structCmpItems_swap xs ys,
        Ordering.swap_then]
end

/-- Values of different types are ordered by their type ranks. -/
theorem typeRank_le {a b : Content} (h : structCmp a b = .lt) : a.typeRank ≤ b.typeRank := by
  by_cases hr : a.typeRank = b.typeRank
  · exact hr.le
  · rw [structCmp_of_rank_ne hr, cmp_eq_lt_iff] at h
    exact h.le

mutual
theorem structCmp_trans : ∀ a b c : Content, structCmp a b = .lt → structCmp b c = .lt →
    structCmp a c = .lt
  | str s, b, c, hab, hbc => by
    by_cases hr : (str s).typeRank = c.typeRank
    · have hb : (str s).typeRank = b.typeRank :=
        le_antisymm (typeRank_le hab) (hr ▸ typeRank_le hbc)
      cases b <;> try (simp [typeRank] at hb; done)
      cases c <;> try (simp [typeRank] at hr; done)
      exact Lib.compareOn_trans hab hbc
    · rw [structCmp_of_rank_ne hr, cmp_eq_lt_iff]
      exact lt_of_le_of_ne ((typeRank_le hab).trans (typeRank_le hbc)) hr
  | num v, b, c, hab, hbc => by
    by_cases hr : (num v).typeRank = c.typeRank
    · have hb : (num v).typeRank = b.typeRank :=
        le_antisymm (typeRank_le hab) (hr ▸ typeRank_le hbc)
      cases b <;> try (simp [typeRank] at hb; done)
      cases c <;> try (simp [typeRank] at hr; done)
      rw [structCmp, cmp_eq_lt_iff] at hab hbc ⊢
      exact hab.trans hbc
    · rw [structCmp_of_rank_ne hr, cmp_eq_lt_iff]
      exact lt_of_le_of_ne ((typeRank_le hab).trans (typeRank_le hbc)) hr
  | tup xs, b, c, hab, hbc => by
    by_cases hr : (tup xs).typeRank = c.typeRank
    · have hb : (tup xs).typeRank = b.typeRank :=
        le_antisymm (typeRank_le hab) (hr ▸ typeRank_le hbc)
      cases b <;> try (simp [typeRank] at hb; done)
      cases c <;> try (simp [typeRank] at hr; done)
      rw [structCmp] at hab hbc ⊢
      exact structCmpItems_trans xs _ _ hab hbc
    · rw [structCmp_of_rank_ne hr, cmp_eq_lt_iff]
      exact lt_of_le_of_ne ((typeRank_le hab).trans (typeRank_le hbc)) hr
  | mset xs, b, c, hab, hbc => by
    by_cases hr : (mset xs).typeRank = c.typeRank
    · have hb : (mset xs).typeRank = b.typeRank :=
        le_antisymm (typeRank_le hab) (hr ▸ typeRank_le hbc)
      cases b <;> try (simp [typeRank] at hb; done)
      cases c <;> try (simp [typeRank] at hr; done)
      rw [structCmp] at hab hbc ⊢
      exact structCmpItems_trans xs _ _ hab hbc
    · rw [structCmp_of_rank_ne hr, cmp_eq_lt_iff]
      exact lt_of_le_of_ne ((typeRank_le hab).trans (typeRank_le hbc)) hr
theorem structCmpItems_trans : ∀ xs ys zs : List Content, structCmpItems xs ys = .lt →
    structCmpItems ys zs = .lt → structCmpItems xs zs = .lt
  | [], ys, zs, hab, hbc => by
    cases ys with
    | nil => simp [structCmpItems] at hab
    | cons y ys => cases zs with
      | nil => simp [structCmpItems] at hbc
      | cons z zs => rfl
  | x :: xs, ys, zs, hab, hbc => by
    cases ys with
    | nil => simp [structCmpItems] at hab
    | cons y ys => cases zs with
      | nil => simp [structCmpItems] at hbc
      | cons z zs =>
        rw [structCmpItems, Ordering.then_eq_lt, structCmp_eq] at hab hbc ⊢
        rcases hab with hab | ⟨rfl, hab⟩
        · rcases hbc with hbc | ⟨rfl, hbc⟩
          · exact Or.inl (structCmp_trans x _ _ hab hbc)
          · exact Or.inl hab
        · rcases hbc with hbc | ⟨rfl, hbc⟩
          · exact Or.inl hbc
          · exact Or.inr ⟨rfl, structCmpItems_trans xs _ _ hab hbc⟩
end

theorem structCmp_ne_gt {a b : Content} : structCmp a b ≠ .gt ↔ a = b ∨ structCmp a b = .lt := by
  rw [← structCmp_eq]
  cases structCmp a b <;> decide

instance : DecidableEq Content := fun a b => decidable_of_iff _ (structCmp_eq a b)

instance : LinearOrder Content where
  le a b := structCmp a b ≠ .gt
  lt a b := structCmp a b = .lt
  le_refl a := by rw [(structCmp_eq a a).mpr rfl]; decide
  le_trans a b c hab hbc := by
    rw [structCmp_ne_gt] at hab hbc ⊢
    rcases hab with rfl | hab
    · exact hbc
    · rcases hbc with rfl | hbc
      · exact Or.inr hab
      · exact Or.inr (structCmp_trans a b c hab hbc)
  lt_iff_le_not_ge a b := by rw [structCmp_swap a b]; cases structCmp a b <;> decide
  le_antisymm a b hab hba := by
    rw [structCmp_swap a b] at hba
    rw [← structCmp_eq]
    revert hab hba
    cases structCmp a b <;> decide
  le_total a b := by rw [structCmp_swap a b]; cases structCmp a b <;> decide
  toDecidableLE := fun _ _ => inferInstanceAs (Decidable (_ ≠ _))

/-! ### Canonical order -/

mutual
/-- The value with every multiset inside in canonical order. -/
def canon : Content → Content
  | str s => str s
  | num v => num v
  | tup items => tup (canonItems items)
  | mset items => mset ((canonItems items).insertionSort (· ≤ ·))
def canonItems : List Content → List Content
  | [] => []
  | x :: xs => canon x :: canonItems xs
end

/-- `Content.compareTo`. -/
def compareTo (a b : Content) : Ordering := structCmp a.canon b.canon

/-- `Content.equals`. -/
def Equals (a b : Content) : Prop := a.canon = b.canon

instance (a b : Content) : Decidable (Equals a b) := inferInstanceAs (Decidable (_ = _))

theorem compareTo_eq_zero {a b : Content} : compareTo a b = .eq ↔ Equals a b := structCmp_eq _ _

theorem canonItems_eq_map : ∀ items : List Content, canonItems items = items.map canon
  | [] => rfl
  | _ :: xs => congrArg _ (canonItems_eq_map xs)

/-- Multisets with the same elements are the same value. -/
theorem mset_equals_of_perm {xs ys : List Content} (h : (xs.map canon).Perm (ys.map canon)) :
    Equals (mset xs) (mset ys) := by
  rw [Equals, canon, canon, canonItems_eq_map, canonItems_eq_map]
  exact congrArg mset (Lib.sortOn_eq_of_perm Function.injective_id h)

/-! ### Serialization -/

/-- Decimal digits, as `toString` writes them. -/
def digits (k : ℕ) : KString := Nat.toDigits 10 k

mutual
/-- `Content.serialize`: lengths come first, so nothing needs escaping. -/
def serialize : Content → KString
  | str s => 'S' :: digits (utf16 s).length ++ ':' :: s
  | num v => 'N' :: (digits (v + 2 ^ 63).toNat).leftpad 20 '0' ++ [';']
  | tup items => 'T' :: digits items.length ++ ':' :: (serializeItems items).flatten
  | mset items => 'M' :: digits items.length ++ ':' :: (sortStrings (serializeItems items)).flatten
def serializeItems : List Content → List KString
  | [] => []
  | x :: xs => serialize x :: serializeItems xs
end

theorem serializeItems_eq_map : ∀ items : List Content, serializeItems items = items.map serialize
  | [] => rfl
  | _ :: xs => congrArg _ (serializeItems_eq_map xs)

mutual
theorem serialize_canon : ∀ c : Content, c.canon.serialize = c.serialize
  | str _ => rfl
  | num _ => rfl
  | tup items => by
    rw [canon, serialize, serialize, serializeItems_canon items, canonItems_eq_map, List.length_map]
  | mset items => by
    have hsort : sortStrings (serializeItems ((canonItems items).insertionSort (· ≤ ·))) =
        sortStrings (serializeItems items) := by
      rw [← serializeItems_canon items, serializeItems_eq_map, serializeItems_eq_map]
      exact sortStrings_eq_of_perm ((List.perm_insertionSort _ _).map _)
    rw [canon, serialize, serialize, hsort, List.length_insertionSort, canonItems_eq_map,
      List.length_map]
theorem serializeItems_canon : ∀ items : List Content,
    serializeItems (canonItems items) = serializeItems items
  | [] => rfl
  | x :: xs => by
    rw [canonItems, serializeItems, serializeItems, serialize_canon x, serializeItems_canon xs]
end

/-- Equal values serialize identically. -/
theorem Equals.serialize {a b : Content} (h : Equals a b) : a.serialize = b.serialize := by
  rw [← serialize_canon a, ← serialize_canon b, h]

theorem Equals.symm {a b : Content} (h : Equals a b) : Equals b a := Eq.symm h

theorem Equals.trans {a b c : Content} (hab : Equals a b) (hbc : Equals b c) : Equals a c :=
  Eq.trans hab hbc

@[simp] theorem canon_num (v : ℤ) : (num v).canon = num v := rfl

@[simp] theorem canon_tup (items : List Content) : (tup items).canon = tup (items.map canon) := by
  rw [canon, canonItems_eq_map]

end Content

end Dialysis
