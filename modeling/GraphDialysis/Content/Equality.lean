import GraphDialysis.Content.Content
import GraphDialysis.Lib.PrefixCode
import Mathlib.Algebra.BigOperators.Group.List.Basic
import Mathlib.Data.BitVec

/-! The functions of `Content` that depend on its notion of equality, as the class computes them:
    `equals` and `compareTo` sort the items of a multiset by `compareTo` itself, `hashCode` adds up
    avalanched hash codes, and `serialize` sorts texts. The first two call themselves on items only,
    so nesting depth is enough fuel for them. They agree with the canonical forms
    (`compareToWithin_eq`, `equalsWithin_eq`), and `serialize` can be read back
    (`serialize_delimited`), so all of them have one and the same equality. -/

namespace Dialysis.Content

/-! ### `compareTo` and `equals` -/

mutual
/-- How deep the value is nested. -/
def depth : Content → ℕ
  | str _ => 1
  | num _ => 1
  | tup items => depthItems items + 1
  | mset items => depthItems items + 1
def depthItems : List Content → ℕ
  | [] => 0
  | x :: xs => max (depth x) (depthItems xs)
end

/-- `for (i in 0 until minOf(..))`, then `size - other.size`. -/
def compareItems (compare : Content → Content → Ordering) : List Content → List Content → Ordering
  | [], [] => .eq
  | [], _ :: _ => .lt
  | _ :: _, [] => .gt
  | x :: xs, y :: ys => (compare x y).then (compareItems compare xs ys)

/-- `items.sorted()`. -/
def canonicalOrder (compare : Content → Content → Ordering) (items : List Content) : List Content :=
  items.insertionSort fun a b => compare a b ≠ .gt

/-- `compareTo` on values nested at most so deep. -/
def compareToWithin : ℕ → Content → Content → Ordering
  | 0, _, _ => .eq
  | _ + 1, str s, str t => Lib.compareOn utf16 s t
  | _ + 1, num v, num w => cmp v w
  | k + 1, tup xs, tup ys => compareItems (compareToWithin k) xs ys
  | k + 1, mset xs, mset ys => compareItems (compareToWithin k)
      (canonicalOrder (compareToWithin k) xs) (canonicalOrder (compareToWithin k) ys)
  | _ + 1, a, b => cmp a.typeRank b.typeRank

/-- `List.equals`. -/
def equalItems (equal : Content → Content → Bool) : List Content → List Content → Bool
  | [], [] => true
  | x :: xs, y :: ys => equal x y && equalItems equal xs ys
  | _, _ => false

/-- `equals` on values nested at most so deep. -/
def equalsWithin : ℕ → Content → Content → Bool
  | 0, _, _ => true
  | _ + 1, str s, str t => s = t
  | _ + 1, num v, num w => v = w
  | k + 1, tup xs, tup ys => equalItems (equalsWithin k) xs ys
  | k + 1, mset xs, mset ys => equalItems (equalsWithin k)
      (canonicalOrder (compareToWithin k) xs) (canonicalOrder (compareToWithin k) ys)
  | _ + 1, _, _ => false

/-- `a.compareTo(b)`. -/
def structuralCompareTo (a b : Content) : Ordering := compareToWithin (max a.depth b.depth) a b

/-- `a == b`. -/
def structuralEquals (a b : Content) : Bool := equalsWithin (max a.depth b.depth) a b

theorem depth_le_depthItems {x : Content} : ∀ {items : List Content}, x ∈ items →
    x.depth ≤ depthItems items
  | y :: ys, h => by
    rw [depthItems]
    rcases List.mem_cons.mp h with rfl | h
    · exact le_max_left _ _
    · exact (depth_le_depthItems h).trans (le_max_right _ _)

theorem depth_pos (a : Content) : 0 < a.depth := by cases a <;> simp [depth]

theorem structCmpItems_map (f : Content → Content) (xs ys : List Content) :
    structCmpItems (xs.map f) (ys.map f) = compareItems (fun a b => structCmp (f a) (f b)) xs ys := by
  induction xs generalizing ys with
  | nil => cases ys <;> rfl
  | cons x xs ih => cases ys with
    | nil => rfl
    | cons y ys => rw [List.map_cons, List.map_cons, structCmpItems, compareItems, ih]

theorem compareItems_congr {f g : Content → Content → Ordering} : ∀ {xs ys : List Content},
    (∀ x ∈ xs, ∀ y ∈ ys, f x y = g x y) → compareItems f xs ys = compareItems g xs ys
  | [], [], _ => rfl
  | [], _ :: _, _ => rfl
  | _ :: _, [], _ => rfl
  | x :: xs, y :: ys, h => by
    rw [compareItems, compareItems, h x (by simp) y (by simp),
      compareItems_congr fun a ha b hb => h a (List.mem_cons_of_mem _ ha) b (List.mem_cons_of_mem _ hb)]

/-- Sorting by `compareTo` is putting the canonical forms in order. -/
theorem map_canonicalOrder {compare : Content → Content → Ordering} {items : List Content}
    (h : ∀ a ∈ items, ∀ b ∈ items, compare a b = compareTo a b) :
    (canonicalOrder compare items).map canon = (canonItems items).insertionSort (· ≤ ·) := by
  rw [canonicalOrder, canonItems_eq_map]
  exact List.map_insertionSort _ _ _ _ fun a ha b hb => by rw [h a ha b hb]; rfl

theorem mem_canonicalOrder {compare : Content → Content → Ordering} {items : List Content}
    {x : Content} : x ∈ canonicalOrder compare items ↔ x ∈ items := List.mem_insertionSort _

/-- The recursive comparison compares canonical forms. -/
theorem compareToWithin_eq : ∀ (k : ℕ) (a b : Content), a.depth ≤ k → b.depth ≤ k →
    compareToWithin k a b = compareTo a b
  | 0, a, _, ha, _ => absurd (depth_pos a) (by omega)
  | k + 1, a, b, ha, hb => by
    have hitems : ∀ {xs ys : List Content}, depthItems xs ≤ k → depthItems ys ≤ k → ∀ x ∈ xs,
        ∀ y ∈ ys, compareToWithin k x y = compareTo x y := fun hxs hys x hx y hy =>
      compareToWithin_eq k x y ((depth_le_depthItems hx).trans hxs)
        ((depth_le_depthItems hy).trans hys)
    cases a <;> cases b <;> try (simp [compareToWithin, compareTo, canon, structCmp, typeRank]; done)
    · rename_i xs ys
      have hxs : depthItems xs ≤ k := by simpa [depth] using ha
      have hys : depthItems ys ≤ k := by simpa [depth] using hb
      rw [compareToWithin, compareTo, canon, canon, structCmp, canonItems_eq_map, canonItems_eq_map,
        structCmpItems_map]
      exact compareItems_congr (hitems hxs hys)
    · rename_i xs ys
      have hxs : depthItems xs ≤ k := by simpa [depth] using ha
      have hys : depthItems ys ≤ k := by simpa [depth] using hb
      rw [compareToWithin, compareTo, canon, canon, structCmp,
        ← map_canonicalOrder (hitems hxs hxs), ← map_canonicalOrder (hitems hys hys),
        structCmpItems_map]
      exact compareItems_congr fun x hx y hy =>
        hitems hxs hys x (mem_canonicalOrder.mp hx) y (mem_canonicalOrder.mp hy)

theorem structuralCompareTo_eq (a b : Content) : structuralCompareTo a b = compareTo a b :=
  compareToWithin_eq _ a b (le_max_left _ _) (le_max_right _ _)

theorem equalItems_iff {equal : Content → Content → Bool} : ∀ {xs ys : List Content},
    (∀ x ∈ xs, ∀ y ∈ ys, equal x y = true ↔ Equals x y) →
    (equalItems equal xs ys = true ↔ xs.map canon = ys.map canon)
  | [], [], _ => by simp [equalItems]
  | [], _ :: _, _ => by simp [equalItems]
  | _ :: _, [], _ => by simp [equalItems]
  | x :: xs, y :: ys, h => by
    rw [equalItems, Bool.and_eq_true, h x (by simp) y (by simp),
      equalItems_iff fun a ha b hb => h a (List.mem_cons_of_mem _ ha) b (List.mem_cons_of_mem _ hb),
      List.map_cons, List.map_cons, List.cons.injEq]
    rfl

/-- Recursive equality is equality of canonical forms. -/
theorem equalsWithin_eq : ∀ (k : ℕ) (a b : Content), a.depth ≤ k → b.depth ≤ k →
    (equalsWithin k a b = true ↔ Equals a b)
  | 0, a, _, ha, _ => absurd (depth_pos a) (by omega)
  | k + 1, a, b, ha, hb => by
    have hcompare : ∀ {xs ys : List Content}, depthItems xs ≤ k → depthItems ys ≤ k → ∀ x ∈ xs,
        ∀ y ∈ ys, compareToWithin k x y = compareTo x y := fun hxs hys x hx y hy =>
      compareToWithin_eq k x y ((depth_le_depthItems hx).trans hxs)
        ((depth_le_depthItems hy).trans hys)
    have hitems : ∀ {xs ys : List Content}, depthItems xs ≤ k → depthItems ys ≤ k → ∀ x ∈ xs,
        ∀ y ∈ ys, equalsWithin k x y = true ↔ Equals x y := fun hxs hys x hx y hy =>
      equalsWithin_eq k x y ((depth_le_depthItems hx).trans hxs)
        ((depth_le_depthItems hy).trans hys)
    cases a <;> cases b <;> try (simp [equalsWithin, Equals, canon]; done)
    · rename_i xs ys
      have hxs : depthItems xs ≤ k := by simpa [depth] using ha
      have hys : depthItems ys ≤ k := by simpa [depth] using hb
      rw [equalsWithin, equalItems_iff (hitems hxs hys), Equals, canon, canon, tup.injEq,
        canonItems_eq_map, canonItems_eq_map]
    · rename_i xs ys
      have hxs : depthItems xs ≤ k := by simpa [depth] using ha
      have hys : depthItems ys ≤ k := by simpa [depth] using hb
      rw [equalsWithin, equalItems_iff fun x hx y hy =>
          hitems hxs hys x (mem_canonicalOrder.mp hx) y (mem_canonicalOrder.mp hy),
        map_canonicalOrder (hcompare hxs hxs), map_canonicalOrder (hcompare hys hys), Equals, canon,
        canon, mset.injEq]

theorem structuralEquals_iff (a b : Content) : structuralEquals a b = true ↔ Equals a b :=
  equalsWithin_eq _ a b (le_max_left _ _) (le_max_right _ _)

/-! ### `hashCode` -/

/-- The finalizer of Murmur3. -/
def avalanche (x : BitVec 32) : BitVec 32 :=
  let x := (x ^^^ (x >>> 16)) * BitVec.ofInt 32 (-0x7ee3623b)
  let x := (x ^^^ (x >>> 13)) * BitVec.ofInt 32 (-0x3d4d51cb)
  x ^^^ (x >>> 16)

/-- `String.hashCode()`. -/
def stringHash (s : KString) : BitVec 32 :=
  (utf16 s).foldl (fun h u => 31 * h + BitVec.ofNat 32 u) 0

/-- `Long.hashCode()`. -/
def longHash (v : ℤ) : BitVec 32 :=
  let w := BitVec.ofInt 64 v
  (w ^^^ (w >>> 32)).truncate 32

mutual
def hashCode : Content → BitVec 32
  | str s => stringHash s
  | num v => longHash v
  | tup items => (hashItems items).foldl (fun acc h => 31 * acc + h) 7
  | mset items => ((hashItems items).map avalanche).sum
def hashItems : List Content → List (BitVec 32)
  | [] => []
  | x :: xs => hashCode x :: hashItems xs
end

theorem hashItems_eq_map (items : List Content) : hashItems items = items.map hashCode := by
  induction items with
  | nil => rfl
  | cons x xs ih => rw [hashItems, ih, List.map_cons]

mutual
theorem hashCode_canon : ∀ c : Content, c.canon.hashCode = c.hashCode
  | str _ => rfl
  | num _ => rfl
  | tup items => by rw [canon, hashCode, hashCode, hashItems_canon items]
  | mset items => by
    rw [canon, hashCode, hashCode, ← hashItems_canon items, hashItems_eq_map, hashItems_eq_map]
    exact (((List.perm_insertionSort _ _).map _).map _).sum_eq
theorem hashItems_canon : ∀ items : List Content, hashItems (canonItems items) = hashItems items
  | [] => rfl
  | x :: xs => by rw [canonItems, hashItems, hashItems, hashCode_canon x, hashItems_canon xs]
end

/-- Equal values have equal hash codes. -/
theorem Equals.hashCode {a b : Content} (h : Equals a b) : a.hashCode = b.hashCode := by
  rw [← hashCode_canon a, ← hashCode_canon b, h]

/-! ### `serialize` can be read back -/

mutual
/-- Every number inside is a `Long`. -/
def Longs : Content → Prop
  | str _ => True
  | num v => -2 ^ 63 ≤ v ∧ v < 2 ^ 63
  | tup items => LongsItems items
  | mset items => LongsItems items
def LongsItems : List Content → Prop
  | [] => True
  | x :: xs => Longs x ∧ LongsItems xs
end

theorem LongsItems.mem {x : Content} : ∀ {items : List Content}, LongsItems items → x ∈ items →
    x.Longs
  | y :: ys, h, hx => by
    rcases List.mem_cons.mp hx with rfl | hx
    · exact h.1
    · exact LongsItems.mem h.2 hx

/-- The number of code units says where a string ends. -/
theorem utf16_delimited {x y s t : KString} (hlen : (utf16 x).length = (utf16 y).length)
    (h : x ++ s = y ++ t) : x = y ∧ s = t := by
  have hempty : ∀ {z : KString}, (utf16 z).length = 0 → z = [] := fun {z} hz =>
    utf16_injective (List.length_eq_zero_iff.mp hz)
  have hlength : ∀ z w : KString, (utf16 (z ++ w)).length = (utf16 z).length + (utf16 w).length :=
    fun z w => by rw [utf16, List.flatMap_append, List.length_append]; rfl
  rcases List.append_eq_append_iff.mp h with ⟨z, rfl, rfl⟩ | ⟨z, rfl, rfl⟩
  · obtain rfl := hempty (z := z) (by rw [hlength] at hlen; omega)
    exact ⟨(List.append_nil x).symm, rfl⟩
  · obtain rfl := hempty (z := z) (by rw [hlength] at hlen; omega)
    exact ⟨List.append_nil y, rfl⟩

/-- The text of `a` says where it ends, and which value it is the text of. -/
def ReadsBack (a : Content) : Prop :=
  ∀ b : Content, b.Longs → ∀ s t, a.serialize ++ s = b.serialize ++ t → Equals a b ∧ s = t

theorem ReadsBack.equals {a b : Content} (ha : ReadsBack a) (hb : b.Longs)
    (h : a.serialize = b.serialize) : Equals a b :=
  (ha b hb [] [] (by rw [h])).1

theorem ReadsBack.delimiting {a b : Content} (ha : ReadsBack a) (hb : b.Longs) :
    Lib.SelfDelimiting a.serialize b.serialize := fun s t h => by
  obtain ⟨he, hst⟩ := ha b hb s t h
  exact ⟨he.serialize, hst⟩

section Items
variable {xs ys : List Content} (hxs : ∀ x ∈ xs, ReadsBack x) (hys : LongsItems ys)
include hxs hys

theorem flatten_serialize_inj {L L' : List KString} (hL : L.Perm (serializeItems xs))
    (hL' : L'.Perm (serializeItems ys)) (hlen : xs.length = ys.length) {s t : KString}
    (h : L.flatten ++ s = L'.flatten ++ t) : L = L' ∧ s = t := by
  rw [serializeItems_eq_map] at hL hL'
  refine Lib.flatten_inj ?_ (fun p hp q hq => ?_) h
  · rw [hL.length_eq, hL'.length_eq, List.length_map, List.length_map, hlen]
  · obtain ⟨x, hx, rfl⟩ := List.mem_map.mp (hL.mem_iff.mp hp)
    obtain ⟨y, hy, rfl⟩ := List.mem_map.mp (hL'.mem_iff.mp hq)
    exact (hxs x hx).delimiting (hys.mem hy)

theorem equals_tup (h : serializeItems xs = serializeItems ys) : Equals (tup xs) (tup ys) := by
  rw [serializeItems_eq_map, serializeItems_eq_map] at h
  rw [Equals, canon, canon, canonItems_eq_map, canonItems_eq_map]
  exact congrArg tup (Lib.map_eq_of_match h fun x hx y hy => (hxs x hx).equals (hys.mem hy))

theorem equals_mset (h : (serializeItems xs).Perm (serializeItems ys)) : Equals (mset xs) (mset ys) := by
  rw [serializeItems_eq_map, serializeItems_eq_map] at h
  exact mset_equals_of_perm
    (Lib.perm_map_of_match h fun x hx y hy => (hxs x hx).equals (hys.mem hy))

end Items

mutual
theorem readsBack : ∀ a : Content, a.Longs → ReadsBack a
  | str x, _, b, _, s, t, h => by
    cases b with
    | str y =>
      simp only [serialize, List.cons_append, List.append_assoc, List.cons.injEq, true_and] at h
      obtain ⟨hlen, hrest⟩ := Lib.toDigits_delimited (by decide) h
      obtain ⟨rfl, hst⟩ := utf16_delimited hlen hrest
      exact ⟨rfl, hst⟩
    | _ => simp [serialize] at h
  | num v, hv, b, hb, s, t, h => by
    cases b with
    | num w =>
      simp only [serialize, List.cons_append, List.append_assoc, List.cons.injEq, true_and] at h
      simp only [Longs] at hv hb
      obtain ⟨hvw, hst⟩ := Lib.leftpad_delimited (by decide) (by omega) (by omega) h
      obtain rfl : v = w := by omega
      exact ⟨rfl, (List.cons.inj hst).2⟩
    | _ => simp [serialize] at h
  | tup xs, hxs, b, hb, s, t, h => by
    cases b with
    | tup ys =>
      simp only [serialize, List.cons_append, List.append_assoc, List.cons.injEq, true_and] at h
      obtain ⟨hlen, hrest⟩ := Lib.toDigits_delimited (by decide) h
      have hitems := readsBackItems xs hxs
      obtain ⟨hsame, hst⟩ := flatten_serialize_inj hitems hb (.refl _) (.refl _) hlen hrest
      exact ⟨equals_tup hitems hb hsame, hst⟩
    | _ => simp [serialize] at h
  | mset xs, hxs, b, hb, s, t, h => by
    cases b with
    | mset ys =>
      simp only [serialize, List.cons_append, List.append_assoc, List.cons.injEq, true_and] at h
      obtain ⟨hlen, hrest⟩ := Lib.toDigits_delimited (by decide) h
      have hitems := readsBackItems xs hxs
      have hsort : ∀ l : List KString, (sortStrings l).Perm l := Lib.sortOn_perm utf16
      obtain ⟨hsame, hst⟩ := flatten_serialize_inj hitems hb (hsort _) (hsort _) hlen hrest
      exact ⟨equals_mset hitems hb ((hsort _).symm.trans (hsame ▸ hsort _)), hst⟩
    | _ => simp [serialize] at h
theorem readsBackItems : ∀ xs : List Content, LongsItems xs → ∀ x ∈ xs, ReadsBack x
  | y :: ys, h, x, hx => by
    by_cases he : x = y
    · exact he ▸ readsBack y h.1
    · exact readsBackItems ys h.2 x ((List.mem_cons.mp hx).resolve_left he)
end

/-- `serialize` is injective up to the order of multisets. -/
theorem serialize_inj {a b : Content} (ha : a.Longs) (hb : b.Longs) :
    a.serialize = b.serialize ↔ Equals a b :=
  ⟨(readsBack a ha).equals hb, Equals.serialize⟩

/-- One notion of equality: `==`, `compareTo`, `serialize` and `hashCode` agree, `compareTo` is a total
    order, and the order of a multiset's items does not matter. -/
theorem content_oneEquality (a b c : Content) (ha : a.Longs) (hb : b.Longs) :
    (structuralEquals a b = true ↔ structuralCompareTo a b = .eq) ∧
    (structuralEquals a b = true ↔ a.serialize = b.serialize) ∧
    (structuralEquals a b = true → a.hashCode = b.hashCode) ∧
    structuralCompareTo b a = (structuralCompareTo a b).swap ∧
    (structuralCompareTo a b ≠ .gt → structuralCompareTo b c ≠ .gt →
      structuralCompareTo a c ≠ .gt) ∧
    ∀ xs ys : List Content, xs.Perm ys → structuralEquals (mset xs) (mset ys) = true := by
  simp only [structuralCompareTo_eq, structuralEquals_iff]
  refine ⟨compareTo_eq_zero.symm, (serialize_inj ha hb).symm, Equals.hashCode, structCmp_swap _ _,
    fun hab hbc => le_trans (a := a.canon) (b := b.canon) (c := c.canon) hab hbc,
    fun xs ys h => mset_equals_of_perm (h.map canon)⟩

/-- Two orders of a multiset with a string that looks like the text of another one. -/
theorem content_oneEquality_mset :
    structuralEquals (mset [str ['M', '0', ':'], num (-5)]) (mset [num (-5), str ['M', '0', ':']]) =
      true ∧
    (mset [str ['M', '0', ':'], num (-5)]).serialize =
      (mset [num (-5), str ['M', '0', ':']]).serialize ∧
    (mset [str ['M', '0', ':'], num (-5)]).hashCode =
      (mset [num (-5), str ['M', '0', ':']]).hashCode := by
  have hlong : (num (-5)).Longs := by rw [Longs]; omega
  have h := content_oneEquality (mset [str ['M', '0', ':'], num (-5)])
    (mset [num (-5), str ['M', '0', ':']]) (tup []) ⟨trivial, hlong, trivial⟩
    ⟨hlong, trivial, trivial⟩
  have hequal := h.2.2.2.2.2 _ _ (List.Perm.swap (num (-5)) (str ['M', '0', ':']) [])
  exact ⟨hequal, h.2.1.mp hequal, h.2.2.1 hequal⟩

end Dialysis.Content
