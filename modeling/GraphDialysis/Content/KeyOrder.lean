import GraphDialysis.Content.Content
import GraphDialysis.Lib.LexOrder

/-! How the texts of values are ordered. The text of a tuple or a multiset begins with its size in
    decimal digits, so texts are ordered by the writing of the sizes first and item by item only
    where the sizes are the same (`bySize`); `compareTo` looks at the items first. The orders are
    worked out for numbers, multisets of numbers and multisets of these. -/

namespace Dialysis

/-- Kotlin's `Long`. -/
abbrev Long := { v : ℤ // -2 ^ 63 ≤ v ∧ v < 2 ^ 63 }

namespace Content
open Lib

/-- The multiset of the colours of a component. -/
def component (xs : List Long) : Content := .mset (xs.map fun v => .num v.1)

/-- How a size is written in front of the items. -/
def sizeText (k : ℕ) : List ℕ := utf16 (digits k ++ [':'])

/-- Ordered by the writing of the size, then item by item. -/
def bySize {β : Type*} (l : List β) : List ℕ ×ₗ List β := toLex (sizeText l.length, l)

/-! ### Sizes -/

theorem utf16_append (s t : KString) : utf16 (s ++ t) = utf16 s ++ utf16 t := List.flatMap_append

theorem utf16_cons (c : Char) (s : KString) : utf16 (c :: s) = utf16Units c ++ utf16 s := rfl

theorem utf16_flatten : ∀ L : List KString, utf16 L.flatten = (L.map utf16).flatten
  | [] => rfl
  | s :: L => by rw [List.flatten_cons, utf16_append, utf16_flatten L]; rfl

theorem digit_bounds {c : Char} (h : c.isDigit = true) : 48 ≤ c.toNat ∧ c.toNat ≤ 57 := by
  rw [Char.isDigit_iff_toNat] at h
  exact h

/-- Digits are single code units. -/
theorem utf16_eq_map {s : KString} (hs : ∀ c ∈ s, c.isDigit = true) : utf16 s = s.map Char.toNat := by
  induction s with
  | nil => rfl
  | cons c s ih =>
    have hlt : c.toNat < 0x10000 := by
      have := digit_bounds (hs c List.mem_cons_self)
      omega
    rw [utf16_cons, ih fun d hd => hs d (List.mem_cons_of_mem _ hd), utf16Units, if_pos hlt]
    rfl

theorem isDigit_of_mem_digits {k : ℕ} {c : Char} (h : c ∈ digits k) : c.isDigit = true :=
  Nat.isDigit_of_mem_toDigits (by decide) (by decide) h

/-- The colon ends a size. -/
theorem sizeText_delimited (j k : ℕ) {s t : List ℕ} (h : sizeText j ++ s = sizeText k ++ t) :
    j = k ∧ s = t := by
  have hdigit : ∀ i, ∀ u ∈ utf16 (digits i), u ≠ 58 := by
    intro i u hu
    rw [utf16_eq_map fun c => isDigit_of_mem_digits] at hu
    obtain ⟨c, hc, rfl⟩ := List.mem_map.mp hu
    have := digit_bounds (isDigit_of_mem_digits hc)
    omega
  simp only [sizeText, utf16_append, List.append_assoc] at h
  obtain ⟨hdigits, hst⟩ := delimited_inj (P := fun u : ℕ => u ≠ 58) (d := 58) (by simp) (hdigit j)
    (hdigit k) h
  exact ⟨toDigits_inj (utf16_injective hdigits), hst⟩

theorem sizeText_selfDelimiting (j k : ℕ) : SelfDelimiting (sizeText j) (sizeText k) := by
  intro s t h
  obtain ⟨rfl, hst⟩ := sizeText_delimited j k h
  exact ⟨rfl, hst⟩

theorem sizeText_inj {j k : ℕ} : sizeText j = sizeText k ↔ j = k :=
  ⟨fun h => (sizeText_delimited j k (congrArg (· ++ []) h)).1, fun h => by rw [h]⟩

section
variable {α β γ : Type*} [LinearOrder β] [LinearOrder γ]

theorem bySize_lt_iff (l l' : List β) : bySize l < bySize l' ↔
    sizeText l.length < sizeText l'.length ∨ l.length = l'.length ∧ l < l' := by
  rw [bySize, bySize, Prod.Lex.toLex_lt_toLex, sizeText_inj]

/-- Two ways to compare the items compare the sorted lists alike. -/
theorem bySize_insertionSort_lt_iff {f : α → β} {g : α → γ} (h : ∀ a b, f a < f b ↔ g a < g b)
    (l l' : List α) :
    bySize ((l.map f).insertionSort (· ≤ ·)) < bySize ((l'.map f).insertionSort (· ≤ ·)) ↔
      bySize ((l.map g).insertionSort (· ≤ ·)) < bySize ((l'.map g).insertionSort (· ≤ ·)) := by
  simp only [bySize_lt_iff, List.length_insertionSort, List.length_map,
    insertionSort_map_lt_iff h l l']

theorem bySize_map_lt_iff {f : α → β} {g : α → γ} (h : ∀ a b, f a < f b ↔ g a < g b)
    (l l' : List α) : bySize (l.map f) < bySize (l'.map f) ↔ bySize (l.map g) < bySize (l'.map g) := by
  simp only [bySize_lt_iff, List.length_map, map_lt_map_iff h l l']

end

/-! ### A size and the items after it -/

/-- The texts of the items after their number. -/
def sized (L : List (List ℕ)) : List ℕ := sizeText L.length ++ L.flatten

theorem sized_selfDelimiting {L L' : List (List ℕ)} (h : ∀ p ∈ L, ∀ q ∈ L', SelfDelimiting p q) :
    SelfDelimiting (sized L) (sized L') := by
  intro s t hst
  rw [sized, sized, List.append_assoc, List.append_assoc] at hst
  obtain ⟨hlen, hrest⟩ := sizeText_delimited _ _ hst
  obtain ⟨rfl, hend⟩ := flatten_inj hlen h hrest
  exact ⟨rfl, hend⟩

theorem sized_lt_iff {L L' : List (List ℕ)} (h : ∀ p ∈ L, ∀ q ∈ L', SelfDelimiting p q) :
    sized L < sized L' ↔ bySize L < bySize L' := by
  rw [sized, sized, append_lt_append_iff (sizeText_selfDelimiting _ _), bySize_lt_iff, sizeText_inj]
  exact or_congr_right (and_congr_right fun hlen => flatten_lt_flatten_iff hlen h)

theorem utf16_serialize_tup (items : List Content) : utf16 (tup items).serialize =
    84 :: sized (items.map fun c => utf16 c.serialize) := by
  rw [serialize, serializeItems_eq_map, List.cons_append, utf16_cons, sized, List.length_map,
    ← List.singleton_append (l := (items.map serialize).flatten), ← List.append_assoc, utf16_append,
    utf16_flatten, List.map_map]
  rfl

theorem utf16_serialize_mset (items : List Content) : utf16 (mset items).serialize =
    77 :: sized ((items.map fun c => utf16 c.serialize).insertionSort (· ≤ ·)) := by
  have hsort : (items.map fun c => utf16 c.serialize).insertionSort (· ≤ ·) =
      (sortStrings (items.map serialize)).map utf16 := by
    rw [sortStrings, ← insertionSort_map, List.map_map]
    rfl
  rw [serialize, serializeItems_eq_map, List.cons_append, utf16_cons, hsort, sized, List.length_map,
    sortStrings, (sortOn_perm utf16 _).length_eq, List.length_map,
    ← List.singleton_append (l := (sortOn utf16 (items.map serialize)).flatten),
    ← List.append_assoc, utf16_append, utf16_flatten]
  rfl

/-! ### The order of the texts -/

/-- The text of a number. -/
def numText (v : Long) : List ℕ := utf16 (num v.1).serialize

theorem numText_eq (v : Long) : numText v =
    78 :: (((digits (v.1 + 2 ^ 63).toNat).leftpad 20 '0').map Char.toNat ++ [59]) := by
  have hdigit : ∀ c ∈ (digits (v.1 + 2 ^ 63).toNat).leftpad 20 '0', c.isDigit = true := by
    intro c hc
    rw [List.leftpad, List.mem_append] at hc
    rcases hc with hc | hc
    · rw [List.eq_of_mem_replicate hc]; rfl
    · exact isDigit_of_mem_digits hc
  rw [numText, serialize, List.cons_append, utf16_cons, utf16_append, utf16_eq_map hdigit]
  rfl

theorem length_numDigits (v : Long) :
    (((digits (v.1 + 2 ^ 63).toNat).leftpad 20 '0').map Char.toNat).length = 20 := by
  obtain ⟨hv, hv'⟩ := v.2
  have := (Nat.length_toDigits_le_iff (n := (v.1 + 2 ^ 63).toNat) (k := 20) (by decide : 1 < 10)
    (by decide)).mpr (by omega)
  rw [List.length_map, List.leftpad, List.length_append, List.length_replicate, digits]
  omega

theorem numDigits_selfDelimiting (v w : Long) :
    SelfDelimiting (((digits (v.1 + 2 ^ 63).toNat).leftpad 20 '0').map Char.toNat)
      (((digits (w.1 + 2 ^ 63).toNat).leftpad 20 '0').map Char.toNat) :=
  fun _ _ h => List.append_inj h ((length_numDigits v).trans (length_numDigits w).symm)

/-- Numbers are written in order. -/
theorem numText_lt_iff (v w : Long) : numText v < numText w ↔ v < w := by
  obtain ⟨hv, hv'⟩ := v.2
  obtain ⟨hw, hw'⟩ := w.2
  have hchar : ∀ a b : Char, a.toNat < b.toNat ↔ id a < id b := fun a b =>
    UInt32.lt_iff_toNat_lt.symm
  rw [numText_eq, numText_eq, List.cons_lt_cons_iff,
    append_lt_append_iff (numDigits_selfDelimiting v w), map_lt_map_iff hchar, List.map_id,
    List.map_id, digits, digits, leftpad_lt_iff (by decide) (by omega) (by omega),
    ← Subtype.coe_lt_coe]
  simp only [lt_self_iff_false, and_false, or_false, true_and, false_or]
  omega

theorem numText_selfDelimiting (v w : Long) : SelfDelimiting (numText v) (numText w) := by
  intro s t h
  rw [numText_eq, numText_eq, List.cons_append, List.cons_append, List.append_assoc,
    List.append_assoc] at h
  obtain ⟨hdigits, hrest⟩ := numDigits_selfDelimiting v w _ _ (List.cons.inj h).2
  exact ⟨by rw [numText_eq, numText_eq, hdigits], List.append_cancel_left hrest⟩

/-- Pairs: by their numbers, then by the texts of what follows. -/
theorem pair_text_lt_iff (v w : Long) (a b : Content) :
    utf16 (tup [num v.1, a]).serialize < utf16 (tup [num w.1, b]).serialize ↔
      v < w ∨ v = w ∧ utf16 a.serialize < utf16 b.serialize := by
  have heq : numText v = numText w ↔ v = w := eq_iff_of_lt_iff (f := numText) (g := id) numText_lt_iff v w
  rw [utf16_serialize_tup, utf16_serialize_tup, List.cons_lt_cons_iff, sized, sized,
    append_lt_append_iff (sizeText_selfDelimiting _ _)]
  simp only [List.map_cons, List.map_nil, List.flatten_cons, List.flatten_nil, List.append_nil,
    List.length_cons, List.length_nil, lt_self_iff_false, true_and, false_or]
  rw [← numText, ← numText, append_lt_append_iff (numText_selfDelimiting v w), numText_lt_iff, heq]

/-- Tuples of numbers: by size, then number by number. -/
theorem tup_text_lt_iff (xs ys : List Long) :
    utf16 (tup (xs.map fun v => num v.1)).serialize < utf16 (tup (ys.map fun v => num v.1)).serialize ↔
      bySize xs < bySize ys := by
  have htexts : ∀ l : List Long, ((l.map fun v => num v.1).map fun c => utf16 c.serialize) =
      l.map numText := fun l => by rw [List.map_map]; rfl
  have hdelim : ∀ p ∈ xs.map numText, ∀ q ∈ ys.map numText, SelfDelimiting p q := by
    intro p hp q hq
    obtain ⟨v, -, rfl⟩ := List.mem_map.mp hp
    obtain ⟨w, -, rfl⟩ := List.mem_map.mp hq
    exact numText_selfDelimiting v w
  rw [utf16_serialize_tup, utf16_serialize_tup, htexts, htexts, List.cons_lt_cons_iff,
    sized_lt_iff hdelim, bySize_map_lt_iff (g := id) numText_lt_iff, List.map_id, List.map_id]
  simp

/-- The text of a multiset whose items have these texts. -/
def msetText (texts : List (List ℕ)) : List ℕ := 77 :: sized (texts.insertionSort (· ≤ ·))

section
variable {α β : Type*} [LinearOrder β] {text : α → List ℕ} {rank : α → β}
  (hdelim : ∀ a b, SelfDelimiting (text a) (text b))
include hdelim

theorem sorted_texts_selfDelimiting (l l' : List α) :
    ∀ p ∈ (l.map text).insertionSort (· ≤ ·), ∀ q ∈ (l'.map text).insertionSort (· ≤ ·),
      SelfDelimiting p q := by
  intro p hp q hq
  obtain ⟨a, -, rfl⟩ := List.mem_map.mp ((List.mem_insertionSort _).mp hp)
  obtain ⟨b, -, rfl⟩ := List.mem_map.mp ((List.mem_insertionSort _).mp hq)
  exact hdelim a b

theorem msetText_selfDelimiting (l l' : List α) :
    SelfDelimiting (msetText (l.map text)) (msetText (l'.map text)) := by
  intro s t h
  obtain ⟨hsame, hst⟩ := sized_selfDelimiting (sorted_texts_selfDelimiting hdelim l l') s t
    (List.cons.inj h).2
  exact ⟨congrArg (77 :: ·) hsame, hst⟩

/-- Multisets: by size, then item by item in order. -/
theorem msetText_lt_iff (hlt : ∀ a b, text a < text b ↔ rank a < rank b) (l l' : List α) :
    msetText (l.map text) < msetText (l'.map text) ↔
      bySize ((l.map rank).insertionSort (· ≤ ·)) < bySize ((l'.map rank).insertionSort (· ≤ ·)) := by
  rw [msetText, msetText, List.cons_lt_cons_iff,
    sized_lt_iff (sorted_texts_selfDelimiting hdelim l l'), bySize_insertionSort_lt_iff hlt]
  simp

end

/-- The text of a component. -/
def componentText (xs : List Long) : List ℕ := msetText (xs.map numText)

theorem utf16_serialize_component (xs : List Long) :
    utf16 (component xs).serialize = componentText xs := by
  rw [component, utf16_serialize_mset, List.map_map]
  rfl

theorem utf16_serialize_components (xss : List (List Long)) :
    utf16 (mset (xss.map component)).serialize = msetText (xss.map componentText) := by
  rw [utf16_serialize_mset, List.map_map]
  simp only [Function.comp_def, utf16_serialize_component]
  rfl

theorem componentText_lt_iff (xs ys : List Long) : componentText xs < componentText ys ↔
    bySize (xs.insertionSort (· ≤ ·)) < bySize (ys.insertionSort (· ≤ ·)) := by
  have hlt : ∀ v w : Long, numText v < numText w ↔ id v < id w := numText_lt_iff
  have h := msetText_lt_iff numText_selfDelimiting hlt xs ys
  rwa [List.map_id, List.map_id] at h

/-- Multisets of components: by size, and the components in the order of their texts. -/
theorem components_text_lt_iff (xss yss : List (List Long)) :
    utf16 (mset (xss.map component)).serialize < utf16 (mset (yss.map component)).serialize ↔
      bySize ((xss.map fun xs => bySize (xs.insertionSort (· ≤ ·))).insertionSort (· ≤ ·)) <
        bySize ((yss.map fun ys => bySize (ys.insertionSort (· ≤ ·))).insertionSort (· ≤ ·)) := by
  rw [utf16_serialize_components, utf16_serialize_components]
  exact msetText_lt_iff (msetText_selfDelimiting numText_selfDelimiting) componentText_lt_iff _ _

/-! ### The structural order -/

theorem structCmpItems_lt_iff : ∀ xs ys : List Content, structCmpItems xs ys = .lt ↔ xs < ys
  | [], [] => by simp [structCmpItems]
  | [], _ :: _ => by simp [structCmpItems]
  | _ :: _, [] => by simp [structCmpItems]
  | x :: xs, y :: ys => by
    rw [structCmpItems, Ordering.then_eq_lt, structCmp_eq, structCmpItems_lt_iff xs ys,
      List.cons_lt_cons_iff]
    exact Iff.rfl

theorem num_lt_iff (v w : Long) : num v.1 < num w.1 ↔ v < w := cmp_eq_lt_iff (v.1) (w.1)

theorem tup_lt_iff (xs ys : List Content) : tup xs < tup ys ↔ xs < ys := structCmpItems_lt_iff xs ys

theorem mset_lt_iff (xs ys : List Content) : mset xs < mset ys ↔ xs < ys := structCmpItems_lt_iff xs ys

theorem canon_mset (items : List Content) :
    (mset items).canon = mset ((items.map canon).insertionSort (· ≤ ·)) := by
  rw [canon, canonItems_eq_map]

theorem canon_component (xs : List Long) :
    (component xs).canon = mset ((xs.map fun v => num v.1).insertionSort (· ≤ ·)) := by
  rw [component, canon_mset, List.map_map]
  rfl

theorem canon_tup_lt_iff (xs ys : List Long) :
    (tup (xs.map fun v => num v.1)).canon < (tup (ys.map fun v => num v.1)).canon ↔ xs < ys := by
  have hitems : ∀ l : List Long, (l.map fun v => num v.1).map canon = l.map fun v => num v.1 :=
    fun l => by rw [List.map_map]; rfl
  rw [canon_tup, canon_tup, hitems, hitems, tup_lt_iff, map_lt_map_iff (g := id) num_lt_iff,
    List.map_id, List.map_id]

theorem canon_component_lt_iff (xs ys : List Long) : (component xs).canon < (component ys).canon ↔
    xs.insertionSort (· ≤ ·) < ys.insertionSort (· ≤ ·) := by
  rw [canon_component, canon_component, mset_lt_iff,
    insertionSort_map_lt_iff (g := id) num_lt_iff, List.map_id, List.map_id]

/-- Multisets of components, as `compareTo` orders them. -/
theorem canon_components_lt_iff (xss yss : List (List Long)) :
    (mset (xss.map component)).canon < (mset (yss.map component)).canon ↔
      (xss.map fun xs => xs.insertionSort (· ≤ ·)).insertionSort (· ≤ ·) <
        (yss.map fun ys => ys.insertionSort (· ≤ ·)).insertionSort (· ≤ ·) := by
  rw [canon_mset, canon_mset, mset_lt_iff, List.map_map, List.map_map]
  exact insertionSort_map_lt_iff canon_component_lt_iff xss yss

end Content

end Dialysis
