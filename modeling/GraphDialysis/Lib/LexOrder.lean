import GraphDialysis.Lib.PrefixCode
import GraphDialysis.Lib.SortOn
import Mathlib.Data.Char
import Mathlib.Data.List.Lex
import Mathlib.Data.Prod.Lex
import Mathlib.Algebra.Ring.Nat

/-! The dictionary order of lists. Texts that tell where they end decide the order of what they begin
    (`append_lt_append_iff`), so concatenations of equally many of them are ordered as the lists of
    the texts are (`flatten_lt_flatten_iff`), and numbers padded to a fixed width as the numbers are
    (`leftpad_lt_iff`). Two ascending lists are ordered by the first element of which they do not
    hold equally many (`ascending_lt_iff`). -/

namespace Lib

/-! ### Texts one after another -/

section
variable {α : Type*} [LinearOrder α]

/-- What follows matters only when the texts are the same. -/
theorem append_lt_append_iff : ∀ {p q : List α}, SelfDelimiting p q → ∀ s t : List α,
    p ++ s < q ++ t ↔ p < q ∨ p = q ∧ s < t
  | [], [], _, s, t => by simp
  | [], b :: q, h, _, _ => absurd (h (b :: q) [] (by simp)).1 (by simp)
  | a :: p, [], h, _, _ => absurd (h [] (a :: p) (by simp)).1 (by simp)
  | a :: p, b :: q, h, s, t => by
    rw [List.cons_append, List.cons_append, List.cons_lt_cons_iff, List.cons_lt_cons_iff]
    rcases eq_or_ne a b with rfl | hab
    · have htail : SelfDelimiting p q := fun s t hst => by
        obtain ⟨hpq, hrest⟩ := h s t (by rw [List.cons_append, hst, List.cons_append])
        exact ⟨(List.cons.inj hpq).2, hrest⟩
      simp [append_lt_append_iff htail s t]
    · simp [hab]

theorem flatten_lt_flatten_iff : ∀ {L L' : List (List α)}, L.length = L'.length →
    (∀ p ∈ L, ∀ q ∈ L', SelfDelimiting p q) → (L.flatten < L'.flatten ↔ L < L')
  | [], [], _, _ => by simp
  | p :: L, q :: L', hlen, h => by
    have hlen' : L.length = L'.length := by simpa using hlen
    have ih := flatten_lt_flatten_iff hlen' fun p' hp q' hq =>
      h p' (List.mem_cons_of_mem _ hp) q' (List.mem_cons_of_mem _ hq)
    rw [List.flatten_cons, List.flatten_cons, List.cons_lt_cons_iff, ← ih]
    exact append_lt_append_iff (h p List.mem_cons_self q List.mem_cons_self) _ _

end

/-! ### Images of lists -/

section
variable {α β γ : Type*} [LinearOrder β] [LinearOrder γ] {f : α → β} {g : α → γ}

theorem eq_iff_of_lt_iff (h : ∀ a b, f a < f b ↔ g a < g b) (a b : α) : f a = f b ↔ g a = g b := by
  rw [le_antisymm_iff, le_antisymm_iff, ← not_lt, ← not_lt, h, h, not_lt, not_lt]

/-- Two ways to compare the elements compare the lists alike. -/
theorem map_lt_map_iff (h : ∀ a b, f a < f b ↔ g a < g b) : ∀ l l' : List α,
    l.map f < l'.map f ↔ l.map g < l'.map g
  | [], [] => by simp
  | [], _ :: _ => by simp
  | _ :: _, [] => by simp
  | a :: l, b :: l' => by
    rw [List.map_cons, List.map_cons, List.map_cons, List.map_cons, List.cons_lt_cons_iff,
      List.cons_lt_cons_iff, h, eq_iff_of_lt_iff h, map_lt_map_iff h l l']

/-- Sorting the images is sorting by the images. -/
theorem insertionSort_map (f : α → β) (l : List α) :
    (l.map f).insertionSort (· ≤ ·) = (sortOn f l).map f :=
  (List.map_insertionSort (fun a b => f a ≤ f b) (· ≤ ·) f l fun _ _ _ _ => Iff.rfl).symm

theorem sortOn_congr (h : ∀ a b, f a < f b ↔ g a < g b) (l : List α) : sortOn f l = sortOn g l := by
  have hle : ∀ a b, f a ≤ f b ↔ g a ≤ g b := fun a b => by rw [← not_lt, ← not_lt, h]
  rw [sortOn, sortOn]
  simp only [hle]

/-- Two ways to compare the elements compare the sorted lists alike. -/
theorem insertionSort_map_lt_iff (h : ∀ a b, f a < f b ↔ g a < g b) (l l' : List α) :
    (l.map f).insertionSort (· ≤ ·) < (l'.map f).insertionSort (· ≤ ·) ↔
      (l.map g).insertionSort (· ≤ ·) < (l'.map g).insertionSort (· ≤ ·) := by
  rw [insertionSort_map, insertionSort_map, insertionSort_map, insertionSort_map, sortOn_congr h,
    sortOn_congr h]
  exact map_lt_map_iff h _ _

end

/-! ### Padded numbers -/

theorem leftpad_succ {w : ℕ} (hw : 0 < w) (k : ℕ) : (Nat.toDigits 10 k).leftpad (w + 1) '0' =
    (Nat.toDigits 10 (k / 10)).leftpad w '0' ++ [Nat.digitChar (k % 10)] := by
  rcases lt_or_ge k 10 with hk | hk
  · obtain ⟨w, rfl⟩ := Nat.exists_eq_succ_of_ne_zero hw.ne'
    rw [Nat.toDigits_of_lt_base hk, Nat.div_eq_of_lt hk, Nat.mod_eq_of_lt hk]
    simp [List.leftpad, List.replicate_succ']
  · rw [Nat.toDigits_of_base_le (by decide) hk]
    simp [List.leftpad]

theorem digitChar_lt_iff {a b : ℕ} (ha : a < 10) (hb : b < 10) :
    Nat.digitChar a < Nat.digitChar b ↔ a < b := by
  have hall : ∀ a < 10, ∀ b < 10, Nat.digitChar a < Nat.digitChar b ↔ a < b := by decide
  exact hall a ha b hb

/-- Numbers padded to one width are ordered as texts as they are ordered as numbers. -/
theorem leftpad_lt_iff : ∀ {w j k : ℕ}, 0 < w → j < 10 ^ w → k < 10 ^ w →
    ((Nat.toDigits 10 j).leftpad w '0' < (Nat.toDigits 10 k).leftpad w '0' ↔ j < k)
  | 1, j, k, _, hj, hk => by
    rw [Nat.pow_one] at hj hk
    rw [Nat.toDigits_of_lt_base hj, Nat.toDigits_of_lt_base hk]
    simpa [List.leftpad, List.cons_lt_cons_iff] using digitChar_lt_iff hj hk
  | w + 2, j, k, _, hj, hk => by
    have hj' : j / 10 < 10 ^ (w + 1) := by rw [Nat.pow_succ] at hj; omega
    have hk' : k / 10 < 10 ^ (w + 1) := by rw [Nat.pow_succ] at hk; omega
    rw [leftpad_succ w.succ_pos, leftpad_succ w.succ_pos, append_lt_append_iff fun s t h => by
        obtain ⟨hjk, hst⟩ := leftpad_delimited w.succ_pos hj' hk' h
        exact ⟨by rw [hjk], hst⟩,
      leftpad_lt_iff w.succ_pos hj' hk', List.cons_lt_cons_iff,
      digitChar_lt_iff (Nat.mod_lt _ (by decide)) (Nat.mod_lt _ (by decide))]
    have hsame : (Nat.toDigits 10 (j / 10)).leftpad (w + 1) '0' =
        (Nat.toDigits 10 (k / 10)).leftpad (w + 1) '0' ↔ j / 10 = k / 10 :=
      ⟨fun h => (leftpad_delimited w.succ_pos hj' hk' (congrArg (· ++ []) h)).1, fun h => by rw [h]⟩
    rw [hsame]
    simp only [List.not_lt_nil, and_false, or_false]
    omega

/-! ### Ascending lists -/

section
variable {β : Type*} [LinearOrder β]

/-- The first element of which the two lists do not hold equally many is one of `xs`, and `ys` goes on
    after it; or it is one of `ys`, and `xs` ends there. -/
def Precedes (xs ys : List β) : Prop :=
  ∃ c, (∀ d < c, xs.count d = ys.count d) ∧
    (ys.count c < xs.count c ∧ (∃ d ∈ ys, c < d) ∨ xs.count c < ys.count c ∧ ∀ d ∈ xs, d ≤ c)

theorem precedes_congr {xs xs' ys ys' : List β} (hx : xs.Perm xs') (hy : ys.Perm ys') :
    Precedes xs ys ↔ Precedes xs' ys' := by
  simp only [Precedes, hx.count_eq, hy.count_eq, hx.mem_iff, hy.mem_iff]

theorem precedes_cons {a : β} {xs ys : List β} (hx : ∀ x ∈ xs, a ≤ x) (hy : ∀ y ∈ ys, a ≤ y) :
    Precedes (a :: xs) (a :: ys) ↔ Precedes xs ys := by
  rw [Precedes, Precedes]
  refine exists_congr fun c => ?_
  simp only [List.count_cons, Nat.add_right_cancel_iff, Nat.add_lt_add_iff_right]
  refine and_congr_right fun _ => or_congr (and_congr_right fun hc => ?_)
    (and_congr_right fun hc => ?_)
  · have hac : a ≤ c := hx c (List.count_pos_iff.mp (by omega))
    simp [not_lt.mpr hac]
  · have hac : a ≤ c := hy c (List.count_pos_iff.mp (by omega))
    simp [hac]

/-- Ascending lists are ordered by the first element that makes a difference. -/
theorem ascending_lt_iff : ∀ {xs ys : List β}, xs.Pairwise (· ≤ ·) → ys.Pairwise (· ≤ ·) →
    (xs < ys ↔ Precedes xs ys)
  | [], [], _, _ => by simp [Precedes]
  | x :: xs, [], _, _ => by simp [Precedes]
  | [], y :: ys, _, hys => by
    rw [List.pairwise_cons] at hys
    refine iff_of_true (List.nil_lt_cons _ _) ⟨y, fun d hd => ?_, Or.inr ⟨by simp, by simp⟩⟩
    refine (List.count_eq_zero.mpr fun hmem => ?_).symm
    rcases List.mem_cons.mp hmem with rfl | hmem
    · exact lt_irrefl _ hd
    · exact absurd (hys.1 d hmem) (not_le.mpr hd)
  | x :: xs, y :: ys, hxs, hys => by
    rw [List.pairwise_cons] at hxs hys
    have hmin : ∀ {a b : β} {l : List β}, a < b → (∀ z ∈ l, b ≤ z) → (b :: l).count a = 0 :=
      fun hab hl => List.count_eq_zero.mpr fun hmem => by
        rcases List.mem_cons.mp hmem with rfl | hmem
        · exact lt_irrefl _ hab
        · exact absurd (hl _ hmem) (not_le.mpr hab)
    rw [List.cons_lt_cons_iff]
    rcases lt_trichotomy x y with hxy | rfl | hxy
    · refine iff_of_true (Or.inl hxy) ⟨x, fun d hd => ?_, Or.inl ⟨?_, y, by simp, hxy⟩⟩
      · rw [hmin hd hxs.1, hmin (hd.trans hxy) hys.1]
      · rw [hmin hxy hys.1]
        simp
    · rw [precedes_cons hxs.1 hys.1, ← ascending_lt_iff hxs.2 hys.2]
      simp
    · refine iff_of_false (by simp [hxy.not_gt, hxy.ne']) ?_
      rintro ⟨c, hbelow, hc⟩
      rcases lt_trichotomy c y with hcy | rfl | hcy
      · rw [hmin hcy hys.1, hmin (hcy.trans hxy) hxs.1] at hc
        simp at hc
      · rcases hc with ⟨hc, -⟩ | ⟨-, hc⟩
        · rw [hmin hxy hxs.1] at hc
          omega
        · exact absurd (hc x List.mem_cons_self) (not_le.mpr hxy)
      · have := hbelow y hcy
        rw [hmin hxy hxs.1, List.count_cons_self] at this
        omega

theorem insertionSort_lt_iff (xs ys : List β) :
    xs.insertionSort (· ≤ ·) < ys.insertionSort (· ≤ ·) ↔ Precedes xs ys := by
  rw [ascending_lt_iff (List.pairwise_insertionSort _ _) (List.pairwise_insertionSort _ _)]
  exact precedes_congr (List.perm_insertionSort _ _) (List.perm_insertionSort _ _)

end

end Lib
