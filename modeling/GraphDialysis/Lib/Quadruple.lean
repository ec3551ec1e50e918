import Mathlib.Algebra.BigOperators.Ring.Finset
import Mathlib.Algebra.Order.BigOperators.Group.Finset
import Mathlib.Data.Finset.Card
import Mathlib.Tactic.Ring
import Mathlib.Tactic.Linarith

/-! Four triples of which any two share exactly one point, with six points in all: the points are the pairs
    of the triples. So every point lies in exactly two of them (`IsQuad.card_owners`), and the two
    others share a point too, its opposite (`IsQuad.exists_opposite`). -/

namespace Lib
variable {α β : Type*} [DecidableEq β] (N : α → Finset β) (S : Finset α)

structure IsQuad : Prop where
  card : S.card = 4
  three : ∀ x ∈ S, (N x).card = 3
  share : ∀ x ∈ S, ∀ y ∈ S, x ≠ y → (N x ∩ N y).card = 1
  six : (S.biUnion N).card = 6

/-- The triples with the point. -/
def owners (p : β) : Finset α := S.filter fun x => p ∈ N x

/-- The point `q` lies in the triples in which `p` does not. -/
def Opposite (p q : β) : Prop := q ∈ S.biUnion N ∧ ∀ x ∈ S, q ∈ N x ↔ p ∉ N x

variable {N S}

theorem mem_owners {p : β} {x : α} : x ∈ owners N S p ↔ x ∈ S ∧ p ∈ N x := Finset.mem_filter

/-- Counting the incidences by points and by triples. -/
theorem sum_card_owners : ∑ p ∈ S.biUnion N, (owners N S p).card = ∑ x ∈ S, (N x).card := by
  simp only [owners, Finset.card_filter]
  rw [Finset.sum_comm]
  refine Finset.sum_congr rfl fun x hx => ?_
  rw [← Finset.card_filter]
  congr 1
  ext p
  rw [Finset.mem_filter, Finset.mem_biUnion, and_iff_right_iff_imp]
  exact fun hp => ⟨x, hx, hp⟩

/-- Counting the pairs of triples with a common point. -/
theorem sum_card_owners_sq :
    ∑ p ∈ S.biUnion N, (owners N S p).card * (owners N S p).card =
      ∑ x ∈ S, ∑ y ∈ S, (N x ∩ N y).card := by
  have hsq : ∀ p, (owners N S p).card * (owners N S p).card =
      ∑ x ∈ S, ∑ y ∈ S, if p ∈ N x ∧ p ∈ N y then 1 else 0 := by
    intro p
    rw [owners, Finset.card_filter, Finset.sum_mul_sum]
    refine Finset.sum_congr rfl fun x _ => Finset.sum_congr rfl fun y _ => ?_
    by_cases hx : p ∈ N x <;> by_cases hy : p ∈ N y <;> simp [hx, hy]
  simp only [hsq]
  rw [Finset.sum_comm]
  refine Finset.sum_congr rfl fun x hx => ?_
  rw [Finset.sum_comm]
  refine Finset.sum_congr rfl fun y _ => ?_
  rw [← Finset.card_filter]
  congr 1
  ext p
  rw [Finset.mem_filter, Finset.mem_biUnion, Finset.mem_inter, and_iff_right_iff_imp]
  exact fun hp => ⟨x, hx, hp.1⟩

/-- A point is the opposite of its opposite. -/
theorem Opposite.symm {p q : β} (hp : p ∈ S.biUnion N) (hq : Opposite N S p q) :
    Opposite N S q p ∧ q ≠ p := by
  refine ⟨⟨hp, fun x hx => ?_⟩, ?_⟩
  · rw [hq.2 x hx, not_not]
  · rintro rfl
    obtain ⟨x, hx, hpx⟩ := Finset.mem_biUnion.mp hp
    exact (hq.2 x hx).mp hpx hpx

variable [DecidableEq α] (h : IsQuad N S)
include h

/-- Every point lies in exactly two of the triples. -/
theorem IsQuad.card_owners {p : β} (hp : p ∈ S.biUnion N) : (owners N S p).card = 2 := by
  have hsum : ∑ p ∈ S.biUnion N, (owners N S p).card = 12 := by
    rw [sum_card_owners, Finset.sum_congr rfl h.three, Finset.sum_const, h.card]
    rfl
  have hsq : ∑ p ∈ S.biUnion N, (owners N S p).card * (owners N S p).card = 24 := by
    rw [sum_card_owners_sq]
    have hrow : ∀ x ∈ S, ∑ y ∈ S, (N x ∩ N y).card = 6 := by
      intro x hx
      rw [← Finset.add_sum_erase S _ hx, Finset.inter_self, h.three x hx,
        Finset.sum_congr rfl fun y hy => h.share x hx y (Finset.mem_of_mem_erase hy)
          (Finset.ne_of_mem_erase hy).symm, Finset.sum_const, Finset.card_erase_of_mem hx, h.card]
      rfl
    rw [Finset.sum_congr rfl hrow, Finset.sum_const, h.card]
    rfl
  -- the variance of the six numbers of owners is 0
  have hvar : ∑ p ∈ S.biUnion N, (((owners N S p).card : ℤ) - 2) ^ 2 = 0 := by
    have hexp : ∀ p, (((owners N S p).card : ℤ) - 2) ^ 2 =
        ((owners N S p).card * (owners N S p).card : ℕ) - 4 * ((owners N S p).card : ℕ) + 4 := by
      intro p
      push_cast
      ring
    simp only [hexp, Finset.sum_add_distrib, Finset.sum_sub_distrib, ← Finset.mul_sum,
      Finset.sum_const, h.six]
    rw [← Nat.cast_sum, ← Nat.cast_sum, hsum, hsq]
    norm_num
  have hzero := (Finset.sum_eq_zero_iff_of_nonneg fun p _ => sq_nonneg _).mp hvar p hp
  have := pow_eq_zero_iff (two_ne_zero) |>.mp hzero
  omega

/-- The two triples without a point share another one, and no third contains that. -/
theorem IsQuad.exists_opposite {p : β} (hp : p ∈ S.biUnion N) :
    ∃ q, Opposite N S p q ∧ ∀ q', Opposite N S p q' → q' = q := by
  have htwo := h.card_owners hp
  have hrest : (S \ owners N S p).card = 2 := by
    have hsub : owners N S p ⊆ S := Finset.filter_subset _ _
    rw [Finset.card_sdiff_of_subset hsub, htwo, h.card]
  obtain ⟨x, y, hxy, hrest⟩ := Finset.card_eq_two.mp hrest
  have hmem : ∀ z, z ∈ S ∧ p ∉ N z ↔ z = x ∨ z = y := by
    intro z
    have hz : z ∈ S \ owners N S p ↔ z = x ∨ z = y := by
      rw [hrest, Finset.mem_insert, Finset.mem_singleton]
    rw [← hz, Finset.mem_sdiff, mem_owners]
    exact and_congr_right fun hz => by rw [and_iff_right hz]
  obtain ⟨hx, hpx⟩ := (hmem x).mpr (Or.inl rfl)
  obtain ⟨hy, hpy⟩ := (hmem y).mpr (Or.inr rfl)
  obtain ⟨q, hq⟩ := Finset.card_eq_one.mp (h.share x hx y hy hxy)
  have hcommon : ∀ q', q' ∈ N x ∧ q' ∈ N y ↔ q' = q := fun q' => by
    rw [← Finset.mem_inter, hq, Finset.mem_singleton]
  obtain ⟨hqx, hqy⟩ := (hcommon q).mpr rfl
  refine ⟨q, ⟨Finset.mem_biUnion.mpr ⟨x, hx, hqx⟩, fun z hz => ?_⟩, fun q' hq' => ?_⟩
  · -- `q` has two owners, which are `x` and `y`
    have howners : owners N S q = {x, y} := by
      refine (Finset.eq_of_subset_of_card_le ?_ ?_).symm
      · intro z hz
        rw [Finset.mem_insert, Finset.mem_singleton] at hz
        rcases hz with rfl | rfl
        · exact mem_owners.mpr ⟨hx, hqx⟩
        · exact mem_owners.mpr ⟨hy, hqy⟩
      · rw [h.card_owners (Finset.mem_biUnion.mpr ⟨x, hx, hqx⟩), Finset.card_pair hxy]
    have hz' : q ∈ N z ↔ z ∈ owners N S q := by rw [mem_owners, and_iff_right hz]
    rw [hz', howners, Finset.mem_insert, Finset.mem_singleton, ← hmem z, and_iff_right hz]
  · exact (hcommon q').mp ⟨(hq'.2 x hx).mpr hpx, (hq'.2 y hy).mpr hpy⟩

/-- The other triples each share one of the three points of `x` with it. -/
theorem IsQuad.exists_other {x : α} (hx : x ∈ S) {p : β} (hp : p ∈ N x) :
    ∃ y ∈ S, y ≠ x ∧ p ∈ N y ∧ ∀ z ∈ S, z ≠ x → p ∈ N z → z = y := by
  have htwo := h.card_owners (Finset.mem_biUnion.mpr ⟨x, hx, hp⟩)
  have hone : ((owners N S p).erase x).card = 1 := by
    rw [Finset.card_erase_of_mem (mem_owners.mpr ⟨hx, hp⟩), htwo]
  obtain ⟨y, hy⟩ := Finset.card_eq_one.mp hone
  have hmem : ∀ z, z ≠ x ∧ z ∈ S ∧ p ∈ N z ↔ z = y := fun z => by
    rw [← mem_owners, ← Finset.mem_erase, hy, Finset.mem_singleton]
  obtain ⟨hyx, hyS, hpy⟩ := (hmem y).mpr rfl
  exact ⟨y, hyS, hyx, hpy, fun z hz hzx hpz => (hmem z).mp ⟨hzx, hz, hpz⟩⟩

end Lib
