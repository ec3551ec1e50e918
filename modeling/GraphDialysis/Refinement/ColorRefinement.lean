import GraphDialysis.Content.Content
import GraphDialysis.Decomposition.DecompositionStore
import GraphDialysis.Lib.SortedGroups
import GraphDialysis.Refinement.NativeWL1

/-! `dialysis.refinement.Refinement`: 1-WL on `Content` colours. Colours become compact ints in the
    order of `Content`, the native kernel refines, and its class ids become the new colours. Equal
    contents, not equal representations, are what counts, so statements about given colours are up
    to `Content.Equals`; the stable colours are numbers and are compared as they are. -/

namespace Dialysis.Refinement
open Lib
variable {n : ℕ}

/-- A colour per vertex, and the same vertices grouped into cells in canonical colour order. -/
structure StablePartition (n : ℕ) where
  color : Fin n → Content
  cells : List (List (Fin n))
  decompositionOf : Option (Fin n → Decomposition n)

namespace StablePartition

/-- Number of vertices in non-singleton cells. -/
def pi (p : StablePartition n) : ℕ :=
  ((p.cells.filter fun cell => 1 < cell.length).map List.length).sum

def isDiscrete (p : StablePartition n) : Bool := p.pi = 0

end StablePartition

/-- The distinct colours, sorted. -/
def distinctContents (initial : Fin n → Content) : List Content :=
  (((List.finRange n).map fun v => (initial v).canon).dedup).insertionSort (· ≤ ·)

/-- Arbitrary colours as ints, in the total order of `Content`. -/
def contentsToCompactInts (initial : Fin n → Content) (v : Fin n) : ℤ :=
  (distinctContents initial).idxOf (initial v).canon

/-- The native ids as colours. -/
def numColors (stableInts : Fin n → ℕ) (v : Fin n) : Content := .num (stableInts v)

/-- The classes of the native ids, ascending. -/
def cellsOf (stableInts : Fin n → ℕ) : List (List (Fin n)) :=
  (sortedGroups id stableInts (List.finRange n)).map (·.2)

def stablePartitionFromNativeColors (stableInts : Fin n → ℕ) : StablePartition n where
  color := numColors stableInts
  cells := cellsOf stableInts
  decompositionOf := none

/-- The stable ids of the native kernel. -/
def stableInts (g : Graph) [g.Simple] (initial : Fin g.n → Content) : Fin g.n → ℕ :=
  compute1WLColorsFrom g (contentsToCompactInts initial)

/-- 1-WL colour refinement. -/
def colorRefine1WL (g : Graph) [g.Simple] (initial : Fin g.n → Content) : StablePartition g.n :=
  stablePartitionFromNativeColors (stableInts g initial)

/-- Only the colours of `colorRefine1WL`. -/
def colorRefine1WLColors (g : Graph) [g.Simple] (initial : Fin g.n → Content) : Fin g.n → Content :=
  numColors (stableInts g initial)

/-! ### Compact ints -/

theorem mem_distinctContents {initial : Fin n → Content} {c : Content} :
    c ∈ distinctContents initial ↔ ∃ v, (initial v).canon = c := by
  rw [distinctContents, List.mem_insertionSort, List.mem_dedup, List.mem_map]
  simp

theorem distinctContents_nodup (initial : Fin n → Content) : (distinctContents initial).Nodup :=
  (List.perm_insertionSort _ _).nodup_iff.mpr (List.nodup_dedup _)

/-- Equal ints are equal colours. -/
theorem contentsToCompactInts_inj {initial : Fin n → Content} {u v : Fin n} :
    contentsToCompactInts initial u = contentsToCompactInts initial v ↔
      (initial u).Equals (initial v) := by
  rw [contentsToCompactInts, contentsToCompactInts, Nat.cast_inj]
  exact List.idxOf_inj (mem_distinctContents.mpr ⟨u, rfl⟩)

/-- Colour-isomorphic inputs get the same ints. -/
theorem contentsToCompactInts_iso {m : ℕ} {e : Fin n ≃ Fin m} {initial : Fin n → Content}
    {initial' : Fin m → Content} (h : ∀ v, (initial' (e v)).Equals (initial v)) (v : Fin n) :
    contentsToCompactInts initial' (e v) = contentsToCompactInts initial v := by
  have hset : distinctContents initial' = distinctContents initial := by
    refine sortOn_eq_of_perm Function.injective_id
      ((List.perm_ext_iff_of_nodup (List.nodup_dedup _) (List.nodup_dedup _)).mpr fun c => ?_)
    rw [List.mem_dedup, List.mem_dedup, List.mem_map, List.mem_map]
    constructor
    · rintro ⟨w, -, rfl⟩
      exact ⟨e.symm w, List.mem_finRange _, by rw [← h, e.apply_symm_apply]⟩
    · rintro ⟨w, -, rfl⟩
      exact ⟨e w, List.mem_finRange _, h w⟩
  rw [contentsToCompactInts, contentsToCompactInts, hset, h v]

/-! ### The stable colours -/

section
variable {g h : Graph} [g.Simple] [h.Simple] {initial : Fin g.n → Content}
  {initial' : Fin h.n → Content}

theorem stableInts_coarsest : IsCoarsest g.adj (contentsToCompactInts initial) (stableInts g initial) :=
  compute1WLColorsFrom_spec g _

theorem stableInts_refines {u v : Fin g.n} (huv : stableInts g initial u = stableInts g initial v) :
    (initial u).Equals (initial v) :=
  contentsToCompactInts_inj.mp (stableInts_coarsest.refines u v huv)

/-- Isomorphic inputs are numbered alike. -/
theorem stableInts_iso {e : Fin g.n ≃ Fin h.n} (he : Graph.IsIso g h e)
    (hinit : ∀ v, (initial' (e v)).Equals (initial v)) (v : Fin g.n) :
    stableInts h initial' (e v) = stableInts g initial v :=
  compute1WLColorsFrom_iso he (contentsToCompactInts_iso hinit) v

end

theorem numColors_inj {ids : Fin n → ℕ} {u v : Fin n} :
    numColors ids u = numColors ids v ↔ ids u = ids v := by
  rw [numColors, numColors, Content.num.injEq, Nat.cast_inj]

@[simp] theorem numColors_equals {ids : Fin n → ℕ} {u v : Fin n} :
    (numColors ids u).Equals (numColors ids v) ↔ ids u = ids v := numColors_inj

/-! ### Cells -/

variable {ids : Fin n → ℕ}

theorem mem_cellsOf {cell : List (Fin n)} : cell ∈ cellsOf ids ↔
    ∃ v, cell = (List.finRange n).filter fun w => ids w = ids v := by
  rw [cellsOf, List.mem_map]
  constructor
  · rintro ⟨p, hp, rfl⟩
    obtain ⟨⟨v, -, hv⟩, hp⟩ := mem_sortedGroups.mp hp
    exact ⟨v, by rw [hp, hv]⟩
  · rintro ⟨v, rfl⟩
    exact ⟨(ids v, _), mem_sortedGroups.mpr ⟨⟨v, List.mem_finRange v, rfl⟩, rfl⟩, rfl⟩

/-- A cell is the class of each of its members. -/
theorem mem_cell_iff {cell : List (Fin n)} (hc : cell ∈ cellsOf ids) {v w : Fin n} (hv : v ∈ cell) :
    w ∈ cell ↔ ids w = ids v := by
  obtain ⟨u, rfl⟩ := mem_cellsOf.mp hc
  simp only [List.mem_filter, List.mem_finRange, true_and, decide_eq_true_eq] at hv ⊢
  rw [hv]

theorem exists_cell (ids : Fin n → ℕ) (v : Fin n) : ∃ cell ∈ cellsOf ids, v ∈ cell :=
  ⟨_, mem_cellsOf.mpr ⟨v, rfl⟩, by simp⟩

theorem cell_nodup {cell : List (Fin n)} (hc : cell ∈ cellsOf ids) : cell.Nodup := by
  obtain ⟨v, rfl⟩ := mem_cellsOf.mp hc
  exact (List.nodup_finRange n).filter _

theorem cells_pairwise_disjoint (ids : Fin n → ℕ) : (cellsOf ids).Pairwise List.Disjoint := by
  rw [cellsOf, sortedGroups_eq, List.map_map, List.pairwise_map]
  refine (sortOn_keys_ascending Function.injective_id ids _).imp fun {a b} hab v hva hvb => ?_
  simp only [Function.comp_apply, List.mem_filter, decide_eq_true_eq] at hva hvb
  exact absurd (hva.2.symm.trans hvb.2) (ne_of_lt hab)

/-- Equally numbered inputs have corresponding cells, in the same order. -/
theorem cellsOf_corr {m : ℕ} {ids' : Fin m → ℕ} (e : Fin n ≃ Fin m) (h : ∀ v, ids' (e v) = ids v) :
    List.Forall₂ (fun cell cell' => (cell.map e).Perm cell') (cellsOf ids) (cellsOf ids') := by
  rw [cellsOf, cellsOf, List.forall₂_map_left_iff, List.forall₂_map_right_iff]
  exact sortedGroups_corr e Function.injective_id Function.injective_id
    (map_finRange_perm e) fun x _ y _ => by rw [h, h]

/-- Nothing is left to split exactly when the ids tell all vertices apart. -/
theorem isDiscrete_iff : (stablePartitionFromNativeColors ids).isDiscrete = true ↔
    ∀ cell ∈ cellsOf ids, cell.length ≤ 1 := by
  rw [StablePartition.isDiscrete, decide_eq_true_eq, StablePartition.pi, List.sum_eq_zero_iff]
  simp only [stablePartitionFromNativeColors, List.mem_map, List.mem_filter, decide_eq_true_eq]
  constructor
  · intro h cell hc
    by_contra hlt
    have := h _ ⟨cell, ⟨hc, not_le.mp hlt⟩, rfl⟩
    omega
  · rintro h _ ⟨cell, ⟨hc, hlt⟩, rfl⟩
    exact absurd (h cell hc) (not_le.mpr hlt)

end Dialysis.Refinement
