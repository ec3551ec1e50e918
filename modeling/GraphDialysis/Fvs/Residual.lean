import GraphDialysis.Fvs.IsForest
import Mathlib.Algebra.Order.Ring.Rat

/-! The mutable state of `FeedbackVertexSet.compute`: which vertices are still there, their
    neighbours, their weights, and the stack of vertices taken so far. The weights are rationals and
    not doubles. `Mirrors` says that the neighbour sets are those of the graph on the vertices that
    are there; `Intact` says that taking vertices is the only way to lose a core, which is what
    makes `cleanup` harmless. `cleanup_spec`: it ends, and leaves degrees of at least two. -/

namespace Dialysis.Fvs
open Lib Dialysis.Graph

structure FvsState (n : ℕ) where
  weight : Fin n → ℚ
  alive : Fin n → Bool
  adj : Fin n → List (Fin n)
  fvsOrder : List (Fin n)

namespace FvsState
variable {n : ℕ}

def degree (s : FvsState n) (v : Fin n) : ℕ := (s.adj v).length

/-- `v` goes, out of the sets of its neighbours as well. -/
def detach (s : FvsState n) (v : Fin n) : FvsState n :=
  { s with
    alive := Function.update s.alive v false
    adj := fun w => if w = v then [] else if w ∈ s.adj v then (s.adj w).erase v else s.adj w }

/-- `v` goes, onto the stack. -/
def take (s : FvsState n) (v : Fin n) : FvsState n :=
  { s.detach v with fvsOrder := s.fvsOrder ++ [v] }

/-- `alive[v] && weight[v] <= 0`. -/
def spent (s : FvsState n) (v : Fin n) : Bool := s.alive v && s.weight v ≤ 0

/-- The vertices that are still there. -/
def aliveSet (s : FvsState n) : Finset (Fin n) := Finset.univ.filter fun v => s.alive v = true

theorem mem_aliveSet {s : FvsState n} {v : Fin n} : v ∈ s.aliveSet ↔ s.alive v = true := by
  simp [aliveSet]

@[simp] theorem weight_detach (s : FvsState n) (v : Fin n) : (s.detach v).weight = s.weight := rfl

@[simp] theorem fvsOrder_detach (s : FvsState n) (v : Fin n) :
    (s.detach v).fvsOrder = s.fvsOrder := rfl

@[simp] theorem weight_take (s : FvsState n) (v : Fin n) : (s.take v).weight = s.weight := rfl

@[simp] theorem fvsOrder_take (s : FvsState n) (v : Fin n) :
    (s.take v).fvsOrder = s.fvsOrder ++ [v] := rfl

@[simp] theorem alive_take_self (s : FvsState n) (v : Fin n) : (s.take v).alive v = false :=
  Function.update_self _ _ _

theorem alive_take_of_ne (s : FvsState n) {v w : Fin n} (h : w ≠ v) :
    (s.take v).alive w = s.alive w := Function.update_of_ne h _ _

theorem spent_iff {s : FvsState n} {v : Fin n} :
    s.spent v = true ↔ s.alive v = true ∧ s.weight v ≤ 0 := by
  simp [spent]

theorem aliveSet_detach (s : FvsState n) (v : Fin n) :
    (s.detach v).aliveSet = s.aliveSet.erase v := by
  ext w
  rw [mem_aliveSet, Finset.mem_erase, mem_aliveSet, detach]
  rcases eq_or_ne w v with rfl | hne
  · simp
  · simp [hne]

end FvsState

/-- The queue of `cleanup`; the first argument bounds the number of pops. -/
def cleanupLoop {n : ℕ} : ℕ → FvsState n → List (Fin n) → Except String (FvsState n)
  | _, s, [] => .ok s
  | 0, _, _ :: _ => .error "more pops than the queue can hold"
  | k + 1, s, v :: queue =>
    if !s.alive v || 1 < s.degree v then cleanupLoop k s queue
    else
      let t := s.detach v
      cleanupLoop k t (queue ++ (s.adj v).filter fun w => t.alive w && t.degree w ≤ 1)

/-- Removes vertices of degree at most one until there are none. -/
def cleanup {n : ℕ} (s : FvsState n) : Except String (FvsState n) :=
  cleanupLoop (2 * n) s ((List.finRange n).filter fun v => s.alive v && s.degree v ≤ 1)

variable {g : Graph} [g.Simple] {s t : FvsState g.n} {v w : Fin g.n}

/-- The neighbour sets are those of the graph on the vertices that are there. -/
structure Mirrors (g : Graph) (s : FvsState g.n) : Prop where
  mem : ∀ v w, w ∈ s.adj v ↔ s.alive v = true ∧ s.alive w = true ∧ w ∈ g.adj v
  nodup : ∀ v, (s.adj v).Nodup

/-- Every core that no taken vertex is on is still there. -/
def Intact (g : Graph) [g.Simple] (s : FvsState g.n) : Prop :=
  ∀ S, IsCore g.simpleGraph S → (∀ v ∈ S, v ∉ s.fvsOrder) → S ⊆ s.aliveSet

namespace Mirrors

omit [g.Simple] in
theorem alive_of_mem (h : Mirrors g s) (hw : w ∈ s.adj v) : s.alive v = true ∧ s.alive w = true :=
  ⟨((h.mem v w).mp hw).1, ((h.mem v w).mp hw).2.1⟩

theorem symm (h : Mirrors g s) (hw : w ∈ s.adj v) : v ∈ s.adj w := by
  obtain ⟨hv, hw, hadj⟩ := (h.mem v w).mp hw
  exact (h.mem w v).mpr ⟨hw, hv, Graph.Simple.symm hadj⟩

theorem ne (h : Mirrors g s) (hw : w ∈ s.adj v) : w ≠ v := by
  rintro rfl
  exact Graph.Simple.irrefl w ((h.mem w w).mp hw).2.2

theorem mem_iff (h : Mirrors g s) (hv : s.alive v = true) :
    w ∈ s.adj v ↔ w ∈ s.aliveSet ∧ g.simpleGraph.Adj v w := by
  rw [h.mem, FvsState.mem_aliveSet]
  exact ⟨fun ⟨_, hw, hadj⟩ => ⟨hw, hadj⟩, fun ⟨hw, hadj⟩ => ⟨hv, hw, hadj⟩⟩

/-- The size of a set is the degree among the vertices that are there. -/
theorem degree_eq (h : Mirrors g s) (hv : s.alive v = true) :
    s.degree v = degreeIn g.simpleGraph s.aliveSet v := by
  rw [FvsState.degree, ← List.toFinset_card_of_nodup (h.nodup v), degreeIn]
  congr 1
  ext w
  rw [List.mem_toFinset, h.mem_iff hv, Finset.mem_filter]

theorem detach (h : Mirrors g s) (v : Fin g.n) : Mirrors g (s.detach v) := by
  refine ⟨fun a b => ?_, fun a => ?_⟩
  · simp only [FvsState.detach]
    rcases eq_or_ne a v with rfl | ha
    · simp
    · rw [if_neg ha, Function.update_of_ne ha]
      rcases eq_or_ne b v with rfl | hb
      · -- whether or not `a` was a neighbour, `b` is not in its set any more
        rw [Function.update_self]
        refine ⟨fun hb => ?_, fun hb => by simp at hb⟩
        split at hb
        · exact absurd hb (List.Nodup.not_mem_erase (h.nodup a))
        · rename_i hn
          exact absurd (h.symm hb) hn
      · rw [Function.update_of_ne hb, ← h.mem a b]
        split
        · exact List.mem_erase_of_ne hb
        · rfl
  · simp only [FvsState.detach]
    split
    · exact List.nodup_nil
    · split
      · exact (h.nodup a).erase v
      · exact h.nodup a

theorem take (h : Mirrors g s) (v : Fin g.n) : Mirrors g (s.take v) :=
  ⟨(h.detach v).mem, (h.detach v).nodup⟩

end Mirrors

/-! ### Cores survive -/

/-- A vertex with at most one neighbour left is on no core. -/
theorem Intact.clean (hs : Intact g s) (hm : Mirrors g s) (hv : s.alive v = true)
    (hdeg : s.degree v ≤ 1) : Intact g (s.detach v) := by
  intro S hcore hS
  have hsub := hs S hcore hS
  rw [FvsState.aliveSet_detach]
  refine Finset.subset_erase.mpr ⟨hsub, fun hvS => ?_⟩
  have htwo := hcore.two_le v hvS
  have hle := degreeIn_mono (G := g.simpleGraph) hsub v
  rw [hm.degree_eq hv] at hdeg
  omega

/-- Taking a vertex. -/
theorem Intact.take (hs : Intact g s) (v : Fin g.n) : Intact g (s.take v) := by
  intro S hcore hS
  have hsub := hs S hcore fun u hu huo => hS u hu (List.mem_append_left _ huo)
  refine (Finset.subset_erase.mpr ⟨hsub, fun hvS => ?_⟩).trans (FvsState.aliveSet_detach s v).ge
  exact hS v hvS (by simp)

/-! ### Cleaning up -/

/-- Everything `cleanup` keeps: it only removes vertices that are on no core. -/
structure Cleans (g : Graph) [g.Simple] (s t : FvsState g.n) : Prop where
  weight : t.weight = s.weight
  fvsOrder : t.fvsOrder = s.fvsOrder
  alive : t.aliveSet ⊆ s.aliveSet
  mirrors : Mirrors g t
  intact : Intact g t
  clean : ∀ v, t.alive v = true → 2 ≤ t.degree v

/-- The queue holds every vertex that has to go. -/
theorem cleanupLoop_spec : ∀ (k : ℕ) (s : FvsState g.n) (queue : List (Fin g.n)),
    Mirrors g s → Intact g s → (∀ v, s.alive v = true → s.degree v ≤ 1 → v ∈ queue) →
      queue.length + s.aliveSet.card ≤ k → ∃ t, cleanupLoop k s queue = .ok t ∧ Cleans g s t
  | k, s, [], hm, hi, hq, _ => by
    refine ⟨s, by cases k <;> rfl, rfl, rfl, Finset.Subset.refl _, hm, hi, fun v hv => ?_⟩
    by_contra hlt
    have := hq v hv (by omega)
    cases this
  | 0, s, v :: queue, _, _, _, hk => by simp at hk
  | k + 1, s, v :: queue, hm, hi, hq, hk => by
    rw [cleanupLoop]
    rw [List.length_cons] at hk
    split
    · rename_i hskip
      refine cleanupLoop_spec k s queue hm hi (fun w hw hdeg => ?_) (by omega)
      refine (List.mem_cons.mp (hq w hw hdeg)).resolve_left ?_
      rintro rfl
      simp only [Bool.or_eq_true, Bool.not_eq_true', decide_eq_true_eq] at hskip
      rcases hskip with hskip | hskip
      · rw [hw] at hskip; cases hskip
      · omega
    · rename_i hskip
      obtain ⟨hv, hdeg⟩ : s.alive v = true ∧ s.degree v ≤ 1 := by
        simpa using hskip
      dsimp only
      have hadded : ((s.adj v).filter fun w =>
          (s.detach v).alive w && (s.detach v).degree w ≤ 1).length ≤ 1 :=
        (List.length_filter_le _ _).trans hdeg
      have hcard : (s.detach v).aliveSet.card + 1 = s.aliveSet.card := by
        rw [FvsState.aliveSet_detach]
        exact Finset.card_erase_add_one (FvsState.mem_aliveSet.mpr hv)
      -- only the degrees of the neighbours have changed
      have hq' : ∀ w, (s.detach v).alive w = true → (s.detach v).degree w ≤ 1 →
          w ∈ queue ++ (s.adj v).filter fun w =>
            (s.detach v).alive w && (s.detach v).degree w ≤ 1 := by
        intro w hw hdegw
        have hne : w ≠ v := by
          rintro rfl
          simp [FvsState.detach] at hw
        by_cases hadj : w ∈ s.adj v
        · exact List.mem_append_right _ (List.mem_filter.mpr ⟨hadj, by simp [hw, hdegw]⟩)
        · have hsame : (s.detach v).degree w = s.degree w := by
            simp [FvsState.degree, FvsState.detach, hne, hadj]
          have halive : s.alive w = true := by
            simpa [FvsState.detach, hne] using hw
          exact List.mem_append_left _
            ((List.mem_cons.mp (hq w halive (by omega))).resolve_left hne)
      obtain ⟨t, ht, hc⟩ := cleanupLoop_spec k (s.detach v) _ (hm.detach v) (hi.clean hm hv hdeg)
        hq' (by rw [List.length_append]; omega)
      refine ⟨t, ht, hc.weight, hc.fvsOrder, hc.alive.trans ?_, hc.mirrors, hc.intact, hc.clean⟩
      rw [FvsState.aliveSet_detach]
      exact Finset.erase_subset _ _

/-- `cleanup` ends, and afterwards no degree is below two. -/
theorem cleanup_spec (hm : Mirrors g s) (hi : Intact g s) :
    ∃ t, cleanup s = .ok t ∧ Cleans g s t := by
  refine cleanupLoop_spec (2 * g.n) s _ hm hi (fun v hv hdeg => ?_) ?_
  · exact List.mem_filter.mpr ⟨List.mem_finRange v, by simp [hv, hdeg]⟩
  · have hlen := List.length_filter_le (fun v => s.alive v && decide (s.degree v ≤ 1))
      (List.finRange g.n)
    have hcard := Finset.card_le_univ s.aliveSet
    rw [List.length_finRange] at hlen
    rw [Fintype.card_fin] at hcard
    omega

end Dialysis.Fvs
