import GraphDialysis.Ahu.ColoredAHU
import GraphDialysis.Lib.FirstUse

/-! The order in which a call of `compute` brings new strings to the pool: that of the vertices. -/

namespace Dialysis.Ahu
open Lib

theorem InternPool.intern_strings {pool : InternPool} {s : KString} {r : ℕ × InternPool}
    (h : pool.intern s = .ok r) : r.2.strings = addNew pool.strings s := by
  rw [intern] at h
  split at h
  · rename_i hs
    cases h
    exact (addNew_of_mem hs).symm
  · rename_i hs
    split at h
    · cases h
      exact (if_neg hs).symm
    · cases h

section
variable {n : ℕ} {keys : List Key} {labels : Fin n → ℤ}

/-- The pool after the loop over the vertices. -/
theorem assignId_strings : ∀ {vs : List (Fin n)} {s s' : Ids n},
    (∀ p ∈ s.sessionToGlobal, canonicalString keys p.1 ∈ s.pool.strings) →
    vs.foldlM (assignId keys labels) s = .ok s' →
    s'.pool.strings = ((vs.filter fun v => 0 ≤ labels v).map fun v =>
      canonicalString keys (labels v)).foldl addNew s.pool.strings
  | [], s, s', _, h => by
    cases h
    rfl
  | v :: vs, s, s', hsession, h => by
    rw [List.foldlM_cons] at h
    obtain ⟨t, ht, h⟩ := bind_ok h
    unfold assignId at ht
    split at ht
    · rename_i hneg
      cases ht
      rw [List.filter_cons_of_neg (by simpa using hneg)]
      exact assignId_strings hsession h
    · rename_i hneg
      rw [List.filter_cons_of_pos (by simpa using hneg), List.map_cons, List.foldl_cons]
      split at ht
      · rename_i id hlook
        cases ht
        rw [addNew_of_mem (hsession _ (lookup_mem hlook))]
        have hrest := assignId_strings (s := { s with vertexIds := Function.update s.vertexIds v (some id) })
          hsession h
        exact hrest
      · obtain ⟨r, hr, ht⟩ := bind_ok ht
        cases ht
        rw [← InternPool.intern_strings hr]
        refine assignId_strings (fun p hp => ?_) h
        dsimp only
        rw [InternPool.intern_strings hr, mem_addNew]
        rcases List.mem_cons.mp hp with rfl | hp
        · exact Or.inr rfl
        · exact Or.inl (hsession p hp)

end

variable {g : Graph} {root : Fin g.n} {d : Fin g.n → ℕ} {colors : Fin g.n → Option KString}
  {pool : InternPool}

/-- On a tree that hangs from its root the strings of all vertices are used, one after another. -/
theorem compute_strings [g.Simple] (h : RootedTree g root d) (hall : ∀ v, Descends g d root v)
    {r : ColoredAHUResult g.n × InternPool} (hr : compute g colors root pool = .ok r) :
    r.2.strings = ((List.finRange g.n).map (subtreeString g d colors)).foldl addNew pool.strings := by
  unfold compute at hr
  obtain ⟨s', hs', hlabelled, hstring⟩ := computeLabels_spec h
  rw [hs'] at hr
  dsimp only at hr
  obtain ⟨ids, hids, hr⟩ := bind_ok hr
  have hpool : r.2 = ids.pool := by
    split at hr
    · cases hr
    · cases hr
      rfl
  have h0 : ∀ v, 0 ≤ s'.labels v := fun v => (hlabelled v).mpr (hall v)
  have hcanon : ∀ v, canonicalString s'.keys (s'.labels v) = subtreeString g d colors v := fun v => by
    rw [canonicalString_eq (h0 v) (hstring v (h0 v)).1, (hstring v (h0 v)).2]
  rw [hpool, assignId_strings (by simp) hids, List.filter_eq_self.mpr fun v _ => by simpa using h0 v]
  simp only [hcanon]

end Dialysis.Ahu
