import GraphDialysis.Lib.Components
import Mathlib.Algebra.BigOperators.Group.Finset.Basic

/-! Connected components by depth-first search with a stack. A vertex may lie on the stack several times;
    when it is popped again it is passed over. `dfs_spec` says that the search finds exactly what can
    be reached, and `dfsComponents_spec` that it finds the same components as breadth-first search. -/

namespace Lib.Bfs
open scoped BigOperators
variable {V : Type*} [DecidableEq V] (adj : V → List V)

/-- Pop until the stack is empty (or the fuel is used up). -/
def dfs : ℕ → List V → List V → List V
  | 0, comp, _ => comp
  | _ + 1, comp, [] => comp
  | k + 1, comp, v :: stack =>
    if v ∈ comp then dfs k comp stack
    else dfs k (comp ++ [v]) (((adj v).filter fun u => u ∉ comp ++ [v]).reverse ++ stack)

/-- A search from every start that has not been visited. -/
def dfsComponents (k : ℕ) (starts : List V) : List (List V) :=
  starts.foldl (fun cs start => if start ∈ cs.flatten then cs else cs ++ [dfs adj k [] [start]]) []

/-- What holds at every pop of the search from `r`. -/
structure DfsInv (r : V) (comp stack : List V) : Prop where
  nodup : comp.Nodup
  root : r ∈ comp ∨ r ∈ stack
  found : ∀ v ∈ comp, Reach adj r v
  waiting : ∀ v ∈ stack, Reach adj r v
  closed : ∀ v ∈ comp, ∀ w ∈ adj v, w ∈ comp ∨ w ∈ stack

variable {adj} {r v : V} {comp stack : List V}

omit [DecidableEq V] in
theorem DfsInv.skip (h : DfsInv adj r comp (v :: stack)) (hv : v ∈ comp) : DfsInv adj r comp stack := by
  have hmoves : ∀ w, w ∈ comp ∨ w ∈ v :: stack → w ∈ comp ∨ w ∈ stack := by
    rintro w (hw | hw)
    · exact Or.inl hw
    · rcases List.mem_cons.mp hw with rfl | hw
      · exact Or.inl hv
      · exact Or.inr hw
  exact ⟨h.nodup, hmoves r h.root, h.found, fun w hw => h.waiting w (List.mem_cons_of_mem _ hw),
    fun u hu w hw => hmoves w (h.closed u hu w hw)⟩

theorem DfsInv.add (h : DfsInv adj r comp (v :: stack)) (hv : v ∉ comp) :
    DfsInv adj r (comp ++ [v]) (((adj v).filter fun u => u ∉ comp ++ [v]).reverse ++ stack) := by
  have hreach : Reach adj r v := h.waiting v List.mem_cons_self
  have hmoves : ∀ w, w ∈ comp ∨ w ∈ v :: stack →
      w ∈ comp ++ [v] ∨ w ∈ ((adj v).filter fun u => u ∉ comp ++ [v]).reverse ++ stack := by
    intro w hw
    simp only [List.mem_cons, List.mem_append] at hw ⊢
    tauto
  refine ⟨?_, hmoves r h.root, fun w hw => ?_, fun w hw => ?_, fun u hu w hw => ?_⟩
  · exact List.nodup_append.mpr ⟨h.nodup, List.nodup_singleton v, by
      rintro x hx y hy rfl
      exact hv (List.mem_singleton.mp hy ▸ hx)⟩
  · rcases List.mem_append.mp hw with hw | hw
    · exact h.found w hw
    · rwa [List.mem_singleton.mp hw]
  · rcases List.mem_append.mp hw with hw | hw
    · exact hreach.tail (List.mem_filter.mp (List.mem_reverse.mp hw)).1
    · exact h.waiting w (List.mem_cons_of_mem _ hw)
  · rcases List.mem_append.mp hu with hu | hu
    · exact hmoves w (h.closed u hu w hw)
    · rw [List.mem_singleton.mp hu] at hw
      by_cases hmem : w ∈ comp ++ [v]
      · exact Or.inl hmem
      · refine Or.inr (List.mem_append_left _ (List.mem_reverse.mpr ?_))
        exact List.mem_filter.mpr ⟨hw, decide_eq_true hmem⟩

section
variable [Fintype V]

/-- The stack, and what the vertices not found yet can put on it. -/
def pending (adj : V → List V) (comp stack : List V) : ℕ :=
  stack.length + ∑ v with v ∉ comp, (adj v).length

theorem pending_add (hv : v ∉ comp) :
    pending adj (comp ++ [v]) (((adj v).filter fun u => u ∉ comp ++ [v]).reverse ++ stack) <
      pending adj comp (v :: stack) := by
  have hset : (Finset.univ.filter fun u => u ∉ comp) =
      insert v (Finset.univ.filter fun u => u ∉ comp ++ [v]) := by
    ext u
    simp only [Finset.mem_filter, Finset.mem_univ, true_and, Finset.mem_insert, List.mem_append,
      List.mem_singleton]
    by_cases hu : u = v
    · simp [hu, hv]
    · simp [hu]
  have hlen := List.length_filter_le (fun u => decide (u ∉ comp ++ [v])) (adj v)
  rw [pending, pending, hset, Finset.sum_insert (by simp), List.length_append, List.length_reverse,
    List.length_cons]
  omega

/-- With enough fuel the search finds what can be reached. -/
theorem dfs_spec : ∀ {k : ℕ} {comp stack : List V}, pending adj comp stack ≤ k →
    DfsInv adj r comp stack → (dfs adj k comp stack).Nodup ∧ ∀ w, w ∈ dfs adj k comp stack ↔ Reach adj r w
  | k, comp, [], hk, h => by
    have hclosed : ∀ w, w ∈ comp ↔ Reach adj r w := by
      refine fun w => ⟨h.found w, fun hw => ?_⟩
      refine Reach.closed (P := fun x => x ∈ comp) (fun v hv w hw => ?_) ?_ hw
      · exact (h.closed v hv w hw).resolve_right List.not_mem_nil
      · exact h.root.resolve_right List.not_mem_nil
    have hdone : dfs adj k comp [] = comp := by cases k <;> rfl
    rw [hdone]
    exact ⟨h.nodup, hclosed⟩
  | 0, comp, v :: stack, hk, h => by
    rw [pending, List.length_cons] at hk
    omega
  | k + 1, comp, v :: stack, hk, h => by
    rw [dfs]
    split_ifs with hv
    · refine dfs_spec ?_ (h.skip hv)
      rw [pending, List.length_cons] at hk
      rw [pending]
      omega
    · exact dfs_spec (Nat.le_of_lt_succ ((pending_add hv).trans_le hk)) (h.add hv)

theorem dfs_start {k : ℕ} (hk : 1 + ∑ v, (adj v).length ≤ k) (r : V) :
    (dfs adj k [] [r]).Nodup ∧ ∀ w, w ∈ dfs adj k [] [r] ↔ Reach adj r w := by
  refine dfs_spec ?_ ⟨List.nodup_nil, Or.inr List.mem_cons_self, by simp, fun v hv => ?_, by simp⟩
  · rw [pending]
    simpa using hk
  · rw [List.mem_singleton.mp hv]
    exact Reach.refl r

/-- The components of the starts. -/
theorem dfsComponents_spec {k : ℕ} (hk : 1 + ∑ v, (adj v).length ≤ k) {starts : List V}
    (hsymm : ∀ v ∈ starts, ∀ u w, Reach adj v u → w ∈ adj u → u ∈ adj w) :
    IsComponents adj starts (dfsComponents adj k starts) := by
  induction starts using List.reverseRecOn with
  | nil => exact ⟨List.nodup_nil, nofun, nofun, nofun⟩
  | append_singleton starts start ih =>
    have ih := ih fun v hv => hsymm v (List.mem_append_left _ hv)
    rw [dfsComponents, List.foldl_append, ← dfsComponents, List.foldl_cons, List.foldl_nil]
    split_ifs with hold
    · refine ⟨ih.nodup, ih.isClass, fun c hc => ?_, fun v hv => ?_⟩
      · obtain ⟨v, hv, hvc⟩ := ih.meets c hc
        exact ⟨v, List.mem_append_left _ hv, hvc⟩
      · rcases List.mem_append.mp hv with hv | hv
        · exact ih.covered v hv
        · rw [List.mem_singleton.mp hv]
          exact List.mem_flatten.mp hold
    · obtain ⟨hnodup, hclass⟩ := dfs_start hk start
      have hsymm' := hsymm start (by simp)
      have hnew : ∀ w, Reach adj start w → w ∉ (dfsComponents adj k starts).flatten := by
        intro w hw hmem
        obtain ⟨c, hc, hwc⟩ := List.mem_flatten.mp hmem
        have hback := (ih.isClass c hc w hwc start).mpr (Reach.symm hsymm' hw)
        exact hold (List.mem_flatten.mpr ⟨c, hc, hback⟩)
      refine ⟨?_, fun c hc u hu w => ?_, fun c hc => ?_, fun v hv => ?_⟩
      · rw [List.flatten_append, List.flatten_singleton]
        refine List.nodup_append.mpr ⟨ih.nodup, hnodup, ?_⟩
        rintro w hw x hx rfl
        exact hnew w ((hclass w).mp hx) hw
      · rcases List.mem_append.mp hc with hc | hc
        · exact ih.isClass c hc u hu w
        · rw [List.mem_singleton.mp hc] at hu ⊢
          rw [hclass] at hu ⊢
          exact ⟨fun hw => (Reach.symm hsymm' hu).trans hw, fun hw => hu.trans hw⟩
      · rcases List.mem_append.mp hc with hc | hc
        · obtain ⟨v, hv, hvc⟩ := ih.meets c hc
          exact ⟨v, List.mem_append_left _ hv, hvc⟩
        · rw [List.mem_singleton.mp hc]
          exact ⟨start, by simp, (hclass start).mpr (Reach.refl start)⟩
      · rcases List.mem_append.mp hv with hv | hv
        · obtain ⟨c, hc, hvc⟩ := ih.covered v hv
          exact ⟨c, List.mem_append_left _ hc, hvc⟩
        · rw [List.mem_singleton.mp hv]
          exact ⟨_, by simp, (hclass start).mpr (Reach.refl start)⟩

end

end Lib.Bfs
