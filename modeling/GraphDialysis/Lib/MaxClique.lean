import Mathlib.Data.List.Induction
import Mathlib.Data.List.Nodup
import Mathlib.Data.List.Pairwise
import Mathlib.Order.Nat

/-! Cliques in a list of candidates. `maxClique` is a search with a bound: a branch that cannot beat the
    best clique so far is given up, and still none is larger than what it returns
    (`maxClique_spec`). `greedyClique` takes each candidate that is adjacent to all those it has, and
    nothing can be added to the result (`greedyClique_spec`). -/

namespace Lib
variable {V : Type*} (adj : V → V → Bool)

/-- Some of the pool, each adjacent to all after it. -/
structure IsClique (pool s : List V) : Prop where
  sub : s.Sublist pool
  adj : s.Pairwise fun v w => adj v w = true

/-- The loop over the candidates; `search` goes on with those after `v` that are adjacent to it. -/
def tryEach (search : List V → List V → List V → List V) (current : List V) : List V → List V → List V
  | [], best => best
  | v :: rest, best => tryEach search current rest (search (rest.filter (adj v)) (current ++ [v]) best)

/-- The best clique, when `current` may be extended by candidates; to at most so many levels. -/
def growClique : ℕ → List V → List V → List V → List V
  | 0, _, _, best => best
  | k + 1, candidates, current, best =>
    match candidates with
    | [] => if best.length < current.length then current else best
    | v :: rest =>
      if current.length + (v :: rest).length ≤ best.length then best
      else tryEach adj (growClique k) current (v :: rest) best

def maxClique (pool : List V) : List V := growClique adj (pool.length + 1) pool [] []

def greedyClique (pool : List V) : List V :=
  pool.foldl (fun clique v => if clique.all fun it => adj v it then clique ++ [v] else clique) []

variable {adj} {pool s : List V}

theorem isClique_nil : IsClique adj pool [] := ⟨List.nil_sublist _, List.Pairwise.nil⟩

/-- A clique with its first member taken away lies among the later candidates adjacent to it. -/
theorem IsClique.tail {v : V} {rest : List V} (h : IsClique adj (v :: rest) (v :: s)) :
    IsClique adj (rest.filter (adj v)) s where
  sub := by
    have hadj : ∀ w ∈ s, adj v w = true := (List.pairwise_cons.mp h.adj).1
    have := (List.cons_sublist_cons.mp h.sub).filter (adj v)
    rwa [List.filter_eq_self.mpr hadj] at this
  adj := h.adj.of_cons

theorem IsClique.cons {v : V} {rest : List V} (h : IsClique adj (rest.filter (adj v)) s) :
    IsClique adj (v :: rest) (v :: s) where
  sub := (h.sub.trans List.filter_sublist).cons_cons v
  adj := List.pairwise_cons.mpr ⟨fun _ hw => (List.mem_filter.mp (h.sub.subset hw)).2, h.adj⟩

/-! ### The search with a bound -/

/-- The result is the old best or an extension of `current`, and as long as each of the two. -/
structure Improves (adj : V → V → Bool) (candidates current best r : List V) : Prop where
  grows : best.length ≤ r.length
  source : r = best ∨ ∃ s, IsClique adj candidates s ∧ r = current ++ s
  bound : ∀ s, IsClique adj candidates s → (current ++ s).length ≤ r.length

variable {search : List V → List V → List V → List V} {k : ℕ}

/-- One candidate after the other; the empty clique is not among those that have been looked at. -/
theorem tryEach_spec (hsearch : ∀ candidates current best, candidates.length < k →
    Improves adj candidates current best (search candidates current best)) (current : List V) :
    ∀ (candidates best : List V), candidates.length ≤ k →
      let r := tryEach adj search current candidates best
      best.length ≤ r.length ∧ (r = best ∨ ∃ s, IsClique adj candidates s ∧ r = current ++ s) ∧
        ∀ s, IsClique adj candidates s → s ≠ [] → (current ++ s).length ≤ r.length
  | [], best, _ => ⟨le_refl _, Or.inl rfl, fun s hs hne => absurd (List.sublist_nil.mp hs.sub) hne⟩
  | v :: rest, best, hk => by
    have hfilter : (rest.filter (adj v)).length < k :=
      (List.length_filter_le _ _).trans_lt (Nat.lt_of_succ_le hk)
    have hfirst := hsearch (rest.filter (adj v)) (current ++ [v]) best hfilter
    obtain ⟨hgrows, hsource, hbound⟩ := tryEach_spec hsearch current rest
      (search (rest.filter (adj v)) (current ++ [v]) best) (Nat.le_of_succ_le hk)
    refine ⟨hfirst.grows.trans hgrows, ?_, fun s hs hne => ?_⟩
    · rcases hsource with heq | ⟨s, hs, heq⟩
      · rcases hfirst.source with hold | ⟨s, hs, hnew⟩
        · exact Or.inl (heq.trans hold)
        · refine Or.inr ⟨v :: s, hs.cons, heq.trans (hnew.trans ?_)⟩
          rw [List.append_assoc, List.singleton_append]
      · exact Or.inr ⟨s, ⟨hs.sub.cons v, hs.adj⟩, heq⟩
    · cases hs.sub with
      | cons _ hsub => exact hbound s ⟨hsub, hs.adj⟩ hne
      | cons_cons _ hsub =>
        rename_i s
        have := hfirst.bound s hs.tail
        rw [List.append_assoc, List.singleton_append] at this
        exact this.trans hgrows

/-- With a level for every candidate, the search improves on the best as far as possible. -/
theorem growClique_spec : ∀ (k : ℕ) (candidates current best : List V), candidates.length < k →
    Improves adj candidates current best (growClique adj k candidates current best)
  | 0, _, _, _, hk => absurd hk (Nat.not_lt_zero _)
  | k + 1, [], current, best, _ => by
    have hnil : ∀ s, IsClique adj [] s → s = [] := fun s hs => List.sublist_nil.mp hs.sub
    rw [growClique]
    split_ifs with hlt
    · refine ⟨hlt.le, Or.inr ⟨[], isClique_nil, (List.append_nil _).symm⟩, fun s hs => ?_⟩
      rw [hnil s hs, List.append_nil]
    · refine ⟨le_refl _, Or.inl rfl, fun s hs => ?_⟩
      rw [hnil s hs, List.append_nil]
      exact not_lt.mp hlt
  | k + 1, v :: rest, current, best, hk => by
    rw [growClique]
    split_ifs with hlt
    · refine ⟨le_refl _, Or.inl rfl, fun s hs => ?_⟩
      rw [List.length_append]
      exact (Nat.add_le_add_left hs.sub.length_le _).trans hlt
    · obtain ⟨hgrows, hsource, hbound⟩ :=
        tryEach_spec (growClique_spec k) current (v :: rest) best (Nat.le_of_lt_succ hk)
      refine ⟨hgrows, hsource, fun s hs => ?_⟩
      cases s with
      | nil =>
        -- the clique of the first candidate alone is longer
        have := hbound [v] ⟨by simp, List.pairwise_singleton _ _⟩ (List.cons_ne_nil _ _)
        rw [List.append_nil]
        exact (List.prefix_append current [v]).length_le.trans this
      | cons w s => exact hbound _ hs (List.cons_ne_nil _ _)

/-- It returns a clique, and none is larger. -/
theorem maxClique_spec (pool : List V) : IsClique adj pool (maxClique adj pool) ∧
    ∀ s, IsClique adj pool s → s.length ≤ (maxClique adj pool).length := by
  have h := @growClique_spec _ adj (pool.length + 1) pool [] [] (Nat.lt_succ_self _)
  refine ⟨?_, h.bound⟩
  rcases h.source with heq | ⟨s, hs, heq⟩
  · rw [maxClique, heq]
    exact isClique_nil
  · rwa [maxClique, heq]

/-! ### The greedy clique -/

section
variable (hsymm : ∀ v w, adj v w = adj w v)
include hsymm

theorem greedyClique_spec (pool : List V) : IsClique adj pool (greedyClique adj pool) ∧
    ∀ v ∈ pool, v ∉ greedyClique adj pool → ∃ w ∈ greedyClique adj pool, adj v w = false := by
  induction pool using List.reverseRecOn with
  | nil => exact ⟨isClique_nil, by simp⟩
  | append_singleton pool v ih =>
    obtain ⟨hclique, hmax⟩ := ih
    rw [greedyClique, List.foldl_append, ← greedyClique, List.foldl_cons, List.foldl_nil]
    split_ifs with hall
    · rw [List.all_eq_true] at hall
      refine ⟨⟨hclique.sub.append (List.Sublist.refl _), ?_⟩, fun w hw hnot => ?_⟩
      · refine List.pairwise_append.mpr ⟨hclique.adj, List.pairwise_singleton _ _, fun w hw x hx => ?_⟩
        rw [List.mem_singleton.mp hx, hsymm]
        exact hall w hw
      · rw [List.mem_append, not_or] at hnot
        rcases List.mem_append.mp hw with hw | hw
        · obtain ⟨x, hx, hwx⟩ := hmax w hw hnot.1
          exact ⟨x, List.mem_append_left _ hx, hwx⟩
        · exact absurd hw hnot.2
    · refine ⟨⟨hclique.sub.trans (List.sublist_append_left _ _), hclique.adj⟩, fun w hw hnot => ?_⟩
      rcases List.mem_append.mp hw with hw | hw
      · exact hmax w hw hnot
      · rw [List.mem_singleton.mp hw]
        simpa using hall

/-- The members of a clique in the order of the pool. -/
theorem exists_isClique_perm (hnodup : pool.Nodup) (hs : s.Nodup) (hsub : ∀ v ∈ s, v ∈ pool)
    (hadj : s.Pairwise fun v w => adj v w = true) : ∃ t, IsClique adj pool t ∧ t.Perm s := by
  classical
  have hperm : (pool.filter fun w => w ∈ s).Perm s := by
    refine (List.perm_ext_iff_of_nodup (hnodup.filter _) hs).mpr fun w => ?_
    rw [List.mem_filter, decide_eq_true_eq, and_iff_right_of_imp (hsub w)]
  exact ⟨_, ⟨List.filter_sublist, (hperm.pairwise_iff fun {a b} hab => hsymm a b ▸ hab).mpr hadj⟩, hperm⟩

/-- Nothing can be added to a clique that none is larger than. -/
theorem IsClique.exists_not_adj (h : IsClique adj pool s) (hnodup : pool.Nodup)
    (hmax : ∀ t, IsClique adj pool t → t.length ≤ s.length) {v : V} (hv : v ∈ pool) (hvs : v ∉ s) :
    ∃ w ∈ s, adj v w = false := by
  by_contra hno
  have hall : ∀ w ∈ s, adj v w = true := by simpa using hno
  obtain ⟨t, ht, hperm⟩ := exists_isClique_perm hsymm hnodup
    (List.nodup_cons.mpr ⟨hvs, hnodup.sublist h.sub⟩)
    (List.forall_mem_cons.mpr ⟨hv, fun w hw => h.sub.subset hw⟩) (List.pairwise_cons.mpr ⟨hall, h.adj⟩)
  have := hmax t ht
  rw [hperm.length_eq, List.length_cons] at this
  omega

end

end Lib
