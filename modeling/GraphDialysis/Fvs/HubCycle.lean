import GraphDialysis.Fvs.FeedbackVertexSet
import Mathlib.Data.List.Cycle

/-! When `findSemidisjointCycle` is exact. It returns nothing exactly when there is no semidisjoint
    cycle, and otherwise the vertices of one; but where two ways meet at a hub both begin with the
    start, which is then listed, and charged, twice.

    `findSemidisjointCycle_exact_iff`: each vertex is listed once if and only if the first vertex of
    degree two on a semidisjoint cycle is on one without a hub. -/

namespace Lib
variable {V : Type*}

/-- On a cycle every vertex has two neighbours. -/
theorem exists_two_neighbours {r : V → V → Prop} (hsymm : ∀ {a b}, r a b → r b a) {c : Cycle V}
    (hnd : c.Nodup) (hlen : 3 ≤ c.length) (hc : c.Chain r) {v : V} (hv : v ∈ c) :
    ∃ a ∈ c, ∃ b ∈ c, a ≠ b ∧ r v a ∧ r v b := by
  obtain ⟨l, rfl⟩ : ∃ l : List V, (l : Cycle V) = c := Quotient.exists_rep c
  obtain ⟨x, y, rfl⟩ := List.append_of_mem (Cycle.mem_coe_iff.mp hv)
  have hrot : ((x ++ v :: y : List V) : Cycle V) = ((v :: (y ++ x) : List V) : Cycle V) :=
    Cycle.coe_eq_coe.mpr List.isRotated_append
  rw [hrot] at hnd hlen hc ⊢
  generalize y ++ x = m at hnd hlen hc
  rw [Cycle.length_coe] at hlen
  rw [Cycle.nodup_coe_iff] at hnd
  rw [Cycle.chain_coe_cons] at hc
  cases m with
  | nil => simp at hlen
  | cons a m =>
    rcases List.eq_nil_or_concat m with rfl | ⟨m', b, rfl⟩
    · simp at hlen
    · rw [List.concat_eq_append] at hnd hc ⊢
      refine ⟨a, by simp, b, by simp, ?_, (List.isChain_cons_cons.mp hc).1, hsymm ?_⟩
      · rintro rfl
        simp at hnd
      · have hsplit : v :: (a :: (m' ++ [b]) ++ [v]) = (v :: a :: m') ++ b :: v :: [] := by simp
        rw [hsplit] at hc
        exact (List.isChain_append_cons_cons.mp hc).2.1

end Lib

namespace Dialysis.Fvs
open Lib Dialysis.Graph
variable {n : ℕ}

/-- A cycle of vertices that are there, all of degree two but at most one. -/
structure SemidisjointCycle (s : FvsState n) (c : Cycle (Fin n)) : Prop where
  nodup : c.Nodup
  three : 3 ≤ c.length
  chain : c.Chain fun v w => w ∈ s.adj v
  hub : ∃ hub, ∀ v ∈ c, v ≠ hub → s.degree v = 2

/-- What the search and the charge that follows promise: nothing is returned exactly when there is
    no semidisjoint cycle, and else the vertices of one, each once, so that each pays once. -/
structure Exact (s : FvsState n) (r : Option (List (Fin n))) : Prop where
  none_iff : r = none ↔ ∀ c, ¬SemidisjointCycle s c
  cycle : ∀ l, r = some l → ∃ c, SemidisjointCycle s c ∧ ∀ v, v ∈ l ↔ v ∈ c
  once : ∀ l, r = some l → l.Nodup
  charge : ∀ l, r = some l → ∃ gamma w, minOf s.weight l = .ok gamma ∧
    chargeCycle s l = .ok { s with weight := w } ∧
    (∀ v, w v = if v ∈ l then s.weight v - gamma else s.weight v) ∧ ∀ v, s.alive v = true → 0 ≤ w v

/-- A vertex of degree two on a semidisjoint cycle. -/
def OnCycle (s : FvsState n) (v : Fin n) : Prop :=
  s.degree v = 2 ∧ ∃ c, SemidisjointCycle s c ∧ v ∈ c

/-- The first of them is on a cycle without a hub. -/
def FirstWithoutHub (s : FvsState n) : Prop :=
  ∀ v, IsLeast {u | OnCycle s u} v →
    ∃ c, SemidisjointCycle s c ∧ v ∈ c ∧ ∀ u ∈ c, s.degree u = 2

variable {g : Graph} [g.Simple] {s : FvsState g.n} {start first prev cur : Fin g.n}
  {path cycle : List (Fin g.n)}

/-! ### Cycles and traps -/

/-- A vertex of degree two on a cycle has both its neighbours there. -/
theorem SemidisjointCycle.closed (hm : Mirrors g s) {c : Cycle (Fin g.n)}
    (hc : SemidisjointCycle s c) {v : Fin g.n} (hv : v ∈ c) (hdeg : s.degree v = 2) :
    ∀ w ∈ s.adj v, w ∈ c := by
  obtain ⟨a, ha, b, hb, hab, hva, hvb⟩ :=
    exists_two_neighbours (fun h => hm.symm h) hc.nodup hc.three hc.chain hv
  obtain ⟨b', -, -, hadj⟩ := exists_other (hm.nodup v) hdeg hva
  intro w hw
  rcases (hadj w).mp hw with rfl | rfl
  · exact ha
  · rcases (hadj b).mp hvb with rfl | rfl
    · exact absurd rfl hab
    · exact hb

theorem OnCycle.trap (hm : Mirrors g s) {v : Fin g.n} (hv : OnCycle s v) :
    ∃ W hub, Trap s W hub ∧ v ∈ W := by
  obtain ⟨hdeg, c, hc, hvc⟩ := hv
  obtain ⟨hub, hhub⟩ := hc.hub
  classical
  refine ⟨Finset.univ.filter fun u => u ∈ c ∧ s.degree u = 2, hub, ⟨fun u hu => ?_,
    fun u hu w hw => ?_⟩, ?_⟩
  · exact (Finset.mem_filter.mp hu).2.2
  · obtain ⟨-, huc, hu⟩ := Finset.mem_filter.mp hu
    have hwc := hc.closed hm huc hu w hw
    by_cases hw2 : s.degree w = 2
    · exact Or.inl (Finset.mem_filter.mpr ⟨Finset.mem_univ w, hwc, hw2⟩)
    · obtain rfl : w = hub := by
        by_contra hne
        exact hw2 (hhub w hwc hne)
      exact Or.inr ⟨rfl, hw2⟩
  · exact Finset.mem_filter.mpr ⟨Finset.mem_univ v, hvc, hdeg⟩

omit [g.Simple] in
/-- Every semidisjoint cycle has a vertex of degree two. -/
theorem SemidisjointCycle.exists_onCycle {c : Cycle (Fin g.n)} (hc : SemidisjointCycle s c) :
    ∃ v, OnCycle s v := by
  obtain ⟨hub, hhub⟩ := hc.hub
  obtain ⟨l, rfl⟩ : ∃ l : List (Fin g.n), (l : Cycle (Fin g.n)) = c := Quotient.exists_rep c
  obtain ⟨v, hv, hne⟩ : ∃ v ∈ l, v ≠ hub := by
    by_contra hall
    push Not at hall
    have hsub : l.Subperm [hub] := List.subperm_of_subset (Cycle.nodup_coe_iff.mp hc.nodup)
      fun v hv => List.mem_singleton.mpr (hall v hv)
    have := hsub.length_le.trans' hc.three
    simp at this
  exact ⟨v, hhub v hv hne, l, hc, hv⟩

/-! ### What is found -/

omit [g.Simple] in
/-- A way that comes back is a cycle without a hub. -/
theorem cycle_of_return (hstart : s.degree start = 2)
    (h : TraceLine s start first path prev start) :
    SemidisjointCycle s path ∧ ∀ v ∈ path, s.degree v = 2 := by
  have hdeg : ∀ v ∈ path, s.degree v = 2 := fun v hv => h.degree_eq hstart hv
  refine ⟨⟨Cycle.nodup_coe_iff.mpr h.nodup, h.three rfl, ?_, start, fun v hv _ => hdeg v hv⟩, hdeg⟩
  obtain ⟨t, rfl⟩ := h.head
  exact Cycle.chain_coe_cons _ _ _ |>.mpr h.chain

/-- Two ways to a hub share nothing but their start. -/
theorem disjoint_of_meet (hm : Mirrors g s) {nbr₀ nbr₁ hub prev₁ : Fin g.n}
    {path₁ path₂ : List (Fin g.n)} (hstart : s.degree start = 2) (hadj : s.adj start = [nbr₀, nbr₁])
    (hhub : s.degree hub ≠ 2) (h₁ : TraceLine s start nbr₀ path₁ prev₁ hub)
    (hrun₂ : trace s start g.n [start] start nbr₁ = .ok (path₂, hub)) :
    ∀ v ∈ path₂, v ∈ path₁ → v = start := by
  have hne : hub ≠ start := by
    rintro rfl
    exact hhub hstart
  have hnbr : nbr₀ ≠ nbr₁ := by
    have := hm.nodup start
    rw [hadj] at this
    simpa using this
  -- the second way starts outside the first and cannot enter it
  have hnot : nbr₁ ∉ path₁ := fun hv => by
    have hback : start ∈ s.adj nbr₁ := hm.symm (by simp [hadj])
    rcases h₁.back nbr₁ hv (hm.ne hback).symm hback with he | he
    · exact hnbr he.symm
    · exact hne he
  have hstay := (trace_stays (W := fun v => v ∈ path₁ → v = start) (fun v hv hv2 hvs w hw hwp => ?_)
    g.n [start] start nbr₁ hrun₂ (fun v hv _ => List.mem_singleton.mp hv)
    (fun hv => absurd hv hnot)).1
  · exact hstay
  · by_contra hws
    rcases (h₁.two w hwp hws).2 v (hm.symm hw) with hvp | rfl
    · exact hvs (hv hvp)
    · exact hhub hv2

/-- Two ways that meet are a cycle with a hub. -/
theorem cycle_of_meet (hm : Mirrors g s) {nbr₀ nbr₁ hub prev₁ prev₂ : Fin g.n}
    {path₁ path₂ : List (Fin g.n)} (hstart : s.degree start = 2) (hadj : s.adj start = [nbr₀, nbr₁])
    (hhub : s.degree hub ≠ 2)
    (hrun₂ : trace s start g.n [start] start nbr₁ = .ok (path₂, hub))
    (h₁ : TraceLine s start nbr₀ path₁ prev₁ hub) (h₂ : TraceLine s start nbr₁ path₂ prev₂ hub) :
    SemidisjointCycle s (path₁ ++ [hub] ++ path₂.tail.reverse : List (Fin g.n)) := by
  have hdisj := disjoint_of_meet hm hstart hadj hhub h₁ hrun₂
  have hnot₁ : hub ∉ path₁ := fun hv => hhub (h₁.degree_eq hstart hv)
  have hnot₂ : hub ∉ path₂ := fun hv => hhub (h₂.degree_eq hstart hv)
  have hnbr : nbr₀ ≠ nbr₁ := by
    have := hm.nodup start
    rw [hadj] at this
    simpa using this
  obtain ⟨t₁, rfl⟩ := h₁.head
  obtain ⟨t₂, rfl⟩ := h₂.head
  obtain ⟨hst₂, hnd₂⟩ := List.nodup_cons.mp h₂.nodup
  rw [List.tail_cons]
  refine ⟨Cycle.nodup_coe_iff.mpr ?_, ?_, ?_, hub, fun v hv hne => ?_⟩
  · rw [List.append_assoc]
    refine List.nodup_append.mpr ⟨h₁.nodup, List.nodup_append.mpr ⟨List.nodup_singleton hub,
      List.nodup_reverse.mpr hnd₂, fun a ha b hb hab => ?_⟩, fun a ha b hb hab => ?_⟩
    · rw [List.mem_reverse] at hb
      exact hnot₂ (List.mem_cons_of_mem _ (List.mem_singleton.mp ha ▸ hab ▸ hb))
    · subst hab
      rcases List.mem_append.mp hb with hb | hb
      · exact hnot₁ (List.mem_singleton.mp hb ▸ ha)
      · rw [List.mem_reverse] at hb
        exact hst₂ (hdisj a (List.mem_cons_of_mem _ hb) ha ▸ hb)
  · -- not both ways go straight to the hub
    have hlong : t₁ ≠ [] ∨ t₂ ≠ [] := by
      by_contra hboth
      push Not at hboth
      obtain ⟨rfl, rfl⟩ := hboth
      have hne₀ : nbr₀ ≠ start := hm.ne (by simp [hadj])
      have hne₁ : nbr₁ ≠ start := hm.ne (by simp [hadj])
      have he₀ := h₁.first_mem.resolve_left (by simpa using hne₀)
      have he₁ := h₂.first_mem.resolve_left (by simpa using hne₁)
      exact hnbr (he₀.trans he₁.symm)
    rw [← List.length_pos_iff, ← List.length_pos_iff] at hlong
    simp only [Cycle.length_coe, List.length_append, List.length_cons, List.length_nil,
      List.length_reverse]
    omega
  · have hchain₂ : (hub :: (t₂.reverse ++ [start])).IsChain fun v w => w ∈ s.adj v := by
      have hrev := List.isChain_reverse.mpr (h₂.chain.imp fun a b h => hm.symm h)
      simpa using hrev
    have hchain := List.isChain_split.mpr ⟨h₁.chain, hchain₂⟩
    rw [List.cons_append, List.cons_append, Cycle.chain_coe_cons]
    simpa using hchain
  · have hv : v ∈ start :: t₁ ∨ v = hub ∨ v ∈ t₂ := by simpa [or_assoc] using hv
    rcases hv with hv | rfl | hv
    · exact h₁.degree_eq hstart hv
    · exact absurd rfl hne
    · exact h₂.degree_eq hstart (List.mem_cons_of_mem _ hv)

/-- What is found are the vertices of a semidisjoint cycle. -/
theorem Found.exists_cycle (hm : Mirrors g s) (hstart : s.degree start = 2)
    (h : Found s start cycle) :
    start ∈ cycle ∧ ∃ c, SemidisjointCycle s c ∧ ∀ v, v ∈ cycle ↔ v ∈ c := by
  cases h with
  | returned _ h => exact ⟨h.start_mem, _, (cycle_of_return hstart h).1, fun v => Iff.rfl⟩
  | met hadj hhub _ hrun₂ h₁ h₂ =>
    refine ⟨by simp [h₁.start_mem], _, cycle_of_meet hm hstart hadj hhub hrun₂ h₁ h₂, fun v => ?_⟩
    obtain ⟨t₁, rfl⟩ := h₁.head
    obtain ⟨t₂, rfl⟩ := h₂.head
    simp only [List.mem_append, List.mem_reverse, List.mem_cons, List.tail_cons, Cycle.mem_coe_iff]
    tauto

/-- It has no repetition exactly when its start is on a cycle without a hub. -/
theorem Found.nodup_iff (hm : Mirrors g s) (hstart : s.degree start = 2)
    (h : Found s start cycle) : cycle.Nodup ↔
      ∃ c, SemidisjointCycle s c ∧ start ∈ c ∧ ∀ u ∈ c, s.degree u = 2 := by
  cases h with
  | returned _ h =>
    obtain ⟨hc, htwo⟩ := cycle_of_return hstart h
    exact iff_of_true h.nodup ⟨_, hc, h.start_mem, htwo⟩
  | @met nbr₀ _ hub _ _ path₁ path₂ hadj hhub hrun₁ _ h₁ h₂ =>
    refine iff_of_false (fun hnd => ?_) ?_
    · have := (List.nodup_append.mp hnd).2.2 start (List.mem_append_left _ h₁.start_mem) start
        (List.mem_reverse.mpr h₂.start_mem)
      exact this rfl
    · rintro ⟨c, hc, hsc, htwo⟩
      have hin := (trace_stays (W := (· ∈ c)) (fun v hv _ _ => hc.closed hm hv (htwo v hv)) g.n
        [start] start nbr₀ hrun₁ (fun v hv => List.mem_singleton.mp hv ▸ hsc)
        (hc.closed hm hsc hstart nbr₀ (by simp [hadj]))).2
      exact hhub (htwo hub hin)

/-! ### The search as a whole -/

theorem le_of_split {before after : List (Fin n)} {u start : Fin n}
    (h : List.finRange n = before ++ start :: after) (hu : u ∉ before) : start ≤ u := by
  have hmem : u ∈ before ++ start :: after := h ▸ List.mem_finRange u
  have hsorted := h ▸ List.pairwise_lt_finRange n
  rcases List.mem_cons.mp ((List.mem_append.mp hmem).resolve_left hu) with rfl | hua
  · exact le_refl u
  · exact ((List.pairwise_cons.mp (List.pairwise_append.mp hsorted).2.1).1 u hua).le

/-- The search returns nothing exactly when there is no semidisjoint cycle, and else what it finds
    for the first vertex of degree two on one. -/
theorem findSemidisjointCycle_first (hm : Mirrors g s) :
    ∃ r, findSemidisjointCycle s = .ok r ∧ (r = none ↔ ∀ c, ¬SemidisjointCycle s c) ∧
      ∀ cycle, r = some cycle → ∃ start, IsLeast {u | OnCycle s u} start ∧ Found s start cycle := by
  obtain ⟨r, hr, hspec⟩ := findFrom_spec hm (List.finRange g.n) ∅
  have hsome : ∀ cycle, r = some cycle →
      ∃ start, IsLeast {u | OnCycle s u} start ∧ Found s start cycle := fun cycle hc => by
    obtain ⟨before, start, after, hsplit, hdeg, hfound, hbefore⟩ := hspec.found cycle hc
    obtain ⟨hmem, c, hcycle, hsame⟩ := hfound.exists_cycle hm hdeg
    refine ⟨start, ⟨⟨hdeg, c, hcycle, (hsame start).mp hmem⟩, fun u hu => ?_⟩, hfound⟩
    obtain ⟨W, hub, hW, huW⟩ := OnCycle.trap hm hu
    exact le_of_split hsplit (hbefore W hub hW (by simp) u huW)
  refine ⟨r, hr, ⟨fun hn c hc => ?_, fun hno => ?_⟩, hsome⟩
  · obtain ⟨v, hv⟩ := hc.exists_onCycle
    obtain ⟨W, hub, hW, hvW⟩ := hv.trap hm
    exact hspec.nothing hn W hub hW (by simp) v hvW (List.mem_finRange v)
  · cases r with
    | none => rfl
    | some cycle =>
      obtain ⟨start, ⟨⟨-, c, hc, -⟩, -⟩, -⟩ := hsome cycle rfl
      exact absurd hc (hno c)

omit [g.Simple] in
/-- Where every vertex is listed once, each pays once, and has enough. -/
theorem chargeCycle_once (hne : cycle ≠ []) (hnd : cycle.Nodup)
    (hweight : ∀ v, s.alive v = true → 0 ≤ s.weight v) :
    ∃ gamma w, minOf s.weight cycle = .ok gamma ∧ chargeCycle s cycle = .ok { s with weight := w } ∧
      (∀ v, w v = if v ∈ cycle then s.weight v - gamma else s.weight v) ∧
      ∀ v, s.alive v = true → 0 ≤ w v := by
  obtain ⟨gamma, hmin, -, hle⟩ := minOf_spec (f := s.weight) hne
  have hcharge : ∀ v, cycle.foldl (fun w v => Function.update w v (w v - gamma)) s.weight v =
      if v ∈ cycle then s.weight v - gamma else s.weight v := fun v => by
    rw [foldl_charge, hnd.count]
    split <;> simp
  refine ⟨gamma, _, hmin, by rw [chargeCycle, hmin]; rfl, hcharge, fun v hv => ?_⟩
  rw [hcharge]
  split
  · rename_i hmem
    exact sub_nonneg.mpr (hle v hmem)
  · exact hweight v hv

/-- The search is exact if and only if the first vertex of degree two on a semidisjoint cycle is on
    one without a hub. -/
theorem findSemidisjointCycle_exact_iff (hm : Mirrors g s)
    (hweight : ∀ v, s.alive v = true → 0 ≤ s.weight v) :
    (∃ r, findSemidisjointCycle s = .ok r ∧ Exact s r) ↔ FirstWithoutHub s := by
  obtain ⟨r, hr, hnone, hsome⟩ := findSemidisjointCycle_first hm
  constructor
  · rintro ⟨r', hr', hexact⟩ v hv
    rw [hr] at hr'
    cases hr'
    obtain ⟨hdeg, c, hc, -⟩ := hv.1
    cases r with
    | none => exact absurd hc (hnone.mp rfl c)
    | some cycle =>
      obtain ⟨start, hleast, hfound⟩ := hsome cycle rfl
      obtain rfl := hleast.unique hv
      exact (hfound.nodup_iff hm hdeg).mp (hexact.once cycle rfl)
  · intro hfirst
    have hspec : ∀ l, r = some l →
        l.Nodup ∧ l ≠ [] ∧ ∃ c, SemidisjointCycle s c ∧ ∀ v, v ∈ l ↔ v ∈ c := fun l hl => by
      obtain ⟨start, hleast, hfound⟩ := hsome l hl
      obtain ⟨hmem, hcycle⟩ := hfound.exists_cycle hm hleast.1.1
      exact ⟨(hfound.nodup_iff hm hleast.1.1).mpr (hfirst start hleast), List.ne_nil_of_mem hmem,
        hcycle⟩
    exact ⟨r, hr, hnone, fun l hl => (hspec l hl).2.2, fun l hl => (hspec l hl).1, fun l hl =>
      chargeCycle_once (hspec l hl).2.1 (hspec l hl).1 hweight⟩

/-- The state in which `compute` first looks for a cycle, where nothing has to be cleaned up. -/
def startState (g : Graph) : FvsState g.n := ⟨fun _ => 1, fun _ => true, g.adj, []⟩

theorem mirrors_startState (g : Graph) [g.Simple] : Mirrors g (startState g) :=
  ⟨fun v w => by simp [startState], fun v => g.adj_nodup v⟩

/-- A cycle of four vertices has no hub. -/
theorem findSemidisjointCycle_exact_iff_fourCycle :
    (∃ r, findSemidisjointCycle (startState (ofEdges 4 [(0, 1), (1, 2), (2, 3), (0, 3)])) = .ok r ∧
      Exact (startState (ofEdges 4 [(0, 1), (1, 2), (2, 3), (0, 3)])) r) ↔
      FirstWithoutHub (startState (ofEdges 4 [(0, 1), (1, 2), (2, 3), (0, 3)])) :=
  findSemidisjointCycle_exact_iff (mirrors_startState _) fun _ _ => by simp [startState]

/-- Two triangles that share a vertex: the search starts at `1` and lists it twice. -/
theorem findSemidisjointCycle_bowtie :
    ¬∃ r, findSemidisjointCycle (startState (ofEdges 5
        [(0, 1), (0, 2), (1, 2), (0, 3), (0, 4), (3, 4)])) = .ok r ∧
      Exact (startState (ofEdges 5 [(0, 1), (0, 2), (1, 2), (0, 3), (0, 4), (3, 4)])) r := by
  rintro ⟨r, hr, hexact⟩
  have hrun : findSemidisjointCycle (startState (ofEdges 5
      [(0, 1), (0, 2), (1, 2), (0, 3), (0, 4), (3, 4)])) =
        .ok (some [(1 : Fin 5), (0 : Fin 5), (2 : Fin 5), (1 : Fin 5)]) := by rfl
  rw [hrun] at hr
  cases hr
  have hnd : [(1 : Fin 5), 0, 2, 1].Nodup := hexact.once _ rfl
  exact absurd hnd (by decide)

end Dialysis.Fvs
