import Mathlib.Combinatorics.SimpleGraph.Acyclic
import Mathlib.Combinatorics.SimpleGraph.Connectivity.Subgraph
import Mathlib.Algebra.BigOperators.Ring.Finset

/-! Finite sets of vertices that carry no cycle. A core is a nonempty set whose members all have two
    neighbours inside; a set is a forest when it holds no core, which is what it means for the graph
    on it to be acyclic (`forestOn_iff_isAcyclic`). Degrees inside a set change in a known way when
    a vertex is added (`sum_degreeIn_insert`), so a forest has few edges (`ForestOn.sum_le`), a set
    that hangs together has many (`Linked.le_sum`), and the sum of the degrees is even. -/

namespace Lib
variable {V : Type*} (G : SimpleGraph V) [DecidableRel G.Adj]

/-- The number of neighbours of `v` in `S`. -/
def degreeIn (S : Finset V) (v : V) : ℕ := (S.filter (G.Adj v)).card

/-- A nonempty set in which every vertex has two neighbours. -/
structure IsCore (S : Finset V) : Prop where
  nonempty : S.Nonempty
  two_le : ∀ v ∈ S, 2 ≤ degreeIn G S v

/-- No part of `A` is a core. -/
def ForestOn (A : Finset V) : Prop := ∀ S ⊆ A, ¬IsCore G S

/-- No proper part of `T` is cut off from the rest of it. -/
def Linked (T : Finset V) : Prop :=
  ∀ B ⊆ T, B.Nonempty → B ≠ T → ∃ b ∈ B, ∃ t ∈ T, t ∉ B ∧ G.Adj b t

variable {G} {S T A : Finset V} {u v w : V}

/-! ### Degrees inside a set -/

theorem degreeIn_mono (h : S ⊆ T) (v : V) : degreeIn G S v ≤ degreeIn G T v :=
  Finset.card_le_card (Finset.filter_subset_filter _ h)

theorem degreeIn_pos_iff : 0 < degreeIn G S v ↔ ∃ w ∈ S, G.Adj v w := by
  rw [degreeIn, Finset.card_pos]
  exact ⟨fun ⟨w, hw⟩ => ⟨w, Finset.mem_filter.mp hw⟩, fun ⟨w, hw⟩ => ⟨w, Finset.mem_filter.mpr hw⟩⟩

theorem two_le_degreeIn_iff :
    2 ≤ degreeIn G S v ↔ ∃ a ∈ S, ∃ b ∈ S, a ≠ b ∧ G.Adj v a ∧ G.Adj v b := by
  rw [degreeIn, Nat.succ_le_iff, Finset.one_lt_card_iff]
  constructor
  · rintro ⟨a, b, ha, hb, hne⟩
    obtain ⟨ha, hva⟩ := Finset.mem_filter.mp ha
    obtain ⟨hb, hvb⟩ := Finset.mem_filter.mp hb
    exact ⟨a, ha, b, hb, hne, hva, hvb⟩
  · rintro ⟨a, ha, b, hb, hne, hva, hvb⟩
    exact ⟨a, b, Finset.mem_filter.mpr ⟨ha, hva⟩, Finset.mem_filter.mpr ⟨hb, hvb⟩, hne⟩

/-- All neighbours of `v` in `A` are in `S` already. -/
theorem degreeIn_eq_of_subset (hS : S ⊆ A) (h : ∀ w ∈ A, G.Adj v w → w ∈ S) :
    degreeIn G S v = degreeIn G A v := by
  unfold degreeIn
  congr 1
  ext w
  simp only [Finset.mem_filter]
  exact ⟨fun ⟨hw, hadj⟩ => ⟨hS hw, hadj⟩, fun ⟨hw, hadj⟩ => ⟨h w hw hadj, hadj⟩⟩

section Insert
variable [DecidableEq V]

theorem degreeIn_insert (hu : u ∉ S) (v : V) :
    degreeIn G (insert u S) v = degreeIn G S v + if G.Adj v u then 1 else 0 := by
  unfold degreeIn
  rw [Finset.filter_insert]
  split
  · rw [Finset.card_insert_of_notMem fun h => hu (Finset.mem_of_mem_filter _ h)]
  · rw [add_zero]

theorem degreeIn_insert_self (hu : u ∉ S) : degreeIn G (insert u S) u = degreeIn G S u := by
  rw [degreeIn_insert hu, if_neg (G.loopless.irrefl u), add_zero]

/-- A new vertex brings its edges, each of which counts at both ends. -/
theorem sum_degreeIn_insert (hu : u ∉ S) :
    ∑ v ∈ insert u S, degreeIn G (insert u S) v = ∑ v ∈ S, degreeIn G S v + 2 * degreeIn G S u := by
  have hback : ∑ v ∈ S, (if G.Adj v u then 1 else 0) = degreeIn G S u := by
    rw [← Finset.card_filter, degreeIn]
    exact congrArg Finset.card (Finset.filter_congr fun v _ => G.adj_comm v u)
  rw [Finset.sum_insert hu, degreeIn_insert_self hu,
    Finset.sum_congr rfl fun v _ => degreeIn_insert hu v, Finset.sum_add_distrib, hback]
  omega

theorem even_sum_degreeIn (S : Finset V) : Even (∑ v ∈ S, degreeIn G S v) := by
  induction S using Finset.induction_on with
  | empty => simp
  | insert u S hu ih =>
    rw [sum_degreeIn_insert hu]
    exact ih.add (even_two_mul _)

end Insert

/-! ### Forests have few edges, linked sets many -/

theorem ForestOn.mono (h : ForestOn G A) (hS : S ⊆ A) : ForestOn G S :=
  fun R hR => h R (hR.trans hS)

theorem ForestOn.exists_degreeIn_le_one (h : ForestOn G A) (hA : A.Nonempty) :
    ∃ v ∈ A, degreeIn G A v ≤ 1 := by
  by_contra hall
  push Not at hall
  exact h A (Finset.Subset.refl A) ⟨hA, hall⟩

variable [DecidableEq V]

/-- A forest has fewer edges than vertices. -/
theorem ForestOn.sum_le (h : ForestOn G A) (hA : A.Nonempty) :
    ∑ v ∈ A, degreeIn G A v + 2 ≤ 2 * A.card := by
  induction hn : A.card generalizing A with
  | zero => exact absurd hn (Finset.card_ne_zero.mpr hA)
  | succ k ih =>
    obtain ⟨u, hu, hdeg⟩ := h.exists_degreeIn_le_one hA
    have hcard := Finset.card_erase_of_mem hu
    have hsum := sum_degreeIn_insert (G := G) (Finset.notMem_erase u A)
    have hle := degreeIn_mono (G := G) (Finset.erase_subset u A) u
    rw [Finset.insert_erase hu] at hsum
    rcases (A.erase u).eq_empty_or_nonempty with he | hne
    · rw [he] at hsum
      have hzero : degreeIn G ∅ u = 0 := rfl
      rw [hzero, Finset.sum_empty] at hsum
      omega
    · have := ih (h.mono (Finset.erase_subset u A)) hne (by omega)
      omega

/-- Growing a part of a linked set vertex by vertex adds an edge each time. -/
theorem Linked.exists_part (h : Linked G T) (hT : T.Nonempty) :
    ∀ k, 1 ≤ k → k ≤ T.card →
      ∃ B ⊆ T, B.card = k ∧ 2 * k ≤ ∑ v ∈ B, degreeIn G B v + 2 := by
  intro k hk
  induction k, hk using Nat.le_induction with
  | base =>
    intro _
    obtain ⟨t, ht⟩ := hT
    exact ⟨{t}, Finset.singleton_subset_iff.mpr ht, Finset.card_singleton t, by omega⟩
  | succ k hk ih =>
    intro hle
    obtain ⟨B, hB, hcard, hsum⟩ := ih (by omega)
    have hBne : B.Nonempty := Finset.card_pos.mp (by omega)
    obtain ⟨b, hb, t, ht, htB, hadj⟩ := h B hB hBne fun he => by rw [he] at hcard; omega
    have hpos : 0 < degreeIn G B t := degreeIn_pos_iff.mpr ⟨b, hb, hadj.symm⟩
    refine ⟨insert t B, Finset.insert_subset ht hB, ?_, ?_⟩
    · rw [Finset.card_insert_of_notMem htB, hcard]
    · rw [sum_degreeIn_insert htB]
      omega

/-- A linked set has almost as many edges as vertices. -/
theorem Linked.le_sum (h : Linked G T) (hT : T.Nonempty) :
    2 * T.card ≤ ∑ v ∈ T, degreeIn G T v + 2 := by
  obtain ⟨B, hB, hcard, hsum⟩ := h.exists_part hT T.card (Finset.card_pos.mpr hT) le_rfl
  rwa [Finset.eq_of_subset_of_card_le hB hcard.ge] at hsum

/-! ### Orders of discovery -/

/-- What follows `v` in a list; in a list with the latest first, what is older than `v`. -/
def older : List V → V → List V
  | [], _ => []
  | u :: l, v => if u = v then l else older l v

@[simp] theorem older_cons_self (v : V) (l : List V) : older (v :: l) v = l := if_pos rfl

theorem older_cons_of_ne (h : u ≠ v) (l : List V) : older (u :: l) v = older l v := if_neg h

theorem older_append_of_mem : ∀ {l : List V} (r : List V), v ∈ l → older (l ++ r) v = older l v ++ r
  | [], _, h => by cases h
  | u :: l, r, h => by
    rcases eq_or_ne u v with rfl | hne
    · rw [List.cons_append, older_cons_self, older_cons_self]
    · rw [List.cons_append, older_cons_of_ne hne, older_cons_of_ne hne,
        older_append_of_mem r ((List.mem_cons.mp h).resolve_left hne.symm)]

theorem older_append_of_notMem : ∀ {l : List V} (r : List V), v ∉ l → older (l ++ r) v = older r v
  | [], _, _ => rfl
  | u :: l, r, h => by
    obtain ⟨hne, hl⟩ := List.ne_and_not_mem_of_not_mem_cons h
    rw [List.cons_append, older_cons_of_ne hne.symm, older_append_of_notMem r hl]

theorem mem_of_mem_older : ∀ {l : List V}, u ∈ older l v → u ∈ l
  | [], h => h
  | w :: l, h => by
    rcases eq_or_ne w v with rfl | hne
    · rw [older_cons_self] at h
      exact List.mem_cons_of_mem _ h
    · rw [older_cons_of_ne hne] at h
      exact List.mem_cons_of_mem _ (mem_of_mem_older h)

/-- Of two vertices in a list one is older. -/
theorem mem_older_or_mem_older : ∀ {l : List V}, u ∈ l → v ∈ l → u ≠ v →
    u ∈ older l v ∨ v ∈ older l u
  | [], h, _, _ => by cases h
  | w :: l, hu, hv, hne => by
    rcases eq_or_ne w v with rfl | hwv
    · rw [older_cons_self]
      exact Or.inl ((List.mem_cons.mp hu).resolve_left hne)
    · rcases eq_or_ne w u with rfl | hwu
      · rw [older_cons_self]
        exact Or.inr ((List.mem_cons.mp hv).resolve_left hwv.symm)
      · rw [older_cons_of_ne hwv, older_cons_of_ne hwu]
        exact mem_older_or_mem_older ((List.mem_cons.mp hu).resolve_left hwu.symm)
          ((List.mem_cons.mp hv).resolve_left hwv.symm) hne

/-- A set is a forest when it can be listed so that every vertex has one older neighbour at most. -/
theorem forestOn_of_older : ∀ {l : List V}, l.Nodup →
    (∀ v ∈ l, degreeIn G (older l v).toFinset v ≤ 1) → ForestOn G l.toFinset
  | [], _, _ => fun S hS hcore => by
    obtain ⟨v, hv⟩ := hcore.nonempty
    simpa using hS hv
  | v :: l, hnd, hone => by
    obtain ⟨hv, hl⟩ := List.nodup_cons.mp hnd
    have hrest : ForestOn G l.toFinset := forestOn_of_older hl fun u hu => by
      have hne : v ≠ u := fun he => hv (he ▸ hu)
      rw [← older_cons_of_ne hne]
      exact hone u (List.mem_cons_of_mem _ hu)
    intro S hS hcore
    have hsub : S.erase v ⊆ l.toFinset := fun u hu => by
      obtain ⟨hne, hu⟩ := Finset.mem_erase.mp hu
      exact List.mem_toFinset.mpr
        ((List.mem_cons.mp (List.mem_toFinset.mp (hS hu))).resolve_left hne)
    by_cases hvS : v ∈ S
    · -- the latest vertex of the core has all its neighbours there among the older ones
      have htwo := hcore.two_le v hvS
      have hle : degreeIn G S v ≤ degreeIn G l.toFinset v := by
        rw [← Finset.insert_erase hvS, degreeIn_insert_self (Finset.notMem_erase v S)]
        exact degreeIn_mono hsub v
      have := hone v (by simp)
      rw [older_cons_self] at this
      omega
    · rw [Finset.erase_eq_of_notMem hvS] at hsub
      exact hrest S hsub hcore

/-- Every vertex but the oldest has an older neighbour. -/
def Rooted (G : SimpleGraph V) (l : List V) : Prop :=
  ∀ v ∈ l, older l v = [] ∨ ∃ u ∈ older l v, G.Adj v u

omit [DecidableRel G.Adj] in
theorem Rooted.tail {l : List V} (h : Rooted G (v :: l)) (hv : v ∉ l) : Rooted G l := by
  intro u hu
  have hne : v ≠ u := fun he => hv (he ▸ hu)
  rw [← older_cons_of_ne hne]
  exact h u (List.mem_cons_of_mem _ hu)

/-- A list in which every vertex but the oldest has an older neighbour has many edges, and one more
    when a vertex has two. -/
theorem Rooted.le_sum : ∀ {l : List V}, l.Nodup → Rooted G l → l ≠ [] →
    2 * l.length ≤ ∑ v ∈ l.toFinset, degreeIn G l.toFinset v + 2 ∧
      ((∃ v ∈ l, 2 ≤ degreeIn G (older l v).toFinset v) →
        2 * l.length ≤ ∑ v ∈ l.toFinset, degreeIn G l.toFinset v)
  | [], _, _, hne => absurd rfl hne
  | v :: l, hnd, h, _ => by
    obtain ⟨hv, hl⟩ := List.nodup_cons.mp hnd
    have hsum := sum_degreeIn_insert (G := G) (S := l.toFinset) (u := v) (by simpa using hv)
    rw [← List.toFinset_cons] at hsum
    rw [List.length_cons, hsum]
    rcases eq_or_ne l [] with rfl | hne
    · refine ⟨by simp, ?_⟩
      rintro ⟨u, hu, htwo⟩
      obtain rfl := List.mem_singleton.mp hu
      rw [older_cons_self] at htwo
      simp [degreeIn] at htwo
    · obtain ⟨hle, hmore⟩ := Rooted.le_sum hl (h.tail hv) hne
      have hpos : 0 < degreeIn G l.toFinset v := by
        obtain ⟨u, hu, hadj⟩ := (h v (by simp)).resolve_left (by rwa [older_cons_self])
        rw [older_cons_self] at hu
        exact degreeIn_pos_iff.mpr ⟨u, List.mem_toFinset.mpr hu, hadj⟩
      refine ⟨by omega, ?_⟩
      rintro ⟨u, hu, htwo⟩
      rcases List.mem_cons.mp hu with rfl | hu
      · rw [older_cons_self] at htwo
        omega
      · rw [older_cons_of_ne fun he : v = u => hv (he ▸ hu)] at htwo
        have := hmore ⟨u, hu, htwo⟩
        omega

/-- Two older neighbours close a cycle. -/
theorem Rooted.not_forestOn {l : List V} (hnd : l.Nodup) (h : Rooted G l) (hv : v ∈ l)
    (htwo : 2 ≤ degreeIn G (older l v).toFinset v) : ¬ForestOn G l.toFinset := by
  intro hforest
  have hne : l ≠ [] := List.ne_nil_of_mem hv
  have hle := (Rooted.le_sum hnd h hne).2 ⟨v, hv, htwo⟩
  have hlt := hforest.sum_le ⟨v, List.mem_toFinset.mpr hv⟩
  rw [List.toFinset_card_of_nodup hnd] at hlt
  omega

/-! ### Forests are the acyclic sets -/

/-- The vertices of a cycle are a core. -/
theorem not_forestOn_of_isCycle {x : (A : Set V)} {p : (G.induce (A : Set V)).Walk x x}
    (hp : p.IsCycle) : ¬ForestOn G A := by
  intro h
  refine h (p.support.map Subtype.val).toFinset ?_ ⟨⟨x.1, by simp⟩, ?_⟩
  · intro v hv
    obtain ⟨y, -, rfl⟩ := List.mem_map.mp (List.mem_toFinset.mp hv)
    exact y.2
  · intro v hv
    obtain ⟨y, hy, rfl⟩ := List.mem_map.mp (List.mem_toFinset.mp hv)
    have htwo := hp.ncard_neighborSet_toSubgraph_eq_two hy
    obtain ⟨a, b, hne, hab⟩ := Set.ncard_eq_two.mp htwo
    have hmem : ∀ z ∈ p.toSubgraph.neighborSet y,
        z.1 ∈ (p.support.map Subtype.val).toFinset ∧ G.Adj y.1 z.1 := by
      intro z hz
      have hz : p.toSubgraph.Adj y z := hz
      refine ⟨List.mem_toFinset.mpr (List.mem_map_of_mem ?_), hz.adj_sub⟩
      exact (p.mem_verts_toSubgraph).mp hz.snd_mem
    obtain ⟨ha, hya⟩ := hmem a (by rw [hab]; simp)
    obtain ⟨hb, hyb⟩ := hmem b (by rw [hab]; simp)
    exact two_le_degreeIn_iff.mpr
      ⟨a.1, ha, b.1, hb, fun he => hne (Subtype.ext he), hya, hyb⟩

/-- In a core no longest path can end. -/
theorem not_isAcyclic_of_isCore (h : IsCore G S) : ¬(G.induce (S : Set V)).IsAcyclic := by
  intro hacyc
  obtain ⟨x, hx⟩ := h.nonempty
  have : Nonempty (S : Set V) := ⟨⟨x, hx⟩⟩
  obtain ⟨a, b, p, hp, hmax⟩ := SimpleGraph.Walk.exists_isPath_forall_isPath_length_le_length (G.induce (S : Set V))
  -- every neighbour of an end of the path is the second vertex of the path
  have hsnd : ∀ w, (G.induce (S : Set V)).Adj a w → w = p.snd := by
    intro w hadj
    refine hacyc.eq_snd_of_adj_start hp hadj ?_
    by_contra hw
    have hcons : (p.cons hadj.symm).IsPath := (SimpleGraph.Walk.cons_isPath_iff _ _).mpr ⟨hp, hw⟩
    have := hmax _ _ _ hcons
    rw [SimpleGraph.Walk.length_cons] at this
    omega
  obtain ⟨y, hy, z, hz, hne, hay, haz⟩ := two_le_degreeIn_iff.mp (h.two_le a.1 a.2)
  have heq : (⟨y, hy⟩ : (S : Set V)) = ⟨z, hz⟩ := (hsnd ⟨y, hy⟩ hay).trans (hsnd ⟨z, hz⟩ haz).symm
  exact hne (congrArg Subtype.val heq)

theorem forestOn_iff_isAcyclic : ForestOn G A ↔ (G.induce (A : Set V)).IsAcyclic := by
  constructor
  · intro h x p hp
    exact not_forestOn_of_isCycle hp h
  · intro h S hS hcore
    refine not_isAcyclic_of_isCore hcore (h.embedding ?_)
    exact G.induceHomOfLE (Finset.coe_subset.mpr hS)

end Lib
