import GraphDialysis.Lib.Forest
import Mathlib.Algebra.Order.BigOperators.Group.Finset
import Mathlib.Algebra.Order.Ring.Rat
import Mathlib.Combinatorics.Enumerative.DoubleCounting
import Mathlib.Combinatorics.SimpleGraph.Connectivity.Connected
import Mathlib.Tactic.Linarith

/-! Local ratio for feedback vertex sets. Weights come off the vertices of a graph in rounds, and a
    solution that pays at most twice what any other pays in every round is at most twice as heavy
    (`local_ratio_step`). Two kinds of rounds have that ratio for a solution without a redundant
    member: a charge along a cycle whose vertices but one have degree two
    (`Semidisjoint.charge_le`), and a charge of the degree less one when no such cycle is there
    (`degree_charge_le`).

    The second counts over the components of what is left without the solution: a component that
    only one member of the solution needs must have a vertex of degree three, or it would be a
    `Handle` of that member. -/

namespace Lib
variable {V : Type*} [DecidableEq V] {G : SimpleGraph V} [DecidableRel G.Adj]
  {A C F F' S T X Y : Finset V} {f u v w : V}

/-- Every member of `F` in `A` lies on a core of `A` that no other member is on. -/
def Irredundant (G : SimpleGraph V) [DecidableRel G.Adj] (A F : Finset V) : Prop :=
  ∀ f ∈ F, f ∈ A → ∃ S ⊆ A, IsCore G S ∧ f ∈ S ∧ ∀ u ∈ S, u ∈ F → u = f

/-! ### Charges -/

/-- A round takes `w` to `w'` and `A` to `A'`; what would become negative is charged as if it
    became zero. -/
theorem local_ratio_step {A A' F F' : Finset V} {w w' : V → ℚ} (hsub : A' ⊆ A)
    (hpos : ∀ v ∈ A', 0 ≤ w' v) (hout : ∀ v ∈ F, v ∈ A → v ∉ A' → w' v ≤ 0)
    (hcharge : ∑ v ∈ F ∩ A, (w v - max (w' v) 0) ≤ 2 * ∑ v ∈ F' ∩ A, (w v - max (w' v) 0))
    (hrest : ∑ v ∈ F ∩ A', w' v ≤ 2 * ∑ v ∈ F' ∩ A', w' v) :
    ∑ v ∈ F ∩ A, w v ≤ 2 * ∑ v ∈ F' ∩ A, w v := by
  have hkept : ∀ R : Finset V, ∑ v ∈ R ∩ A', max (w' v) 0 = ∑ v ∈ R ∩ A', w' v := fun R =>
    Finset.sum_congr rfl fun v hv => max_eq_left (hpos v (Finset.mem_of_mem_inter_right hv))
  have hF : ∑ v ∈ F ∩ A, max (w' v) 0 = ∑ v ∈ F ∩ A', w' v := by
    rw [← hkept]
    refine (Finset.sum_subset (Finset.inter_subset_inter_left hsub) fun v hv hv' => ?_).symm
    obtain ⟨hvF, hvA⟩ := Finset.mem_inter.mp hv
    exact max_eq_right (hout v hvF hvA fun h => hv' (Finset.mem_inter.mpr ⟨hvF, h⟩))
  have hF' : ∑ v ∈ F' ∩ A', w' v ≤ ∑ v ∈ F' ∩ A, max (w' v) 0 := by
    rw [← hkept]
    exact Finset.sum_le_sum_of_subset_of_nonneg (Finset.inter_subset_inter_left hsub)
      fun v _ _ => le_max_right _ _
  rw [Finset.sum_sub_distrib, Finset.sum_sub_distrib] at hcharge
  linarith

/-! ### Semidisjoint cycles -/

/-- A cycle whose vertices have degree two and no neighbours elsewhere, one vertex apart. What
    contains a vertex of degree two with all that such vertices lead to contains the whole cycle. -/
structure Semidisjoint (G : SimpleGraph V) [DecidableRel G.Adj] (A C : Finset V) : Prop where
  sub : C ⊆ A
  hub : ∃ h ∈ C, (∃ u ∈ C, G.Adj h u) ∧
    ∀ v ∈ C, v ≠ h → degreeIn G A v = 2 ∧ ∀ w ∈ A, G.Adj v w → w ∈ C
  spread : ∀ S ⊆ A, (∀ v ∈ C, degreeIn G A v = 2 → v ∈ S → ∀ w ∈ A, G.Adj v w → w ∈ S) →
    ∀ v ∈ C, degreeIn G A v = 2 → v ∈ S → C ⊆ S

namespace Semidisjoint

/-- Every feedback vertex set meets the cycle. -/
theorem meets (h : Semidisjoint G A C) (hF' : ForestOn G (A \ F')) : ∃ v ∈ C, v ∈ F' := by
  by_contra hnone
  push Not at hnone
  obtain ⟨x, hx, hadj, htwo⟩ := h.hub
  have hforest : ForestOn G C := hF'.mono fun v hv =>
    Finset.mem_sdiff.mpr ⟨h.sub hv, hnone v hv⟩
  have hle := hforest.sum_le ⟨x, hx⟩
  -- all vertices but one have both neighbours on the cycle, and that one has a neighbour there
  have hsum : ∑ v ∈ C.erase x, degreeIn G C v = 2 * (C.erase x).card := by
    rw [mul_comm, ← smul_eq_mul, ← Finset.sum_const]
    refine Finset.sum_congr rfl fun v hv => ?_
    obtain ⟨hne, hvC⟩ := Finset.mem_erase.mp hv
    rw [degreeIn_eq_of_subset h.sub (htwo v hvC hne).2, (htwo v hvC hne).1]
  have hpos := degreeIn_pos_iff.mpr hadj
  have hcard := Finset.card_erase_of_mem hx
  have hcardpos := Finset.card_pos.mpr ⟨x, hx⟩
  rw [← Finset.add_sum_erase C _ hx, hsum] at hle
  omega

omit [DecidableEq V] in
/-- Two vertices of the cycle are not both needed. -/
theorem eq_of_mem (h : Semidisjoint G A C) (hF : Irredundant G A F) (hu : u ∈ C) (huF : u ∈ F)
    (hv : v ∈ C) (hvF : v ∈ F) : u = v := by
  -- a vertex of degree two takes the whole cycle into its core
  have htwo : ∀ x ∈ C, x ∈ F → degreeIn G A x = 2 → ∀ y ∈ C, y ∈ F → y = x := by
    intro x hx hxF hdeg y hy hyF
    obtain ⟨S, hS, hcore, hxS, honly⟩ := hF x hxF (h.sub hx)
    refine honly y (h.spread S hS (fun z hz hdegz hzS w hw hadj => ?_) x hx hdeg hxS hy) hyF
    have hfull : S.filter (G.Adj z) = A.filter (G.Adj z) :=
      Finset.eq_of_subset_of_card_le (Finset.filter_subset_filter _ hS)
        (hdegz.le.trans (hcore.two_le z hzS))
    exact Finset.mem_of_mem_filter w (hfull ▸ Finset.mem_filter.mpr ⟨hw, hadj⟩)
  obtain ⟨x, -, -, hdeg⟩ := h.hub
  rcases eq_or_ne u x with rfl | hne
  · rcases eq_or_ne v u with rfl | hne
    · rfl
    · exact htwo v hv hvF (hdeg v hv hne).1 u hu huF
  · exact (htwo u hu huF (hdeg u hu hne).1 v hv hvF).symm

/-- A charge along the cycle that no vertex pays less than once or more than twice. -/
theorem charge_le (h : Semidisjoint G A C) (hF : Irredundant G A F) (hF' : ForestOn G (A \ F'))
    {c : V → ℚ} {γ : ℚ} (hγ : 0 ≤ γ) (hoff : ∀ v ∈ A, v ∉ C → c v = 0)
    (hle : ∀ v ∈ C, c v ≤ 2 * γ) (hge : ∀ v ∈ C, γ ≤ c v) :
    ∑ v ∈ F ∩ A, c v ≤ 2 * ∑ v ∈ F' ∩ A, c v := by
  have hnonneg : ∀ v ∈ A, 0 ≤ c v := by
    intro v hv
    by_cases hvC : v ∈ C
    · exact hγ.trans (hge v hvC)
    · exact (hoff v hv hvC).ge
  have hlow : γ ≤ ∑ v ∈ F' ∩ A, c v := by
    obtain ⟨x, hx, hxF'⟩ := h.meets hF'
    exact (hge x hx).trans (Finset.single_le_sum
      (fun v hv => hnonneg v (Finset.mem_of_mem_inter_right hv))
      (Finset.mem_inter.mpr ⟨hxF', h.sub hx⟩))
  have hhigh : ∑ v ∈ F ∩ A, c v ≤ 2 * γ := by
    by_cases hmeet : ∃ x ∈ C, x ∈ F
    · obtain ⟨x, hx, hxF⟩ := hmeet
      rw [Finset.sum_eq_single x (fun v hv hne => ?_) fun hn => ?_]
      · exact hle x hx
      · obtain ⟨hvF, hvA⟩ := Finset.mem_inter.mp hv
        exact hoff v hvA fun hvC => hne (h.eq_of_mem hF hvC hvF hx hxF)
      · exact absurd (Finset.mem_inter.mpr ⟨hxF, h.sub hx⟩) hn
    · push Not at hmeet
      rw [Finset.sum_eq_zero fun v hv => ?_]
      · linarith
      · obtain ⟨hvF, hvA⟩ := Finset.mem_inter.mp hv
        exact hoff v hvA fun hvC => hmeet v hvC hvF
  linarith

end Semidisjoint

/-! ### Degrees across two sets -/

omit [DecidableEq V] in
theorem sum_degreeIn_comm (X Y : Finset V) :
    ∑ v ∈ X, degreeIn G Y v = ∑ v ∈ Y, degreeIn G X v := by
  refine (Finset.sum_card_bipartiteAbove_eq_sum_card_bipartiteBelow G.Adj).trans ?_
  refine Finset.sum_congr rfl fun v _ => congrArg Finset.card (Finset.filter_congr fun w _ => ?_)
  exact G.adj_comm w v

theorem degreeIn_sdiff (hX : X ⊆ A) (v : V) :
    degreeIn G A v = degreeIn G X v + degreeIn G (A \ X) v := by
  unfold degreeIn
  rw [← Finset.card_union_of_disjoint (Finset.disjoint_filter_filter Finset.disjoint_sdiff),
    ← Finset.filter_union, Finset.union_sdiff_of_subset hX]

theorem sum_sdiff_add_sum_inter (A F : Finset V) (f : V → ℕ) :
    ∑ v ∈ A \ F, f v + ∑ v ∈ F ∩ A, f v = ∑ v ∈ A, f v := by
  rw [Finset.inter_comm, add_comm]
  exact Finset.sum_inter_add_sum_sdiff A F f

theorem sdiff_sdiff_eq_inter (A F : Finset V) : A \ (A \ F) = F ∩ A := by
  rw [sdiff_sdiff_right_self, Finset.inf_eq_inter, Finset.inter_comm]

/-! ### A charge of the degree less one -/

/-- The charge on any feedback vertex set: what it leaves has few edges, and all others end in it. -/
theorem sum_degreeIn_le (hF' : ForestOn G (A \ F')) :
    ∑ v ∈ A, degreeIn G A v ≤ 2 * (A \ F').card + 2 * ∑ v ∈ F' ∩ A, degreeIn G A v := by
  have hsplit := sum_sdiff_add_sum_inter A F' (degreeIn G A)
  have hinner : ∑ v ∈ A \ F', degreeIn G (A \ F') v ≤ 2 * (A \ F').card := by
    rcases (A \ F').eq_empty_or_nonempty with he | hne
    · simp [he]
    · have := hF'.sum_le hne; omega
  have hcross : ∑ v ∈ A \ F', degreeIn G (F' ∩ A) v ≤ ∑ v ∈ F' ∩ A, degreeIn G A v := by
    rw [sum_degreeIn_comm]
    exact Finset.sum_le_sum fun v _ => degreeIn_mono Finset.sdiff_subset v
  have hdeg : ∑ v ∈ A \ F', degreeIn G A v =
      ∑ v ∈ A \ F', degreeIn G (A \ F') v + ∑ v ∈ A \ F', degreeIn G (F' ∩ A) v := by
    rw [← Finset.sum_add_distrib, ← sdiff_sdiff_eq_inter A F']
    exact Finset.sum_congr rfl fun v _ => degreeIn_sdiff Finset.sdiff_subset v
  omega

/-- A set of vertices of degree two that leads nowhere but to `f`. -/
structure Handle (G : SimpleGraph V) [DecidableRel G.Adj] (A T : Finset V) (f : V) : Prop where
  nonempty : T.Nonempty
  sub : T ⊆ A
  mem : f ∈ A
  notMem : f ∉ T
  two : ∀ v ∈ T, degreeIn G A v = 2
  closed : ∀ v ∈ T, ∀ w ∈ A, G.Adj v w → w = f ∨ w ∈ T
  back : degreeIn G A f = 2 → ∀ w ∈ A, G.Adj f w → w ∈ T

/-- A part of `X` that holds all neighbours its members have in `X`. -/
def ClosedIn (G : SimpleGraph V) (X T : Finset V) : Prop :=
  T ⊆ X ∧ ∀ v ∈ T, ∀ w ∈ X, G.Adj v w → w ∈ T

/-- A member of the solution is joined twice to some closed part that its core meets. -/
theorem exists_two_le_degreeIn (hX : X = A \ F) (hforest : ForestOn G X)
    (hF : Irredundant G A F) (hf : f ∈ F) (hfA : f ∈ A) :
    ∃ x ∈ X, ∀ T, ClosedIn G X T → x ∈ T → 2 ≤ degreeIn G T f := by
  obtain ⟨S, hS, hcore, hfS, honly⟩ := hF f hf hfA
  have hSX : ∀ v ∈ S, v ≠ f → v ∈ X := fun v hv hne =>
    hX ▸ Finset.mem_sdiff.mpr ⟨hS hv, fun hvF => hne (honly v hv hvF)⟩
  obtain ⟨x, hx, hadj⟩ := degreeIn_pos_iff.mp (Nat.zero_lt_two.trans_le (hcore.two_le f hfS))
  have hxX := hSX x hx fun he => G.loopless.irrefl f (he ▸ hadj)
  refine ⟨x, hxX, fun T hT hxT => ?_⟩
  by_contra hlt
  -- inside `S ∩ T` only one vertex can miss a neighbour, so `S ∩ T` has too many edges for a forest
  have hle := (hforest.mono (Finset.inter_subset_right.trans hT.1)).sum_le
    (A := S ∩ T) ⟨x, Finset.mem_inter.mpr ⟨hx, hxT⟩⟩
  have hfT : f ∉ S ∩ T := fun h => by
    have := hT.1 (Finset.mem_of_mem_inter_right h)
    rw [hX] at this
    exact (Finset.mem_sdiff.mp this).2 hf
  have hinner : ∀ v ∈ S ∩ T, 2 ≤ degreeIn G (insert f (S ∩ T)) v := by
    intro v hv
    obtain ⟨hvS, hvT⟩ := Finset.mem_inter.mp hv
    refine (hcore.two_le v hvS).trans ?_
    refine Finset.card_le_card fun w hw => ?_
    obtain ⟨hwS, hvw⟩ := Finset.mem_filter.mp hw
    refine Finset.mem_filter.mpr ⟨?_, hvw⟩
    rcases eq_or_ne w f with rfl | hne
    · exact Finset.mem_insert_self _ _
    · exact Finset.mem_insert_of_mem
        (Finset.mem_inter.mpr ⟨hwS, hT.2 v hvT w (hSX w hwS hne) hvw⟩)
  have hsum : 2 * (S ∩ T).card ≤
      ∑ v ∈ S ∩ T, degreeIn G (S ∩ T) v + degreeIn G (S ∩ T) f := by
    have hcount : ∑ v ∈ S ∩ T, degreeIn G (insert f (S ∩ T)) v =
        ∑ v ∈ S ∩ T, degreeIn G (S ∩ T) v + degreeIn G (S ∩ T) f := by
      have htotal := sum_degreeIn_insert (G := G) hfT
      rw [Finset.sum_insert hfT, degreeIn_insert_self hfT] at htotal
      omega
    rw [← hcount, mul_comm, ← smul_eq_mul]
    exact Finset.card_nsmul_le_sum _ _ _ hinner
  have hmono := degreeIn_mono (G := G) (Finset.inter_subset_right : S ∩ T ⊆ T) f
  omega

/-- A linked closed part pays for itself and for the members of the solution that are joined to it
    twice. -/
theorem part_charge (hX : X = A \ F) (hT : ClosedIn G X T) (hlinked : Linked G T)
    (hne : T.Nonempty) (hclean : ∀ v ∈ A, 2 ≤ degreeIn G A v) (hhandle : ∀ T f, ¬Handle G A T f)
    (hY : Y ⊆ F ∩ A) (htwo : ∀ f ∈ Y, 2 ≤ degreeIn G T f) :
    Y.card + 2 * T.card ≤ ∑ v ∈ T, degreeIn G A v := by
  have hTA : T ⊆ A := hT.1.trans (hX ▸ Finset.sdiff_subset)
  have hmin : 2 * T.card ≤ ∑ v ∈ T, degreeIn G A v := by
    rw [mul_comm, ← smul_eq_mul]
    exact Finset.card_nsmul_le_sum _ _ _ fun v hv => hclean v (hTA hv)
  have hinner := hlinked.le_sum hne
  -- the edges of `T` stay in `T` or go to the solution
  have hsplit : ∑ v ∈ T, degreeIn G A v =
      ∑ v ∈ T, degreeIn G T v + ∑ f ∈ F ∩ A, degreeIn G T f := by
    rw [sum_degreeIn_comm (F ∩ A) T, ← Finset.sum_add_distrib]
    refine Finset.sum_congr rfl fun v hv => ?_
    rw [← sdiff_sdiff_eq_inter A F, ← hX, degreeIn_sdiff (X := X) (hX ▸ Finset.sdiff_subset) v,
      degreeIn_eq_of_subset hT.1 (hT.2 v hv)]
  have hYsum : 2 * Y.card ≤ ∑ f ∈ Y, degreeIn G T f := by
    rw [mul_comm, ← smul_eq_mul]
    exact Finset.card_nsmul_le_sum _ _ _ htwo
  have hYle : ∑ f ∈ Y, degreeIn G T f ≤ ∑ f ∈ F ∩ A, degreeIn G T f :=
    Finset.sum_le_sum_of_subset hY
  by_contra hlt
  -- otherwise one member needs `T`, all of its degrees are two, and `T` is a handle
  obtain ⟨f, rfl⟩ : ∃ f, Y = {f} := Finset.card_eq_one.mp (by omega)
  obtain ⟨hfF, hfA⟩ := Finset.mem_inter.mp (hY (Finset.mem_singleton_self f))
  rw [Finset.card_singleton] at hlt hYsum
  rw [Finset.sum_singleton] at hYle hYsum
  have hall : ∀ v ∈ T, degreeIn G A v = 2 := by
    have hsum : ∑ v ∈ T, 2 = ∑ v ∈ T, degreeIn G A v := by
      rw [Finset.sum_const, smul_eq_mul]; omega
    exact fun v hv => ((Finset.sum_eq_sum_iff_of_le fun v hv => hclean v (hTA hv)).mp hsum v hv).symm
  have hother : ∀ u ∈ F ∩ A, u ≠ f → degreeIn G T u = 0 := by
    intro u hu hne
    have hpair := Finset.add_sum_erase (F ∩ A) (degreeIn G T) (Finset.mem_inter.mpr ⟨hfF, hfA⟩)
    have hsingle := Finset.single_le_sum (f := degreeIn G T) (fun _ _ => Nat.zero_le _)
      (Finset.mem_erase.mpr ⟨hne, hu⟩)
    omega
  have hfT : f ∉ T := fun h => (Finset.mem_sdiff.mp (hX ▸ hT.1 h)).2 hfF
  refine hhandle T f ⟨hne, hTA, hfA, hfT, hall, fun v hv w hw hadj => ?_, fun hdeg w hw hadj => ?_⟩
  · by_cases hwF : w ∈ F
    · refine Or.inl ?_
      by_contra hne
      have hzero := hother w (Finset.mem_inter.mpr ⟨hwF, hw⟩) hne
      have hpos : 0 < degreeIn G T w := degreeIn_pos_iff.mpr ⟨v, hv, hadj.symm⟩
      omega
    · exact Or.inr (hT.2 v hv w (hX ▸ Finset.mem_sdiff.mpr ⟨hw, hwF⟩) hadj)
  · have hfull : T.filter (G.Adj f) = A.filter (G.Adj f) :=
      Finset.eq_of_subset_of_card_le (Finset.filter_subset_filter _ hTA)
        (hdeg.le.trans (htwo f (Finset.mem_singleton_self f)))
    exact Finset.mem_of_mem_filter w (hfull ▸ Finset.mem_filter.mpr ⟨hw, hadj⟩)

/-! ### Components of what the solution leaves -/

/-- The edges inside `X`. -/
def within (G : SimpleGraph V) (X : Finset V) : SimpleGraph V where
  Adj u v := u ∈ X ∧ v ∈ X ∧ G.Adj u v
  symm := ⟨fun _ _ ⟨hu, hv, h⟩ => ⟨hv, hu, h.symm⟩⟩
  loopless := ⟨fun u ⟨_, _, h⟩ => G.loopless.irrefl u h⟩

section Components
open scoped Classical in
/-- The vertices of a component that are in `X`. -/
noncomputable def partOf (G : SimpleGraph V) (X : Finset V)
    (c : (within G X).ConnectedComponent) : Finset V :=
  X.filter fun v => (within G X).connectedComponentMk v = c

omit [DecidableEq V] [DecidableRel G.Adj] in
theorem mem_partOf {c : (within G X).ConnectedComponent} :
    v ∈ partOf G X c ↔ v ∈ X ∧ (within G X).connectedComponentMk v = c := by
  classical
  exact Finset.mem_filter

omit [DecidableEq V] [DecidableRel G.Adj] in
theorem closedIn_partOf (c : (within G X).ConnectedComponent) : ClosedIn G X (partOf G X c) := by
  refine ⟨fun v hv => (mem_partOf.mp hv).1, fun v hv w hw hadj => ?_⟩
  obtain ⟨hvX, rfl⟩ := mem_partOf.mp hv
  have hstep : (within G X).Adj w v := ⟨hw, hvX, hadj.symm⟩
  exact mem_partOf.mpr ⟨hw, SimpleGraph.ConnectedComponent.eq.mpr hstep.reachable⟩

omit [DecidableEq V] [DecidableRel G.Adj] in
theorem linked_partOf (c : (within G X).ConnectedComponent) : Linked G (partOf G X c) := by
  intro B hB ⟨b, hb⟩ hne
  obtain ⟨t, ht, htB⟩ := Finset.exists_of_ssubset (Finset.ssubset_iff_subset_ne.mpr ⟨hB, hne⟩)
  obtain ⟨hbX, hbc⟩ := mem_partOf.mp (hB hb)
  obtain ⟨htX, htc⟩ := mem_partOf.mp ht
  obtain ⟨p⟩ := SimpleGraph.ConnectedComponent.exact (hbc.trans htc.symm)
  -- a walk from `b` to `t` leaves `B` somewhere
  obtain ⟨d, -, hd, hd'⟩ := p.exists_boundary_dart (B : Set V) (Finset.mem_coe.mpr hb)
    fun h => htB (Finset.mem_coe.mp h)
  have hadj := d.adj
  exact ⟨d.fst, Finset.mem_coe.mp hd, d.snd,
    (closedIn_partOf c).2 _ (hB (Finset.mem_coe.mp hd)) _ hadj.2.1 hadj.2.2,
    fun h => hd' (Finset.mem_coe.mpr h), hadj.2.2⟩

/-- The components together pay for all members of the solution. -/
theorem card_add_le_sum (hforest : ForestOn G (A \ F)) (hF : Irredundant G A F)
    (hclean : ∀ v ∈ A, 2 ≤ degreeIn G A v) (hhandle : ∀ T f, ¬Handle G A T f) :
    (F ∩ A).card + 2 * (A \ F).card ≤ ∑ v ∈ A \ F, degreeIn G A v := by
  classical
  obtain ⟨X, hX⟩ : ∃ X, X = A \ F := ⟨_, rfl⟩
  rw [← hX] at hforest ⊢
  have hchoice : ∀ f, ∃ x, f ∈ F ∩ A →
      x ∈ X ∧ ∀ T, ClosedIn G X T → x ∈ T → 2 ≤ degreeIn G T f := by
    intro f
    by_cases hf : f ∈ F ∩ A
    · obtain ⟨hfF, hfA⟩ := Finset.mem_inter.mp hf
      obtain ⟨x, hx⟩ := exists_two_le_degreeIn hX hforest hF hfF hfA
      exact ⟨x, fun _ => hx⟩
    · exact ⟨f, fun h => absurd h hf⟩
  choose x hx using hchoice
  have hlabel : ∀ v ∈ X, (within G X).connectedComponentMk v ∈
      X.image (within G X).connectedComponentMk := fun v hv => Finset.mem_image_of_mem _ hv
  rw [← Finset.sum_fiberwise_of_maps_to hlabel (degreeIn G A),
    Finset.card_eq_sum_card_fiberwise hlabel,
    Finset.card_eq_sum_card_fiberwise (f := fun f => (within G X).connectedComponentMk (x f))
      (s := F ∩ A) fun f hf => hlabel (x f) (hx f hf).1,
    Finset.mul_sum, ← Finset.sum_add_distrib]
  refine Finset.sum_le_sum fun c hc => ?_
  obtain ⟨v, hv, hvc⟩ := Finset.mem_image.mp hc
  refine part_charge hX (closedIn_partOf c) (linked_partOf c) ⟨v, mem_partOf.mpr ⟨hv, hvc⟩⟩ hclean
    hhandle (Finset.filter_subset _ _) fun f hf => ?_
  obtain ⟨hf, hfc⟩ := Finset.mem_filter.mp hf
  exact (hx f hf).2 _ (closedIn_partOf c) (mem_partOf.mpr ⟨(hx f hf).1, hfc⟩)

end Components

/-- A charge of the degree less one on every vertex, in a graph without handles in which every
    vertex has degree at least two. -/
theorem degree_charge_le (hclean : ∀ v ∈ A, 2 ≤ degreeIn G A v) (hhandle : ∀ T f, ¬Handle G A T f)
    (hforest : ForestOn G (A \ F)) (hF : Irredundant G A F) (hF' : ForestOn G (A \ F')) :
    ∑ v ∈ F ∩ A, ((degreeIn G A v : ℚ) - 1) ≤ 2 * ∑ v ∈ F' ∩ A, ((degreeIn G A v : ℚ) - 1) := by
  have hlow := sum_degreeIn_le hF'
  have hhigh := card_add_le_sum hforest hF hclean hhandle
  have hsplit := sum_sdiff_add_sum_inter A F (degreeIn G A)
  have hcard : ∀ R : Finset V, (A \ R).card + (R ∩ A).card = A.card := fun R => by
    have := sum_sdiff_add_sum_inter A R fun _ => 1
    simpa only [Finset.sum_const, smul_eq_mul, mul_one] using this
  have hall : ∑ v ∈ F ∩ A, degreeIn G A v + 2 * (F' ∩ A).card ≤
      2 * ∑ v ∈ F' ∩ A, degreeIn G A v + (F ∩ A).card := by
    have := hcard F
    have := hcard F'
    omega
  have hcast : ∀ R : Finset V, ∑ v ∈ R ∩ A, ((degreeIn G A v : ℚ) - 1) =
      ((∑ v ∈ R ∩ A, degreeIn G A v : ℕ) : ℚ) - ((R ∩ A).card : ℚ) := fun R => by
    rw [Finset.sum_sub_distrib, Nat.cast_sum, Finset.sum_const, nsmul_eq_mul, mul_one]
  rw [hcast, hcast]
  have hq : ((∑ v ∈ F ∩ A, degreeIn G A v + 2 * (F' ∩ A).card : ℕ) : ℚ) ≤
      ((2 * ∑ v ∈ F' ∩ A, degreeIn G A v + (F ∩ A).card : ℕ) : ℚ) := Nat.cast_le.mpr hall
  push_cast at hq ⊢
  linarith

end Lib
