import GraphDialysis.Graph.EnsureBipartite
import Mathlib.SetTheory.Cardinal.NatCard

/-! The orbits of a subdivision, which `scripts/ground_truth.py` counts when it subdivides. An
    automorphism that keeps the old vertices among themselves is the extension of an automorphism of
    the graph (`exists_extends`). All of them do, unless some component is a cycle: it is enough that
    from every vertex one of another degree than 2 can be reached (`old_iff_of_isAut`). Then the orbits
    of the subdivision are those of the vertices and those of the edges (`orbits_subdivided`). -/

namespace Dialysis.Graph

/-- The number of orbits. -/
noncomputable def orbitCount {V : Type*} (Γ : Subgroup (Equiv.Perm V)) : ℕ :=
  Nat.card (Quotient (⟨OrbitMates Γ, orbitMates_equivalence Γ⟩ : Setoid V))

/-- A relation that never crosses from the one type to the other has the classes of both. -/
theorem card_quotient_sum {α β : Type*} [Finite α] [Finite β] (r : Setoid (α ⊕ β))
    (hcross : ∀ a b, ¬r (Sum.inl a) (Sum.inr b)) : Nat.card (Quotient r) =
      Nat.card (Quotient (r.comap Sum.inl)) + Nat.card (Quotient (r.comap Sum.inr)) := by
  rw [← Nat.card_sum]
  refine Nat.card_congr ⟨Quotient.lift (Sum.map (Quotient.mk (r.comap Sum.inl))
    (Quotient.mk (r.comap Sum.inr))) ?_, Sum.elim (Quotient.map Sum.inl fun _ _ h => h)
      (Quotient.map Sum.inr fun _ _ h => h), ?_, ?_⟩
  · rintro (a | b) (a' | b') h
    · exact congrArg Sum.inl (Quotient.sound h)
    · exact absurd h (hcross a b')
    · exact absurd (r.symm h) (hcross a' b)
    · exact congrArg Sum.inr (Quotient.sound h)
  · rintro ⟨a | b⟩ <;> rfl
  · rintro (q | q) <;> induction q using Quotient.inductionOn <;> rfl

variable {g : Graph}

/-- Some automorphism maps the one edge to the other. -/
def EdgeMates (g : Graph) (i j : Fin g.edges.length) : Prop := ∃ α ∈ g.Aut, ends j = (ends i).map α

theorem edgeMates_equivalence (g : Graph) : Equivalence (EdgeMates g) where
  refl := fun i => ⟨1, g.Aut.one_mem, (congrFun Sym2.map_id (ends i)).symm⟩
  symm := by
    rintro i j ⟨α, hα, hj⟩
    refine ⟨α⁻¹, g.Aut.inv_mem hα, ?_⟩
    rw [hj, Sym2.map_map]
    exact (congrFun Sym2.map_id (ends i)).symm.trans
      (Sym2.map_congr fun v _ => (α.symm_apply_apply v).symm)
  trans := by
    rintro i j k ⟨α, hα, hj⟩ ⟨β, hβ, hk⟩
    refine ⟨β * α, g.Aut.mul_mem hβ hα, ?_⟩
    rw [hk, hj, Sym2.map_map]
    rfl

/-- The number of orbits of the edges. -/
noncomputable def edgeOrbitCount (g : Graph) : ℕ :=
  Nat.card (Quotient (⟨EdgeMates g, edgeMates_equivalence g⟩ : Setoid (Fin g.edges.length)))

/-! ### Degrees -/

variable [g.Simple]

omit [g.Simple] in
/-- The neighbours of an old vertex are the vertices of its edges. -/
theorem adj_old (u : Fin g.n) (x : Fin g.subdivided.n) :
    x ∈ g.subdivided.adj (u.castAdd _) ↔ ∃ i : Fin g.edges.length, u ∈ ends i ∧ x = i.natAdd g.n := by
  refine adj_subdivided.trans ⟨?_, ?_⟩
  · rintro ⟨i, w, hw, ⟨hu, rfl⟩ | ⟨hu, -⟩⟩
    · obtain rfl := Fin.castAdd_injective _ _ hu
      exact ⟨i, hw, rfl⟩
    · exact absurd hu (castAdd_ne_natAdd u i)
  · rintro ⟨i, hi, rfl⟩
    exact ⟨i, u, hi, Or.inl ⟨rfl, rfl⟩⟩

/-- A degree is the number of neighbours. -/
theorem degree_eq_card (v : Fin g.n) : (g.adj v).length = (g.adj v).toFinset.card :=
  (List.toFinset_card_of_nodup (g.adj_nodup v)).symm

theorem degree_old (u : Fin g.n) : (g.subdivided.adj (u.castAdd _)).length = (g.adj u).length := by
  refine (degree_eq_card _).trans (Eq.trans ?_ (degree_eq_card u).symm)
  have hedge : ∀ v : Fin g.n, v ∈ (g.adj u).toFinset → ∃ i, ends i = s(u, v) := fun v hv =>
    exists_ends_eq.mpr (List.mem_toFinset.mp hv)
  refine (Finset.card_bij (fun v hv => ((hedge v hv).choose).natAdd g.n) (fun v hv => ?_)
    (fun v hv w hw heq => ?_) fun x hx => ?_).symm
  · refine List.mem_toFinset.mpr ((adj_old u _).mpr ⟨_, ?_, rfl⟩)
    rw [(hedge v hv).choose_spec]
    exact Sym2.mem_mk_left u v
  · have hchoose := congrArg ends (Fin.natAdd_injective _ _ heq)
    rw [(hedge v hv).choose_spec, (hedge w hw).choose_spec] at hchoose
    exact Sym2.congr_right.mp hchoose
  · obtain ⟨i, hi, rfl⟩ := (adj_old u x).mp (List.mem_toFinset.mp hx)
    obtain ⟨v, hv⟩ := Sym2.mem_iff_exists.mp hi
    have hadj : v ∈ (g.adj u).toFinset := List.mem_toFinset.mpr (exists_ends_eq.mp ⟨i, hv⟩)
    exact ⟨v, hadj, congrArg (Fin.natAdd g.n) (ends_injective ((hedge v hadj).choose_spec.trans hv.symm))⟩

omit [g.Simple] in
theorem length_eq_two {α : Type*} {l : List α} (hl : l.Nodup) {a b : α} (hab : a ≠ b)
    (h : ∀ x, x ∈ l ↔ x = a ∨ x = b) : l.length = 2 := by
  have hperm : l.Perm [a, b] := by
    refine (List.perm_ext_iff_of_nodup hl (by simpa using hab)).mpr fun x => ?_
    simpa using h x
  exact hperm.length_eq

theorem degree_new (i : Fin g.edges.length) : (g.subdivided.adj (i.natAdd g.n)).length = 2 := by
  refine length_eq_two (g.subdivided.adj_nodup _)
    (fun h => (edge_lt i).ne (Fin.castAdd_injective _ _ h)) fun x => (adj_new i x).trans ?_
  constructor
  · rintro ⟨u, hu, rfl⟩
    rcases Sym2.mem_iff.mp hu with rfl | rfl
    · exact Or.inl rfl
    · exact Or.inr rfl
  · rintro (rfl | rfl)
    · exact ⟨_, Sym2.mem_mk_left _ _, rfl⟩
    · exact ⟨_, Sym2.mem_mk_right _ _, rfl⟩

/-! ### Which vertices an automorphism can exchange -/

omit [g.Simple] in
theorem exists_castAdd_eq {x : Fin g.subdivided.n} (hx : x.1 < g.n) :
    ∃ u : Fin g.n, u.castAdd g.edges.length = x := ⟨⟨x.1, hx⟩, rfl⟩

omit [g.Simple] in
/-- Neighbours are of different kinds. -/
theorem old_iff_not_old {x y : Fin g.subdivided.n} (hy : y ∈ g.subdivided.adj x) :
    x.1 < g.n ↔ ¬y.1 < g.n := by
  obtain ⟨i, u, -, ⟨rfl, rfl⟩ | ⟨rfl, rfl⟩⟩ := adj_subdivided.mp hy <;> simp

/-- The ends of an edge are two steps apart. -/
theorem reachable_old {u v : Fin g.n} (h : g.Reachable u v) :
    g.subdivided.Reachable (u.castAdd _) (v.castAdd _) := by
  induction h with
  | refl => exact Relation.ReflTransGen.refl
  | tail _ hw ih =>
    obtain ⟨i, hi⟩ := exists_ends_eq.mpr hw
    refine (ih.tail ((adj_old _ _).mpr ⟨i, ?_, rfl⟩)).tail ((adj_new i _).mpr ⟨_, ?_, rfl⟩)
    · rw [hi]
      exact Sym2.mem_mk_left _ _
    · rw [hi]
      exact Sym2.mem_mk_right _ _

omit [g.Simple] in
/-- If an automorphism keeps the kind of one vertex, it keeps that of all it is joined with. -/
theorem keeps_kind {α : Equiv.Perm (Fin g.subdivided.n)} (hα : IsAut g.subdivided α)
    {x y : Fin g.subdivided.n} (h : g.subdivided.Reachable x y) (hx : (α x).1 < g.n ↔ x.1 < g.n) :
    (α y).1 < g.n ↔ y.1 < g.n := by
  induction h with
  | refl => exact hx
  | tail _ hw ih =>
    have hold := old_iff_not_old hw
    have hold' := old_iff_not_old ((hα _ _).mp hw)
    tauto

/-- Every vertex is joined with one whose degree is not 2. -/
def NoCycleComponent (g : Graph) : Prop := ∀ v, ∃ w, g.Reachable v w ∧ (g.adj w).length ≠ 2

theorem old_iff_of_isAut (hg : NoCycleComponent g) {α : Equiv.Perm (Fin g.subdivided.n)}
    (hα : IsAut g.subdivided α) (x : Fin g.subdivided.n) : (α x).1 < g.n ↔ x.1 < g.n := by
  -- a vertex of another degree than 2 stays old
  have hodd : ∀ w : Fin g.n, (g.adj w).length ≠ 2 → (α (w.castAdd _)).1 < g.n := by
    intro w hw
    by_contra hnew
    obtain ⟨i, hi⟩ := exists_natAdd_eq (not_lt.mp hnew)
    have hdegree := hα.degree (w.castAdd _)
    rw [degree_old, ← hi] at hdegree
    exact hw (hdegree.symm.trans (degree_new i))
  have hold : ∀ u : Fin g.n, ((α (u.castAdd _)).1 < g.n ↔ (u.castAdd g.edges.length).1 < g.n) := by
    intro u
    obtain ⟨w, hreach, hw⟩ := hg u
    refine keeps_kind hα (reachable_old (Reachable.symm hreach)) ?_
    exact iff_of_true (hodd w hw) (by simp)
  by_cases hx : x.1 < g.n
  · obtain ⟨u, rfl⟩ := exists_castAdd_eq hx
    exact hold u
  · obtain ⟨i, rfl⟩ := exists_natAdd_eq (not_lt.mp hx)
    have hadj : (g.edges.get i).1.castAdd _ ∈ g.subdivided.adj (i.natAdd g.n) :=
      (adj_new i _).mpr ⟨_, Sym2.mem_mk_left _ _, rfl⟩
    exact keeps_kind hα (Relation.ReflTransGen.single (Simple.symm hadj)) (hold _)

/-- An automorphism that keeps the kinds of the vertices extends one of the graph. -/
theorem exists_extends {α : Equiv.Perm (Fin g.subdivided.n)} (hα : IsAut g.subdivided α)
    (hold : ∀ x, (α x).1 < g.n ↔ x.1 < g.n) : ∃ β, ∃ hβ : IsAut g β, α = subdividedEquiv hβ := by
  have himage : ∀ u : Fin g.n, ∃ v : Fin g.n, v.castAdd g.edges.length = α (u.castAdd _) := fun u =>
    exists_castAdd_eq ((hold _).mpr (by simp))
  choose f hf using himage
  have hinj : Function.Injective f := fun u v huv => by
    have : α (u.castAdd _) = α (v.castAdd _) := by rw [← hf, ← hf, huv]
    exact Fin.castAdd_injective _ _ (α.injective this)
  let β : Equiv.Perm (Fin g.n) := Equiv.ofBijective f (Finite.injective_iff_bijective.mp hinj)
  -- an edge's vertex goes to that of the image edge
  have hends : ∀ i : Fin g.edges.length, ∃ j : Fin g.edges.length,
      α (i.natAdd g.n) = j.natAdd g.n ∧ ends j = (ends i).map β := by
    intro i
    have hnew : ¬(α (i.natAdd g.n)).1 < g.n := fun h => absurd ((hold _).mp h) (by simp)
    obtain ⟨j, hj⟩ := exists_natAdd_eq (not_lt.mp hnew)
    have hmem : ∀ u : Fin g.n, u ∈ ends i → f u ∈ ends j := by
      intro u hu
      have hadj := (hα _ _).mp ((adj_new i _).mpr ⟨u, hu, rfl⟩)
      rw [← hj, ← hf] at hadj
      obtain ⟨w, hw, heq⟩ := (adj_new j _).mp hadj
      rwa [Fin.castAdd_injective _ _ heq]
    refine ⟨j, hj.symm, ?_⟩
    have hne : f (g.edges.get i).1 ≠ f (g.edges.get i).2 := fun h => (edge_lt i).ne (hinj h)
    exact (Sym2.mem_and_mem_iff hne).mp ⟨hmem _ (Sym2.mem_mk_left _ _), hmem _ (Sym2.mem_mk_right _ _)⟩
  have hβ : IsAut g β := by
    refine isAut_of_forward fun v w hw => ?_
    obtain ⟨i, hi⟩ := exists_ends_eq.mpr hw
    obtain ⟨j, -, hj⟩ := hends i
    rw [hi, Sym2.map_mk] at hj
    exact exists_ends_eq.mp ⟨j, hj⟩
  refine ⟨β, hβ, Equiv.ext fun x => ?_⟩
  by_cases hx : x.1 < g.n
  · obtain ⟨u, rfl⟩ := exists_castAdd_eq hx
    rw [subdividedEquiv_old]
    exact (hf u).symm
  · obtain ⟨i, rfl⟩ := exists_natAdd_eq (not_lt.mp hx)
    obtain ⟨j, hj, hjends⟩ := hends i
    rw [subdividedEquiv_new, hj, ends_injective (hjends.trans (ends_edgeEquiv hβ i).symm)]

/-! ### The orbits -/

/-- The orbits of the subdivision are those of the old vertices and those of the edges. -/
theorem orbits_subdivided (g : Graph) [g.Simple] (hg : NoCycleComponent g) :
    (∀ u v : Fin g.n, OrbitMates g.subdivided.Aut (u.castAdd _) (v.castAdd _) ↔ OrbitMates g.Aut u v) ∧
      (∀ i j : Fin g.edges.length,
        OrbitMates g.subdivided.Aut (i.natAdd g.n) (j.natAdd g.n) ↔ EdgeMates g i j) ∧
      (∀ (u : Fin g.n) (i : Fin g.edges.length), ¬OrbitMates g.subdivided.Aut (u.castAdd _) (i.natAdd g.n)) ∧
      orbitCount g.subdivided.Aut = orbitCount g.Aut + edgeOrbitCount g := by
  have hvertex : ∀ u v : Fin g.n,
      OrbitMates g.subdivided.Aut (u.castAdd _) (v.castAdd _) ↔ OrbitMates g.Aut u v := by
    intro u v
    constructor
    · rintro ⟨α, hα, huv⟩
      obtain ⟨β, hβ, rfl⟩ := exists_extends hα (old_iff_of_isAut hg hα)
      rw [subdividedEquiv_old] at huv
      exact ⟨β, hβ, Fin.castAdd_injective _ _ huv⟩
    · rintro ⟨β, hβ, rfl⟩
      exact ⟨subdividedEquiv hβ, subdivided_isIso hβ, subdividedEquiv_old hβ u⟩
  have hedge : ∀ i j : Fin g.edges.length,
      OrbitMates g.subdivided.Aut (i.natAdd g.n) (j.natAdd g.n) ↔ EdgeMates g i j := by
    intro i j
    constructor
    · rintro ⟨α, hα, hij⟩
      obtain ⟨β, hβ, rfl⟩ := exists_extends hα (old_iff_of_isAut hg hα)
      rw [subdividedEquiv_new] at hij
      exact ⟨β, hβ, by rw [← Fin.natAdd_injective _ _ hij, ends_edgeEquiv]⟩
    · rintro ⟨β, hβ, hj⟩
      refine ⟨subdividedEquiv hβ, subdivided_isIso hβ, (subdividedEquiv_new hβ i).trans ?_⟩
      rw [ends_injective ((ends_edgeEquiv hβ i).trans hj.symm)]
  have hcross : ∀ (u : Fin g.n) (i : Fin g.edges.length),
      ¬OrbitMates g.subdivided.Aut (u.castAdd _) (i.natAdd g.n) := by
    rintro u i ⟨α, hα, hui⟩
    have := (old_iff_of_isAut hg hα (u.castAdd _)).mpr (by simp)
    rw [hui] at this
    simp at this
  refine ⟨hvertex, hedge, hcross, ?_⟩
  let r : Setoid (Fin g.subdivided.n) := ⟨OrbitMates _, orbitMates_equivalence g.subdivided.Aut⟩
  have hsum : Nat.card (Quotient (r.comap finSumFinEquiv)) = orbitCount g.subdivided.Aut :=
    Nat.card_congr (Quotient.congr finSumFinEquiv fun _ _ => Iff.rfl)
  rw [← hsum, card_quotient_sum _ hcross]
  exact congrArg₂ (· + ·) (Nat.card_congr (Quotient.congr (Equiv.refl _) hvertex))
    (Nat.card_congr (Quotient.congr (Equiv.refl _) hedge))

theorem orbits_subdivided_path :
    orbitCount (ofEdges 3 [(0, 1), (1, 2)]).subdivided.Aut =
      orbitCount (ofEdges 3 [(0, 1), (1, 2)]).Aut + edgeOrbitCount (ofEdges 3 [(0, 1), (1, 2)]) := by
  have hlast : ∀ v : Fin (ofEdges 3 [(0, 1), (1, 2)]).n, ((ofEdges 3 [(0, 1), (1, 2)]).adj v).length = 2 →
      (⟨0, by decide⟩ : Fin (ofEdges 3 [(0, 1), (1, 2)]).n) ∈ (ofEdges 3 [(0, 1), (1, 2)]).adj v := by
    decide
  refine (orbits_subdivided _ fun v => ?_).2.2.2
  by_cases hv : ((ofEdges 3 [(0, 1), (1, 2)]).adj v).length = 2
  · exact ⟨_, Relation.ReflTransGen.single (hlast v hv), by decide⟩
  · exact ⟨v, Relation.ReflTransGen.refl, hv⟩

/-- The subdivision of a triangle is a hexagon, whose turn by one step exchanges the kinds. -/
theorem triangle_exchanges :
    OrbitMates (ofEdges 3 [(0, 1), (0, 2), (1, 2)]).subdivided.Aut (0 : Fin 6) (3 : Fin 6) := by
  have hturn : ∃ α : Equiv.Perm (Fin 6), IsAut (ofEdges 3 [(0, 1), (0, 2), (1, 2)]).subdivided α ∧ α 0 = 3 :=
    ⟨⟨![3, 5, 4, 1, 0, 2], ![4, 3, 5, 0, 2, 1], by decide, by decide⟩, fun v w => by
      revert v w
      decide +kernel, rfl⟩
  exact hturn

end Dialysis.Graph
