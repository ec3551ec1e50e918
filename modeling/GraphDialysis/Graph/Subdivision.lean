import GraphDialysis.Graph.Basic
import Mathlib.Data.Sym.Sym2
import Mathlib.Logic.Equiv.Fin.Basic

/-! `Graph.subdivided`: one new vertex per edge, numbered after the old ones in the order in which the
    edges are first seen. An old vertex and a new one are adjacent when the one is an end of the
    other's edge (`adj_subdivided`), so every isomorphism extends, mapping an edge's vertex to that
    of the image edge (`subdivided_isIso`). -/

namespace Dialysis.Graph

variable (g : Graph)

/-- The four entries that the edge `i` makes in the buckets. -/
def bucketEntries (i : Fin g.edges.length) :
    List (Fin (g.n + g.edges.length) × Fin (g.n + g.edges.length)) :=
  let u := (g.edges.get i).1.castAdd g.edges.length
  let v := (g.edges.get i).2.castAdd g.edges.length
  let w := i.natAdd g.n
  [(u, w), (w, u), (w, v), (v, w)]

/-- `bucket[x]`, in the order of insertion. -/
def bucket (x : Fin (g.n + g.edges.length)) : List (Fin (g.n + g.edges.length)) :=
  ((List.finRange g.edges.length).flatMap g.bucketEntries).filterMap fun p =>
    if p.1 = x then some p.2 else none

/-- Edge subdivision. -/
def subdivided : Graph where
  n := g.n + g.edges.length
  adj := fun x => (g.bucket x).insertionSort (· ≤ ·)
  names := Fin.addCases g.names fun i => "#" ++ toString i.val

variable {g}

/-- The ends of the edge `i`. -/
def ends (i : Fin g.edges.length) : Sym2 (Fin g.n) := s((g.edges.get i).1, (g.edges.get i).2)

theorem mem_bucket {x y : Fin (g.n + g.edges.length)} : y ∈ g.bucket x ↔
    ∃ i : Fin g.edges.length, ∃ u ∈ ends i, (x = u.castAdd _ ∧ y = i.natAdd _) ∨
      (x = i.natAdd _ ∧ y = u.castAdd _) := by
  simp only [bucket, List.mem_filterMap, List.mem_flatMap, List.mem_finRange, true_and, bucketEntries,
    List.mem_cons, List.not_mem_nil, or_false, ends, Sym2.mem_iff]
  constructor
  · rintro ⟨p, ⟨i, hp⟩, hy⟩
    rcases hp with rfl | rfl | rfl | rfl <;> simp only [Option.ite_none_right_eq_some,
      Option.some.injEq] at hy <;> obtain ⟨rfl, rfl⟩ := hy
    · exact ⟨i, _, Or.inl rfl, Or.inl ⟨rfl, rfl⟩⟩
    · exact ⟨i, _, Or.inl rfl, Or.inr ⟨rfl, rfl⟩⟩
    · exact ⟨i, _, Or.inr rfl, Or.inr ⟨rfl, rfl⟩⟩
    · exact ⟨i, _, Or.inr rfl, Or.inl ⟨rfl, rfl⟩⟩
  · rintro ⟨i, u, hu, h⟩
    refine ⟨(x, y), ⟨i, ?_⟩, by simp⟩
    rcases hu with rfl | rfl <;> rcases h with ⟨rfl, rfl⟩ | ⟨rfl, rfl⟩ <;> simp

theorem adj_subdivided {x y : Fin (g.n + g.edges.length)} : y ∈ g.subdivided.adj x ↔
    ∃ i : Fin g.edges.length, ∃ u ∈ ends i, (x = u.castAdd _ ∧ y = i.natAdd _) ∨
      (x = i.natAdd _ ∧ y = u.castAdd _) := by
  change y ∈ List.insertionSort _ _ ↔ _
  rw [List.mem_insertionSort, mem_bucket]

/-! ### Edges and their ends -/

theorem edges_nodup [g.Simple] : g.edges.Nodup := by
  rw [edges, List.nodup_flatMap]
  refine ⟨fun u _ => ((g.adj_nodup u).filter _).map fun v w h => (Prod.mk.inj h).2, ?_⟩
  refine (List.nodup_finRange g.n).imp fun {u u'} huu p hp hp' => ?_
  obtain ⟨v, -, rfl⟩ := List.mem_map.mp hp
  obtain ⟨v', -, h⟩ := List.mem_map.mp hp'
  exact huu (Prod.mk.inj h).1.symm

theorem edge_lt (i : Fin g.edges.length) : (g.edges.get i).1 < (g.edges.get i).2 :=
  (mem_edges.mp (List.get_mem g.edges i)).2

/-- Different edges have different ends. -/
theorem ends_injective [g.Simple] : Function.Injective (ends (g := g)) := by
  intro i j h
  have hi := edge_lt i
  have hj := edge_lt j
  refine edges_nodup.injective_get ?_
  rcases Sym2.eq_iff.mp h with ⟨h₁, h₂⟩ | ⟨h₁, h₂⟩
  · exact Prod.ext h₁ h₂
  · rw [h₁, h₂] at hi
    exact absurd hi hj.asymm

/-- Adjacent vertices are the ends of an edge. -/
theorem exists_ends_eq [g.Simple] {u v : Fin g.n} : (∃ i, ends i = s(u, v)) ↔ v ∈ g.adj u := by
  constructor
  · rintro ⟨i, hi⟩
    have hadj := (mem_edges.mp (List.get_mem g.edges i)).1
    rcases Sym2.eq_iff.mp hi with ⟨rfl, rfl⟩ | ⟨rfl, rfl⟩
    · exact hadj
    · exact Simple.symm hadj
  · intro hadj
    rcases lt_trichotomy u v with hlt | rfl | hgt
    · obtain ⟨i, hi⟩ := List.get_of_mem (mem_edges.mpr ⟨hadj, hlt⟩)
      exact ⟨i, by rw [ends, hi]⟩
    · exact absurd hadj (Simple.irrefl u)
    · obtain ⟨i, hi⟩ := List.get_of_mem (mem_edges.mpr ⟨Simple.symm hadj, hgt⟩)
      exact ⟨i, by rw [ends, hi, Sym2.eq_swap]⟩

/-- The larger id of an entry is that of its edge. -/
theorem max_bucketEntries {i : Fin g.edges.length} {p : Fin (g.n + g.edges.length) × Fin (g.n + g.edges.length)}
    (hp : p ∈ g.bucketEntries i) : max p.1.val p.2.val = g.n + i := by
  simp only [bucketEntries, List.mem_cons, List.not_mem_nil, or_false] at hp
  rcases hp with rfl | rfl | rfl | rfl <;> simp only [Fin.val_castAdd, Fin.val_natAdd] <;> omega

theorem bucketEntries_nodup (i : Fin g.edges.length) : (g.bucketEntries i).Nodup := by
  have hlt := edge_lt i
  have := Fin.lt_def.mp hlt
  simp only [bucketEntries, List.nodup_cons, List.mem_cons, List.not_mem_nil, or_false,
    Prod.mk.injEq, Fin.ext_iff, Fin.val_castAdd, Fin.val_natAdd, not_or, not_false_eq_true,
    List.nodup_nil, and_true]
  omega

/-- Nothing is put into a bucket twice. -/
theorem bucket_nodup (x : Fin (g.n + g.edges.length)) : (g.bucket x).Nodup := by
  refine List.Nodup.filterMap (fun p q y hp hq => ?_) (List.nodup_flatMap.mpr
    ⟨fun i _ => bucketEntries_nodup i, (List.nodup_finRange _).imp fun {i j} hij p hp hq => ?_⟩)
  · simp only [Option.mem_def, Option.ite_none_right_eq_some, Option.some.injEq] at hp hq
    exact Prod.ext (hp.1.trans hq.1.symm) (hp.2.trans hq.2.symm)
  · have := (max_bucketEntries hp).symm.trans (max_bucketEntries hq)
    exact hij (Fin.ext (by omega))

instance [g.Simple] : g.subdivided.Simple where
  sorted := fun x => sorted_lt_insertionSort (g.bucket_nodup x)
  symm := fun {x y} h => by
    obtain ⟨i, u, hu, h⟩ := adj_subdivided.mp h
    exact adj_subdivided.mpr ⟨i, u, hu, h.symm.imp And.symm And.symm⟩
  irrefl := fun x h => by
    obtain ⟨i, u, -, ⟨hx, hx'⟩ | ⟨hx, hx'⟩⟩ := adj_subdivided.mp h
    · have := congrArg Fin.val (hx.symm.trans hx')
      simp at this
      omega
    · have := congrArg Fin.val (hx.symm.trans hx')
      simp at this
      omega

/-! ### Isomorphisms extend -/

variable {h : Graph} [g.Simple] [h.Simple] {e : Fin g.n ≃ Fin h.n}

theorem exists_ends_map (he : IsIso g h e) (i : Fin g.edges.length) :
    ∃ j, ends (g := h) j = (ends i).map e := by
  rw [ends, Sym2.map_mk]
  exact exists_ends_eq.mpr ((he _ _).mp (exists_ends_eq.mp ⟨i, rfl⟩))

/-- The image of an edge. -/
noncomputable def edgeEquiv (he : IsIso g h e) : Fin g.edges.length ≃ Fin h.edges.length :=
  Equiv.ofBijective (fun i => (exists_ends_map he i).choose) (by
    have hspec := fun i => (exists_ends_map he i).choose_spec
    refine ⟨fun i i' hii => ends_injective (Sym2.map.injective e.injective ?_), fun j => ?_⟩
    · rw [← hspec i, ← hspec i']
      exact congrArg ends hii
    · obtain ⟨i, hi⟩ := exists_ends_map he.symm j
      refine ⟨i, ends_injective ?_⟩
      rw [hspec i, hi, Sym2.map_map, e.self_comp_symm, Sym2.map_id, id_eq])

theorem ends_edgeEquiv (he : IsIso g h e) (i : Fin g.edges.length) :
    ends (edgeEquiv he i) = (ends i).map e := (exists_ends_map he i).choose_spec

/-- The extension of an isomorphism to the subdivisions. -/
noncomputable def subdividedEquiv (he : IsIso g h e) : Fin g.subdivided.n ≃ Fin h.subdivided.n :=
  finSumFinEquiv.symm.trans ((Equiv.sumCongr e (edgeEquiv he)).trans finSumFinEquiv)

theorem subdividedEquiv_old (he : IsIso g h e) (u : Fin g.n) :
    subdividedEquiv he (u.castAdd g.edges.length) = (e u).castAdd h.edges.length := by
  change finSumFinEquiv (Sum.map e (edgeEquiv he) (finSumFinEquiv.symm (u.castAdd _))) = _
  rw [finSumFinEquiv_symm_apply_castAdd, Sum.map_inl, finSumFinEquiv_apply_left]

theorem subdividedEquiv_new (he : IsIso g h e) (i : Fin g.edges.length) :
    subdividedEquiv he (i.natAdd g.n) = (edgeEquiv he i).natAdd h.n := by
  change finSumFinEquiv (Sum.map e (edgeEquiv he) (finSumFinEquiv.symm (i.natAdd _))) = _
  rw [finSumFinEquiv_symm_apply_natAdd, Sum.map_inr, finSumFinEquiv_apply_right]

theorem mem_ends_edgeEquiv (he : IsIso g h e) {i : Fin g.edges.length} {u : Fin g.n} :
    e u ∈ ends (edgeEquiv he i) ↔ u ∈ ends i := by
  rw [ends_edgeEquiv, Sym2.mem_map]
  exact ⟨fun ⟨w, hw, hwu⟩ => e.injective hwu ▸ hw, fun hu => ⟨u, hu, rfl⟩⟩

/-- Old vertices go to old ones, edges to their images, and ends to ends. -/
theorem subdivided_isIso (he : IsIso g h e) :
    IsIso g.subdivided h.subdivided (subdividedEquiv he) := by
  intro x y
  refine Iff.trans adj_subdivided (Iff.trans ?_ adj_subdivided.symm)
  constructor
  · rintro ⟨i, u, hu, hxy⟩
    refine ⟨edgeEquiv he i, e u, (mem_ends_edgeEquiv he).mpr hu, hxy.imp ?_ ?_⟩
    · rintro ⟨rfl, rfl⟩
      exact ⟨subdividedEquiv_old he u, subdividedEquiv_new he i⟩
    · rintro ⟨rfl, rfl⟩
      exact ⟨subdividedEquiv_new he i, subdividedEquiv_old he u⟩
  · rintro ⟨j, w, hw, hxy⟩
    obtain ⟨i, rfl⟩ := (edgeEquiv he).surjective j
    obtain ⟨u, rfl⟩ := e.surjective w
    rw [← subdividedEquiv_old he, ← subdividedEquiv_new he] at hxy
    refine ⟨i, u, (mem_ends_edgeEquiv he).mp hw, hxy.imp ?_ ?_⟩
    · exact fun h => ⟨(subdividedEquiv he).injective h.1, (subdividedEquiv he).injective h.2⟩
    · exact fun h => ⟨(subdividedEquiv he).injective h.1, (subdividedEquiv he).injective h.2⟩

end Dialysis.Graph
