import GraphDialysis.Gadgetxor.Clusters
import GraphDialysis.Gadgetxor.GadgetPartition
import GraphDialysis.Gadgetxor.RealFileBypassedGadgetReconstruction
import GraphDialysis.Lib.ExactCover

/-! The two passes of `RealFileBypassedGadgetReconstruction`. Pass 1 leaves blocks without common vertices, and
    pass 2 finds a partition of the leftover vertices into K4s of one degree exactly when there is
    one, since a K4 lies in one component. So the gadgets are a partition of the vertices into K4s,
    and neither of the other two checks ever decides anything (`reconstruct_gadgets`). -/

namespace Dialysis.RealFileBypassedGadgetReconstruction
open Lib Lib.Bfs
open RealFileGadgetXor (pairsOf)

/-- Four vertices in ascending order, adjacent to each other. -/
structure IsK4 (g : Graph) (b : List (Fin g.n)) : Prop where
  length : b.length = 4
  sorted : b.Pairwise (· < ·)
  adj : ∀ x ∈ b, ∀ y ∈ b, x ≠ y → y ∈ g.adj x

def EqualDegrees (g : Graph) (b : List (Fin g.n)) : Prop :=
  ∀ x ∈ b, ∀ y ∈ b, (g.adj x).length = (g.adj y).length

/-- Blocks may be taken together whatever they are. -/
def Free {n : ℕ} (_ _ : List (Fin n)) : Prop := True

/-- Every vertex is in one of the gadgets, and in no other. -/
structure GadgetPartition (g : Graph) (gadgets : List (Gadget g.n)) : Prop where
  k4 : ∀ gadget ∈ gadgets, IsK4 g gadget.members
  apart : gadgets.Pairwise fun gadget gadget' => ∀ v ∈ gadget.members, v ∉ gadget'.members
  cover : ∀ v, ∃ gadget ∈ gadgets, v ∈ gadget.members

variable {g : Graph} {hashOrder : HashOrder g.n}

/-! ### Triples and K4s -/

theorem mem_pairsOf_iff {α : Type*} {a b : α} : ∀ {l : List α}, (a, b) ∈ pairsOf l ↔ [a, b].Sublist l
  | [] => by simp [pairsOf]
  | c :: l => by
    rw [pairsOf, List.mem_append, mem_pairsOf_iff, List.mem_map, List.sublist_cons_iff, or_comm]
    refine or_congr_right ⟨?_, ?_⟩
    · rintro ⟨b', hb', heq⟩
      obtain ⟨rfl, rfl⟩ := Prod.mk.inj heq
      exact ⟨[b'], rfl, List.singleton_sublist.mpr hb'⟩
    · rintro ⟨r, heq, hr⟩
      obtain ⟨rfl, rfl⟩ := List.cons.inj heq
      exact ⟨b, List.singleton_sublist.mp hr, rfl⟩

theorem mem_triplesOf_iff {α : Type*} {a b c : α} : ∀ {l : List α},
    (a, b, c) ∈ triplesOf l ↔ [a, b, c].Sublist l
  | [] => by simp [triplesOf]
  | d :: l => by
    rw [triplesOf, List.mem_append, mem_triplesOf_iff, List.mem_map, List.sublist_cons_iff, or_comm]
    refine or_congr_right ⟨?_, ?_⟩
    · rintro ⟨p, hp, heq⟩
      obtain ⟨rfl, rfl⟩ := Prod.mk.inj heq
      exact ⟨[b, c], rfl, mem_pairsOf_iff.mp hp⟩
    · rintro ⟨r, heq, hr⟩
      obtain ⟨rfl, rfl⟩ := List.cons.inj heq
      exact ⟨(b, c), mem_pairsOf_iff.mpr hr, rfl⟩

theorem mem_adjSets {v w : Fin g.n} : w ∈ adjSets g hashOrder v ↔ w ∈ g.adj v := hashOrder.mem_iff

theorem mem_adjWithin {vertices : List (Fin g.n)} {v w : Fin g.n} :
    w ∈ adjWithin g hashOrder vertices v ↔ w ∈ g.adj v ∧ w ∈ vertices := by
  rw [adjWithin, List.mem_filter, mem_adjSets, decide_eq_true_eq]

theorem length_adjSets [g.Simple] (v : Fin g.n) : (adjSets g hashOrder v).length = (g.adj v).length :=
  ((List.perm_ext_iff_of_nodup (hashOrder.nodup _) (g.adj_nodup v)).mpr fun _ => mem_adjSets).length_eq

theorem isTriangle_iff {x y z : Fin g.n} :
    isTriangle g (x, y, z) ↔ [x, y, z].Pairwise fun a b => b ∈ g.adj a := by
  simp only [isTriangle, List.pairwise_cons, List.mem_cons, List.not_mem_nil, or_false, forall_eq_or_imp,
    forall_eq, IsEmpty.forall_iff, implies_true, List.Pairwise.nil, and_true]
  constructor
  · rintro ⟨hxz, hxy, hyz⟩
    exact ⟨⟨hxy, hxz⟩, hyz⟩
  · rintro ⟨⟨hxy, hxz⟩, hyz⟩
    exact ⟨hxz, hxy, hyz⟩

/-- Four vertices that are adjacent to each other, sorted. -/
theorem isK4_sort [g.Simple] {l : List (Fin g.n)} (hlen : l.length = 4)
    (h : l.Pairwise fun a b => b ∈ g.adj a) : IsK4 g (l.insertionSort (· ≤ ·)) where
  length := by rw [List.length_insertionSort, hlen]
  sorted := by
    refine sorted_lt_insertionSort (h.imp fun {a b} hab => ?_)
    rintro rfl
    exact Graph.Simple.irrefl a hab
  adj := by
    have hsymm : Std.Symm fun a b : Fin g.n => b ∈ g.adj a := ⟨fun _ _ => Graph.Simple.symm⟩
    intro x hx y hy hne
    exact h.forall ((List.mem_insertionSort _).mp hx) ((List.mem_insertionSort _).mp hy) hne

theorem IsK4.nodup {b : List (Fin g.n)} (h : IsK4 g b) : b.Nodup := h.sorted.imp fun hlt => ne_of_lt hlt

theorem IsK4.exists_mem {b : List (Fin g.n)} (h : IsK4 g b) : ∃ m, m ∈ b := by
  refine List.exists_mem_of_length_pos ?_
  rw [h.length]
  decide

theorem IsK4.eq_of_mem_iff {b b' : List (Fin g.n)} (h : IsK4 g b) (h' : IsK4 g b') (hmem : ∀ v, v ∈ b ↔ v ∈ b') :
    b = b' :=
  h.sorted.eq_of_mem_iff h'.sorted fun v => hmem v

/-- The block of a triangle among the neighbours of `m`. -/
theorem isK4_of_triple [g.Simple] {m : Fin g.n} {t : Fin g.n × Fin g.n × Fin g.n} {l : List (Fin g.n)}
    (hl : ∀ v ∈ l, v ∈ g.adj m) (ht : t ∈ triplesOf l) (htriangle : isTriangle g t) :
    IsK4 g ([m, t.1, t.2.1, t.2.2].insertionSort (· ≤ ·)) := by
  obtain ⟨x, y, z⟩ := t
  have hsub := mem_triplesOf_iff.mp ht
  exact isK4_sort rfl (List.pairwise_cons.mpr ⟨fun v hv => hl v (hsub.subset hv), isTriangle_iff.mp htriangle⟩)

/-- Every K4 is found from each of its vertices. -/
theorem IsK4.exists_triple [g.Simple] {b : List (Fin g.n)} (h : IsK4 g b) {m : Fin g.n} (hm : m ∈ b)
    {l : List (Fin g.n)} (hnodup : l.Nodup) (hl : ∀ v ∈ b, v ≠ m → v ∈ l) :
    ∃ t ∈ triplesOf l, isTriangle g t ∧ [m, t.1, t.2.1, t.2.2].insertionSort (· ≤ ·) = b := by
  -- the three others, in the order of `l`
  have hothers : (l.filter fun v => v ∈ b ∧ v ≠ m).Perm (b.erase m) := by
    refine (List.perm_ext_iff_of_nodup (hnodup.filter _) (h.nodup.erase m)).mpr fun v => ?_
    rw [List.mem_filter, decide_eq_true_eq, h.nodup.mem_erase_iff]
    exact ⟨fun hv => ⟨hv.2.2, hv.2.1⟩, fun hv => ⟨hl v hv.2 hv.1, hv.2, hv.1⟩⟩
  obtain ⟨x, y, z, heq⟩ : ∃ x y z, l.filter (fun v => v ∈ b ∧ v ≠ m) = [x, y, z] := by
    refine List.length_eq_three.mp ?_
    rw [hothers.length_eq, List.length_erase_of_mem hm, h.length]
  have hmem : ∀ v ∈ [x, y, z], v ∈ b ∧ v ≠ m := fun v hv => by
    rw [← heq] at hv
    simpa using (List.mem_filter.mp hv).2
  have hxyz : [x, y, z].Nodup := heq ▸ hnodup.filter _
  have hpair : [m, x, y, z].Pairwise fun a b => b ∈ g.adj a := by
    refine List.pairwise_cons.mpr ⟨fun v hv => h.adj m hm v (hmem v hv).1 (hmem v hv).2.symm, ?_⟩
    exact hxyz.imp_of_mem fun ha hb hne => h.adj _ (hmem _ ha).1 _ (hmem _ hb).1 hne
  refine ⟨(x, y, z), mem_triplesOf_iff.mpr (heq ▸ List.filter_sublist),
    isTriangle_iff.mpr (List.pairwise_cons.mp hpair).2, (isK4_sort rfl hpair).eq_of_mem_iff h fun v => ?_⟩
  have hperm : [m, x, y, z].Perm b := (heq ▸ hothers.cons m).trans (List.perm_cons_erase hm).symm
  rw [List.mem_insertionSort]
  exact hperm.mem_iff

theorem mem_k4s [g.Simple] {comp b : List (Fin g.n)} :
    b ∈ k4s g hashOrder comp ↔ IsK4 g b ∧ ∀ v ∈ b, v ∈ comp := by
  simp only [k4s, List.mem_eraseDups, List.mem_flatMap, List.mem_map, List.mem_filter, decide_eq_true_eq]
  constructor
  · rintro ⟨m, hm, t, ⟨ht, htriangle⟩, rfl⟩
    refine ⟨isK4_of_triple (fun v hv => (mem_adjWithin.mp hv).1) ht htriangle, fun v hv => ?_⟩
    rw [List.mem_insertionSort, List.mem_cons] at hv
    rcases hv with rfl | hv
    · exact hm
    · exact (mem_adjWithin.mp ((mem_triplesOf_iff.mp ht).subset hv)).2
  · rintro ⟨hb, hsub⟩
    obtain ⟨m, hm⟩ := hb.exists_mem
    obtain ⟨t, ht, htriangle, heq⟩ := hb.exists_triple hm (l := adjWithin g hashOrder comp m)
      ((hashOrder.nodup _).filter _) fun v hv hne => mem_adjWithin.mpr ⟨hb.adj m hm v hv hne.symm, hsub v hv⟩
    exact ⟨m, hsub m hm, t, ⟨ht, htriangle⟩, heq⟩

theorem mem_sameDegree [g.Simple] {comp b : List (Fin g.n)} : b ∈ sameDegree g hashOrder comp ↔
    (IsK4 g b ∧ EqualDegrees g b) ∧ ∀ v ∈ b, v ∈ comp := by
  rw [sameDegree, List.mem_filter, mem_k4s, decide_eq_true_eq, and_assoc, and_assoc]
  refine and_congr_right fun hb => ?_
  rw [and_comm]
  refine and_congr_left fun _ => ?_
  simp only [length_adjSets, Finset.card_eq_one, Finset.eq_singleton_iff_unique_mem, List.mem_toFinset,
    List.mem_map]
  constructor
  · rintro ⟨d, -, hall⟩ x hx y hy
    rw [hall _ ⟨x, hx, rfl⟩, hall _ ⟨y, hy, rfl⟩]
  · intro hdeg
    obtain ⟨m, hm⟩ := hb.exists_mem
    refine ⟨_, ⟨m, hm, rfl⟩, ?_⟩
    rintro _ ⟨x, hx, rfl⟩
    exact hdeg x hx m hm

/-! ### The search -/

variable {allowed : List (Fin g.n) → Prop}

/-- What the search adds to the solution is a cover, and without a cover it gives the solution back. -/
def Answers (allowed : List (Fin g.n) → Prop) (target : List (Fin g.n)) (solution : List (List (Fin g.n)))
    (r : Option (Bool × List (List (Fin g.n)))) : Prop :=
  (∃ sol, r = some (true, solution ++ sol) ∧ Covers id Free allowed target sol) ∨
    r = some (false, solution) ∧ ¬HasCover id Free allowed target

theorem hasCover_free {target : List (Fin g.n)} {b : List (Fin g.n)} :
    HasCover id Free (fun b' => allowed b' ∧ Free b b') target ↔ HasCover id Free allowed target :=
  HasCover.congr fun _ => and_iff_left trivial

/-- The loop over the blocks finds a cover, or no block of the list is in one. -/
theorem tryBlocks_spec {search : List (Fin g.n) → List (List (Fin g.n)) → Option (Bool × List (List (Fin g.n)))}
    {remaining : List (Fin g.n)} : ∀ {l : List (List (Fin g.n))} (solution : List (List (Fin g.n))),
    (∀ b ∈ l, allowed b) →
    (∀ b ∈ l, ∀ solution, Answers allowed (remaining.filter (· ∉ b)) solution
      (search (remaining.filter (· ∉ b)) solution)) →
    (∃ sol, tryBlocks search remaining l solution = some (true, solution ++ sol) ∧
        Covers id Free allowed remaining sol) ∨
      tryBlocks search remaining l solution = some (false, solution) ∧
        ∀ b ∈ l, (∀ a ∈ b, a ∈ remaining) → ¬HasCover id Free allowed (remaining.filter (· ∉ b))
  | [], solution, _, _ => Or.inr ⟨rfl, by simp⟩
  | block :: l, solution, hl, hsearch => by
    have hrest := @tryBlocks_spec search remaining l solution
      (fun b hb => hl b (List.mem_cons_of_mem _ hb)) fun b hb => hsearch b (List.mem_cons_of_mem _ hb)
    rw [tryBlocks]
    split_ifs with hsub
    · rcases hsearch block List.mem_cons_self (solution ++ [block]) with ⟨sol, hfound, hcover⟩ | ⟨hfails, hnone⟩
      · rw [hfound]
        refine Or.inl ⟨block :: sol, by simp, Covers.cons (hl block List.mem_cons_self) hsub ?_⟩
        exact ⟨fun b hb => ⟨hcover.allowed b hb, trivial⟩, hcover.apart, hcover.mem_iff⟩
      · rw [hfails]
        dsimp only
        rw [List.dropLast_concat]
        refine hrest.imp_right fun h => ⟨h.1, List.forall_mem_cons.mpr ⟨fun _ => hnone, h.2⟩⟩
    · exact hrest.imp_right fun h => ⟨h.1, List.forall_mem_cons.mpr ⟨fun hall => absurd hall hsub, h.2⟩⟩

/-- The search answers rightly. -/
theorem backtrack_spec {blockOfElem : Fin g.n → List (List (Fin g.n))}
    (hblocks : ∀ e b, b ∈ blockOfElem e ↔ allowed b ∧ e ∈ b) : ∀ {fuel : ℕ} {remaining : List (Fin g.n)}
    {solution : List (List (Fin g.n))}, remaining.length < fuel →
      Answers allowed remaining solution (backtrack blockOfElem fuel remaining solution)
  | 0, _, _, h => absurd h (Nat.not_lt_zero _)
  | fuel + 1, remaining, solution, hfuel => by
    rw [backtrack]
    split_ifs with hnil
    · subst hnil
      exact Or.inl ⟨[], by rw [List.append_nil], covers_nil⟩
    · cases hmin : remaining.argmin fun it => (blockOfElem it).length with
      | none => exact absurd (List.argmin_eq_none.mp hmin) hnil
      | some e =>
        have he : e ∈ remaining := List.argmin_mem hmin
        have htried := @tryBlocks_spec g allowed (backtrack blockOfElem fuel) remaining (blockOfElem e) solution
          (fun b hb => ((hblocks e b).mp hb).1) fun b hb solution => by
            refine backtrack_spec hblocks (Nat.lt_of_lt_of_le ?_ (Nat.le_of_lt_succ hfuel))
            exact List.length_filter_lt_length_iff_exists.mpr ⟨e, he, by simpa using ((hblocks e b).mp hb).2⟩
        refine htried.imp_right fun h => ⟨h.1, fun hcover => ?_⟩
        obtain ⟨b, hb, heb, hsub, hrest⟩ := (hasCover_iff (fun _ _ _ => trivial) he).mp hcover
        exact h.2 b ((hblocks e b).mpr ⟨hb, heb⟩) hsub ((hasCover_free (b := b)).mp hrest)

/-- A component is solved exactly when it can be partitioned. -/
theorem solveComp_cases [g.Simple] (path : String) (comp : List (Fin g.n)) :
    (∃ solution, solveComp g hashOrder path comp = .ok solution ∧
      Covers id Free (· ∈ sameDegree g hashOrder comp) comp solution) ∨
    (∃ e, solveComp g hashOrder path comp = .error e) ∧
      ¬HasCover id Free (· ∈ sameDegree g hashOrder comp) comp := by
  have hanswer := @backtrack_spec g (· ∈ sameDegree g hashOrder comp) (blockOfElem g hashOrder comp)
    (fun e b => by rw [blockOfElem, List.mem_filter, decide_eq_true_eq]) (comp.length + 1) comp []
    (Nat.lt_succ_self _)
  rw [solveComp]
  rcases hanswer with ⟨sol, hfound, hcover⟩ | ⟨hfails, hnone⟩
  · rw [hfound, List.nil_append]
    exact Or.inl ⟨sol, rfl, hcover⟩
  · rw [hfails]
    exact Or.inr ⟨⟨_, rfl⟩, hnone⟩

/-! ### The leftover vertices -/

theorem leftoverComps_spec [g.Simple] :
    IsComponents (adjWithin g hashOrder (leftover g hashOrder)) (leftover g hashOrder)
      (leftoverComps g hashOrder) := by
  refine dfsComponents_spec (le_refl _) fun v hv u w hu hw => ?_
  have hmem : u ∈ leftover g hashOrder :=
    Reach.closed (P := fun x => x ∈ leftover g hashOrder) (fun _ _ _ hx => (mem_adjWithin.mp hx).2) hv hu
  exact mem_adjWithin.mpr ⟨Graph.Simple.symm (mem_adjWithin.mp hw).1, hmem⟩

theorem flatten_leftoverComps_perm [g.Simple] :
    (leftoverComps g hashOrder).flatten.Perm (leftover g hashOrder) :=
  leftoverComps_spec.flatten_perm (hashOrder.nodup _) fun _ _ _ hw => (mem_adjWithin.mp hw).2

/-- A K4 of leftover vertices does not leave its component. -/
theorem IsK4.subset_comp [g.Simple] {b comp : List (Fin g.n)} (hb : IsK4 g b)
    (hleft : ∀ v ∈ b, v ∈ leftover g hashOrder) (hcomp : comp ∈ leftoverComps g hashOrder) {x : Fin g.n}
    (hx : x ∈ b) (hxc : x ∈ comp) : ∀ y ∈ b, y ∈ comp := by
  intro y hy
  by_cases hne : x = y
  · exact hne ▸ hxc
  · refine (leftoverComps_spec.isClass comp hcomp x hxc y).mpr ?_
    exact (Reach.refl x).tail (mem_adjWithin.mpr ⟨hb.adj x hx y hy hne, hleft y hy⟩)

/-- What the code looks for: a partition of the leftover vertices into K4s of one degree each. -/
def LeftoverSplits (g : Graph) (hashOrder : HashOrder g.n) : Prop :=
  HasCover id Free (fun b => IsK4 g b ∧ EqualDegrees g b) (leftover g hashOrder)

/-- Then every component splits. -/
theorem LeftoverSplits.comp [g.Simple] (h : LeftoverSplits g hashOrder) {comp : List (Fin g.n)}
    (hcomp : comp ∈ leftoverComps g hashOrder) : HasCover id Free (· ∈ sameDegree g hashOrder comp) comp := by
  obtain ⟨sol, hsol⟩ := h
  have hleft : ∀ b ∈ sol, ∀ v ∈ b, v ∈ leftover g hashOrder := fun b hb v hv =>
    (hsol.mem_iff v).mpr ⟨b, hb, hv⟩
  have hsub : ∀ a ∈ comp, a ∈ leftover g hashOrder := fun a ha =>
    flatten_leftoverComps_perm.mem_iff.mp (List.mem_flatten.mpr ⟨comp, hcomp, ha⟩)
  obtain ⟨sol', hsol'⟩ := hsol.restrict hsub fun b hb a ha hac =>
    (hsol.allowed b hb).1.subset_comp (hleft b hb) hcomp ha hac
  exact ⟨sol', fun b hb => mem_sameDegree.mpr (hsol'.allowed b hb), hsol'.apart, hsol'.mem_iff⟩

/-- The loop over the components. -/
theorem mapM_solveComp [g.Simple] (path : String) : ∀ {comps : List (List (Fin g.n))}, comps.flatten.Nodup →
    (∃ sols, comps.mapM (solveComp g hashOrder path) = .ok sols ∧
      Covers id Free (fun b => IsK4 g b ∧ EqualDegrees g b) comps.flatten sols.flatten) ∨
    (∃ e, comps.mapM (solveComp g hashOrder path) = .error e) ∧
      ∃ comp ∈ comps, ¬HasCover id Free (· ∈ sameDegree g hashOrder comp) comp
  | [], _ => Or.inl ⟨[], rfl, covers_nil⟩
  | comp :: comps, hnodup => by
    rw [List.flatten_cons] at hnodup
    obtain ⟨-, hrest, hne⟩ := List.nodup_append.mp hnodup
    rw [List.mapM_cons]
    rcases @solveComp_cases g hashOrder _ path comp with ⟨solution, hok, hcover⟩ | ⟨⟨e, he⟩, hnone⟩
    · rw [hok]
      rcases @mapM_solveComp _ path comps hrest with ⟨sols, hoks, hcovers⟩ | ⟨⟨e, he⟩, comp', hcomp', hnone⟩
      · rw [hoks]
        refine Or.inl ⟨solution :: sols, rfl, ?_⟩
        rw [List.flatten_cons, List.flatten_cons]
        refine Covers.append ⟨fun b hb => ?_, hcover.apart, hcover.mem_iff⟩ hcovers
          (fun a ha ha' => hne a ha a ha' rfl) fun _ _ _ _ => trivial
        exact (mem_sameDegree.mp (hcover.allowed b hb)).1
      · rw [he]
        exact Or.inr ⟨⟨e, rfl⟩, comp', List.mem_cons_of_mem _ hcomp', hnone⟩
    · rw [he]
      exact Or.inr ⟨⟨e, rfl⟩, comp, List.mem_cons_self, hnone⟩

/-! ### The blocks of pass 1 -/

theorem isK4_of_mem_pass1Candidates [g.Simple] {b : List (Fin g.n)} (h : b ∈ pass1Candidates g hashOrder) :
    IsK4 g b := by
  rw [pass1Candidates, hashOrder.mem_blocks, List.mem_flatMap] at h
  obtain ⟨m, -, h⟩ := h
  simp only [pass1CandidatesFor, List.mem_map, List.mem_filter, decide_eq_true_eq] at h
  obtain ⟨t, ⟨ht, htriangle, -⟩, rfl⟩ := h
  exact isK4_of_triple (fun v hv => mem_adjSets.mp hv) ht htriangle

theorem mem_unambiguousOf {n : ℕ} {candidates : List (List (Fin n))} {b : List (Fin n)} :
    b ∈ unambiguousOf candidates ↔ b ∈ candidates ∧ ∀ it ∈ b, candidates.flatten.count it = 1 := by
  rw [unambiguousOf, List.mem_filter, decide_eq_true_eq]

/-- A vertex of two candidates is counted twice. -/
theorem unambiguousOf_apart {n : ℕ} {candidates : List (List (Fin n))} (hnodup : candidates.Nodup) :
    (unambiguousOf candidates).Pairwise fun b b' => ∀ v ∈ b, v ∉ b' := by
  have hnd : (unambiguousOf candidates).Nodup := hnodup.filter _
  refine hnd.imp_of_mem fun {b b'} hb hb' hne v hv hv' => ?_
  obtain ⟨hb, hcount⟩ := mem_unambiguousOf.mp hb
  have htwo := RealFileGadgetXor.two_le_count_flatMap (f := id) hb (mem_unambiguousOf.mp hb').1 hne hv hv'
  rw [List.flatMap_id, hcount v hv] at htwo
  omega

theorem covers_unambiguous [g.Simple] : Covers id Free (IsK4 g) (unambiguous g hashOrder).flatten
    (unambiguous g hashOrder) where
  allowed := fun _ hb => isK4_of_mem_pass1Candidates (mem_unambiguousOf.mp hb).1
  apart := (unambiguousOf_apart (hashOrder.blocks_nodup _)).imp fun h => ⟨h, trivial⟩
  mem_iff := fun _ => List.mem_flatten

theorem mem_leftover {v : Fin g.n} : v ∈ leftover g hashOrder ↔ v ∉ (unambiguous g hashOrder).flatten := by
  rw [leftover, hashOrder.mem_iff, List.mem_filter, and_iff_right (List.mem_finRange v), decide_eq_true_eq]

/-! ### The gadgets -/

/-- The blocks of the two passes together. -/
theorem gadgetPartition_of_covers [g.Simple] {blocks : List (List (Fin g.n))}
    (h : Covers id Free (fun b => IsK4 g b ∧ EqualDegrees g b) (leftover g hashOrder) blocks) :
    GadgetPartition g ((unambiguous g hashOrder ++ blocks).map Gadget.mk) := by
  have hall : Covers id Free (IsK4 g) ((unambiguous g hashOrder).flatten ++ leftover g hashOrder)
      (unambiguous g hashOrder ++ blocks) :=
    covers_unambiguous.append ⟨fun b hb => (h.allowed b hb).1, h.apart, h.mem_iff⟩
      (fun a ha ha' => mem_leftover.mp ha' ha) fun _ _ _ _ => trivial
  refine ⟨List.forall_mem_map.mpr hall.allowed, List.pairwise_map.mpr (hall.apart.imp fun h => h.1), fun v => ?_⟩
  have hv : v ∈ (unambiguous g hashOrder).flatten ++ leftover g hashOrder := by
    rw [List.mem_append, mem_leftover]
    exact Classical.em _
  obtain ⟨b, hb, hvb⟩ := (hall.mem_iff v).mp hv
  exact ⟨⟨b⟩, List.mem_map_of_mem hb, hvb⟩

/-- All vertices in groups of four. -/
theorem GadgetPartition.flatten_perm {gadgets : List (Gadget g.n)} (h : GadgetPartition g gadgets) :
    (gadgets.flatMap (·.members)).Perm (List.finRange g.n) := by
  refine (List.perm_ext_iff_of_nodup ?_ (List.nodup_finRange _)).mpr fun v => ?_
  · rw [List.nodup_flatMap]
    refine ⟨fun gadget hgadget => (h.k4 gadget hgadget).nodup, ?_⟩
    exact h.apart.imp fun hapart v hv hv' => hapart v hv hv'
  · exact iff_of_true (List.mem_flatMap.mpr (h.cover v)) (List.mem_finRange v)

theorem GadgetPartition.four_dvd {gadgets : List (Gadget g.n)} (h : GadgetPartition g gadgets) :
    g.n % 4 = 0 := by
  have hlen := h.flatten_perm.length_eq
  have hfour : ∀ gadget ∈ gadgets, gadget.members.length = 4 := fun gadget hgadget =>
    (h.k4 gadget hgadget).length
  rw [List.length_finRange, List.length_flatMap, List.map_congr_left hfour, List.map_const',
    List.sum_replicate, smul_eq_mul] at hlen
  omega

/-- The two passes succeed exactly when the leftover vertices split, and then nothing else can fail. -/
theorem reconstruct_cases [g.Simple] (path : String) :
    (∃ blocks, reconstruct g hashOrder path =
        .ok (recover g hashOrder ((unambiguous g hashOrder ++ blocks).map Gadget.mk)) ∧
      Covers id Free (fun b => IsK4 g b ∧ EqualDegrees g b) (leftover g hashOrder) blocks) ∨
    (∃ e, reconstruct g hashOrder path = .error e) ∧ ¬LeftoverSplits g hashOrder := by
  rcases @mapM_solveComp g hashOrder _ path _ leftoverComps_spec.nodup with
    ⟨sols, hok, hcomps⟩ | ⟨⟨e, he⟩, comp, hcomp, hnone⟩
  · have hcover : Covers id Free (fun b => IsK4 g b ∧ EqualDegrees g b) (leftover g hashOrder) sols.flatten :=
      ⟨hcomps.allowed, hcomps.apart, fun a =>
        flatten_leftoverComps_perm.mem_iff.symm.trans (hcomps.mem_iff a)⟩
    have hpartition := gadgetPartition_of_covers hcover
    have hcard : (unambiguous g hashOrder ++ sols.flatten).flatten.toFinset.card = g.n := by
      have hperm : (unambiguous g hashOrder ++ sols.flatten).flatten.Perm (List.finRange g.n) := by
        have hmembers := hpartition.flatten_perm
        rw [List.flatMap_map] at hmembers
        rw [List.flatten_eq_flatMap]
        exact hmembers
      rw [List.toFinset_eq_of_perm _ _ hperm, List.toFinset_card_of_nodup (List.nodup_finRange _),
        List.length_finRange]
    refine Or.inl ⟨sols.flatten, ?_, hcover⟩
    rw [reconstruct, if_neg (not_not_intro hpartition.four_dvd), hok]
    exact if_neg (not_not_intro hcard)
  · refine Or.inr ⟨?_, fun h => hnone (h.comp hcomp)⟩
    rw [reconstruct]
    split_ifs
    · exact ⟨_, rfl⟩
    · rw [he]
      exact ⟨e, rfl⟩

/-- `reconstruct` succeeds exactly when what pass 1 leaves over splits into K4s of one degree each. Then every
    vertex is in exactly one gadget, the gadgets are K4s, and those of pass 1 are among them. -/
theorem reconstruct_gadgets (g : Graph) [g.Simple] (hashOrder : HashOrder g.n) (path : String) :
    ((∃ recon, reconstruct g hashOrder path = .ok recon) ↔ LeftoverSplits g hashOrder) ∧
    ∀ recon, reconstruct g hashOrder path = .ok recon → GadgetPartition g recon.gadgets ∧
      ∀ block ∈ unambiguous g hashOrder, Gadget.mk block ∈ recon.gadgets := by
  rcases @reconstruct_cases g hashOrder _ path with ⟨blocks, hok, hcover⟩ | ⟨⟨e, he⟩, hnone⟩
  · refine ⟨iff_of_true ⟨_, hok⟩ ⟨_, hcover⟩, fun recon hrecon => ?_⟩
    obtain rfl := Except.ok.inj (hok.symm.trans hrecon)
    exact ⟨gadgetPartition_of_covers hcover, fun block hblock =>
      List.mem_map_of_mem (List.mem_append_left _ hblock)⟩
  · refine ⟨iff_of_false ?_ hnone, fun recon hrecon => ?_⟩
    · rintro ⟨recon, hrecon⟩
      cases he.symm.trans hrecon
    · cases he.symm.trans hrecon

/-- One gadget and nothing else. -/
def oneGadget : Graph := .ofEdges 4 [(0, 1), (0, 2), (0, 3), (1, 2), (1, 3), (2, 3)]

instance : oneGadget.Simple := by decide +kernel

/-- Hash sets that are run through from the last use of an element to the next. -/
def lastUse (n : ℕ) : HashOrder n where
  toSetOrder := RealFileGadgetReconstruction.lastUse n
  blocks := List.dedup
  blocks_nodup := List.nodup_dedup
  mem_blocks := List.mem_dedup

theorem leftover_oneGadget : leftover oneGadget (lastUse 4) = [] := by decide +kernel

theorem reconstruct_gadgets_oneGadget :
    ∃ recon, reconstruct oneGadget (lastUse 4) "one" = .ok recon ∧ GadgetPartition oneGadget recon.gadgets := by
  obtain ⟨hreturns, hgadgets⟩ := reconstruct_gadgets oneGadget (lastUse 4) "one"
  have hnothing : HasCover id Free (fun b => IsK4 oneGadget b ∧ EqualDegrees oneGadget b)
      (leftover oneGadget (lastUse 4)) := by
    rw [leftover_oneGadget]
    exact ⟨[], covers_nil⟩
  obtain ⟨recon, hrecon⟩ := hreturns.mpr hnothing
  exact ⟨recon, hrecon, (hgadgets recon hrecon).1⟩

/-! ### The pools -/

theorem isAdjacent_comm [g.Simple] (v w : Fin g.n) : isAdjacent g v w = isAdjacent g w v := by
  simp only [isAdjacent, @Graph.adj_comm g _ v w]

/-- The cleaned pool is a clique to which nothing can be added, and up to 24 vertices a largest one. -/
theorem greedyCliqueContaining_clique (g : Graph) [g.Simple] {pool : List (Fin g.n)} (hnodup : pool.Nodup) :
    (∀ v ∈ greedyCliqueContaining g pool, v ∈ pool) ∧
    (greedyCliqueContaining g pool).Pairwise (fun v w => w ∈ g.adj v) ∧
    (∀ v ∈ pool, v ∉ greedyCliqueContaining g pool → ∃ w ∈ greedyCliqueContaining g pool, w ∉ g.adj v) ∧
    (pool.length ≤ 24 → ∀ s : List (Fin g.n), s.Nodup → (∀ v ∈ s, v ∈ pool) →
      s.Pairwise (fun v w => w ∈ g.adj v) → s.length ≤ (greedyCliqueContaining g pool).length) := by
  have hpair : ∀ {s : List (Fin g.n)},
      s.Pairwise (fun v w => isAdjacent g v w = true) ↔ s.Pairwise fun v w => w ∈ g.adj v := by
    intro s
    simp only [isAdjacent, decide_eq_true_eq]
  rw [greedyCliqueContaining]
  split_ifs with hsmall
  · obtain ⟨hclique, hmax⟩ := @maxClique_spec _ (isAdjacent g) pool
    refine ⟨hclique.sub.subset, hpair.mp hclique.adj, fun v hv hnot => ?_, fun _ s hs hsub hadj => ?_⟩
    · obtain ⟨w, hw, hvw⟩ := hclique.exists_not_adj isAdjacent_comm hnodup hmax hv hnot
      exact ⟨w, hw, of_decide_eq_false hvw⟩
    · obtain ⟨t, ht, hperm⟩ := exists_isClique_perm isAdjacent_comm hnodup hs hsub (hpair.mpr hadj)
      exact hperm.length_eq ▸ hmax t ht
  · obtain ⟨hclique, hmax⟩ := greedyClique_spec isAdjacent_comm
      (sortOn (fun v => -((pool.filter fun it => it ≠ v ∧ it ∈ g.adj v).length : ℤ)) pool)
    refine ⟨fun v hv => mem_sortOn.mp (hclique.sub.subset hv), hpair.mp hclique.adj, fun v hv hnot => ?_,
      fun hle => absurd hle hsmall⟩
    obtain ⟨w, hw, hvw⟩ := hmax v (mem_sortOn.mpr hv) hnot
    exact ⟨w, hw, of_decide_eq_false hvw⟩

/-- The four vertices of a gadget are a clique, so nothing smaller is returned for them. -/
theorem greedyCliqueContaining_clique_oneGadget :
    4 ≤ (greedyCliqueContaining oneGadget (List.finRange oneGadget.n)).length :=
  (greedyCliqueContaining_clique oneGadget (List.nodup_finRange _)).2.2.2 (by decide) (List.finRange oneGadget.n)
    (List.nodup_finRange _) (fun _ hv => hv) (by decide +kernel)

end Dialysis.RealFileBypassedGadgetReconstruction
