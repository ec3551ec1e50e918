import GraphDialysis.Gadgetxor.RealFileGadgetXor

/-! The clusters of `RealFileGadgetXor.prepare`. Its union-find points only the vertex asked about at its
    root, which is enough: a union merges the two classes and no others are taken apart (`union_spec`).
    So two gadgets that share two ports are in one cluster (`mem_cluster_of_shared`). -/

namespace Dialysis.RealFileGadgetXor
open RealFileGadgetReconstruction Sat

/-! ### Union and find -/

section
variable {k : ℕ} {parent : Fin k → Fin k}

theorem find_spec (h : Forest parent) (x : Fin k) : Forest (find parent x).2 ∧
    ∀ y, rootOf (find parent x).2 y = rootOf parent y := update_root h rfl

theorem union_spec (h : Forest parent) (a b : Fin k) : Forest (union parent a b) ∧
    (∀ x y, rootOf parent x = rootOf parent y → rootOf (union parent a b) x = rootOf (union parent a b) y) ∧
    rootOf (union parent a b) a = rootOf (union parent a b) b := by
  obtain ⟨ha, hroota⟩ := find_spec h a
  obtain ⟨hb, hrootb⟩ := find_spec ha b
  have hroot : ∀ x, rootOf (find (find parent a).2 b).2 x = rootOf parent x := fun x =>
    (hrootb x).trans (hroota x)
  have hra : (find parent a).1 = rootOf parent a := rfl
  have hrb : (find (find parent a).2 b).1 = rootOf parent b := hroota b
  have hself : ∀ x, (find (find parent a).2 b).2 (rootOf parent x) = rootOf parent x := by
    intro x
    have := rootOf_isRoot hb x
    rwa [hroot] at this
  rw [union]
  simp only [hra, hrb]
  split_ifs with hne
  · obtain ⟨hlink, hlinked⟩ := link_root hb (hself b) (hself a) (Ne.symm hne)
    refine ⟨hlink, fun x y hxy => ?_, ?_⟩
    · rw [hlinked, hlinked, hroot, hroot, hxy]
    · rw [hlinked, hlinked, hroot, hroot, if_pos rfl, if_neg (Ne.symm hne)]
  · refine ⟨hb, fun x y hxy => ?_, ?_⟩
    · rw [hroot, hroot, hxy]
    · rw [hroot, hroot]
      exact not_not.mp hne

/-- The loop over the counts. -/
theorem foldl_union : ∀ {l : List ((Fin k × Fin k) × ℕ)} {parent : Fin k → Fin k}, Forest parent →
    Forest (l.foldl (fun parent e => if 2 ≤ e.2 then union parent e.1.1 e.1.2 else parent) parent) ∧
    (∀ x y, rootOf parent x = rootOf parent y →
      rootOf (l.foldl (fun parent e => if 2 ≤ e.2 then union parent e.1.1 e.1.2 else parent) parent) x =
        rootOf (l.foldl (fun parent e => if 2 ≤ e.2 then union parent e.1.1 e.1.2 else parent) parent) y) ∧
    ∀ e ∈ l, 2 ≤ e.2 →
      rootOf (l.foldl (fun parent e => if 2 ≤ e.2 then union parent e.1.1 e.1.2 else parent) parent) e.1.1 =
        rootOf (l.foldl (fun parent e => if 2 ≤ e.2 then union parent e.1.1 e.1.2 else parent) parent) e.1.2
  | [], _, h => ⟨h, fun _ _ hxy => hxy, fun _ he => by cases he⟩
  | e :: l, parent, h => by
    rw [List.foldl_cons]
    split_ifs with hcount
    · obtain ⟨hunion, hkeeps, hmerges⟩ := union_spec h e.1.1 e.1.2
      obtain ⟨hforest, hkeeps', hmerges'⟩ := foldl_union (l := l) hunion
      refine ⟨hforest, fun x y hxy => hkeeps' x y (hkeeps x y hxy), fun e' he' hcount' => ?_⟩
      rcases List.mem_cons.mp he' with rfl | he'
      · exact hkeeps' _ _ hmerges
      · exact hmerges' e' he' hcount'
    · obtain ⟨hforest, hkeeps', hmerges'⟩ := foldl_union (l := l) h
      refine ⟨hforest, hkeeps', fun e' he' hcount' => ?_⟩
      rcases List.mem_cons.mp he' with rfl | he'
      · exact absurd hcount' hcount
      · exact hmerges' e' he' hcount'

theorem forest_id : Forest (id : Fin k → Fin k) := ⟨fun _ => 0, fun _ h => absurd rfl h⟩

theorem roots_eq : ∀ {l : List (Fin k)} {parent : Fin k → Fin k}, Forest parent →
    roots l parent = l.map fun x => (rootOf parent x, x)
  | [], _, _ => rfl
  | x :: l, parent, h => by
    obtain ⟨hfind, hroot⟩ := find_spec h x
    rw [roots, roots_eq hfind, List.map_cons]
    exact congrArg _ (List.map_congr_left fun y _ => by rw [hroot])

end

/-! ### Shared ports -/

theorem mem_pairsOf {α : Type*} {a b : α} : ∀ {l : List α}, a ∈ l → b ∈ l → a ≠ b →
    (a, b) ∈ pairsOf l ∨ (b, a) ∈ pairsOf l
  | [], ha, _, _ => by cases ha
  | c :: l, ha, hb, hne => by
    simp only [pairsOf, List.mem_append, List.mem_map, Prod.mk.injEq]
    rcases List.mem_cons.mp ha with rfl | ha'
    · rcases List.mem_cons.mp hb with rfl | hb'
      · exact absurd rfl hne
      · exact Or.inl (Or.inl ⟨b, hb', rfl, rfl⟩)
    · rcases List.mem_cons.mp hb with rfl | hb'
      · exact Or.inr (Or.inl ⟨a, ha', rfl, rfl⟩)
      · exact (mem_pairsOf ha' hb' hne).imp Or.inr Or.inr

theorem packPair_swap {k : ℕ} (a b : Fin k) : packPair (a, b) = packPair (b, a) := by
  simp only [packPair, min_comm, max_comm]

/-- What occurs in the lists of two different elements occurs twice. -/
theorem two_le_count_flatMap {α β : Type*} [BEq β] [LawfulBEq β] {l : List α} {f : α → List β} {b : β} {x y : α}
    (hx : x ∈ l) (hy : y ∈ l) (hne : x ≠ y) (hbx : b ∈ f x) (hby : b ∈ f y) : 2 ≤ (l.flatMap f).count b := by
  obtain ⟨s, t, rfl⟩ := List.append_of_mem hx
  have hcx := List.count_pos_iff.mpr hbx
  have hcy : y ∈ s ∨ y ∈ t := by
    rcases List.mem_append.mp hy with hy | hy
    · exact Or.inl hy
    · exact Or.inr ((List.mem_cons.mp hy).resolve_left (Ne.symm hne))
  rw [List.flatMap_append, List.flatMap_cons, List.count_append, List.count_append]
  rcases hcy with hy | hy
  · have := List.count_pos_iff.mpr (List.mem_flatMap.mpr ⟨y, hy, hby⟩)
    omega
  · have := List.count_pos_iff.mpr (List.mem_flatMap.mpr ⟨y, hy, hby⟩)
    omega

variable {n : ℕ} (recon : Reconstruction n)

/-- The gadget has a port with the key. -/
def HasKey (gi : Fin recon.gadgets.length) (key : Fin n) : Prop :=
  ∃ port ∈ (recon.gadgets.get gi).ports, portKey port = key

variable {recon}

theorem mem_sharedPortCount {gi gj : Fin recon.gadgets.length} (hne : gi ≠ gj) {key key' : Fin n}
    (hkeys : key ≠ key') (hi : HasKey recon gi key) (hi' : HasKey recon gi key') (hj : HasKey recon gj key)
    (hj' : HasKey recon gj key') : ∃ e ∈ sharedPortCount recon, e.1 = packPair (gi, gj) ∧ 2 ≤ e.2 := by
  let entries := (List.finRange recon.gadgets.length).flatMap fun gi =>
    (recon.gadgets.get gi).ports.map fun port => (portKey port, gi)
  have hentry : ∀ {gi : Fin recon.gadgets.length} {key : Fin n}, HasKey recon gi key → (key, gi) ∈ entries := by
    rintro gi key ⟨port, hport, rfl⟩
    exact List.mem_flatMap.mpr ⟨gi, List.mem_finRange gi, List.mem_map_of_mem hport⟩
  -- the owners of one key give the pair once
  have hpair : ∀ {key : Fin n}, HasKey recon gi key → HasKey recon gj key →
      ∃ group ∈ Lib.groups (·.1) entries, (key, gi) ∈ group ∧
        packPair (gi, gj) ∈ (pairsOf (group.map (·.2))).map packPair := by
    intro key hi hj
    obtain ⟨group, hgroup, hmem⟩ := Lib.exists_group (fun e : Fin n × Fin recon.gadgets.length => e.1) (hentry hi)
    have hmemj : (key, gj) ∈ group := (Lib.mem_group_iff hgroup hmem).mpr ⟨hentry hj, rfl⟩
    refine ⟨group, hgroup, hmem, ?_⟩
    have howni : gi ∈ group.map (·.2) := List.mem_map_of_mem hmem
    have hownj : gj ∈ group.map (·.2) := List.mem_map_of_mem hmemj
    rcases mem_pairsOf howni hownj hne with hp | hp
    · exact List.mem_map_of_mem hp
    · rw [packPair_swap]
      exact List.mem_map_of_mem hp
  obtain ⟨group, hgroup, hmem, hcount⟩ := hpair hi hj
  obtain ⟨group', hgroup', hmem', hcount'⟩ := hpair hi' hj'
  have hdiff : group ≠ group' := by
    rintro rfl
    exact hkeys (((Lib.mem_group_iff hgroup hmem).mp hmem').2).symm
  let packed := (gadgetsByPort recon).flatMap fun owners => (pairsOf owners).map packPair
  have htwo : 2 ≤ packed.count (packPair (gi, gj)) := by
    change 2 ≤ (((Lib.groups (·.1) entries).map fun owners => owners.map (·.2)).flatMap fun owners =>
      (pairsOf owners).map packPair).count _
    rw [List.flatMap_map]
    exact @two_le_count_flatMap _ _ _ _ _ (fun group => (pairsOf (group.map (·.2))).map packPair) _ _ _
      hgroup hgroup' hdiff hcount hcount'
  have hmemPacked : packPair (gi, gj) ∈ packed := List.count_pos_iff.mp (by omega)
  refine ⟨(packPair (gi, gj), (packed.filter fun e => id e = packPair (gi, gj)).length), ?_, rfl, ?_⟩
  · exact List.mem_map.mpr ⟨(_, _), Lib.mem_groupBy.mpr ⟨by rwa [List.map_id], rfl⟩, rfl⟩
  · rw [← List.countP_eq_length_filter]
    refine htwo.trans_eq (List.countP_congr fun e _ => ?_)
    simp

/-- Gadgets that share two ports have one root. -/
theorem rootOf_parentOf_eq {gi gj : Fin recon.gadgets.length} {key key' : Fin n} (hkeys : key ≠ key')
    (hi : HasKey recon gi key) (hi' : HasKey recon gi key') (hj : HasKey recon gj key)
    (hj' : HasKey recon gj key') : rootOf (parentOf recon) gi = rootOf (parentOf recon) gj := by
  by_cases hne : gi = gj
  · rw [hne]
  obtain ⟨⟨pair, count⟩, he, rfl, hcount⟩ := mem_sharedPortCount hne hkeys hi hi' hj hj'
  have hmerged := (foldl_union (l := sharedPortCount recon) forest_id).2.2 _ he hcount
  change rootOf (parentOf recon) (min gi gj) = rootOf (parentOf recon) (max gi gj) at hmerged
  rcases le_total gi gj with hle | hle
  · rwa [min_eq_left hle, max_eq_right hle] at hmerged
  · rw [min_eq_right hle, max_eq_left hle] at hmerged
    exact hmerged.symm

theorem cluster_eq {cluster : Fin recon.gadgets.length × List (Fin recon.gadgets.length)}
    (h : cluster ∈ clusters recon) :
    cluster.2 = (List.finRange recon.gadgets.length).filter fun gi => rootOf (parentOf recon) gi = cluster.1 := by
  have hforest : Forest (parentOf recon) := (foldl_union forest_id).1
  rw [clusters, roots_eq hforest] at h
  obtain ⟨group, hgroup, rfl⟩ := List.mem_map.mp h
  rw [(Lib.mem_groupBy.mp hgroup).2, List.filter_map, List.map_map]
  exact (List.map_congr_left fun _ _ => rfl).trans (List.map_id _)

/-- A cluster has each gadget once. -/
theorem cluster_nodup {cluster : Fin recon.gadgets.length × List (Fin recon.gadgets.length)}
    (h : cluster ∈ clusters recon) : cluster.2.Nodup := by
  rw [cluster_eq h]
  exact (List.nodup_finRange _).filter _

/-- With a gadget, its cluster has every gadget with which it shares two ports. -/
theorem mem_cluster_of_shared {cluster : Fin recon.gadgets.length × List (Fin recon.gadgets.length)}
    (h : cluster ∈ clusters recon) {gi gj : Fin recon.gadgets.length} (hgi : gi ∈ cluster.2)
    {key key' : Fin n} (hkeys : key ≠ key') (hi : HasKey recon gi key) (hi' : HasKey recon gi key')
    (hj : HasKey recon gj key) (hj' : HasKey recon gj key') : gj ∈ cluster.2 := by
  rw [cluster_eq h, List.mem_filter, decide_eq_true_eq] at hgi ⊢
  exact ⟨List.mem_finRange gj, (rootOf_parentOf_eq hkeys hi hi' hj hj').symm.trans hgi.2⟩

end Dialysis.RealFileGadgetXor
