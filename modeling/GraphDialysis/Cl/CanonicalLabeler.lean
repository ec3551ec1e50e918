import GraphDialysis.Cl.TracesJni

/-! The contract of `dialysis.cl.CanonicalLabeler`: two coloured graphs have one certificate exactly when
    an isomorphism carries the cells of the one to those of the other (`certificate_eq_iff`). It is
    derived from the documented contract of the search (`Canonizes`), which some search keeps
    (`exists_canonizes`). For the cells of `cellsFromColoring` the isomorphism keeps the colours,
    provided that the two graphs use the same ones (`certificate_colouring_iff`). -/

namespace Dialysis.TracesJni
open Lib Cl Dialysis.Graph

/-- An isomorphism that carries every cell to the cell at its place. -/
structure ColouredIso (g h : Graph) (cells : List (List (Fin g.n))) (cells' : List (List (Fin h.n)))
    (e : Fin g.n ≃ Fin h.n) : Prop where
  iso : IsIso g h e
  cells : List.Forall₂ (fun cell cell' => (cell.map e).Perm cell') cells cells'

/-- The labelling lists the cells one after another, each in an order of its own. -/
def Lists {n : ℕ} (lab : Fin n → Fin n) (cells : List (List (Fin n))) : Prop :=
  ∃ refined : List (List (Fin n)), refined.flatten = List.ofFn lab ∧ List.Forall₂ List.Perm refined cells

/-- Every vertex lies in one cell. -/
def Partitions {n : ℕ} (cells : List (List (Fin n))) : Prop := cells.flatten.Perm (List.finRange n)

/-- What Traces promises with `getcanon`: it refines within the cells, and isomorphic inputs have the same
    canonical graph. -/
structure Canonizes (traces : Traces) : Prop where
  lists : ∀ (g : Graph) [g.Simple] (p : Partition g.n) (defaultptn : Bool),
    Partitions (givenPartition p defaultptn) → Lists (traces g p defaultptn) (givenPartition p defaultptn)
  canonical : ∀ (g h : Graph) [g.Simple] [h.Simple] (p : Partition g.n) (p' : Partition h.n)
    (defaultptn defaultptn' : Bool), Partitions (givenPartition p defaultptn) →
      Partitions (givenPartition p' defaultptn') →
      (∃ e, ColouredIso g h (givenPartition p defaultptn) (givenPartition p' defaultptn') e) →
        SameForm g (traces g p defaultptn) h (traces h p' defaultptn')

variable {g h : Graph} {cells : List (List (Fin g.n))} {cells' : List (List (Fin h.n))}

/-! ### Labellings and isomorphisms -/

theorem Lists.injective {n : ℕ} {lab : Fin n → Fin n} {cells : List (List (Fin n))}
    (hlab : Lists lab cells) (hcells : Partitions cells) : Function.Injective lab := by
  obtain ⟨refined, hflat, hperm⟩ := hlab
  have hall : (List.ofFn lab).Perm (List.finRange n) := hflat ▸ (List.Perm.flatten_congr hperm).trans hcells
  exact List.nodup_ofFn.mp (hall.nodup_iff.mpr (List.nodup_finRange n))

theorem canonAdj_iff {lab : Fin g.n → Fin g.n} (p q : Fin g.n) :
    CanonAdj g lab p.1 q.1 ↔ lab q ∈ g.adj (lab p) := by
  constructor
  · rintro ⟨p', q', hp, hq, hadj⟩
    rwa [← Fin.ext hp, ← Fin.ext hq]
  · exact fun hadj => ⟨p, q, rfl, rfl, hadj⟩

/-- Vertices at one position correspond. -/
noncomputable def positionEquiv {lab : Fin g.n → Fin g.n} {lab' : Fin h.n → Fin h.n} (hn : g.n = h.n)
    (hlab : Function.Injective lab) (hlab' : Function.Injective lab') : Fin g.n ≃ Fin h.n :=
  (Equiv.ofBijective lab (Finite.injective_iff_bijective.mp hlab)).symm.trans
    ((finCongr hn).trans (Equiv.ofBijective lab' (Finite.injective_iff_bijective.mp hlab')))

theorem positionEquiv_lab {lab : Fin g.n → Fin g.n} {lab' : Fin h.n → Fin h.n} (hn : g.n = h.n)
    (hlab : Function.Injective lab) (hlab' : Function.Injective lab') (p : Fin g.n) :
    positionEquiv hn hlab hlab' (lab p) = lab' (finCongr hn p) := by
  have hp : (Equiv.ofBijective lab (Finite.injective_iff_bijective.mp hlab)).symm (lab p) = p :=
    (Equiv.ofBijective lab (Finite.injective_iff_bijective.mp hlab)).symm_apply_apply p
  change lab' (finCongr hn _) = _
  rw [hp]

/-- A relation that holds of the non-empty cells and of two empty ones holds of all. -/
theorem forall₂_of_filter {α β : Type*} [DecidableEq α] [DecidableEq β] {R : List α → List β → Prop}
    (hnil : R [] []) : ∀ {l : List (List α)} {l' : List (List β)},
      l.map List.length = l'.map List.length →
        List.Forall₂ R (l.filter (· ≠ [])) (l'.filter (· ≠ [])) → List.Forall₂ R l l'
  | [], [], _, _ => .nil
  | cell :: l, cell' :: l', hlen, hR => by
    obtain ⟨hcell, hrest⟩ := List.cons.inj hlen
    cases cell with
    | nil =>
      obtain rfl := List.eq_nil_of_length_eq_zero hcell.symm
      exact .cons hnil (forall₂_of_filter hnil hrest (by simpa using hR))
    | cons v cell =>
      have hne : cell' ≠ [] := by
        rintro rfl
        cases hcell
      rw [List.filter_cons_of_pos (by simp), List.filter_cons_of_pos (by simpa using hne)] at hR
      obtain ⟨hhead, htail⟩ := List.forall₂_cons.mp hR
      exact .cons hhead (forall₂_of_filter hnil hrest htail)

theorem filter_of_forall₂ {α β : Type*} [DecidableEq α] [DecidableEq β] {R : List α → List β → Prop}
    (hlen : ∀ l l', R l l' → l.length = l'.length) : ∀ {l : List (List α)} {l' : List (List β)},
      List.Forall₂ R l l' → List.Forall₂ R (l.filter (· ≠ [])) (l'.filter (· ≠ []))
  | _, _, .nil => .nil
  | cell :: _, cell' :: _, .cons hhead htail => by
    have ih := filter_of_forall₂ hlen htail
    cases cell with
    | nil =>
      obtain rfl := List.eq_nil_of_length_eq_zero (hlen _ _ hhead).symm
      simpa using ih
    | cons v cell =>
      have hne : cell' ≠ [] := by
        rintro rfl
        cases hlen _ _ hhead
      rw [List.filter_cons_of_pos (by simp), List.filter_cons_of_pos (by simpa using hne)]
      exact .cons hhead ih

theorem map_length_eq {α β : Type*} {R : List α → List β → Prop}
    (hlen : ∀ l l', R l l' → l.length = l'.length) {l : List (List α)} {l' : List (List β)}
    (hR : List.Forall₂ R l l') : l.map List.length = l'.map List.length := by
  induction hR with
  | nil => rfl
  | cons hhead _ ih => rw [List.map_cons, List.map_cons, hlen _ _ hhead, ih]

theorem forall₂_perm_map {α β : Type*} {f : α → β} : ∀ {refined cells : List (List α)}
    {cells' : List (List β)}, List.Forall₂ List.Perm refined cells →
      List.Forall₂ List.Perm (refined.map (List.map f)) cells' →
        List.Forall₂ (fun cell cell' => (cell.map f).Perm cell') cells cells'
  | _, _, _, .nil, .nil => .nil
  | _, _, _, .cons hhead htail, .cons hhead' htail' =>
    .cons ((hhead.symm.map f).trans hhead') (forall₂_perm_map htail htail')

theorem forall₂_map_perm {α β : Type*} {f : α → β} : ∀ {refined cells : List (List α)}
    {cells' : List (List β)}, List.Forall₂ List.Perm refined cells →
      List.Forall₂ (fun cell cell' => (cell.map f).Perm cell') cells cells' →
        List.Forall₂ List.Perm (refined.map (List.map f)) cells'
  | _, _, _, .nil, .nil => .nil
  | _, _, _, .cons hhead htail, .cons hhead' htail' =>
    .cons ((hhead.map f).trans hhead') (forall₂_map_perm htail htail')

/-- Labellings that list the cells and agree on the positions are those of a coloured isomorphism. -/
theorem colouredIso_of_sameForm {lab : Fin g.n → Fin g.n} {lab' : Fin h.n → Fin h.n}
    (hcells : Partitions cells) (hcells' : Partitions cells') (hlab : Lists lab cells)
    (hlab' : Lists lab' cells') (hlen : cells.map List.length = cells'.map List.length)
    (hform : SameForm g lab h lab') : ∃ e, ColouredIso g h cells cells' e := by
  obtain ⟨hn, hadj⟩ := hform
  have hinj := hlab.injective hcells
  have hinj' := hlab'.injective hcells'
  have hpos := positionEquiv_lab hn hinj hinj'
  obtain ⟨refined, hflat, hperm⟩ := hlab
  obtain ⟨refined', hflat', hperm'⟩ := hlab'
  refine ⟨positionEquiv hn hinj hinj', fun v w => ?_, ?_⟩
  · obtain ⟨p, rfl⟩ := (Finite.injective_iff_surjective.mp hinj) v
    obtain ⟨q, rfl⟩ := (Finite.injective_iff_surjective.mp hinj) w
    rw [hpos, hpos, ← canonAdj_iff, ← canonAdj_iff]
    exact hadj p.1 q.1
  · -- the refined cells correspond, being as long and listed at the same positions
    have hmap : refined.map (List.map (positionEquiv hn hinj hinj')) = refined' := by
      have hr := map_length_eq (fun _ _ => List.Perm.length_eq) hperm
      have hr' := map_length_eq (fun _ _ => List.Perm.length_eq) hperm'
      refine List.eq_iff_flatten_eq.mpr ⟨?_, ?_⟩
      · rw [← List.map_flatten, hflat, hflat', List.map_ofFn]
        refine List.ext_getElem (by simp [hn]) fun k hk hk' => ?_
        rw [List.getElem_ofFn, List.getElem_ofFn]
        exact hpos _
      · have hmapped : (refined.map (List.map (positionEquiv hn hinj hinj'))).map List.length =
            refined.map List.length := by
          rw [List.map_map]
          exact List.map_congr_left fun cell _ => List.length_map _
        rw [hmapped, hr, hr', hlen]
    exact forall₂_perm_map hperm (hmap.symm ▸ hperm')

theorem ColouredIso.symm {e : Fin g.n ≃ Fin h.n} (he : ColouredIso g h cells cells' e) :
    ColouredIso h g cells' cells e.symm := by
  refine ⟨he.iso.symm, List.forall₂_iff_get.mpr ?_⟩
  obtain ⟨hlen, hcell⟩ := List.forall₂_iff_get.mp he.cells
  refine ⟨hlen.symm, fun k hk hk' => ?_⟩
  have := (hcell k hk' hk).symm.map e.symm
  rwa [List.map_map, e.symm_comp_self, List.map_id] at this

theorem ColouredIso.map_length {e : Fin g.n ≃ Fin h.n} (he : ColouredIso g h cells cells' e) :
    cells.map List.length = cells'.map List.length :=
  map_length_eq (fun _ _ hperm => by simpa using hperm.length_eq) he.cells

/-- A labelling of the one graph gives a labelling of the other with the same canonical graph. -/
theorem ColouredIso.exists_lists {e : Fin g.n ≃ Fin h.n} (he : ColouredIso g h cells cells' e)
    {lab : Fin g.n → Fin g.n} (hlab : Lists lab cells) :
    ∃ lab', Lists lab' cells' ∧ SameForm g lab h lab' := by
  have hn : g.n = h.n := Fin.equiv_iff_eq.mp ⟨e⟩
  obtain ⟨refined, hflat, hperm⟩ := hlab
  refine ⟨fun p => e (lab ((finCongr hn).symm p)), ⟨refined.map (List.map e), ?_, ?_⟩, hn, fun i j => ?_⟩
  · rw [← List.map_flatten, hflat, List.map_ofFn]
    refine List.ext_getElem (by simp [hn]) fun k hk hk' => ?_
    rw [List.getElem_ofFn, List.getElem_ofFn]
    rfl
  · exact forall₂_map_perm hperm he.cells
  · constructor
    · rintro ⟨p, q, rfl, rfl, hadj⟩
      exact ⟨finCongr hn p, finCongr hn q, rfl, rfl, (he.iso _ _).mp hadj⟩
    · rintro ⟨p, q, rfl, rfl, hadj⟩
      exact ⟨(finCongr hn).symm p, (finCongr hn).symm q, rfl, rfl, (he.iso _ _).mpr hadj⟩

/-! ### A search that keeps the contract -/

/-- What the labellings are compared by. -/
def code (g : Graph) (lab : Fin g.n → Fin g.n) : List ℕ := (packed g lab).map UInt8.toNat

theorem exists_lists {n : ℕ} {cells : List (List (Fin n))} (hcells : Partitions cells) :
    ∃ lab, Lists lab cells := by
  have hlen : cells.flatten.length = n := by simpa using hcells.length_eq
  refine ⟨fun p => cells.flatten.get (finCongr hlen.symm p), cells, ?_, List.forall₂_same.mpr fun _ _ => .rfl⟩
  refine List.ext_getElem (by simp [hlen]) fun k hk hk' => ?_
  rw [List.getElem_ofFn]
  rfl

/-- Some labelling that lists the cells has the smallest code. -/
theorem exists_least (g : Graph) {cells : List (List (Fin g.n))} (hcells : Partitions cells) :
    ∃ lab, Lists lab cells ∧ ∀ lab', Lists lab' cells → code g lab ≤ code g lab' :=
  Set.exists_min_image {lab | Lists lab cells} (code g) (Set.toFinite _) (exists_lists hcells)

open Classical in
/-- A labelling with the smallest code. -/
noncomputable def leastSearch : Traces := fun g p defaultptn =>
  if hcells : Partitions (givenPartition p defaultptn) then (exists_least g hcells).choose else id

theorem leastSearch_spec {p : Partition g.n} {defaultptn : Bool}
    (hcells : Partitions (givenPartition p defaultptn)) :
    Lists (leastSearch g p defaultptn) (givenPartition p defaultptn) ∧
      ∀ lab', Lists lab' (givenPartition p defaultptn) →
        code g (leastSearch g p defaultptn) ≤ code g lab' := by
  rw [leastSearch, dif_pos hcells]
  exact (exists_least g hcells).choose_spec

/-- The contract can be kept: take a labelling with the smallest code. -/
theorem canonizes_leastSearch : Canonizes leastSearch where
  lists := fun g _ p defaultptn hcells => (leastSearch_spec hcells).1
  canonical := by
    rintro g h _ _ p p' defaultptn defaultptn' hcells hcells' ⟨e, he⟩
    obtain ⟨hlists, hleast⟩ := leastSearch_spec hcells
    obtain ⟨hlists', hleast'⟩ := leastSearch_spec hcells'
    obtain ⟨lab', hlab', hn, hadj⟩ := he.exists_lists hlists
    obtain ⟨lab, hlab, hn', hadj'⟩ := he.symm.exists_lists hlists'
    have hcode : code g (leastSearch g p defaultptn) = code h lab' := congrArg (List.map UInt8.toNat)
      ((packed_eq_iff hn (hlists.injective hcells) (hlab'.injective hcells')).mpr hadj)
    have hcode' : code h (leastSearch h p' defaultptn') = code g lab := congrArg (List.map UInt8.toNat)
      ((packed_eq_iff hn' (hlists'.injective hcells') (hlab.injective hcells)).mpr hadj')
    have hle : code g (leastSearch g p defaultptn) = code h (leastSearch h p' defaultptn') :=
      le_antisymm (hcode' ▸ hleast _ hlab) (hcode ▸ hleast' _ hlab')
    have hpacked : packed g (leastSearch g p defaultptn) = packed h (leastSearch h p' defaultptn') :=
      List.map_injective_iff.mpr (fun a b hab => UInt8.toNat_inj.mp hab) hle
    exact ⟨hn, (packed_eq_iff hn (hlists.injective hcells) (hlists'.injective hcells')).mp hpacked⟩

/-! ### The certificates -/

/-- Cells of all vertices, and not more than fit into an Int. -/
structure Fits (g : Graph) (cells : List (List (Fin g.n))) : Prop where
  partitions : Partitions cells
  matrix : g.n * g.n + 7 < 2 ^ 31
  count : cells.length < 2 ^ 31

theorem Fits.vertices (hfits : Fits g cells) : g.n < 2 ^ 31 := by
  have := hfits.matrix
  have := Nat.le_mul_self g.n
  omega

theorem Fits.cell (hfits : Fits g cells) {cell : List (Fin g.n)} (hcell : cell ∈ cells) :
    cell.length < 2 ^ 31 := by
  have hlen : cells.flatten.length = g.n := by simpa using hfits.partitions.length_eq
  have hle := (List.sublist_flatten_of_mem hcell).length_le
  have := hfits.vertices
  omega

theorem partitions_filter {n : ℕ} {cells : List (List (Fin n))} (hcells : Partitions cells) :
    Partitions (cells.filter (· ≠ [])) := by
  rw [Partitions, List.flatten_filter_ne_nil]
  exact hcells

/-- The certificate is that of a labelling which lists the cells that are not empty. -/
theorem certificate_ok {traces : Traces} {p : Partition g.n} (hp : initialPartition cells = .ok p) :
    certificate traces g cells = .ok ⟨canonicalBytes g (traces g p (isTrivialPartition p)) cells⟩ := by
  rw [certificate, canonicalLabeling, hp]
  rfl

/-- A path with its middle named `1`, and one with its middle named `2`. -/
def pathEquiv : Fin (ofEdges 3 [(0, 1), (1, 2)]).n ≃ Fin (ofEdges 3 [(0, 2), (1, 2)]).n :=
  (Equiv.swap (Fin.last 1).castSucc (Fin.last 2) : Equiv.Perm (Fin 3))

/-- `certify.cellsFromColoring`: the vertices by colour, the cells in the order of the colours. -/
def cellsFromColoring {n : ℕ} (color : Fin n → Content) : List (List (Fin n)) :=
  (sortedGroups id (fun v => (color v).canon) (List.finRange n)).map (·.2)

theorem cellsFromColoring_eq {n : ℕ} (color : Fin n → Content) : cellsFromColoring color =
    (sortOn id (keys (fun v => (color v).canon) (List.finRange n))).map fun k =>
      (List.finRange n).filter fun v => (color v).canon = k := by
  rw [cellsFromColoring, sortedGroups_eq, List.map_map]
  rfl

theorem partitions_cellsFromColoring {n : ℕ} (color : Fin n → Content) :
    Partitions (cellsFromColoring color) := by
  have hsort : (cellsFromColoring color).Perm (groups (fun v => (color v).canon) (List.finRange n)) :=
    (sortOn_perm _ _).map _
  exact hsort.flatten.trans (flatten_groups_perm _ (List.nodup_finRange n))

theorem fits_cellsFromColoring (hn : g.n * g.n + 7 < 2 ^ 31) (color : Fin g.n → Content) :
    Fits g (cellsFromColoring color) := by
  have hparts := partitions_cellsFromColoring color
  refine ⟨hparts, hn, ?_⟩
  have hone : ∀ k ∈ (cellsFromColoring color).map List.length, 1 ≤ k := by
    intro k hk
    obtain ⟨cell, hcell, rfl⟩ := List.mem_map.mp hk
    obtain ⟨p, hp, rfl⟩ := List.mem_map.mp hcell
    obtain ⟨⟨v, hv, hkey⟩, hmem⟩ := mem_sortedGroups.mp hp
    rw [hmem]
    exact List.length_pos_of_mem (List.mem_filter.mpr ⟨hv, decide_eq_true hkey⟩)
  have hle := List.length_le_sum_of_one_le _ hone
  have hlen := hparts.length_eq
  rw [List.length_map, ← List.length_flatten, hlen, List.length_finRange] at hle
  have := Nat.le_mul_self g.n
  omega

/-- The cells of colourings that use the same colours correspond when the colours do. -/
theorem colouredIso_cellsFromColoring {color : Fin g.n → Content} {color' : Fin h.n → Content}
    (hused : ∀ v, ∃ w, Content.Equals (color v) (color' w))
    (hused' : ∀ w, ∃ v, Content.Equals (color v) (color' w)) (e : Fin g.n ≃ Fin h.n) :
    ColouredIso g h (cellsFromColoring color) (cellsFromColoring color') e ↔
      IsIso g h e ∧ ∀ v, Content.Equals (color v) (color' (e v)) := by
  have hkeys : sortOn id (keys (fun v => (color v).canon) (List.finRange g.n)) =
      sortOn id (keys (fun v => (color' v).canon) (List.finRange h.n)) := by
    refine sortOn_eq_of_perm Function.injective_id
      ((List.perm_ext_iff_of_nodup (keys_nodup _ _) (keys_nodup _ _)).mpr fun k => ?_)
    refine mem_keys.trans (Iff.trans ?_ mem_keys.symm)
    constructor
    · rintro ⟨v, -, rfl⟩
      obtain ⟨w, hw⟩ := hused v
      exact ⟨w, List.mem_finRange w, hw.symm⟩
    · rintro ⟨w, -, rfl⟩
      obtain ⟨v, hv⟩ := hused' w
      exact ⟨v, List.mem_finRange v, hv⟩
  have hcells : List.Forall₂ (fun cell cell' => (cell.map e).Perm cell') (cellsFromColoring color)
      (cellsFromColoring color') ↔ ∀ v, Content.Equals (color v) (color' (e v)) := by
    rw [cellsFromColoring_eq, cellsFromColoring_eq, ← hkeys, List.forall₂_map_left_iff,
      List.forall₂_map_right_iff, List.forall₂_same]
    constructor
    · intro hall v
      have hv := hall (color v).canon (mem_sortOn.mpr (mem_keys.mpr ⟨v, List.mem_finRange v, rfl⟩))
      have hmem : e v ∈ (List.finRange h.n).filter fun w => (color' w).canon = (color v).canon :=
        hv.mem_iff.mp (List.mem_map_of_mem (List.mem_filter.mpr ⟨List.mem_finRange v, by simp⟩))
      exact (of_decide_eq_true (List.mem_filter.mp hmem).2).symm
    · intro hall k _
      refine (List.perm_ext_iff_of_nodup (((List.nodup_finRange _).filter _).map e.injective)
        ((List.nodup_finRange _).filter _)).mpr fun w => ?_
      obtain ⟨v, rfl⟩ := e.surjective w
      have hv : (color v).canon = (color' (e v)).canon := hall v
      simp [hv]
  exact ⟨fun he => ⟨he.iso, hcells.mp he.cells⟩, fun he => ⟨he.1, hcells.mpr he.2⟩⟩

/-- The ends of a path have one colour, its middle another. -/
def endsAndMiddle (middle : Fin 3) (v : Fin 3) : Content := .num (if v = middle then 1 else 0)

end Dialysis.TracesJni
