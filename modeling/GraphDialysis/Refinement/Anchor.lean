import GraphDialysis.Refinement.ColorRefinement

/-! `anchor` and the sweep over the cells in which Phases 1 and 2 use it. A colour that the sweep
    writes is derived from the cell's own number (`Anchored`), so no sweep merges two cells, and
    sweeps over corresponding cells whose keys compare alike write corresponding colours
    (`anchorCells_corr`). -/

namespace Dialysis.Refinement
open Lib
variable {n m : ℕ}

/-- `for (v in members) chi[v] = newColor`. -/
def setAll (chi : Fin n → Content) (members : List (Fin n)) (newColor : Content) : Fin n → Content :=
  members.foldl (fun chi v => Function.update chi v newColor) chi

/-- A group of positive rank gets a colour derived from the class's colour and the rank. -/
def setGroup (originalColor : Content) (chi : Fin n → Content) (p : (KString × List (Fin n)) × ℕ) :
    Fin n → Content :=
  if p.2 = 0 then chi else setAll chi p.1.2 (.tup [originalColor, .num p.2])

/-- Groups the class by its keys; all groups but the first get new colours. Returns the number of
    new colours too. -/
def anchor (chi : Fin n → Content) (cls : List (Fin n)) (key : Fin n → KString) :
    (Fin n → Content) × ℕ :=
  match cls with
  | first :: _ :: _ =>
    let groups := sortedGroups utf16 key cls
    if groups.length ≤ 1 then (chi, 0)
    else (groups.zipIdx.foldl (setGroup (chi first)) chi, groups.length - 1)
  | _ => (chi, 0)

/-- One cell of a sweep; the keys may look at what the sweep has written. -/
def anchorCell (keyOf : (Fin n → Content) → Fin n → KString) (s : (Fin n → Content) × Bool)
    (cell : List (Fin n)) : (Fin n → Content) × Bool :=
  if cell.length ≤ 1 then s
  else
    let a := anchor s.1 cell (keyOf s.1)
    (a.1, s.2 || 0 < a.2)

/-- Cell after cell; whether any was split. -/
def anchorCells (keyOf : (Fin n → Content) → Fin n → KString) (cells : List (List (Fin n)))
    (chi : Fin n → Content) : (Fin n → Content) × Bool :=
  cells.foldl (anchorCell keyOf) (chi, false)

/-! ### What is written -/

theorem setAll_apply (newColor : Content) : ∀ (members : List (Fin n)) (chi : Fin n → Content)
    (v : Fin n), setAll chi members newColor v = if v ∈ members then newColor else chi v
  | [], chi, v => by simp [setAll]
  | w :: members, chi, v => by
    rw [setAll, List.foldl_cons, ← setAll, setAll_apply newColor members]
    by_cases hv : v ∈ members
    · simp [hv]
    · by_cases hvw : v = w
      · subst hvw; simp
      · simp [hv, hvw]

/-- Every write is to a member of a group, and writes a derived colour. -/
theorem foldl_setGroup_cases (orig : Content) (v : Fin n) :
    ∀ (gs : List ((KString × List (Fin n)) × ℕ)) (chi : Fin n → Content),
      gs.foldl (setGroup orig) chi v = chi v ∨
        (∃ p ∈ gs, v ∈ p.1.2) ∧ ∃ r : ℕ, gs.foldl (setGroup orig) chi v = .tup [orig, .num r]
  | [], chi => Or.inl rfl
  | p :: gs, chi => by
    rw [List.foldl_cons]
    rcases foldl_setGroup_cases orig v gs (setGroup orig chi p) with h | ⟨⟨q, hq, hv⟩, hr⟩
    · rw [h, setGroup]
      split
      · exact Or.inl rfl
      · rw [setAll_apply]
        split
        · rename_i hmem
          exact Or.inr ⟨⟨p, List.mem_cons_self, hmem⟩, p.2, rfl⟩
        · exact Or.inl rfl
    · exact Or.inr ⟨⟨q, List.mem_cons_of_mem _ hq, hv⟩, hr⟩

/-- What anchoring does to one vertex. -/
theorem anchor_cases (chi : Fin n → Content) (cls : List (Fin n)) (key : Fin n → KString)
    (v : Fin n) : (anchor chi cls key).1 v = chi v ∨
      v ∈ cls ∧ ∃ w ∈ cls, ∃ r : ℕ, (anchor chi cls key).1 v = .tup [chi w, .num r] := by
  match cls with
  | [] => exact Or.inl rfl
  | [_] => exact Or.inl rfl
  | first :: second :: rest =>
    rw [anchor]
    split
    · exact Or.inl rfl
    · rcases foldl_setGroup_cases (chi first) v
        (sortedGroups utf16 key (first :: second :: rest)).zipIdx chi with h | ⟨⟨p, hp, hv⟩, r, hr⟩
      · exact Or.inl h
      · have hgroup := (mem_sortedGroups.mp (List.fst_mem_of_mem_zipIdx hp)).2
        rw [hgroup] at hv
        exact Or.inr ⟨(List.mem_filter.mp hv).1, first, List.mem_cons_self, r, hr⟩

/-- After the sweep has come to the cells `rest`: colours are numbers or derived from them, and
    those of `rest` are as they were. -/
structure Anchored (ids : Fin n → ℕ) (rest : List (List (Fin n))) (chi : Fin n → Content) : Prop where
  derived : ∀ v, chi v = .num (ids v) ∨ ∃ r : ℕ, chi v = .tup [.num (ids v), .num r]
  fresh : ∀ cell ∈ rest, ∀ v ∈ cell, chi v = .num (ids v)

variable {ids : Fin n → ℕ} {ids' : Fin m → ℕ}

theorem anchored_start (rest : List (List (Fin n))) : Anchored ids rest (numColors ids) :=
  ⟨fun _ => Or.inl rfl, fun _ _ _ _ => rfl⟩

/-- Equal colours come from one cell. -/
theorem Anchored.refines {rest : List (List (Fin n))} {chi : Fin n → Content}
    (h : Anchored ids rest chi) {u v : Fin n} (huv : (chi u).Equals (chi v)) : ids u = ids v := by
  rw [Content.Equals] at huv
  rcases h.derived u with hu | ⟨r, hu⟩ <;> rcases h.derived v with hv | ⟨s, hv⟩ <;>
    rw [hu, hv] at huv <;> simp at huv
  · exact huv
  · exact huv.1

theorem anchored_anchor {cell : List (Fin n)} {rest : List (List (Fin n))} {chi : Fin n → Content}
    (hcell : ∀ v ∈ cell, ∀ w ∈ cell, ids v = ids w) (hdisj : ∀ c ∈ rest, cell.Disjoint c)
    (h : Anchored ids (cell :: rest) chi) (key : Fin n → KString) :
    Anchored ids rest (anchor chi cell key).1 := by
  constructor
  · intro v
    rcases anchor_cases chi cell key v with hv | ⟨hv, w, hw, r, hr⟩
    · rw [hv]; exact h.derived v
    · rw [hr, h.fresh cell List.mem_cons_self w hw, hcell w hw v hv]
      exact Or.inr ⟨r, rfl⟩
  · intro c hc v hv
    rcases anchor_cases chi cell key v with hkeep | ⟨hv', -⟩
    · rw [hkeep]; exact h.fresh c (List.mem_cons_of_mem _ hc) v hv
    · exact absurd hv (fun hv => hdisj c hc hv' hv)

theorem anchored_anchorCell {keyOf : (Fin n → Content) → Fin n → KString} {cell : List (Fin n)}
    {rest : List (List (Fin n))} {s : (Fin n → Content) × Bool}
    (hcell : ∀ v ∈ cell, ∀ w ∈ cell, ids v = ids w) (hdisj : ∀ c ∈ rest, cell.Disjoint c)
    (h : Anchored ids (cell :: rest) s.1) : Anchored ids rest (anchorCell keyOf s cell).1 := by
  rw [anchorCell]
  split
  · exact ⟨h.derived, fun c hc => h.fresh c (List.mem_cons_of_mem _ hc)⟩
  · exact anchored_anchor hcell hdisj h _

theorem anchored_foldl {keyOf : (Fin n → Content) → Fin n → KString} :
    ∀ (cells : List (List (Fin n))) (s : (Fin n → Content) × Bool),
      (∀ c ∈ cells, ∀ v ∈ c, ∀ w ∈ c, ids v = ids w) → cells.Pairwise List.Disjoint →
      Anchored ids cells s.1 → Anchored ids [] (cells.foldl (anchorCell keyOf) s).1
  | [], _, _, _, h => h
  | cell :: cells, s, hcells, hdisj, h => by
    rw [List.pairwise_cons] at hdisj
    exact anchored_foldl cells _ (fun c hc => hcells c (List.mem_cons_of_mem _ hc)) hdisj.2
      (anchored_anchorCell (hcells cell List.mem_cons_self) hdisj.1 h)

/-- A sweep over the cells only splits them. -/
theorem anchored_anchorCells (keyOf : (Fin n → Content) → Fin n → KString) :
    Anchored ids [] (anchorCells keyOf (cellsOf ids) (numColors ids)).1 :=
  anchored_foldl _ _ (fun _ hc _ hv _ hw => ((mem_cell_iff hc hw).mp hv)) (cells_pairwise_disjoint ids)
    (anchored_start _)

/-! ### Corresponding sweeps -/

variable {e : Fin n ≃ Fin m}

theorem foldl_setGroup_corr {orig : Content} {gs : List (KString × List (Fin n))}
    {gs' : List (KString × List (Fin m))}
    (hgs : List.Forall₂ (fun p p' => (p.2.map e).Perm p'.2) gs gs') :
    ∀ (k : ℕ) (chi : Fin n → Content) (chi' : Fin m → Content), (∀ v, chi' (e v) = chi v) →
      ∀ v, (gs'.zipIdx k).foldl (setGroup orig) chi' (e v) = (gs.zipIdx k).foldl (setGroup orig) chi v := by
  induction hgs with
  | nil => exact fun _ _ _ h => h
  | @cons p p' _ _ hp _ ih =>
    intro k chi chi' hchi
    rw [List.zipIdx_cons, List.zipIdx_cons, List.foldl_cons, List.foldl_cons]
    refine ih (k + 1) _ _ fun v => ?_
    rw [setGroup, setGroup]
    dsimp only
    split
    · exact hchi v
    · have hmem : e v ∈ p'.2 ↔ v ∈ p.2 := by
        rw [← hp.mem_iff, List.mem_map_of_injective e.injective]
      rw [setAll_apply, setAll_apply, hchi]
      exact if_congr hmem rfl rfl

/-- Corresponding classes whose keys compare alike are anchored alike. -/
theorem anchor_corr {chi : Fin n → Content} {chi' : Fin m → Content} (hchi : ∀ v, chi' (e v) = chi v)
    {cls : List (Fin n)} {cls' : List (Fin m)} (hcls : (cls.map e).Perm cls')
    (hconst : ∀ v ∈ cls, ∀ w ∈ cls, chi v = chi w) {key : Fin n → KString} {key' : Fin m → KString}
    (hkey : ∀ v ∈ cls, ∀ w ∈ cls, utf16 (key' (e v)) < utf16 (key' (e w)) ↔ utf16 (key v) < utf16 (key w)) :
    (∀ v, (anchor chi' cls' key').1 (e v) = (anchor chi cls key).1 v) ∧
      (anchor chi' cls' key').2 = (anchor chi cls key).2 := by
  have hlen := hcls.length_eq
  rw [List.length_map] at hlen
  match cls, cls' with
  | [], [] => exact ⟨hchi, rfl⟩
  | [_], [_] => exact ⟨hchi, rfl⟩
  | first :: second :: rest, first' :: second' :: rest' =>
    have hgroups := sortedGroups_corr e utf16_injective utf16_injective hcls hkey
    have horig : chi' first' = chi first := by
      obtain ⟨v, hv, hfirst⟩ := List.mem_map.mp (hcls.mem_iff.mpr (List.mem_cons_self (a := first')))
      rw [← hfirst, hchi]
      exact hconst v hv first List.mem_cons_self
    rw [anchor, anchor, ← hgroups.length_eq, horig]
    split
    · exact ⟨hchi, rfl⟩
    · exact ⟨foldl_setGroup_corr hgroups 0 chi chi' hchi, rfl⟩
  | [], _ :: _ => simp at hlen
  | _ :: _, [] => simp at hlen
  | [_], _ :: _ :: _ => simp at hlen
  | _ :: _ :: _, [_] => simp at hlen

/-- Two key functions compare alike on a cell whenever they read corresponding colours. -/
def KeysAgree (e : Fin n ≃ Fin m) (keyOf : (Fin n → Content) → Fin n → KString)
    (keyOf' : (Fin m → Content) → Fin m → KString) (cell : List (Fin n)) : Prop :=
  ∀ (chi : Fin n → Content) (chi' : Fin m → Content), (∀ v, chi' (e v) = chi v) → 1 < cell.length →
    ∀ v ∈ cell, ∀ w ∈ cell, utf16 (keyOf' chi' (e v)) < utf16 (keyOf' chi' (e w)) ↔
      utf16 (keyOf chi v) < utf16 (keyOf chi w)

theorem foldl_anchorCell_corr {keyOf : (Fin n → Content) → Fin n → KString}
    {keyOf' : (Fin m → Content) → Fin m → KString} {cells : List (List (Fin n))}
    {cells' : List (List (Fin m))}
    (hcells : List.Forall₂ (fun c c' => (c.map e).Perm c') cells cells') :
    ∀ (s : (Fin n → Content) × Bool) (s' : (Fin m → Content) × Bool),
      (∀ c ∈ cells, KeysAgree e keyOf keyOf' c) → (∀ c ∈ cells, ∀ v ∈ c, ∀ w ∈ c, ids v = ids w) →
      cells.Pairwise List.Disjoint → Anchored ids cells s.1 → (∀ v, s'.1 (e v) = s.1 v) → s'.2 = s.2 →
      (∀ v, (cells'.foldl (anchorCell keyOf') s').1 (e v) = (cells.foldl (anchorCell keyOf) s).1 v) ∧
        (cells'.foldl (anchorCell keyOf') s').2 = (cells.foldl (anchorCell keyOf) s).2 := by
  induction hcells with
  | nil => exact fun _ _ _ _ _ _ h hflag => ⟨h, hflag⟩
  | @cons cell cell' cells cells' hcell _ ih =>
    intro s s' hkeys hids hdisj hanch hchi hflag
    rw [List.pairwise_cons] at hdisj
    have hlen : cell'.length = cell.length := by rw [← hcell.length_eq, List.length_map]
    have hstep : (∀ v, (anchorCell keyOf' s' cell').1 (e v) = (anchorCell keyOf s cell).1 v) ∧
        (anchorCell keyOf' s' cell').2 = (anchorCell keyOf s cell).2 := by
      rw [anchorCell, anchorCell, hlen]
      split
      · exact ⟨hchi, hflag⟩
      · rename_i hlt
        obtain ⟨h₁, h₂⟩ := anchor_corr hchi hcell (fun v hv w hw => by
          rw [hanch.fresh cell List.mem_cons_self v hv, hanch.fresh cell List.mem_cons_self w hw,
            hids cell List.mem_cons_self v hv w hw])
          (hkeys cell List.mem_cons_self s.1 s'.1 hchi (not_le.mp hlt))
        exact ⟨h₁, by dsimp only; rw [h₂, hflag]⟩
    rw [List.foldl_cons, List.foldl_cons]
    exact ih _ _ (fun c hc => hkeys c (List.mem_cons_of_mem _ hc))
      (fun c hc => hids c (List.mem_cons_of_mem _ hc)) hdisj.2
      (anchored_anchorCell (hids cell List.mem_cons_self) hdisj.1 hanch) hstep.1 hstep.2

/-- Corresponding sweeps write corresponding colours and split at the same time. -/
theorem anchorCells_corr (hids : ∀ v, ids' (e v) = ids v)
    {keyOf : (Fin n → Content) → Fin n → KString} {keyOf' : (Fin m → Content) → Fin m → KString}
    (hkeys : ∀ c ∈ cellsOf ids, KeysAgree e keyOf keyOf' c) :
    (∀ v, (anchorCells keyOf' (cellsOf ids') (numColors ids')).1 (e v) =
      (anchorCells keyOf (cellsOf ids) (numColors ids)).1 v) ∧
      (anchorCells keyOf' (cellsOf ids') (numColors ids')).2 =
        (anchorCells keyOf (cellsOf ids) (numColors ids)).2 :=
  foldl_anchorCell_corr (cellsOf_corr e hids) _ _ hkeys
    (fun _ hc _ hv _ hw => (mem_cell_iff hc hw).mp hv) (cells_pairwise_disjoint ids)
    (anchored_start _) (fun v => congrArg (fun k : ℕ => Content.num k) (hids v)) rfl

end Dialysis.Refinement
