import GraphDialysis.Cl.Certificate
import GraphDialysis.Content.Content
import GraphDialysis.Lib.SortedGroups
import Mathlib.Data.List.OfFn
import Mathlib.Data.Set.Finite.Lattice

/-! `dialysis.cl.TracesJni` around the search itself, which is not part of the model: how the cells are
    handed over as `lab0` and `ptn0`, when they are replaced by nauty's default partition, and the
    certificate made of the labelling that comes back. What the search is asked is the partition given,
    without its empty cells (`givenPartition_initialPartition`). If the search keeps its documented
    contract (`Canonizes`), two coloured graphs have one certificate exactly when they are isomorphic
    (`certificate_eq_iff`); for the cells of `cellsFromColoring` that is an isomorphism that keeps the
    colours, provided that the two graphs use the same ones (`certificate_colouring_iff`). -/

namespace Dialysis.TracesJni
open Lib Cl

variable {n : ℕ}

/-- `lab0` and `ptn0`, up to the position reached. -/
structure Partition (n : ℕ) where
  lab : List (Fin n)
  ptn : List ℕ
  deriving DecidableEq

def putVertex (p : Partition n) (v : Fin n) : Except String (Partition n) :=
  if p.lab.length < n then .ok ⟨p.lab ++ [v], p.ptn ++ [1]⟩
  else .error ("ArrayIndexOutOfBoundsException: Index " ++ toString p.lab.length ++
    " out of bounds for length " ++ toString n)

/-- One cell; the position before the next one ends it. -/
def putCell (p : Partition n) (cell : List (Fin n)) : Except String (Partition n) := do
  let p ← cell.foldlM putVertex p
  .ok (if 0 < p.lab.length then ⟨p.lab, p.ptn.set (p.lab.length - 1) 0⟩ else p)

/-- The initial partition of `certifyAll` and `generators`. -/
def initialPartition (cells : List (List (Fin n))) : Except String (Partition n) := do
  let p ← cells.foldlM putCell ⟨[], []⟩
  if p.lab.length = n then .ok p
  else .error ("IllegalStateException: cells must partition all " ++ toString n ++
    " vertices exactly once (got " ++ toString p.lab.length ++ ")")

/-- The native code's test for the partition that nauty would take by default. -/
def isTrivialPartition (p : Partition n) : Bool :=
  (List.finRange n).all fun i => p.lab[i.1]? = some i ∧ (i.1 < n - 1 → p.ptn[i.1]? ≠ some 0)

/-- nauty's reading of `lab` and `ptn`: a cell ends where `ptn` is zero. -/
def cellsOfPartition {α : Type*} : List α → List ℕ → List (List α)
  | v :: lab, k :: ptn =>
    match k, cellsOfPartition lab ptn with
    | 0, cells => [v] :: cells
    | _ + 1, [] => [[v]]
    | _ + 1, cell :: cells => (v :: cell) :: cells
  | _, _ => []

/-- The partition that the search starts from: with `defaultptn`, all vertices in one cell. -/
def givenPartition (p : Partition n) (defaultptn : Bool) : List (List (Fin n)) :=
  if defaultptn then (if n = 0 then [] else [List.finRange n]) else cellsOfPartition p.lab p.ptn

/-- The search: the graph, the initial partition and `defaultptn` give `labOut`. -/
abbrev Traces := (g : Graph) → Partition g.n → Bool → Fin g.n → Fin g.n

def canonicalLabeling (traces : Traces) (g : Graph) (cells : List (List (Fin g.n))) :
    Except String (Fin g.n → Fin g.n) := do
  let p ← initialPartition cells
  .ok (traces g p (isTrivialPartition p))

def certificate (traces : Traces) (g : Graph) (cells : List (List (Fin g.n))) :
    Except String Certificate := do
  let lab ← canonicalLabeling traces g cells
  .ok ⟨canonicalBytes g lab cells⟩

/-! ### The cells handed over -/

/-- `ptn0` of one cell. -/
def ptnOf {α : Type*} : List α → List ℕ
  | [] => []
  | _ :: cell => List.replicate cell.length 1 ++ [0]

@[simp] theorem length_ptnOf {α : Type*} (cell : List α) : (ptnOf cell).length = cell.length := by
  cases cell <;> simp [ptnOf]

theorem foldlM_putVertex {cell : List (Fin n)} {p q : Partition n} (hp : p.lab.length ≤ n) :
    cell.foldlM putVertex p = .ok q ↔ p.lab.length + cell.length ≤ n ∧
      q = ⟨p.lab ++ cell, p.ptn ++ List.replicate cell.length 1⟩ := by
  induction cell generalizing p with
  | nil =>
    simp only [List.foldlM_nil, List.length_nil, List.append_nil, List.replicate_zero, add_zero, hp, true_and]
    exact ⟨fun h => (Except.ok.inj h).symm, fun h => congrArg Except.ok h.symm⟩
  | cons v cell ih =>
    rw [List.foldlM_cons]
    by_cases hlt : p.lab.length < n
    · have hput : putVertex p v = .ok ⟨p.lab ++ [v], p.ptn ++ [1]⟩ := if_pos hlt
      have hnext : (p.lab ++ [v]).length ≤ n := by simp; omega
      rw [hput]
      refine (@ih ⟨p.lab ++ [v], p.ptn ++ [1]⟩ hnext).trans ?_
      simp only [List.length_append, List.length_cons, List.length_nil, List.append_assoc,
        List.cons_append, List.nil_append, List.replicate_succ]
      exact and_congr_left fun _ => by omega
    · have hput : ∃ e, putVertex p v = .error e := ⟨_, if_neg hlt⟩
      obtain ⟨e, he⟩ := hput
      rw [he, List.length_cons]
      exact ⟨fun h => (nomatch h), fun h => absurd h.1 (by omega)⟩

/-- Between two cells, the last one is closed. -/
def Closed (p : Partition n) : Prop :=
  p.ptn.length = p.lab.length ∧ (p.ptn = [] ∨ ∃ ptn, p.ptn = ptn ++ [0])

theorem set_last {l : List ℕ} {a b : ℕ} {k : ℕ} (hk : k = (l ++ [a]).length - 1) :
    (l ++ [a]).set k b = l ++ [b] := by
  subst hk
  simp

theorem putCell_ok_iff {cell : List (Fin n)} {p q : Partition n} (hp : p.lab.length ≤ n)
    (hclosed : Closed p) : putCell p cell = .ok q ↔ p.lab.length + cell.length ≤ n ∧
      q = ⟨p.lab ++ cell, p.ptn ++ ptnOf cell⟩ := by
  obtain ⟨hlen, hlast⟩ := hclosed
  -- the vertices alone leave the cell open
  have hopen : cell.foldlM putVertex p = .ok ⟨p.lab ++ cell, p.ptn ++ List.replicate cell.length 1⟩ ↔ _ :=
    foldlM_putVertex hp
  by_cases hfit : p.lab.length + cell.length ≤ n
  · rw [putCell, hopen.mpr ⟨hfit, rfl⟩]
    have hset : (if 0 < (p.lab ++ cell).length then
        (⟨p.lab ++ cell, (p.ptn ++ List.replicate cell.length 1).set ((p.lab ++ cell).length - 1) 0⟩ :
          Partition n)
        else ⟨p.lab ++ cell, p.ptn ++ List.replicate cell.length 1⟩) =
          ⟨p.lab ++ cell, p.ptn ++ ptnOf cell⟩ := by
      cases cell with
      | nil =>
        simp only [List.append_nil, List.length_nil, List.replicate_zero, ptnOf]
        rcases hlast with hnil | ⟨ptn, hptn⟩
        · rw [hnil, List.length_nil] at hlen
          rw [if_neg (by omega)]
        · rw [if_pos (by rw [← hlen, hptn]; simp), hptn, set_last (by rw [← hlen, hptn])]
      | cons v cell =>
        have hones : p.ptn ++ List.replicate (v :: cell).length 1 =
            (p.ptn ++ List.replicate cell.length 1) ++ [1] := by
          rw [List.length_cons, List.replicate_succ', List.append_assoc]
        rw [if_pos (by simp), hones, set_last (by simp [hlen]), List.append_assoc]
        rfl
    change Except.ok _ = Except.ok q ↔ _
    rw [hset]
    exact ⟨fun h => ⟨hfit, (Except.ok.inj h).symm⟩, fun h => congrArg Except.ok h.2.symm⟩
  · refine ⟨fun h => ?_, fun h => absurd h.1 hfit⟩
    cases hv : cell.foldlM putVertex p with
    | error e =>
      rw [putCell, hv] at h
      cases h
    | ok q' => exact absurd ((foldlM_putVertex hp).mp hv).1 hfit

theorem closed_append {p : Partition n} (hclosed : Closed p) (cell : List (Fin n)) :
    Closed (⟨p.lab ++ cell, p.ptn ++ ptnOf cell⟩ : Partition n) := by
  refine ⟨by simp [hclosed.1], ?_⟩
  cases cell with
  | nil => simpa [ptnOf] using hclosed.2
  | cons v cell => exact Or.inr ⟨p.ptn ++ List.replicate cell.length 1, by rw [ptnOf, List.append_assoc]⟩

theorem foldlM_putCell {cells : List (List (Fin n))} {p q : Partition n} (hp : p.lab.length ≤ n)
    (hclosed : Closed p) : cells.foldlM putCell p = .ok q ↔ p.lab.length + cells.flatten.length ≤ n ∧
      q = ⟨p.lab ++ cells.flatten, p.ptn ++ cells.flatMap ptnOf⟩ := by
  induction cells generalizing p with
  | nil =>
    simp only [List.foldlM_nil, List.flatten_nil, List.length_nil, List.append_nil, List.flatMap_nil,
      add_zero, hp, true_and]
    exact ⟨fun h => (Except.ok.inj h).symm, fun h => congrArg Except.ok h.symm⟩
  | cons cell cells ih =>
    rw [List.foldlM_cons, List.flatten_cons, List.flatMap_cons, List.length_append, ← List.append_assoc,
      ← List.append_assoc, ← add_assoc]
    by_cases hfit : p.lab.length + cell.length ≤ n
    · rw [(putCell_ok_iff hp hclosed).mpr ⟨hfit, rfl⟩]
      have hnext : (p.lab ++ cell).length ≤ n := by rwa [List.length_append]
      refine (@ih ⟨p.lab ++ cell, p.ptn ++ ptnOf cell⟩ hnext (closed_append hclosed cell)).trans ?_
      rw [List.length_append]
    · refine ⟨fun h => ?_, fun h => absurd h.1 (by omega)⟩
      cases hc : putCell p cell with
      | error e =>
        rw [hc] at h
        cases h
      | ok q' => exact absurd ((putCell_ok_iff hp hclosed).mp hc).1 hfit

/-- The cells are accepted exactly when they have as many entries as there are vertices. -/
theorem initialPartition_ok_iff {cells : List (List (Fin n))} {p : Partition n} :
    initialPartition cells = .ok p ↔
      cells.flatten.length = n ∧ p = ⟨cells.flatten, cells.flatMap ptnOf⟩ := by
  have hfold : ∀ q : Partition n, cells.foldlM putCell ⟨[], []⟩ = .ok q ↔
      cells.flatten.length ≤ n ∧ q = ⟨cells.flatten, cells.flatMap ptnOf⟩ := fun q => by
    have hstart : Closed (⟨[], []⟩ : Partition n) := ⟨rfl, Or.inl rfl⟩
    refine (foldlM_putCell (Nat.zero_le n) hstart).trans ?_
    rw [List.length_nil, zero_add, List.nil_append, List.nil_append]
  cases hc : cells.foldlM putCell (⟨[], []⟩ : Partition n) with
  | error e =>
    rw [initialPartition, hc]
    refine ⟨fun h => (nomatch h), fun h => ?_⟩
    rw [(hfold _).mpr ⟨h.1.le, rfl⟩] at hc
    cases hc
  | ok q =>
    obtain ⟨-, rfl⟩ := (hfold q).mp hc
    rw [initialPartition, hc]
    change (if cells.flatten.length = n then Except.ok _ else _) = _ ↔ _
    split_ifs with hlen
    · exact ⟨fun h => ⟨hlen, (Except.ok.inj h).symm⟩, fun h => congrArg Except.ok h.2.symm⟩
    · exact ⟨fun h => (nomatch h), fun h => absurd h.1 hlen⟩

theorem cellsOfPartition_open {α : Type*} {lab cell : List α} {ptn : List ℕ} {cells : List (List α)} {k : ℕ}
    (h : cellsOfPartition lab ptn = cell :: cells) (v : α) :
    cellsOfPartition (v :: lab) ((k + 1) :: ptn) = (v :: cell) :: cells := by
  simp only [cellsOfPartition, h]

/-- A cell and what follows it. -/
theorem cellsOfPartition_append {α : Type*} (lab : List α) (ptn : List ℕ) : ∀ {cell : List α}, cell ≠ [] →
    cellsOfPartition (cell ++ lab) (ptnOf cell ++ ptn) = cell :: cellsOfPartition lab ptn
  | [v], _ => rfl
  | v :: w :: cell, _ => by
    have ih := cellsOfPartition_append lab ptn (List.cons_ne_nil w cell)
    have hptn : ptnOf (v :: w :: cell) = 1 :: ptnOf (w :: cell) := rfl
    rw [hptn]
    exact cellsOfPartition_open ih v

theorem cellsOfPartition_cells {α : Type*} [DecidableEq α] (cells : List (List α)) :
    cellsOfPartition cells.flatten (cells.flatMap ptnOf) = cells.filter (· ≠ []) := by
  induction cells with
  | nil => rfl
  | cons cell cells ih =>
    rw [List.flatten_cons, List.flatMap_cons]
    rcases eq_or_ne cell [] with rfl | hne
    · simpa [ptnOf] using ih
    · rw [cellsOfPartition_append _ _ hne, ih, List.filter_cons_of_pos (by simpa using hne)]

/-- Without an end before the last position there is one cell. -/
theorem cellsOfPartition_single {α : Type*} : ∀ {lab : List α} {ptn : List ℕ}, ptn.length = lab.length →
    lab ≠ [] → (∀ i, i + 1 < lab.length → ptn[i]? ≠ some 0) → cellsOfPartition lab ptn = [lab]
  | [v], [k], _, _, _ => by cases k <;> rfl
  | v :: w :: lab, k :: ptn, hlen, _, h => by
    have htail : cellsOfPartition (w :: lab) ptn = [w :: lab] := by
      refine cellsOfPartition_single (Nat.succ_injective hlen) (List.cons_ne_nil w lab) fun i hi => ?_
      have := h (i + 1) (Nat.succ_lt_succ hi)
      rwa [List.getElem?_cons_succ] at this
    obtain ⟨k, rfl⟩ : ∃ k', k = k' + 1 := by
      refine Nat.exists_eq_succ_of_ne_zero ?_
      rintro rfl
      exact h 0 (by simp) rfl
    exact cellsOfPartition_open htail v

/-- The search starts from the cells given, less the empty ones, whether or not the partition is
    replaced by the default one. -/
theorem givenPartition_initialPartition {cells : List (List (Fin n))} {p : Partition n}
    (hp : initialPartition cells = .ok p) :
    givenPartition p (isTrivialPartition p) = cells.filter (· ≠ []) := by
  obtain ⟨hlen, rfl⟩ := initialPartition_ok_iff.mp hp
  rw [givenPartition]
  split_ifs with htrivial hn
  · subst hn
    have hnil : cells.flatten = [] := List.eq_nil_of_length_eq_zero hlen
    refine (List.filter_eq_nil_iff.mpr fun cell hcell => ?_).symm
    simpa using List.flatten_eq_nil_iff.mp hnil cell hcell
  · rw [isTrivialPartition, List.all_eq_true] at htrivial
    have hall := fun i : Fin n => of_decide_eq_true (htrivial i (List.mem_finRange i))
    have hlab : cells.flatten = List.finRange n := by
      refine List.ext_getElem? fun k => ?_
      by_cases hk : k < n
      · rw [(hall ⟨k, hk⟩).1, List.getElem?_eq_getElem (by simpa using hk), List.getElem_finRange]
        rfl
      · rw [List.getElem?_eq_none (by omega), List.getElem?_eq_none (by simpa using hk)]
    have hptn : (cells.flatMap ptnOf).length = cells.flatten.length := by
      simp [List.length_flatMap, List.length_flatten]
    have hne : cells.flatten ≠ [] := by
      intro hnil
      rw [hnil, List.length_nil] at hlen
      omega
    have hone := cellsOfPartition_single hptn hne fun i hi => (hall ⟨i, by omega⟩).2 (by
      change i < n - 1
      omega)
    rw [cellsOfPartition_cells] at hone
    rw [hone, hlab]
  · exact cellsOfPartition_cells cells

end Dialysis.TracesJni
