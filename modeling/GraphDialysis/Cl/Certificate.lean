import GraphDialysis.Graph.Basic
import GraphDialysis.Lib.PackedBits
import GraphDialysis.Lib.Reader
import Mathlib.Data.List.Lex

/-! `dialysis.cl.Certificate` and its bytes. Certificates are compared byte by byte, without sign, as
    lists of numbers are (`compareTo_neg_iff`). The bytes hold the number of vertices, the sizes of
    the cells and one bit for every two positions of the labelling, set when the vertices at the two
    positions are adjacent; nothing else, and all of it can be read back (`canonicalBytes_eq_iff`). -/

namespace Dialysis.Cl
open Lib Lib.PackedBits

/-- Certificate bytes. -/
structure Certificate where
  bytes : List UInt8
  deriving DecidableEq

/-- The first difference of two bytes, else that of the sizes; what is left of two arrays after a
    common part differs in size as they do. -/
def compareBytes : List UInt8 → List UInt8 → ℤ
  | a :: s, b :: t =>
    let cmp := (a.toNat : ℤ) - b.toNat
    if cmp ≠ 0 then cmp else compareBytes s t
  | s, t => (s.length : ℤ) - t.length

/-- Lexicographic on unsigned byte values, then shorter-is-less on a common prefix. -/
def Certificate.compareTo (a b : Certificate) : ℤ := compareBytes a.bytes b.bytes

theorem compareBytes_swap : ∀ s t : List UInt8, compareBytes t s = -compareBytes s t
  | [], t => by cases t <;> simp [compareBytes]
  | a :: s, [] => by simp [compareBytes]
  | a :: s, b :: t => by
    have ih := compareBytes_swap s t
    simp only [compareBytes, ih]
    split_ifs <;> omega

theorem compareBytes_eq_zero : ∀ {s t : List UInt8}, compareBytes s t = 0 ↔ s = t
  | [], t => by cases t <;> simp [compareBytes]; omega
  | a :: s, [] => by simp [compareBytes]; omega
  | a :: s, b :: t => by
    simp only [compareBytes, List.cons.injEq, ← @compareBytes_eq_zero s t, ← UInt8.toNat_inj]
    split_ifs <;> omega

theorem compareBytes_neg_iff : ∀ {s t : List UInt8},
    compareBytes s t < 0 ↔ s.map UInt8.toNat < t.map UInt8.toNat
  | [], t => by cases t <;> simp [compareBytes]; omega
  | a :: s, [] => by simp [compareBytes]; omega
  | a :: s, b :: t => by
    simp only [compareBytes, List.map_cons, List.cons_lt_cons_iff, ← @compareBytes_neg_iff s t]
    split_ifs <;> omega

/-- The order of the certificates is that of their bytes as numbers, it is total, and only equal
    certificates tie. -/
theorem compareTo_linear (a b c : Certificate) :
    (a.compareTo b < 0 ↔ a.bytes.map UInt8.toNat < b.bytes.map UInt8.toNat) ∧
      (a.compareTo b = 0 ↔ a = b) ∧ b.compareTo a = -a.compareTo b ∧
      (a.compareTo b ≤ 0 → b.compareTo c ≤ 0 → a.compareTo c ≤ 0) := by
  have hle : ∀ x y : Certificate, x.compareTo y ≤ 0 ↔
      x.bytes.map UInt8.toNat ≤ y.bytes.map UInt8.toNat := by
    intro x y
    have hswap := compareBytes_swap x.bytes y.bytes
    rw [← not_lt, ← not_lt, ← compareBytes_neg_iff, hswap]
    change ¬0 < compareBytes x.bytes y.bytes ↔ _
    omega
  refine ⟨compareBytes_neg_iff, ?_, compareBytes_swap _ _, fun hab hbc => ?_⟩
  · cases a
    cases b
    rw [Certificate.compareTo, compareBytes_eq_zero, Certificate.mk.injEq]
  · rw [hle] at hab hbc ⊢
    exact hab.trans hbc

/-! ### The bytes -/

/-- `posOf`: the position at which the labelling has a vertex. -/
def posOf {n : ℕ} (lab : Fin n → Fin n) : Fin n → ℕ :=
  (List.finRange n).foldl (fun posOf pos => Function.update posOf (lab pos) pos.1) fun _ => 0

/-- The bits in the order in which they are set. -/
def bitIndices (g : Graph) (lab : Fin g.n → Fin g.n) : List ℕ :=
  (List.finRange g.n).flatMap fun pos1 =>
    (g.adj (lab pos1)).map fun v => pos1.1 * g.n + posOf lab v

/-- The canonical adjacency bits. -/
def packed (g : Graph) (lab : Fin g.n → Fin g.n) : List UInt8 :=
  (bitIndices g lab).foldl setBit (List.replicate ((g.n * g.n + 7) / 8) 0)

/-- The number of vertices and the cell sizes, then the canonical adjacency bits. -/
def canonicalBytes (g : Graph) (lab : Fin g.n → Fin g.n) (cells : List (List (Fin g.n))) : List UInt8 :=
  putInt g.n ++ (putInt cells.length ++ cells.flatMap fun cell => putInt cell.length) ++ packed g lab

/-- The adjacency of two positions. -/
def CanonAdj (g : Graph) (lab : Fin g.n → Fin g.n) (i j : ℕ) : Prop :=
  ∃ p q : Fin g.n, p.1 = i ∧ q.1 = j ∧ lab q ∈ g.adj (lab p)

/-- Two labellings give the same graph on the positions. -/
def SameForm (g : Graph) (lab : Fin g.n → Fin g.n) (h : Graph) (lab' : Fin h.n → Fin h.n) : Prop :=
  g.n = h.n ∧ ∀ i j, CanonAdj g lab i j ↔ CanonAdj h lab' i j

/-- The last of several updates at different places stays. -/
theorem foldl_update {α β γ : Type*} [DecidableEq β] {f : α → β} (hf : Function.Injective f)
    {val : α → γ} {init : β → γ} {l : List α} {a : α} (ha : a ∈ l) :
    l.foldl (fun m x => Function.update m (f x) (val x)) init (f a) = val a := by
  induction l using List.reverseRecOn with
  | nil => cases ha
  | append_singleton l x ih =>
    rw [List.foldl_append, List.foldl_cons, List.foldl_nil]
    rcases eq_or_ne x a with rfl | hne
    · rw [Function.update_self]
    · rw [Function.update_of_ne fun h => hne (hf h).symm]
      exact ih ((List.mem_append.mp ha).resolve_right fun h => hne (List.mem_singleton.mp h).symm)

variable {g h : Graph} {lab : Fin g.n → Fin g.n} {lab' : Fin h.n → Fin h.n}

theorem posOf_lab (hlab : Function.Injective lab) (p : Fin g.n) : posOf lab (lab p) = p.1 :=
  foldl_update hlab (List.mem_finRange p)

theorem mem_bitIndices (hlab : Function.Injective lab) {k : ℕ} :
    k ∈ bitIndices g lab ↔ ∃ i j, CanonAdj g lab i j ∧ k = i * g.n + j := by
  simp only [bitIndices, List.mem_flatMap, List.mem_finRange, true_and, List.mem_map]
  constructor
  · rintro ⟨p, v, hv, rfl⟩
    obtain ⟨q, rfl⟩ := (Finite.injective_iff_surjective.mp hlab) v
    exact ⟨p.1, q.1, ⟨p, q, rfl, rfl, hv⟩, by rw [posOf_lab hlab]⟩
  · rintro ⟨_, _, ⟨p, q, rfl, rfl, hq⟩, rfl⟩
    exact ⟨p, lab q, hq, by rw [posOf_lab hlab]⟩

/-- Every bit has its byte. -/
theorem bitIndices_lt (hlab : Function.Injective lab) {k : ℕ} (hk : k ∈ bitIndices g lab) :
    k / 8 < (g.n * g.n + 7) / 8 := by
  obtain ⟨_, _, ⟨p, q, rfl, rfl, -⟩, rfl⟩ := (mem_bitIndices hlab).mp hk
  have hrow : p.1 * g.n + g.n ≤ g.n * g.n := by
    rw [← Nat.succ_mul]
    exact Nat.mul_le_mul_right _ p.2
  have := q.2
  omega

theorem testBit_packed (hlab : Function.Injective lab) (k : ℕ) :
    testBit (packed g lab) k = decide (k ∈ bitIndices g lab) :=
  testBit_filled (fun _ hk => bitIndices_lt hlab hk) k

theorem canonAdj_lt {i j : ℕ} (hij : CanonAdj g lab i j) : i < g.n ∧ j < g.n := by
  obtain ⟨p, q, rfl, rfl, -⟩ := hij
  exact ⟨p.2, q.2⟩

theorem row_column_inj {n i j i' j' : ℕ} (hj : j < n) (hj' : j' < n)
    (heq : i * n + j = i' * n + j') : i = i' ∧ j = j' := by
  have hn : 0 < n := by omega
  have hdiv : i = i' := by
    have := congrArg (· / n) heq
    simpa [Nat.add_comm, Nat.add_mul_div_right, hn, Nat.div_eq_of_lt hj, Nat.div_eq_of_lt hj'] using this
  subst hdiv
  exact ⟨rfl, by omega⟩

/-- Different entries of the matrix are different bits. -/
theorem canonAdj_of_subset (hn : g.n = h.n) (hlab : Function.Injective lab)
    (hlab' : Function.Injective lab') (hsub : ∀ k ∈ bitIndices g lab, k ∈ bitIndices h lab') {i j : ℕ}
    (hij : CanonAdj g lab i j) : CanonAdj h lab' i j := by
  obtain ⟨i', j', hij', hk⟩ := (mem_bitIndices hlab').mp
    (hsub _ ((mem_bitIndices hlab).mpr ⟨i, j, hij, rfl⟩))
  rw [hn] at hk
  have hj := (canonAdj_lt hij).2
  rw [hn] at hj
  obtain ⟨rfl, rfl⟩ := row_column_inj hj (canonAdj_lt hij').2 hk
  exact hij'

/-- The bits determine the adjacency of the positions. -/
theorem packed_eq_iff (hn : g.n = h.n) (hlab : Function.Injective lab) (hlab' : Function.Injective lab') :
    packed g lab = packed h lab' ↔ ∀ i j, CanonAdj g lab i j ↔ CanonAdj h lab' i j := by
  constructor
  · intro heq
    have hmem : ∀ k, k ∈ bitIndices g lab ↔ k ∈ bitIndices h lab' := fun k => by
      have := (testBit_packed hlab k).symm.trans ((congrArg (testBit · k) heq).trans (testBit_packed hlab' k))
      exact decide_eq_decide.mp this
    exact fun i j => ⟨canonAdj_of_subset hn hlab hlab' fun k => (hmem k).mp,
      canonAdj_of_subset hn.symm hlab' hlab fun k => (hmem k).mpr⟩
  · intro hadj
    have hmem : ∀ k, k ∈ bitIndices g lab ↔ k ∈ bitIndices h lab' := fun k => by
      rw [mem_bitIndices hlab, mem_bitIndices hlab', hn]
      simp only [hadj]
    refine eq_of_testBit ?_ fun k => ?_
    · rw [packed, packed, length_foldl_setBit, length_foldl_setBit, List.length_replicate,
        List.length_replicate, hn]
    · rw [testBit_packed hlab, testBit_packed hlab']
      exact decide_eq_decide.mpr (hmem k)

/-- The number of vertices and the sizes of the cells. -/
def readHeader : Reader UInt8 (ℤ × List ℤ) := do
  let n ← getInt
  let sizes ← counted getInt
  pure (n, sizes)

theorem reads_header {n : ℕ} (hn : n < 2 ^ 31) {α : Type} {cells : List (List α)}
    (hcells : cells.length < 2 ^ 31) (hcell : ∀ cell ∈ cells, cell.length < 2 ^ 31) :
    Reads readHeader (putInt n ++ (putInt cells.length ++ cells.flatMap fun cell => putInt cell.length))
      ((n : ℤ), cells.map fun cell => (cell.length : ℤ)) := by
  refine (reads_getInt (isInt32_natCast hn)).bind (Reads.bind_pure (reads_counted hcells ?_))
  exact fun cell hmem => reads_getInt (isInt32_natCast (hcell cell hmem))

/-- The bytes are those of the cell sizes and the graph on the positions. -/
theorem canonicalBytes_eq_iff {cells : List (List (Fin g.n))} {cells' : List (List (Fin h.n))}
    (hlab : Function.Injective lab) (hlab' : Function.Injective lab')
    (hn : g.n < 2 ^ 31) (hcells : cells.length < 2 ^ 31) (hcell : ∀ cell ∈ cells, cell.length < 2 ^ 31)
    (hn' : h.n < 2 ^ 31) (hcells' : cells'.length < 2 ^ 31)
    (hcell' : ∀ cell ∈ cells', cell.length < 2 ^ 31) :
    canonicalBytes g lab cells = canonicalBytes h lab' cells' ↔
      cells.map List.length = cells'.map List.length ∧ SameForm g lab h lab' := by
  constructor
  · intro heq
    have hread := reads_header hn hcells hcell (packed g lab)
    have hread' := reads_header hn' hcells' hcell' (packed h lab')
    rw [canonicalBytes, canonicalBytes] at heq
    rw [heq, hread'] at hread
    obtain ⟨hheader, hpacked⟩ := Prod.mk.inj (Option.some.inj hread)
    obtain ⟨hsize, hlengths⟩ := Prod.mk.inj hheader
    have hnn : g.n = h.n := by exact_mod_cast hsize.symm
    have hinj : Function.Injective (fun k : ℕ => (k : ℤ)) := Int.ofNat_injective
    refine ⟨List.map_injective_iff.mpr hinj ?_, hnn, (packed_eq_iff hnn hlab hlab').mp hpacked.symm⟩
    rw [List.map_map, List.map_map]
    exact hlengths.symm
  · rintro ⟨hlengths, hnn, hadj⟩
    have hsizes : (cells.flatMap fun cell => putInt cell.length) =
        cells'.flatMap fun cell => putInt cell.length := by
      have := congrArg (List.flatMap fun k : ℕ => putInt k) hlengths
      rwa [List.flatMap_map, List.flatMap_map] at this
    have hcount : cells.length = cells'.length := by
      have := congrArg List.length hlengths
      rwa [List.length_map, List.length_map] at this
    rw [canonicalBytes, canonicalBytes, hsizes, hcount, hnn, (packed_eq_iff hnn hlab hlab').mpr hadj]

end Dialysis.Cl
