import GraphDialysis.Decomposition.DecompositionStore
import GraphDialysis.Lib.Reader

/-! The record of a decomposition in the file behind `DecompositionStore`: a sequence of 32-bit ints,
    lists being preceded by their length. There is one writer, a size function and three readers.
    The size function counts what the writer writes (`length_writeRecord`), and each reader finds its
    fields (`reads_readRecord`, `run_readRemainderComps`, `run_readTreeAndOrphanCount`). -/

namespace Dialysis
open Lib
variable {n : ℕ}

/-! ### The values of the file -/

/-- `Slice`, its vertices being ints. -/
structure IntSlice where
  level : ℤ
  orphans : List ℤ
  attachments : List ℤ

/-- `Decomposition`, as it is written and read: the vertices are ints, no parent is `-1`. -/
structure IntDecomposition where
  root : ℤ
  treeVerts : List ℤ
  parent : List ℤ
  depth : List ℤ
  orphans : List ℤ
  slices : List IntSlice
  remainderComps : List (List ℤ)
  connectorEdges : List (ℤ × ℤ)

/-- A vertex as an int. -/
def toInt (v : Fin n) : ℤ := (v.val : ℤ)

def Slice.toInts (s : Slice n) : IntSlice := ⟨s.level, s.orphans.map toInt, s.attachments.map toInt⟩

def Decomposition.toInts (dec : Decomposition n) : IntDecomposition where
  root := toInt dec.root
  treeVerts := dec.treeVerts.1.map toInt
  parent := (List.finRange n).map fun v => (dec.parent v).elim (-1) toInt
  depth := (List.finRange n).map dec.depth
  orphans := dec.orphans.map toInt
  slices := dec.slices.map Slice.toInts
  remainderComps := dec.remainderComps.map fun c => c.1.map toInt
  connectorEdges := dec.connectorEdges.map fun e => (toInt e.1, toInt e.2)

/-! ### Writing a record -/

/-- `ByteBuffer.putInts`. -/
def putInts (arr : List ℤ) : List UInt8 := putInt arr.length ++ arr.flatMap putInt

def putSlice (s : IntSlice) : List UInt8 := putInt s.level ++ (putInts s.orphans ++ putInts s.attachments)

def putEdge (e : ℤ × ℤ) : List UInt8 := putInt e.1 ++ putInt e.2

/-- The bytes that `writeRecord` puts into the buffer. -/
def writeRecord (dec : IntDecomposition) : List UInt8 :=
  putInts dec.treeVerts ++ (dec.parent.flatMap putInt ++ (dec.depth.flatMap putInt ++
    (putInts dec.orphans ++ ((putInt dec.slices.length ++ dec.slices.flatMap putSlice) ++
      ((putInt dec.remainderComps.length ++ dec.remainderComps.flatMap putInts) ++
        (putInt dec.connectorEdges.length ++ dec.connectorEdges.flatMap putEdge))))))

/-! ### The readers -/

/-- `readInts`. -/
def readInts : Reader UInt8 (List ℤ) := counted getInt

def readSlice : Reader UInt8 IntSlice := do
  let level ← getInt
  let sliceOrphans ← readInts
  let attachments ← readInts
  pure ⟨level, sliceOrphans, attachments⟩

def readEdge : Reader UInt8 (ℤ × ℤ) := do
  let u ← getInt
  let w ← getInt
  pure (u, w)

/-- `get`. -/
def readRecord (n : ℕ) (v : ℤ) : Reader UInt8 IntDecomposition := do
  let treeVerts ← readInts
  let parent ← times getInt n
  let depth ← times getInt n
  let orphans ← readInts
  let slices ← counted readSlice
  let remainderComps ← counted readInts
  let connectorEdges ← counted readEdge
  pure ⟨v, treeVerts, parent, depth, orphans, slices, remainderComps, connectorEdges⟩

/-- `skipInts`; the size is never negative in what `putInts` writes. -/
def skipInts : Reader UInt8 PUnit := do
  let size ← getInt
  if size < 0 then failure else skip (size.toNat * 4)

def skipSlice : Reader UInt8 PUnit := do
  let _ ← getInt
  let _ ← skipInts
  skipInts

/-- `remainderComponents`. -/
def readRemainderComps (n : ℕ) : Reader UInt8 (List (List ℤ)) := do
  let _ ← skipInts
  let _ ← skip (n * 2 * 4)
  let _ ← skipInts
  let sliceCount ← getInt
  let _ ← times skipSlice sliceCount.toNat
  counted readInts

/-- `treeAndOrphanCount`. -/
def readTreeAndOrphanCount (n : ℕ) : Reader UInt8 (List ℤ × ℤ) := do
  let treeVerts ← readInts
  let _ ← skip (n * 2 * 4)
  let orphanCount ← getInt
  pure (treeVerts, orphanCount)

/-! ### Reading a record back -/

/-- Ints that can be written with their number. -/
structure Storable (arr : List ℤ) : Prop where
  length : arr.length < 2 ^ 31
  int32 : ∀ x ∈ arr, IsInt32 x

/-- What the layout asks of a decomposition. -/
structure IntDecomposition.Storable (n : ℕ) (dec : IntDecomposition) : Prop where
  treeVerts : Dialysis.Storable dec.treeVerts
  parent_length : dec.parent.length = n
  parent : ∀ x ∈ dec.parent, IsInt32 x
  depth_length : dec.depth.length = n
  depth : ∀ x ∈ dec.depth, IsInt32 x
  orphans : Dialysis.Storable dec.orphans
  slices_length : dec.slices.length < 2 ^ 31
  slices : ∀ s ∈ dec.slices,
    IsInt32 s.level ∧ Dialysis.Storable s.orphans ∧ Dialysis.Storable s.attachments
  remainderComps_length : dec.remainderComps.length < 2 ^ 31
  remainderComps : ∀ c ∈ dec.remainderComps, Dialysis.Storable c
  connectorEdges_length : dec.connectorEdges.length < 2 ^ 31
  connectorEdges : ∀ e ∈ dec.connectorEdges, IsInt32 e.1 ∧ IsInt32 e.2

theorem length_putInts (arr : List ℤ) : (putInts arr).length = 4 + arr.length * 4 := by
  rw [putInts, List.length_append, length_putInt, length_flatMap_putInt]

theorem reads_ints {arr : List ℤ} (h : ∀ x ∈ arr, IsInt32 x) :
    Reads (times getInt arr.length) (arr.flatMap putInt) arr := by
  have := Reads.times (f := id) fun x hx => reads_getInt (h x hx)
  rwa [List.map_id] at this

theorem reads_readInts {arr : List ℤ} (h : Storable arr) : Reads readInts (putInts arr) arr := by
  have := reads_counted (f := id) h.length fun x hx => reads_getInt (h.int32 x hx)
  rwa [List.map_id] at this

theorem reads_readSlice {s : IntSlice}
    (h : IsInt32 s.level ∧ Storable s.orphans ∧ Storable s.attachments) :
    Reads readSlice (putSlice s) s :=
  (reads_getInt h.1).bind ((reads_readInts h.2.1).bind (Reads.bind_pure (reads_readInts h.2.2)))

theorem reads_readEdge {e : ℤ × ℤ} (h : IsInt32 e.1 ∧ IsInt32 e.2) : Reads readEdge (putEdge e) e :=
  (reads_getInt h.1).bind (Reads.bind_pure (reads_getInt h.2))

theorem reads_skipInts {arr : List ℤ} (h : Storable arr) : Reads skipInts (putInts arr) ⟨⟩ := by
  refine (reads_getInt (isInt32_natCast h.length)).bind ?_
  rw [if_neg (by omega), Int.toNat_natCast]
  exact reads_skip (length_flatMap_putInt id arr).symm

theorem reads_skipSlice {s : IntSlice}
    (h : IsInt32 s.level ∧ Storable s.orphans ∧ Storable s.attachments) :
    Reads skipSlice (putSlice s) ⟨⟩ :=
  (reads_getInt h.1).bind ((reads_skipInts h.2.1).bind (reads_skipInts h.2.2))

variable {dec : IntDecomposition}

/-- `get` reads every field back. -/
theorem reads_readRecord (h : dec.Storable n) : Reads (readRecord n dec.root) (writeRecord dec) dec := by
  have hparent := reads_ints h.parent
  have hdepth := reads_ints h.depth
  have hslices := reads_counted (f := id) h.slices_length fun s hs => reads_readSlice (h.slices s hs)
  have hcomps := reads_counted (f := id) h.remainderComps_length fun c hc =>
    reads_readInts (h.remainderComps c hc)
  have hedges := reads_counted (f := id) h.connectorEdges_length fun e he =>
    reads_readEdge (h.connectorEdges e he)
  rw [h.parent_length] at hparent
  rw [h.depth_length] at hdepth
  rw [List.map_id] at hslices hcomps hedges
  exact (reads_readInts h.treeVerts).bind (hparent.bind (hdepth.bind ((reads_readInts h.orphans).bind
    (hslices.bind (hcomps.bind (Reads.bind_pure hedges))))))

/-- The parents and the depths take `n * 2 * 4` bytes. -/
theorem reads_skip_arrays (h : dec.Storable n) :
    Reads (skip (n * 2 * 4)) (dec.parent.flatMap putInt ++ dec.depth.flatMap putInt) ⟨⟩ := by
  refine reads_skip ?_
  have hparent := length_flatMap_putInt id dec.parent
  have hdepth := length_flatMap_putInt id dec.depth
  simp only [id] at hparent hdepth
  rw [List.length_append, hparent, hdepth, h.parent_length, h.depth_length]
  omega

/-- `remainderComponents` reads its own field, after what it skips. -/
theorem run_readRemainderComps (h : dec.Storable n) (rest : List UInt8) :
    ∃ rest', (readRemainderComps n).run (writeRecord dec ++ rest) =
      some (dec.remainderComps, rest') := by
  have hslices := (Reads.times (f := fun _ => PUnit.unit) fun s hs => reads_skipSlice (h.slices s hs))
  have hcomps := reads_counted (f := id) h.remainderComps_length fun c hc =>
    reads_readInts (h.remainderComps c hc)
  rw [List.map_id] at hcomps
  have hread : Reads (readRemainderComps n) _ dec.remainderComps :=
    (reads_skipInts h.treeVerts).bind ((reads_skip_arrays h).bind ((reads_skipInts h.orphans).bind
      ((reads_getInt (isInt32_natCast h.slices_length)).bind (by
        rw [Int.toNat_natCast]
        exact hslices.bind hcomps))))
  refine ⟨(putInt dec.connectorEdges.length ++ dec.connectorEdges.flatMap putEdge) ++ rest, ?_⟩
  rw [← hread]
  simp only [writeRecord, List.append_assoc]
  rfl

/-- `treeAndOrphanCount` reads its own fields. -/
theorem run_readTreeAndOrphanCount (h : dec.Storable n) (rest : List UInt8) :
    ∃ rest', (readTreeAndOrphanCount n).run (writeRecord dec ++ rest) =
      some ((dec.treeVerts, (dec.orphans.length : ℤ)), rest') := by
  have hread : Reads (readTreeAndOrphanCount n) _ (dec.treeVerts, (dec.orphans.length : ℤ)) :=
    (reads_readInts h.treeVerts).bind ((reads_skip_arrays h).bind
      (Reads.bind_pure (reads_getInt (isInt32_natCast h.orphans.length))))
  refine ⟨dec.orphans.flatMap putInt ++ ((putInt dec.slices.length ++ dec.slices.flatMap putSlice) ++
    ((putInt dec.remainderComps.length ++ dec.remainderComps.flatMap putInts) ++
      (putInt dec.connectorEdges.length ++ dec.connectorEdges.flatMap putEdge))) ++ rest, ?_⟩
  rw [← hread]
  simp only [writeRecord, putInts, List.append_assoc]

/-! ### Every decomposition can be written -/

section Storable
variable {g : Graph} [g.Simple]
open Decompose

/-- Below a level that is not empty there is no empty one. -/
theorem exists_level {root : Fin g.n} : ∀ {d : ℕ} {v : Fin g.n}, level g root v = some d →
    ∀ i ≤ d, ∃ w, level g root w = some i
  | 0, v, hv, i, hi => ⟨v, by rw [hv, Nat.le_zero.mp hi]⟩
  | d + 1, v, hv, i, hi => by
    rcases Nat.lt_or_eq_of_le hi with hlt | rfl
    · obtain ⟨w, -, hw⟩ := exists_above hv
      exact exists_level hw i (Nat.lt_succ_iff.mp hlt)
    · exact ⟨v, hv⟩

theorem level_lt {root v : Fin g.n} {d : ℕ} (hv : level g root v = some d) : d < g.n := by
  choose w hw using exists_level hv
  have hinj : Function.Injective fun i : Fin (d + 1) => w i (Nat.lt_succ_iff.mp i.isLt) := by
    intro i j hij
    have hi := hw i (Nat.lt_succ_iff.mp i.isLt)
    dsimp only at hij
    rw [hij, hw j (Nat.lt_succ_iff.mp j.isLt), Option.some.injEq] at hi
    exact Fin.ext hi.symm
  have := Fintype.card_le_of_injective _ hinj
  simpa using this

theorem isInt32_neg_one : IsInt32 (-1) := ⟨by decide, by decide⟩

theorem isInt32_depth (hn : g.n < 2 ^ 31) (root v : Fin g.n) : IsInt32 (depth g root v) := by
  rw [depth]
  cases hv : level g root v with
  | none => exact isInt32_neg_one
  | some d => exact isInt32_natCast ((level_lt hv).trans hn)

theorem isInt32_toInt (hn : n < 2 ^ 31) (v : Fin n) : IsInt32 (toInt v) :=
  isInt32_natCast (v.isLt.trans hn)

theorem storable_map (hn : n < 2 ^ 31) {arr : List (Fin n)} (hlen : arr.length < 2 ^ 31) :
    Storable (arr.map toInt) := by
  refine ⟨by rwa [List.length_map], fun x hx => ?_⟩
  obtain ⟨v, -, rfl⟩ := List.mem_map.mp hx
  exact isInt32_toInt hn v

/-- A summand is at most the sum. -/
theorem le_sum_map {ι : Type*} {f : ι → ℕ} {l : List ι} {x : ι} (hx : x ∈ l) : f x ≤ (l.map f).sum :=
  List.le_sum_of_mem (List.mem_map_of_mem hx)

theorem length_le_sum_map {ι : Type*} {f : ι → ℕ} {l : List ι} (h : ∀ x ∈ l, 1 ≤ f x) :
    l.length ≤ (l.map f).sum := by
  have := List.length_le_sum_of_one_le (l.map f) fun i hi => by
    obtain ⟨x, hx, rfl⟩ := List.mem_map.mp hi
    exact h x hx
  rwa [List.length_map] at this

open DecompositionStore

omit [g.Simple] in
theorem slice_level {root : Fin g.n} {s : Slice g.n} (hs : s ∈ slices g root) :
    ∃ v, s.level = depth g root v := by
  obtain ⟨p, hp, hs⟩ := List.mem_flatMap.mp hs
  obtain ⟨comp, -, rfl⟩ := List.mem_map.mp hs
  obtain ⟨v, -, hv⟩ := List.mem_map.mp (mem_groupBy.mp (mem_sortOn.mp hp)).1
  exact ⟨v, hv.symm⟩

/-- The limit on a record leaves room for all its ints. -/
theorem storable_dialysis {v : Fin g.n} (h : recordSize (dialysis g v) ≤ segmentSize) :
    (dialysis g v).toInts.Storable g.n := by
  have hslice : ∀ s ∈ (dialysis g v).slices, _ ≤ _ := fun s hs =>
    le_sum_map (f := fun s : Slice g.n => 4 + intsSize s.orphans + intsSize s.attachments) hs
  have hslices := length_le_sum_map (l := (dialysis g v).slices)
    (f := fun s : Slice g.n => 4 + intsSize s.orphans + intsSize s.attachments) fun s _ => by omega
  have hcomp : ∀ c ∈ (dialysis g v).remainderComps, _ ≤ _ := fun c hc =>
    le_sum_map (f := fun c : VertexList g.n => intsSize c.1) hc
  have hcomps := length_le_sum_map (l := (dialysis g v).remainderComps)
    (f := fun c : VertexList g.n => intsSize c.1) fun c _ => by rw [intsSize]; omega
  rw [recordSize, segmentSize] at h
  generalize ((dialysis g v).slices.map fun s : Slice g.n =>
    4 + intsSize s.orphans + intsSize s.attachments).sum = sliceBytes at h hslice hslices
  generalize ((dialysis g v).remainderComps.map fun c : VertexList g.n => intsSize c.1).sum =
    compBytes at h hcomp hcomps
  simp only [intsSize] at h hslice hcomp
  have hn : g.n < 2 ^ 31 := by omega
  exact
    { treeVerts := storable_map hn (by omega)
      parent_length := by simp [Decomposition.toInts]
      parent := fun x hx => by
        obtain ⟨w, -, rfl⟩ := List.mem_map.mp hx
        cases (dialysis g v).parent w with
        | none => exact isInt32_neg_one
        | some u => exact isInt32_toInt hn u
      depth_length := by simp [Decomposition.toInts]
      depth := fun x hx => by
        obtain ⟨w, -, rfl⟩ := List.mem_map.mp hx
        exact isInt32_depth hn v w
      orphans := storable_map hn (by omega)
      slices_length := by
        rw [Decomposition.toInts, List.length_map]
        omega
      slices := fun x hx => by
        obtain ⟨s, hs, rfl⟩ := List.mem_map.mp hx
        obtain ⟨u, hu⟩ := slice_level hs
        have := hslice s hs
        exact ⟨by rw [Slice.toInts, hu]; exact isInt32_depth hn v u, storable_map hn (by omega), storable_map hn (by omega)⟩
      remainderComps_length := by
        rw [Decomposition.toInts, List.length_map]
        omega
      remainderComps := fun x hx => by
        obtain ⟨c, hc, rfl⟩ := List.mem_map.mp hx
        have := hcomp c hc
        exact storable_map hn (by omega)
      connectorEdges_length := by
        rw [Decomposition.toInts, List.length_map]
        omega
      connectorEdges := fun x hx => by
        obtain ⟨e, -, rfl⟩ := List.mem_map.mp hx
        exact ⟨isInt32_toInt hn e.1, isInt32_toInt hn e.2⟩ }

/-- `recordSize` counts what `writeRecord` writes. -/
theorem length_writeRecord (dec : Decomposition n) :
    (writeRecord dec.toInts).length = recordSize dec := by
  have hslices : ∀ l : List (Slice n), ((l.map Slice.toInts).flatMap putSlice).length =
      (l.map fun s => 4 + intsSize s.orphans + intsSize s.attachments).sum := by
    intro l
    rw [List.length_flatMap, List.map_map]
    refine congrArg List.sum (List.map_congr_left fun s _ => ?_)
    simp only [Function.comp_apply, putSlice, Slice.toInts, List.length_append, length_putInt,
      length_putInts, List.length_map, intsSize]
    omega
  have hcomps : ∀ l : List (VertexList n), ((l.map fun c => c.1.map toInt).flatMap putInts).length =
      (l.map fun c => intsSize c.1).sum := by
    intro l
    rw [List.length_flatMap, List.map_map]
    refine congrArg List.sum (List.map_congr_left fun c _ => ?_)
    rw [Function.comp_apply, length_putInts, List.length_map, intsSize]
  have hedges : ∀ l : List (Fin n × Fin n),
      ((l.map fun e => (toInt e.1, toInt e.2)).flatMap putEdge).length = l.length * 8 := by
    intro l
    rw [List.length_flatMap, List.map_map]
    simp [Function.comp_def, putEdge, length_putInt]
  have hints := length_flatMap_putInt (id : ℤ → ℤ)
  simp only [id] at hints
  simp only [writeRecord, Decomposition.toInts, List.length_append, length_putInts, length_putInt, hints,
    hslices, hcomps, hedges, List.length_map, List.length_finRange, recordSize, intsSize]
  omega

end Storable

end Dialysis
