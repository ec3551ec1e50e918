import GraphDialysis.Decomposition.Record
import GraphDialysis.Lib.Loop

/-! The mapped file behind `DecompositionStore`. The builders finish in any order, and each appends its
    record to the file; a record never lies across the end of a segment, since every segment is
    mapped for itself. `MappedStore.build_spec`: the records are apart, and what the readers return
    for a vertex are the fields of its decomposition. `implements_of_holds` says so of the
    table by which the store is modelled elsewhere. -/

namespace Dialysis
open Lib DecompositionStore
variable {n : ℕ}

/-- The segments of the file, mapped, and where each vertex's record starts. -/
structure MappedStore (n : ℕ) where
  segments : List (List UInt8)
  offsets : Fin n → ℕ
  hasVertex : Fin n → Bool

namespace MappedStore

/-! ### Reading -/

/-- The rest of the segment from the record of `v` on; `none` where the position is past its end. -/
def reader (store : MappedStore n) (v : Fin n) : Option (List UInt8) :=
  let off := store.offsets v
  let seg := off / segmentSize
  let localOff := off % segmentSize
  store.segments[seg]?.bind fun dup => if localOff ≤ dup.length then some (dup.drop localOff) else none

/-- Full decomposition of root `v`. -/
def get (store : MappedStore n) (v : Fin n) : Option IntDecomposition :=
  (store.reader v).bind fun buf => ((readRecord n (toInt v)).run buf).map Prod.fst

/-- Remainder components only. -/
def remainderComponents (store : MappedStore n) (v : Fin n) : Option (List (List ℤ)) :=
  (store.reader v).bind fun buf => ((readRemainderComps n).run buf).map Prod.fst

/-- Tree vertices and orphan count only. -/
def treeAndOrphanCount (store : MappedStore n) (v : Fin n) : Option (List ℤ × ℤ) :=
  (store.reader v).bind fun buf => ((readTreeAndOrphanCount n).run buf).map Prod.fst

/-! ### Writing -/

/-- What has been written: `pos`, the offsets so far, and the bytes of the file. -/
structure FileState (n : ℕ) where
  pos : ℕ
  offsets : Fin n → ℕ
  file : List UInt8

/-- The array behind the buffer, which has room for `recordSize` bytes. -/
def recordBytes (dec : Decomposition n) : Except String (List UInt8) :=
  let written := writeRecord dec.toInts
  if recordSize dec < written.length then .error "BufferOverflowException"
  else .ok (written ++ List.replicate (recordSize dec - written.length) 0)

/-- Bytes to skip so that a record of `size` bytes does not straddle a segment boundary. -/
def padding (pos size : ℕ) : ℕ :=
  let segOfStart := pos / segmentSize
  let segOfEnd := (pos + size - 1) / segmentSize
  if size ≠ 0 ∧ segOfStart ≠ segOfEnd then segmentSize - pos % segmentSize else 0

/-- One builder computes its record, and writes it when it holds the lock. -/
def writeStep (g : Graph) [g.Simple] (s : FileState g.n) (v : Fin g.n) :
    Except String (FileState g.n) :=
  (recordBytes (dialysis g v)).bind fun bytes =>
    if segmentSize < bytes.length then
      .error ("single decomposition record (" ++ toString bytes.length ++
        " bytes) exceeds SEGMENT_SIZE -- n=" ++ toString g.n ++
        " is too large for this store's on-disk format")
    else
      let pad := padding s.pos bytes.length
      .ok
        { pos := s.pos + pad + bytes.length
          offsets := Function.update s.offsets v (s.pos + pad)
          file := s.file ++ List.replicate pad 0 ++ bytes }

/-- Map the segments. -/
def mapSegments (pos : ℕ) (file : List UInt8) : List (List UInt8) :=
  let numSegments := (pos + segmentSize - 1) / segmentSize
  (List.range numSegments).map fun i =>
    let start := i * segmentSize
    let len := min segmentSize (pos - start)
    (file.drop start).take len

/-- `hasVertex`; no mask means all. -/
def isNeeded (needed : Option (Fin n → Bool)) (v : Fin n) : Bool := needed.elim true fun mask => mask v

/-- The needed vertices. -/
def neededVertices (needed : Option (Fin n → Bool)) : List (Fin n) :=
  (List.finRange n).filter (isNeeded needed)

/-- `build`, the builders taking the lock in the given order. -/
def build (g : Graph) [g.Simple] (needed : Option (Fin g.n → Bool)) (order : List (Fin g.n)) :
    Except String (MappedStore g.n) :=
  (order.foldlM (writeStep g) ⟨0, fun _ => 0, []⟩).bind fun s =>
    .ok ⟨mapSegments s.pos s.file, s.offsets, isNeeded needed⟩

/-! ### The file -/

variable {g : Graph} [g.Simple]

theorem recordBytes_eq (dec : Decomposition n) : recordBytes dec = .ok (writeRecord dec.toInts) := by
  rw [recordBytes, length_writeRecord, if_neg (lt_irrefl _), Nat.sub_self, List.replicate_zero, List.append_nil]

theorem recordSize_pos (dec : Decomposition n) : 0 < recordSize dec := by
  rw [recordSize, intsSize]
  omega

/-- After the padding the record fits into the segment. -/
theorem padding_fits {pos size : ℕ} (hpos : 0 < size) (hsize : size ≤ segmentSize) :
    (pos + padding pos size) % segmentSize + size ≤ segmentSize := by
  rw [padding]
  rw [segmentSize] at *
  split <;> omega

/-- After the builders `done`: their records are in the file, apart and each inside a segment. -/
structure Written (g : Graph) [g.Simple] (done : List (Fin g.n)) (s : FileState g.n) : Prop where
  length : s.file.length = s.pos
  record : ∀ v ∈ done, ∃ before after, s.file = before ++ writeRecord (dialysis g v).toInts ++ after ∧
    before.length = s.offsets v
  whole : ∀ v ∈ done, s.offsets v % segmentSize + recordSize (dialysis g v) ≤ segmentSize
  apart : ∀ u ∈ done, ∀ v ∈ done, u ≠ v → s.offsets u + recordSize (dialysis g u) ≤ s.offsets v ∨
    s.offsets v + recordSize (dialysis g v) ≤ s.offsets u

theorem written_nil : Written g [] ⟨0, fun _ => 0, []⟩ := ⟨rfl, by simp, by simp, by simp⟩

/-- A record lies before the end of the file. -/
theorem Written.below {done : List (Fin g.n)} {s : FileState g.n} (h : Written g done s)
    {v : Fin g.n} (hv : v ∈ done) : s.offsets v + recordSize (dialysis g v) ≤ s.pos := by
  obtain ⟨before, after, hfile, hbefore⟩ := h.record v hv
  have := h.length
  rw [hfile, List.length_append, List.length_append, length_writeRecord, hbefore] at this
  omega

theorem written_step {done : List (Fin g.n)} {s : FileState g.n} (h : Written g done s) {v : Fin g.n}
    (hv : v ∉ done) (hsize : recordSize (dialysis g v) ≤ segmentSize) :
    ∃ s', writeStep g s v = .ok s' ∧ Written g (done ++ [v]) s' := by
  have hlen := length_writeRecord (dialysis g v)
  rw [writeStep, recordBytes_eq]
  dsimp only [Except.bind]
  rw [if_neg (by omega), hlen]
  have hold : ∀ {u}, u ∈ done → Function.update s.offsets v
      (s.pos + padding s.pos (recordSize (dialysis g v))) u = s.offsets u := fun hu =>
    Function.update_of_ne (by rintro rfl; exact hv hu) _ _
  refine ⟨_, rfl, ?_, ?_, ?_, ?_⟩
  · simp only [List.length_append, List.length_replicate, h.length, hlen]
  · intro u hu
    rcases List.mem_append.mp hu with hu | hu
    · obtain ⟨before, after, hfile, hbefore⟩ := h.record u hu
      dsimp only
      rw [hold hu]
      refine ⟨before, after ++ (List.replicate (padding s.pos (recordSize (dialysis g v))) 0 ++
        writeRecord (dialysis g v).toInts), ?_, hbefore⟩
      rw [hfile]
      simp only [List.append_assoc]
    · rw [List.mem_singleton.mp hu]
      refine ⟨s.file ++ List.replicate _ 0, [], (List.append_nil _).symm, ?_⟩
      dsimp only
      rw [Function.update_self, List.length_append, List.length_replicate, h.length]
  · intro u hu
    rcases List.mem_append.mp hu with hu | hu
    · dsimp only
      rw [hold hu]
      exact h.whole u hu
    · rw [List.mem_singleton.mp hu]
      dsimp only
      rw [Function.update_self]
      exact padding_fits (recordSize_pos _) hsize
  · intro u hu w hw hne
    dsimp only
    rcases List.mem_append.mp hu with hu | hu <;> rcases List.mem_append.mp hw with hw | hw
    · rw [hold hu, hold hw]
      exact h.apart u hu w hw hne
    · rw [List.mem_singleton.mp hw, hold hu, Function.update_self]
      have := h.below hu
      omega
    · rw [List.mem_singleton.mp hu, hold hw, Function.update_self]
      have := h.below hw
      omega
    · exact absurd ((List.mem_singleton.mp hu).trans (List.mem_singleton.mp hw).symm) hne

/-- Whatever the order, all records are written. -/
theorem written_all {order : List (Fin g.n)} (hnd : order.Nodup)
    (hsize : ∀ v ∈ order, recordSize (dialysis g v) ≤ segmentSize) :
    ∃ s, order.foldlM (writeStep g) ⟨0, fun _ => 0, []⟩ = .ok s ∧ Written g order s :=
  foldlM_ok_of_split (P := Written g) (fun done v rest s hall h => by
    rw [← hall, List.nodup_append] at hnd
    have hv : v ∈ order := by rw [← hall]; simp
    exact written_step h (fun hd => hnd.2.2 v hd v (by simp) rfl) (hsize v hv)) order [] _ rfl written_nil

/-! ### What is read -/

/-- A mapped segment is a window of the file. -/
theorem mapSegments_getElem? {pos : ℕ} {file : List UInt8} (hlen : file.length = pos) {off : ℕ}
    (hoff : off < pos) :
    (mapSegments pos file)[off / segmentSize]? = some (window segmentSize file (off / segmentSize)) := by
  have hseg : off / segmentSize < (pos + segmentSize - 1) / segmentSize := by
    rw [segmentSize]
    omega
  rw [mapSegments, List.getElem?_map, List.getElem?_range hseg, Option.map_some, window]
  refine congrArg some (List.take_eq_take_iff.mpr ?_)
  rw [List.length_drop, hlen]
  omega

/-- The bytes at the offset of a vertex begin with its record. -/
theorem Written.reader {order : List (Fin g.n)} {s : FileState g.n} (h : Written g order s)
    (hasVertex : Fin g.n → Bool) {v : Fin g.n} (hv : v ∈ order) :
    ∃ rest, MappedStore.reader ⟨mapSegments s.pos s.file, s.offsets, hasVertex⟩ v =
      some (writeRecord (dialysis g v).toInts ++ rest) := by
  obtain ⟨before, after, hfile, hbefore⟩ := h.record v hv
  have hbelow := h.below hv
  have hpos := recordSize_pos (dialysis g v)
  have hlen := length_writeRecord (dialysis g v)
  obtain ⟨rest, hrest⟩ := window_drop after hbefore (hlen.symm ▸ h.whole v hv)
  refine ⟨rest, ?_⟩
  rw [MappedStore.reader]
  dsimp only
  rw [mapSegments_getElem? h.length (by omega), Option.bind_some, hfile, if_pos, hrest]
  have := congrArg List.length hrest
  rw [List.length_drop, List.length_append] at this
  omega

/-- The readers return the fields of the decomposition of `v`. -/
structure Holds (g : Graph) [g.Simple] (store : MappedStore g.n) (v : Fin g.n) : Prop where
  get : store.get v = some (dialysis g v).toInts
  remainderComponents : store.remainderComponents v = some (dialysis g v).toInts.remainderComps
  treeAndOrphanCount : store.treeAndOrphanCount v =
    some ((dialysis g v).toInts.treeVerts, ((dialysis g v).toInts.orphans.length : ℤ))

theorem holds_of_reader {store : MappedStore g.n} {v : Fin g.n} {rest : List UInt8}
    (h : store.reader v = some (writeRecord (dialysis g v).toInts ++ rest))
    (hsize : recordSize (dialysis g v) ≤ segmentSize) : Holds g store v := by
  have hstorable := storable_dialysis hsize
  constructor
  · rw [MappedStore.get, h, Option.bind_some]
    exact congrArg (Option.map Prod.fst) (reads_readRecord hstorable rest)
  · obtain ⟨rest', hrun⟩ := run_readRemainderComps hstorable rest
    rw [MappedStore.remainderComponents, h, Option.bind_some, hrun]
    rfl
  · obtain ⟨rest', hrun⟩ := run_readTreeAndOrphanCount hstorable rest
    rw [MappedStore.treeAndOrphanCount, h, Option.bind_some, hrun]
    rfl

/-- The bytes of the record of `v`. -/
def byteRange (g : Graph) [g.Simple] (store : MappedStore g.n) (v : Fin g.n) : Finset ℕ :=
  Finset.Ico (store.offsets v) (store.offsets v + recordSize (dialysis g v))

theorem mem_neededVertices {needed : Option (Fin n → Bool)} {v : Fin n} :
    v ∈ neededVertices needed ↔ isNeeded needed v = true := by
  rw [neededVertices, List.mem_filter, and_iff_right (List.mem_finRange v)]

/-- Whatever the order in which the builders finish, the file is built: the records are apart, none
    lies across the end of a segment, and every needed vertex is read back. -/
theorem build_spec (needed : Option (Fin g.n → Bool)) {order : List (Fin g.n)}
    (horder : order.Perm (neededVertices needed))
    (hsize : ∀ v, isNeeded needed v = true → recordSize (dialysis g v) ≤ segmentSize) :
    ∃ store, build g needed order = .ok store ∧ store.hasVertex = isNeeded needed ∧
      (∀ u v, isNeeded needed u = true → isNeeded needed v = true → u ≠ v →
        Disjoint (byteRange g store u) (byteRange g store v)) ∧
      (∀ v, isNeeded needed v = true → store.offsets v / segmentSize =
        (store.offsets v + recordSize (dialysis g v) - 1) / segmentSize) ∧
      ∀ v, isNeeded needed v = true → Holds g store v := by
  have hmem : ∀ v, v ∈ order ↔ isNeeded needed v = true := fun v =>
    horder.mem_iff.trans mem_neededVertices
  obtain ⟨s, hs, hw⟩ := written_all (horder.nodup_iff.mpr ((List.nodup_finRange _).filter _))
    fun v hv => hsize v ((hmem v).mp hv)
  refine ⟨⟨mapSegments s.pos s.file, s.offsets, isNeeded needed⟩, ?_, rfl, fun u v hu hv hne => ?_,
    fun v hv => ?_, fun v hv => ?_⟩
  · rw [build, hs]
    rfl
  · have hapart := hw.apart u ((hmem u).mpr hu) v ((hmem v).mpr hv) hne
    refine Finset.disjoint_left.mpr fun i hi hi' => ?_
    rw [byteRange, Finset.mem_Ico] at hi hi'
    dsimp only at hi hi'
    omega
  · have hwhole := hw.whole v ((hmem v).mpr hv)
    have hpos := recordSize_pos (dialysis g v)
    dsimp only
    rw [segmentSize] at *
    omega
  · obtain ⟨rest, hrest⟩ := hw.reader (isNeeded needed) ((hmem v).mpr hv)
    exact holds_of_reader hrest (hsize v hv)

/-- The file stands for the table: the readers return its entries. -/
structure Implements (store : MappedStore g.n) (table : DecompositionStore g) : Prop where
  has : ∀ v, store.hasVertex v = table.has v
  get : ∀ v, table.has v = true → store.get v = (table.record v).map Decomposition.toInts
  remainderComponents : ∀ v, table.has v = true → store.remainderComponents v =
    (table.remainderComponents v).map fun comps => comps.map fun c => c.1.map toInt
  treeAndOrphanCount : ∀ v, table.has v = true → store.treeAndOrphanCount v =
    (table.treeAndOrphanCount v).map fun p => (p.1.1.map toInt, (p.2 : ℤ))

theorem implements_of_holds {store : MappedStore g.n} {table : DecompositionStore g}
    (hhas : ∀ v, store.hasVertex v = table.has v)
    (hholds : ∀ v, table.has v = true → Holds g store v) : Implements store table := by
  refine ⟨hhas, fun v hv => ?_, fun v hv => ?_, fun v hv => ?_⟩
  · rw [record_of_has hv, (hholds v hv).get]
    rfl
  · rw [DecompositionStore.remainderComponents, record_of_has hv, (hholds v hv).remainderComponents]
    rfl
  · rw [DecompositionStore.treeAndOrphanCount, record_of_has hv, (hholds v hv).treeAndOrphanCount]
    simp only [Option.map_some, Decomposition.toInts, List.length_map]

end MappedStore

end Dialysis
