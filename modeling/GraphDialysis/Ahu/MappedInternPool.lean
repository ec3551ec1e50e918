import GraphDialysis.Ahu.ColoredAHU
import GraphDialysis.Lib.Reader
import GraphDialysis.Lib.Segments

/-! `MappedInternPool`, the file behind the intern pool. The heap keeps only hashes and the positions of
    the records; two strings are compared by reading the old one back. `intern_refines`: the mapped
    pool does what the pool of strings does, and `internAll_dictionary` follows from it for every
    sequence of calls. -/

namespace Dialysis.Ahu
open Lib

/-- `toByteArray(Charsets.UTF_8)`. -/
def utf8 (s : KString) : List UInt8 := s.flatMap String.utf8EncodeChar

/-- The fields of the pool. -/
structure MappedInternPool where
  hashToIds : UInt64 → List ℕ
  recordOffset : List ℕ
  segments : List (List UInt8)
  writePos : ℕ

namespace MappedInternPool

def segmentSize : ℕ := 2 ^ 26

/-- Maps further segments of the file until there are `minBytes`. -/
def ensureCapacity (minBytes : ℕ) (segments : List (List UInt8)) : List (List UInt8) :=
  if segments.length * segmentSize < minBytes then
    ensureCapacity minBytes (segments ++ [List.replicate segmentSize 0])
  else segments
termination_by minBytes - segments.length * segmentSize
decreasing_by
  simp only [List.length_append, List.length_singleton, segmentSize]
  rw [segmentSize] at *
  omega

/-- A new pool. -/
def new : MappedInternPool := ⟨fun _ => [], [], ensureCapacity segmentSize [], 0⟩

section
variable (malformed : List UInt8 → KString)

/-- `String(bytes, Charsets.UTF_8)`; `malformed` is what it makes of bytes that are no UTF-8. -/
def decodeUtf8 (bytes : List UInt8) : KString :=
  match bytes.toByteArray.utf8Decode? with
  | some s => s.toList
  | none => malformed bytes

def indexError {α : Type} (i length : ℕ) : Except String α :=
  .error ("IndexOutOfBoundsException: Index " ++ toString i ++ " out of bounds for length " ++ toString length)

def readString (pool : MappedInternPool) (id : ℕ) : Except String KString :=
  match pool.recordOffset[id]? with
  | none => indexError id pool.recordOffset.length
  | some off =>
    match pool.segments[off / segmentSize]? with
    | none => indexError (off / segmentSize) pool.segments.length
    | some buf =>
      match getInt.run (buf.drop (off % segmentSize)) with
      | none => .error "BufferUnderflowException"
      | some (size, rest) =>
        if size < 0 then .error ("NegativeArraySizeException: " ++ toString size)
        else if rest.length < size.toNat then .error "BufferUnderflowException"
        else .ok (decodeUtf8 malformed (rest.take size.toNat))

/-- The length and the bytes of a string. -/
def record (s : KString) : List UInt8 := putInt (utf8 s).length ++ utf8 s

/-- Where a record of `need` bytes starts: at the next segment when it would cross the end of this one. -/
def place (writePos need : ℕ) : ℕ :=
  if writePos / segmentSize ≠ (writePos + need - 1) / segmentSize then
    (writePos / segmentSize + 1) * segmentSize
  else writePos

/-- Appends the record, returning the offset it starts at. -/
def appendString (pool : MappedInternPool) (s : KString) : Except String (ℕ × MappedInternPool) :=
  let need := 4 + (utf8 s).length
  if segmentSize < need then
    .error ("single interned string (" ++ toString (utf8 s).length ++
      " bytes) exceeds SEGMENT_SIZE -- unexpectedly large AHU canonical string")
  else
    let pos := place pool.writePos need
    let segments := ensureCapacity (pos + need) pool.segments
    match segments[pos / segmentSize]? with
    | none => indexError (pos / segmentSize) segments.length
    | some buf =>
      if buf.length < pos % segmentSize + need then .error "BufferOverflowException"
      else
        .ok (pos, { pool with
          segments := write segmentSize segments pos (record s), writePos := pos + need })

/-- FNV-1a over the bytes. -/
def contentHash (s : KString) : UInt64 :=
  (utf8 s).foldl (fun h b => (h ^^^ b.toUInt64) * 0x100000001b3) 0xcbf29ce484222325

/-- The first of the candidates whose string is `s`. -/
def findCandidate (pool : MappedInternPool) (s : KString) : List ℕ → Except String (Option ℕ)
  | [] => .ok none
  | id :: candidates => do
    let t ← pool.readString malformed id
    if t = s then pure (some id) else findCandidate pool s candidates

def intern (pool : MappedInternPool) (s : KString) : Except String (ℕ × MappedInternPool) := do
  let candidates := pool.hashToIds (contentHash s)
  match ← pool.findCandidate malformed s candidates with
  | some id => pure (id, pool)
  | none =>
    let id := pool.recordOffset.length
    let (pos, pool) ← pool.appendString s
    pure (id, { pool with
      recordOffset := pool.recordOffset ++ [pos]
      hashToIds := Function.update pool.hashToIds (contentHash s) (candidates ++ [id]) })

def get (pool : MappedInternPool) (id : ℕ) : Except String KString := pool.readString malformed id

/-- A sequence of calls of `intern`, with their ids. -/
def internAll : MappedInternPool → List KString → Except String (List ℕ × MappedInternPool)
  | pool, [] => .ok ([], pool)
  | pool, s :: ss => do
    let (id, pool) ← pool.intern malformed s
    let (ids, pool) ← internAll pool ss
    pure (id :: ids, pool)

end

/-! ### Bytes -/

theorem length_utf8 (s : KString) : (utf8 s).length = utf8Size s := by
  rw [utf8, List.length_flatMap, utf8Size]
  exact congrArg List.sum (List.map_congr_left fun c _ => String.length_utf8EncodeChar c)

theorem length_record (s : KString) : (record s).length = 4 + utf8Size s := by
  rw [record, List.length_append, length_putInt, length_utf8]

variable {malformed : List UInt8 → KString}

theorem decodeUtf8_utf8 (s : KString) : decodeUtf8 malformed (utf8 s) = s := by
  have hdecode : (utf8 s).toByteArray.utf8Decode? = some s.toArray := List.utf8Decode?_utf8Encode
  rw [decodeUtf8, hdecode]

/-- A record is read back, whatever follows it. -/
theorem getInt_record {s : KString} (hs : Fits s) (rest : List UInt8) :
    getInt.run (record s ++ rest) = some (((utf8Size s : ℕ) : ℤ), utf8 s ++ rest) := by
  have hint : IsInt32 ((utf8 s).length : ℤ) := by
    rw [length_utf8]
    rw [Fits] at hs
    exact isInt32_natCast (by omega)
  rw [record, List.append_assoc, reads_getInt hint, length_utf8]

theorem readString_of_holds {mapped : MappedInternPool} {id off : ℕ} {s : KString} (hs : Fits s)
    (hoff : mapped.recordOffset[id]? = some off)
    (h : Holds segmentSize mapped.segments off (record s)) : mapped.readString malformed id = .ok s := by
  obtain ⟨buf, hbuf, rest, hrest⟩ := h
  rw [readString, hoff]
  dsimp only
  rw [hbuf]
  dsimp only
  rw [← hrest, getInt_record hs]
  dsimp only
  rw [if_neg (by omega), if_neg (by simp [length_utf8]), Int.toNat_natCast, ← length_utf8,
    List.take_left, decodeUtf8_utf8]

/-! ### Appending -/

theorem segmentSize_pos : 0 < segmentSize := by decide

theorem ensureCapacity_spec (minBytes : ℕ) (segments : List (List UInt8)) :
    ∃ more, ensureCapacity minBytes segments = segments ++ more ∧
      (∀ segment ∈ more, segment.length = segmentSize) ∧
        minBytes ≤ (ensureCapacity minBytes segments).length * segmentSize := by
  fun_induction ensureCapacity minBytes segments with
  | case1 segments hlt ih =>
    obtain ⟨more, heq, hmore, hle⟩ := ih
    rw [List.append_assoc] at heq
    refine ⟨_, heq, ?_, hle⟩
    intro segment h
    rcases List.mem_append.mp h with h | h
    · rw [List.mem_singleton.mp h, List.length_replicate]
    · exact hmore segment h
  | case2 segments hge => exact ⟨[], by simp, by simp, not_lt.mp hge⟩

theorem le_place (writePos need : ℕ) : writePos ≤ place writePos need := by
  rw [place]
  split
  · have := Nat.div_add_mod writePos segmentSize
    have := Nat.mod_lt writePos segmentSize_pos
    rw [Nat.add_one_mul, Nat.mul_comm]
    omega
  · exact le_rfl

theorem place_fits {need : ℕ} (writePos : ℕ) (hneed : need ≤ segmentSize) :
    place writePos need % segmentSize + need ≤ segmentSize := by
  rw [place]
  split
  · rw [Nat.mul_mod_left, Nat.zero_add]
    exact hneed
  · rename_i h
    rw [not_not] at h
    have h₁ := Nat.div_add_mod writePos segmentSize
    have h₂ := Nat.div_add_mod (writePos + need - 1) segmentSize
    have h₃ := Nat.mod_lt (writePos + need - 1) segmentSize_pos
    rw [← h] at h₂
    omega

/-! ### The pool of strings it stands for -/

/-- The records of the strings are in the file, apart and in the order of the ids, and the buckets hold
    the ids by the hashes of their strings. -/
structure Represents (mapped : MappedInternPool) (pool : InternPool) : Prop where
  length : mapped.recordOffset.length = pool.strings.length
  fits : ∀ s ∈ pool.strings, Fits s
  segments : ∀ segment ∈ mapped.segments, segment.length = segmentSize
  records : ∀ p ∈ mapped.recordOffset.zip pool.strings, Holds segmentSize mapped.segments p.1 (record p.2) ∧
    p.1 + (record p.2).length ≤ mapped.writePos
  apart : (mapped.recordOffset.zip pool.strings).Pairwise fun p q => p.1 + (record p.2).length ≤ q.1
  buckets : ∀ hash id, id ∈ mapped.hashToIds hash ↔
    ∃ s, pool.Has id s ∧ contentHash s = hash

theorem new_represents : Represents new InternPool.empty where
  length := rfl
  fits := by simp [InternPool.empty]
  segments := by
    obtain ⟨more, heq, hmore, -⟩ := ensureCapacity_spec segmentSize []
    rw [new, heq]
    exact hmore
  records := by simp [new]
  apart := List.Pairwise.nil
  buckets := by simp [new, InternPool.Has, InternPool.empty]

variable {mapped : MappedInternPool} {pool : InternPool}

theorem Represents.exists_offset (h : Represents mapped pool) {id : ℕ} {s : KString}
    (hs : pool.Has id s) : ∃ off, mapped.recordOffset[id]? = some off ∧
      (off, s) ∈ mapped.recordOffset.zip pool.strings := by
  obtain ⟨hid, hget⟩ := List.getElem?_eq_some_iff.mp hs
  have hid' : id < mapped.recordOffset.length := h.length ▸ hid
  refine ⟨mapped.recordOffset[id], List.getElem?_eq_getElem hid', List.mem_iff_getElem.mpr ⟨id, ?_, ?_⟩⟩
  · rw [List.length_zip]
    exact lt_min hid' hid
  · rw [List.getElem_zip, hget]

/-- An id gives its string. -/
theorem Represents.readString (h : Represents mapped pool) {id : ℕ} {s : KString}
    (hs : pool.Has id s) : mapped.readString malformed id = .ok s := by
  obtain ⟨off, hoff, hmem⟩ := h.exists_offset hs
  exact readString_of_holds (h.fits s hs.mem) hoff (h.records _ hmem).1

theorem Represents.findCandidate (h : Represents mapped pool) (s : KString) :
    ∀ {candidates : List ℕ}, (∀ id ∈ candidates, id < pool.strings.length) →
      mapped.findCandidate malformed s candidates =
        .ok (candidates.find? fun id => pool.strings[id]? = some s)
  | [], _ => rfl
  | id :: candidates, hlt => by
    obtain ⟨hid, hlt⟩ := List.forall_mem_cons.mp hlt
    have hhas : pool.Has id pool.strings[id] := List.getElem?_eq_getElem hid
    rw [MappedInternPool.findCandidate, h.readString hhas, List.find?_cons, hhas]
    change (if pool.strings[id] = s then _ else _) = _
    by_cases heq : pool.strings[id] = s
    · simp [heq]
      rfl
    · simp only [Option.some.injEq, heq, decide_false]
      exact h.findCandidate s hlt

/-- What a bucket is searched for. -/
theorem Represents.find (h : Represents mapped pool) (s : KString) :
    mapped.findCandidate malformed s (mapped.hashToIds (contentHash s)) =
      .ok (if s ∈ pool.strings then some (pool.strings.idxOf s) else none) := by
  rw [h.findCandidate s fun id hid => ?_]
  · congr 1
    split
    · rename_i hs
      have hhas : pool.Has (pool.strings.idxOf s) s := by
        rw [InternPool.Has, List.getElem?_eq_getElem (List.idxOf_lt_length_iff.mpr hs)]
        exact congrArg some (List.getElem_idxOf _)
      cases hfind : (mapped.hashToIds (contentHash s)).find? fun id => pool.strings[id]? = some s with
      | none =>
        have := List.find?_eq_none.mp hfind _ ((h.buckets _ _).mpr ⟨s, hhas, rfl⟩)
        rw [decide_eq_true_eq] at this
        exact absurd hhas this
      | some id =>
        have hid := List.find?_some hfind
        rw [decide_eq_true_eq] at hid
        rw [InternPool.Has.inj hid hhas]
    · rename_i hs
      refine List.find?_eq_none.mpr fun id _ hid => hs ?_
      exact List.mem_of_getElem? (of_decide_eq_true hid)
  · obtain ⟨t, ht, -⟩ := (h.buckets _ _).mp hid
    exact (List.getElem?_eq_some_iff.mp ht).1

/-- The record of `s` has been written at `pos`, behind all others and inside one segment. -/
structure Appended (mapped : MappedInternPool) (s : KString) (pos : ℕ) (mapped' : MappedInternPool) :
    Prop where
  hashToIds : mapped'.hashToIds = mapped.hashToIds
  recordOffset : mapped'.recordOffset = mapped.recordOffset
  le : mapped.writePos ≤ pos
  writePos : mapped'.writePos = pos + (record s).length
  segments : ∀ segment ∈ mapped'.segments, segment.length = segmentSize
  holds : Holds segmentSize mapped'.segments pos (record s)
  keeps : ∀ {off code}, Holds segmentSize mapped.segments off code → off + code.length ≤ mapped.writePos →
    Holds segmentSize mapped'.segments off code

theorem Represents.appendString (h : Represents mapped pool) {s : KString} (hs : Fits s) :
    ∃ pos mapped', mapped.appendString s = .ok (pos, mapped') ∧ Appended mapped s pos mapped' := by
  have hneed : 4 + (utf8 s).length = (record s).length := by rw [length_record, length_utf8]
  have hsize : (record s).length ≤ segmentSize := by
    rw [length_record]
    exact hs
  have hpos : 0 < (record s).length := by
    rw [length_record]
    omega
  obtain ⟨more, heq, hmore, hle⟩ := ensureCapacity_spec
    (place mapped.writePos (record s).length + (record s).length) mapped.segments
  have hfit := place_fits mapped.writePos hsize
  have hsegments : ∀ segment ∈ mapped.segments ++ more, segment.length = segmentSize := by
    intro segment hsegment
    exact (List.mem_append.mp hsegment).elim (h.segments segment) (hmore segment)
  rw [heq] at hle
  have hlt : place mapped.writePos (record s).length / segmentSize < (mapped.segments ++ more).length :=
    Nat.div_lt_of_lt_mul (by rw [Nat.mul_comm]; omega)
  refine ⟨place mapped.writePos (record s).length, { mapped with
    segments := write segmentSize (mapped.segments ++ more) (place mapped.writePos (record s).length) (record s)
    writePos := place mapped.writePos (record s).length + (record s).length }, ?_, ?_⟩
  · rw [MappedInternPool.appendString, hneed, if_neg (not_lt.mpr hsize)]
    dsimp only
    rw [heq, List.getElem?_eq_getElem hlt]
    dsimp only
    rw [if_neg (not_lt.mpr (by rwa [hsegments _ (List.getElem_mem hlt)]))]
  · exact
      { hashToIds := rfl
        recordOffset := rfl
        le := le_place _ _
        writePos := rfl
        segments := length_of_mem_write hsegments hfit
        holds := holds_write hsegments segmentSize_pos hlt
        keeps := fun hholds hend =>
          (hholds.append more).write hsegments segmentSize_pos (hend.trans (le_place _ _)) }

/-- The pool after a new string. -/
def withId (mapped : MappedInternPool) (s : KString) (pos : ℕ) (mapped' : MappedInternPool) :
    MappedInternPool :=
  { mapped' with
    recordOffset := mapped'.recordOffset ++ [pos]
    hashToIds := Function.update mapped'.hashToIds (contentHash s)
      (mapped.hashToIds (contentHash s) ++ [mapped.recordOffset.length]) }

theorem Represents.withId (h : Represents mapped pool) {s : KString} (hs : Fits s) {pos : ℕ}
    {mapped' : MappedInternPool} (happ : Appended mapped s pos mapped') {pool' : InternPool}
    (hpool : pool'.strings = pool.strings ++ [s]) : Represents (mapped.withId s pos mapped') pool' := by
  have hzip : (mapped.withId s pos mapped').recordOffset.zip pool'.strings =
      mapped.recordOffset.zip pool.strings ++ [(pos, s)] := by
    rw [MappedInternPool.withId, happ.recordOffset, hpool, List.zip_append h.length]
    rfl
  have hrecords : ∀ p ∈ mapped.recordOffset.zip pool.strings, p.1 + (record p.2).length ≤ pos :=
    fun p hp => (h.records p hp).2.trans happ.le
  constructor
  · rw [MappedInternPool.withId, happ.recordOffset, hpool, List.length_append, List.length_append, h.length]
    rfl
  · rw [hpool]
    intro t ht
    rcases List.mem_append.mp ht with ht | ht
    · exact h.fits t ht
    · rwa [List.mem_singleton.mp ht]
  · exact happ.segments
  · rw [hzip]
    intro p hp
    change Holds _ mapped'.segments _ _ ∧ _ ≤ mapped'.writePos
    rw [happ.writePos]
    rcases List.mem_append.mp hp with hp | hp
    · exact ⟨happ.keeps (h.records p hp).1 (h.records p hp).2, (hrecords p hp).trans (Nat.le_add_right _ _)⟩
    · rw [List.mem_singleton.mp hp]
      exact ⟨happ.holds, le_rfl⟩
  · rw [hzip, List.pairwise_append]
    refine ⟨h.apart, List.pairwise_singleton _ _, fun p hp q hq => ?_⟩
    rw [List.mem_singleton.mp hq]
    exact hrecords p hp
  · intro hash id
    have hhas : ∀ t, pool'.Has id t ↔ pool.Has id t ∨ id = pool.strings.length ∧ s = t := by
      intro t
      rw [InternPool.Has, InternPool.Has, hpool]
      rcases lt_trichotomy id pool.strings.length with hlt | rfl | hgt
      · rw [List.getElem?_append_left hlt, or_iff_left fun hnew => absurd hnew.1 (ne_of_lt hlt)]
      · simp
      · rw [List.getElem?_eq_none (by simp; omega), List.getElem?_eq_none (by omega),
          or_iff_left fun hnew => absurd hnew.1 (ne_of_gt hgt)]
    change id ∈ Function.update mapped'.hashToIds _ _ _ ↔ _
    rw [happ.hashToIds]
    by_cases hhash : hash = contentHash s
    · rw [hhash, Function.update_self, List.mem_append, List.mem_singleton, h.buckets, h.length]
      constructor
      · rintro (⟨t, ht, heq⟩ | hid)
        · exact ⟨t, (hhas t).mpr (Or.inl ht), heq⟩
        · exact ⟨s, (hhas s).mpr (Or.inr ⟨hid, rfl⟩), rfl⟩
      · rintro ⟨t, ht, heq⟩
        exact ((hhas t).mp ht).imp (fun ht => ⟨t, ht, heq⟩) And.left
    · rw [Function.update_of_ne hhash, h.buckets]
      refine exists_congr fun t => and_congr_left fun heq => ?_
      rw [hhas, or_iff_left]
      rintro ⟨-, rfl⟩
      exact hhash heq.symm

/-- The mapped pool interns as the pool of strings does, with the same ids and the same error. -/
theorem intern_refines (h : Represents mapped pool) (s : KString) :
    match pool.intern s with
    | .ok (id, pool') => ∃ mapped', mapped.intern malformed s = .ok (id, mapped') ∧ Represents mapped' pool'
    | .error e => mapped.intern malformed s = .error e := by
  rw [MappedInternPool.intern, h.find, InternPool.intern]
  by_cases hs : s ∈ pool.strings
  · rw [dif_pos hs, if_pos hs]
    exact ⟨mapped, rfl, h⟩
  · rw [dif_neg hs, if_neg hs]
    by_cases hfits : Fits s
    · rw [if_pos hfits]
      obtain ⟨pos, mapped', happend, happ⟩ := h.appendString hfits
      refine ⟨mapped.withId s pos mapped', ?_, h.withId hfits happ rfl⟩
      change (mapped.appendString s >>= _) = _
      rw [happend, ← h.length]
      rfl
    · rw [if_neg hfits]
      change (mapped.appendString s >>= _) = _
      have hlong : segmentSize < 4 + (utf8 s).length := by
        rw [length_utf8]
        exact not_le.mp hfits
      rw [MappedInternPool.appendString, if_pos hlong, length_utf8]
      rfl

/-! ### Sequences of calls -/

theorem Represents.internAll : ∀ {ss : List KString} {mapped : MappedInternPool} {pool : InternPool},
    Represents mapped pool → (∀ s ∈ ss, Fits s) → ∃ ids mapped' pool',
      mapped.internAll malformed ss = .ok (ids, mapped') ∧ Represents mapped' pool' ∧
        pool.strings <+: pool'.strings ∧ List.Forall₂ (fun s id => pool'.Has id s) ss ids
  | [], mapped, pool, h, _ => ⟨[], mapped, pool, rfl, h, List.prefix_rfl, List.Forall₂.nil⟩
  | s :: ss, mapped, pool, h, hfits => by
    obtain ⟨hs, hfits⟩ := List.forall_mem_cons.mp hfits
    obtain ⟨r, hr⟩ := InternPool.intern_ok hs
    have hstep := @intern_refines malformed _ _ h s
    rw [hr] at hstep
    obtain ⟨mapped₁, hstep, h₁⟩ := hstep
    obtain ⟨hhas, hadds⟩ := InternPool.intern_spec hr
    obtain ⟨ids, mapped', pool', hrun, h', hle, hids⟩ := h₁.internAll hfits
    refine ⟨r.1 :: ids, mapped', pool', ?_, h', hadds.le.trans hle, List.Forall₂.cons (hhas.mono hle) hids⟩
    rw [MappedInternPool.internAll, hstep]
    change (mapped₁.internAll malformed ss >>= _) = _
    rw [hrun]
    rfl

/-- Only ids of the pool can be read. -/
theorem Represents.has_of_get (h : Represents mapped pool) {id : ℕ} {s : KString}
    (hget : mapped.get malformed id = .ok s) : pool.Has id s := by
  by_cases hid : id < pool.strings.length
  · have hhas : pool.Has id pool.strings[id] := List.getElem?_eq_getElem hid
    rw [get, h.readString hhas] at hget
    cases hget
    exact hhas
  · rw [get, MappedInternPool.readString, List.getElem?_eq_none (by rw [h.length]; omega)] at hget
    cases hget

/-- Where the record of an id starts and how many bytes it has, as the file says. -/
def extent (mapped : MappedInternPool) (id : ℕ) : Option (ℕ × ℕ) := do
  let off ← mapped.recordOffset[id]?
  let buf ← mapped.segments[off / segmentSize]?
  let (size, _) ← getInt.run (buf.drop (off % segmentSize))
  pure (off, 4 + size.toNat)

/-- No record crosses the end of a segment, and none overlaps another. -/
structure RecordsApart (mapped : MappedInternPool) : Prop where
  inside : ∀ id < mapped.recordOffset.length, ∃ off len, mapped.extent id = some (off, len) ∧
    off % segmentSize + len ≤ segmentSize
  apart : ∀ {id id' off len off' len'}, id < id' → mapped.extent id = some (off, len) →
    mapped.extent id' = some (off', len') → off + len ≤ off'

theorem Represents.extent (h : Represents mapped pool) {id off : ℕ} {s : KString} (hs : pool.Has id s)
    (hoff : mapped.recordOffset[id]? = some off) : mapped.extent id = some (off, (record s).length) := by
  obtain ⟨off', hoff', hmem⟩ := h.exists_offset hs
  cases hoff.symm.trans hoff'
  obtain ⟨⟨buf, hbuf, rest, hrest⟩, -⟩ := h.records _ hmem
  rw [MappedInternPool.extent, hoff]
  change (mapped.segments[off / segmentSize]? >>= _) = _
  rw [hbuf]
  change (getInt.run (buf.drop (off % segmentSize)) >>= _) = _
  rw [← hrest, getInt_record (h.fits s hs.mem), length_record]
  rfl

theorem Represents.recordsApart (h : Represents mapped pool) : RecordsApart mapped := by
  have hget : ∀ {id off len}, mapped.extent id = some (off, len) → ∃ (hid : id < mapped.recordOffset.length)
      (hid' : id < pool.strings.length), mapped.recordOffset[id] = off ∧
        (record pool.strings[id]).length = len := by
    intro id off len hextent
    have hid : id < mapped.recordOffset.length := by
      by_contra hid
      rw [MappedInternPool.extent, List.getElem?_eq_none (not_lt.mp hid)] at hextent
      cases hextent
    have hid' : id < pool.strings.length := h.length ▸ hid
    rw [h.extent (List.getElem?_eq_getElem hid') (List.getElem?_eq_getElem hid), Option.some.injEq,
      Prod.mk.injEq] at hextent
    exact ⟨hid, hid', hextent⟩
  constructor
  · intro id hid
    have hid' : id < pool.strings.length := h.length ▸ hid
    have hhas : pool.Has id pool.strings[id] := List.getElem?_eq_getElem hid'
    obtain ⟨off, hoff, hmem⟩ := h.exists_offset hhas
    exact ⟨off, _, h.extent hhas hoff, (h.records _ hmem).1.le h.segments segmentSize_pos⟩
  · intro id id' off len off' len' hlt he he'
    obtain ⟨hi, hi', rfl, rfl⟩ := hget he
    obtain ⟨hj, hj', rfl, rfl⟩ := hget he'
    have := List.pairwise_iff_getElem.mp h.apart id id' (by rw [List.length_zip]; exact lt_min hi hi')
      (by rw [List.length_zip]; exact lt_min hj hj') hlt
    rwa [List.getElem_zip, List.getElem_zip] at this

/-- After any calls on strings that fit into a segment, and any later ones: ids are equal exactly when the
    strings are, every id gives its string, what an id has once given it gives for ever, and the
    records lie apart, each inside one segment. -/
theorem internAll_dictionary (malformed : List UInt8 → KString) (ss ts : List KString)
    (hfits : ∀ s ∈ ss ++ ts, Fits s) : ∃ ids mapped ids' mapped',
    new.internAll malformed ss = .ok (ids, mapped) ∧ mapped.internAll malformed ts = .ok (ids', mapped') ∧
      ids.length = ss.length ∧ ids'.length = ts.length ∧
      (∀ p ∈ (ss ++ ts).zip (ids ++ ids'), ∀ q ∈ (ss ++ ts).zip (ids ++ ids'), p.2 = q.2 ↔ p.1 = q.1) ∧
      (∀ p ∈ (ss ++ ts).zip (ids ++ ids'), mapped'.get malformed p.2 = .ok p.1) ∧
      (∀ id s, mapped.get malformed id = .ok s → mapped'.get malformed id = .ok s) ∧
      RecordsApart mapped' := by
  obtain ⟨ids, mapped, pool, hrun, h, -, hids⟩ := new_represents.internAll
    fun s hs => hfits s (List.mem_append_left _ hs)
  obtain ⟨ids', mapped', pool', hrun', h', hle, hids'⟩ := h.internAll
    fun s hs => hfits s (List.mem_append_right _ hs)
  have hall : List.Forall₂ (fun s id => pool'.Has id s) (ss ++ ts) (ids ++ ids') :=
    List.rel_append (hids.imp fun _ _ hhas => hhas.mono hle) hids'
  have hzip : ∀ p ∈ (ss ++ ts).zip (ids ++ ids'), pool'.Has p.2 p.1 :=
    fun p hp => (List.forall₂_iff_zip.mp hall).2 hp
  refine ⟨ids, mapped, ids', mapped', hrun, hrun', hids.length_eq.symm, hids'.length_eq.symm, ?_, ?_, ?_,
    h'.recordsApart⟩
  · intro p hp q hq
    have hp := hzip p hp
    have hq := hzip q hq
    refine ⟨fun heq => ?_, fun heq => ?_⟩
    · rw [InternPool.Has, heq] at hp
      exact Option.some.inj (hp.symm.trans hq)
    · rw [heq] at hp
      exact hp.inj hq
  · exact fun p hp => h'.readString (hzip p hp)
  · exact fun id s hget => h'.readString ((h.has_of_get hget).mono hle)

theorem internAll_dictionary_leaves : ∃ ids mapped ids' mapped',
    new.internAll (fun _ => []) [['(', '*', ')'], ['(', 'é', ')']] = .ok (ids, mapped) ∧
      mapped.internAll (fun _ => []) [['(', '*', ')']] = .ok (ids', mapped') ∧
      mapped'.get (fun _ => []) (ids.getD 1 0) = .ok ['(', 'é', ')'] ∧ ids' = ids.take 1 := by
  obtain ⟨ids, mapped, ids', mapped', hrun, hrun', hlen, hlen', hids, hget, -, -⟩ :=
    internAll_dictionary (fun _ => []) [['(', '*', ')'], ['(', 'é', ')']] [['(', '*', ')']] (by decide)
  refine ⟨ids, mapped, ids', mapped', hrun, hrun', ?_⟩
  match ids, ids', hlen, hlen' with
  | [i, j], [k], _, _ =>
    refine ⟨hget (['(', 'é', ')'], j) (by simp), ?_⟩
    have := (hids (['(', '*', ')'], i) (by simp) (['(', '*', ')'], k) (by simp)).mpr rfl
    simpa using this.symm

end MappedInternPool

end Dialysis.Ahu
