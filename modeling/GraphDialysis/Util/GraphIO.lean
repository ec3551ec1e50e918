import GraphDialysis.Content.Content
import GraphDialysis.Graph.Basic
import GraphDialysis.Lib.Loop
import GraphDialysis.Lib.Reader
import GraphDialysis.Lib.TextLines

/-! `GraphIO`: edge lists and DIMACS files. An edge list has no vertex count, so `loadEdgeList` takes the
    largest id it has seen; what `save` writes is read back as the graph exactly when the last vertex
    has a neighbour (`loadEdgeList_save_iff`). -/

namespace Dialysis.GraphIO
open Lib Content

/-! ### Text -/

/-- `Char.isWhitespace`. -/
def isWhitespace (c : Char) : Bool :=
  let k := c.toNat
  (9 ≤ k ∧ k ≤ 13) ∨ (28 ≤ k ∧ k ≤ 32) ∨ k = 0xA0 ∨ k = 0x1680 ∨ (0x2000 ≤ k ∧ k ≤ 0x200A) ∨
    k = 0x2028 ∨ k = 0x2029 ∨ k = 0x202F ∨ k = 0x205F ∨ k = 0x3000

/-- The class `\s` of regular expressions. -/
def isRegexSpace (c : Char) : Bool := (9 ≤ c.toNat ∧ c.toNat ≤ 13) ∨ c.toNat = 32

/-- `trim()`. -/
def trim (s : KString) : KString :=
  ((s.dropWhile isWhitespace).reverse.dropWhile isWhitespace).reverse

/-- A number that may have a sign. -/
def signed : KString → Option ℤ
  | '-' :: t => (readNat t).map fun k : ℕ => -(k : ℤ)
  | '+' :: t => (readNat t).map fun k : ℕ => (k : ℤ)
  | t => (readNat t).map fun k : ℕ => (k : ℤ)

/-- `toInt()`, for ASCII digits. -/
def toInt (s : KString) : Except String ℤ :=
  match (signed s).filter fun x => -2 ^ 31 ≤ x ∧ x < 2 ^ 31 with
  | some x => .ok x
  | none => .error ("NumberFormatException: For input string: \"" ++ String.ofList s ++ "\"")

/-- Addition of Ints. -/
def addInt (x y : ℤ) : ℤ := (x + y).bmod (2 ^ 32)

/-! ### Building -/

theorem toNat_lt {n : ℕ} {u : ℤ} (h : 0 ≤ u ∧ u < n) : u.toNat < n := by omega

/-- A check of an array index. -/
def index (n : ℕ) (u : ℤ) : Except String (Fin n) :=
  if h : 0 ≤ u ∧ u < n then .ok ⟨u.toNat, toNat_lt h⟩
  else .error ("ArrayIndexOutOfBoundsException: Index " ++ toString u ++ " out of bounds for length " ++
    toString n)

/-- `bucket[x]`. -/
def bucket {n : ℕ} (edges : List (Fin n × Fin n)) (x : Fin n) : List (Fin n) :=
  (edges.flatMap fun p => [(p.1, p.2), (p.2, p.1)]).filterMap fun p => if p.1 = x then some p.2 else none

/-- `bucket[x].distinct().sorted()`. -/
def sortedBucket {n : ℕ} (edges : List (Fin n × Fin n)) (x : Fin n) : List (Fin n) :=
  (bucket edges x).dedup.insertionSort (· ≤ ·)

/-- The graph of the buckets. -/
def ofBuckets (n : ℕ) (edges : List (Fin n × Fin n)) : Graph where
  n := n
  adj := sortedBucket edges
  names := fun v => toString v.1

def buildFromEdges : ℤ → List (ℤ × ℤ) → Except String Graph
  | .negSucc k, _ => .error ("NegativeArraySizeException: " ++ toString (Int.negSucc k))
  | .ofNat n, edges => do
    let pairs ← edges.mapM fun p => do
      let u ← index n p.1
      let v ← index n p.2
      pure (u, v)
    pure (ofBuckets n pairs)

/-! ### The formats -/

/-- A line of an edge list; the state is the edges so far and `maxVertex`. -/
def edgeLine (s : List (ℤ × ℤ) × ℤ) (raw : KString) : Except String (List (ℤ × ℤ) × ℤ) :=
  let line := trim raw
  if line.all isWhitespace || ['#'].isPrefixOf line then .ok s
  else
    match splitRuns isRegexSpace false line with
    | part₀ :: part₁ :: _ => do
      let u ← toInt part₀
      let v ← toInt part₁
      pure (s.1 ++ [(u, v)], max (max s.2 u) v)
    | _ => .error ("Expected 'u v' on line: " ++ String.ofList line)

/-- A plain edge list: one "u v" per line, blank lines and # comments ignored. -/
def loadEdgeList (text : KString) : Except String Graph := do
  let s ← (readLines text).foldlM edgeLine ([], -1)
  buildFromEdges (addInt s.2 1) s.1

/-- The lines that `save` writes, before they are sorted: every edge with its smaller end first. -/
def savedPairs (g : Graph) : List (Fin g.n × Fin g.n) :=
  (List.finRange g.n).flatMap fun u => ((g.adj u).filter fun v => u ≤ v).map fun v => (u, v)

def edgeText {n : ℕ} (p : Fin n × Fin n) : KString := digits p.1 ++ ' ' :: digits p.2

/-- The edges, smaller endpoint first, one per line, the lines sorted as text. -/
def save (g : Graph) : KString :=
  ['\n'].intercalate (sortStrings ((savedPairs g).map edgeText)) ++ ['\n']

/-- A line of a DIMACS file; the state is `n` and the edges so far, counted from 0. -/
def dimacsLine (s : ℤ × List (ℤ × ℤ)) (raw : KString) : Except String (ℤ × List (ℤ × ℤ)) :=
  let parts := splitRuns isRegexSpace false (trim raw)
  let part (i : ℕ) : Except String KString :=
    match parts[i]? with
    | some part => .ok part
    | none => .error ("IndexOutOfBoundsException: Index " ++ toString i ++ " out of bounds for length " ++
        toString parts.length)
  match parts with
  | ['p'] :: _ => do
    let n ← (part 2).bind toInt
    pure (n, s.2)
  | ['e'] :: _ => do
    let u ← (part 1).bind toInt
    let v ← (part 2).bind toInt
    pure (s.1, s.2 ++ [(addInt u (-1), addInt v (-1))])
  | _ => .ok s

/-- A DIMACS edge file, its vertices numbered from 1. -/
def loadDimacs (text : KString) : Except String Graph := do
  let s ← (readLines text).foldlM dimacsLine (0, [])
  buildFromEdges s.1 s.2

/-! ### Numbers and the text around them -/

theorem digit_range {c : Char} (h : c.isDigit = true) : 48 ≤ c.toNat ∧ c.toNat ≤ 57 := by
  rw [Char.isDigit, Bool.and_eq_true, decide_eq_true_eq, decide_eq_true_eq] at h
  exact h

theorem isWhitespace_of_isDigit {c : Char} (h : c.isDigit = true) : isWhitespace c = false := by
  obtain ⟨hlo, hhi⟩ := digit_range h
  simp only [isWhitespace, decide_eq_false_iff_not]
  omega

theorem isRegexSpace_of_isDigit {c : Char} (h : c.isDigit = true) : isRegexSpace c = false := by
  obtain ⟨hlo, hhi⟩ := digit_range h
  simp only [isRegexSpace, decide_eq_false_iff_not]
  omega

theorem isDigit_of_mem {k : ℕ} {c : Char} (h : c ∈ digits k) : c.isDigit = true :=
  Nat.isDigit_of_mem_toDigits (by decide) (by decide) h

theorem isWord_digits (k : ℕ) : IsWord isRegexSpace (digits k) :=
  ⟨Nat.toDigits_ne_nil, fun _ hc => isRegexSpace_of_isDigit (isDigit_of_mem hc)⟩

/-- The first digit. -/
theorem digits_eq_cons (k : ℕ) : ∃ c t, digits k = c :: t ∧ c.isDigit = true := by
  cases h : digits k with
  | nil => exact absurd h Nat.toDigits_ne_nil
  | cons c t => exact ⟨c, t, rfl, isDigit_of_mem (h ▸ List.mem_cons_self)⟩

theorem signed_digits (k : ℕ) : signed (digits k) = some (k : ℤ) := by
  obtain ⟨c, t, h, hc⟩ := digits_eq_cons k
  have hread : readNat (c :: t) = some k := h ▸ readNat_toDigits k
  rw [h, signed, hread, Option.map_some]
  · rintro _ hcons
    obtain ⟨rfl, -⟩ := List.cons.inj hcons
    exact absurd hc (by decide)
  · rintro _ hcons
    obtain ⟨rfl, -⟩ := List.cons.inj hcons
    exact absurd hc (by decide)

theorem toInt_digits {k : ℕ} (hk : k < 2 ^ 31) : toInt (digits k) = .ok (k : ℤ) := by
  have hrange : -2 ^ 31 ≤ (k : ℤ) ∧ (k : ℤ) < 2 ^ 31 := by omega
  rw [toInt, signed_digits, Option.filter_some, if_pos (by simpa using hrange)]

theorem dropWhile_of_head {p : Char → Bool} : ∀ {s : KString} (h : s ≠ []), p (s.head h) = false →
    s.dropWhile p = s
  | c :: s, _, hc => List.dropWhile_cons_of_neg (by simpa using hc)

theorem trim_eq_self {s : KString} (h : s ≠ []) (hhead : isWhitespace (s.head h) = false)
    (hlast : isWhitespace (s.getLast h) = false) : trim s = s := by
  have hrev : s.reverse ≠ [] := by simpa using h
  rw [trim, dropWhile_of_head h hhead, dropWhile_of_head hrev (by rwa [List.head_reverse]),
    List.reverse_reverse]

/-! ### Edge lists -/

section
variable {n : ℕ}

/-- What an edge of the graph is read as. -/
def coePair (p : Fin n × Fin n) : ℤ × ℤ := (p.1, p.2)

theorem oneLine_edgeText (p : Fin n × Fin n) : OneLine (edgeText p) := by
  have hdigit : ∀ {c : Char}, c.isDigit = true → c ≠ '\n' ∧ c ≠ '\r' := by
    intro c hc
    constructor <;> rintro rfl <;> exact absurd hc (by decide)
  intro c hc
  rw [edgeText, List.mem_append, List.mem_cons] at hc
  rcases hc with hc | rfl | hc
  · exact hdigit (isDigit_of_mem hc)
  · decide
  · exact hdigit (isDigit_of_mem hc)

theorem trim_edgeText (p : Fin n × Fin n) : trim (edgeText p) = edgeText p := by
  have hne : edgeText p ≠ [] := by simp [edgeText]
  refine trim_eq_self hne (isWhitespace_of_isDigit ?_) (isWhitespace_of_isDigit ?_)
  · obtain ⟨c, t, h, hc⟩ := digits_eq_cons p.1
    simp only [edgeText, h]
    exact hc
  · have hlast : (edgeText p).getLast hne = (digits p.2).getLast Nat.toDigits_ne_nil := by
      simp [edgeText, Nat.toDigits_ne_nil, digits]
    rw [hlast]
    exact isDigit_of_mem (List.getLast_mem _)

/-- The line of an edge adds the edge. -/
theorem edgeLine_edgeText (hn : n < 2 ^ 31) (p : Fin n × Fin n) (s : List (ℤ × ℤ) × ℤ) :
    edgeLine s (edgeText p) = .ok (s.1 ++ [coePair p], max (max s.2 p.1) p.2) := by
  obtain ⟨c, t, h, hc⟩ := digits_eq_cons p.1
  have hcode : ((edgeText p).all isWhitespace || ['#'].isPrefixOf (edgeText p)) = false := by
    have hhash : c ≠ '#' := by rintro rfl; exact absurd hc (by decide)
    rw [edgeText, h]
    simp [isWhitespace_of_isDigit hc, List.isPrefixOf, Ne.symm hhash]
  have hparts : splitRuns isRegexSpace false (edgeText p) = [digits p.1, digits p.2] := by
    have := splitRuns_words (d := ' ') (by decide) false (isWord_digits p.1)
      (show ∀ w ∈ [digits p.2], IsWord isRegexSpace w by simpa using isWord_digits p.2)
    simpa [edgeText] using this
  rw [edgeLine]
  simp only [trim_edgeText, hcode, hparts]
  rw [toInt_digits (by omega), toInt_digits (by omega)]
  rfl

/-- `maxVertex` after some edges. -/
def maxVertex (pairs : List (Fin n × Fin n)) (m : ℤ) : ℤ :=
  pairs.foldl (fun m p => max (max m p.1) p.2) m

theorem maxVertex_le_iff {b : ℤ} : ∀ (pairs : List (Fin n × Fin n)) (m : ℤ), maxVertex pairs m ≤ b ↔
    m ≤ b ∧ ∀ p ∈ pairs, ((p.1 : ℕ) : ℤ) ≤ b ∧ ((p.2 : ℕ) : ℤ) ≤ b
  | [], m => by simp [maxVertex]
  | p :: pairs, m => by
    rw [maxVertex, List.foldl_cons, ← maxVertex, maxVertex_le_iff pairs, max_le_iff, max_le_iff,
      List.forall_mem_cons, and_assoc, and_assoc]
    exact Iff.rfl.and (Iff.symm and_assoc)

theorem foldlM_edgeLine (hn : n < 2 ^ 31) : ∀ (pairs : List (Fin n × Fin n)) (s : List (ℤ × ℤ) × ℤ),
    (pairs.map edgeText).foldlM edgeLine s = .ok (s.1 ++ pairs.map coePair, maxVertex pairs s.2)
  | [], s => by simp [maxVertex]; rfl
  | p :: pairs, s => by
    rw [List.map_cons, List.foldlM_cons, edgeLine_edgeText hn]
    refine (foldlM_edgeLine hn pairs _).trans ?_
    rw [List.append_assoc]
    rfl

/-! ### Building from pairs that are in range -/

theorem index_coe (v : Fin n) : index n (v : ℕ) = .ok v := by
  rw [index, dif_pos ⟨by omega, by omega⟩]
  exact congrArg Except.ok (Fin.ext (Int.toNat_natCast _))

theorem mapM_index : ∀ pairs : List (Fin n × Fin n), (pairs.map coePair).mapM (fun p => do
      let u ← index n p.1
      let v ← index n p.2
      pure (u, v)) = .ok pairs
  | [] => rfl
  | p :: pairs => by
    rw [List.map_cons, List.mapM_cons, mapM_index pairs, coePair, index_coe, index_coe]
    rfl

theorem buildFromEdges_coe (pairs : List (Fin n × Fin n)) :
    buildFromEdges n (pairs.map coePair) = .ok (ofBuckets n pairs) := by
  change (List.mapM _ (pairs.map coePair) >>= _) = _
  rw [mapM_index]
  rfl

/-- Pairs that lie below some bound are pairs of vertices below it. -/
theorem exists_coePair {k : ℕ} {pairs : List (Fin n × Fin n)}
    (h : ∀ p ∈ pairs, p.1.1 < k ∧ p.2.1 < k) :
    ∃ pairs' : List (Fin k × Fin k), pairs'.map coePair = pairs.map coePair := by
  induction pairs with
  | nil => exact ⟨[], rfl⟩
  | cons p pairs ih =>
    obtain ⟨pairs', hpairs⟩ := ih fun q hq => h q (List.mem_cons_of_mem _ hq)
    obtain ⟨h₁, h₂⟩ := h p List.mem_cons_self
    exact ⟨(⟨p.1.1, h₁⟩, ⟨p.2.1, h₂⟩) :: pairs', by rw [List.map_cons, hpairs]; rfl⟩

theorem mem_bucket {edges : List (Fin n × Fin n)} {x y : Fin n} :
    y ∈ bucket edges x ↔ (x, y) ∈ edges ∨ (y, x) ∈ edges := by
  simp only [bucket, List.mem_filterMap, List.mem_flatMap, List.mem_cons, List.not_mem_nil, or_false,
    Option.ite_none_right_eq_some, Option.some.injEq]
  constructor
  · rintro ⟨p, ⟨e, he, rfl | rfl⟩, rfl, rfl⟩
    · exact Or.inl he
    · exact Or.inr he
  · rintro (h | h)
    · exact ⟨(x, y), ⟨_, h, Or.inl rfl⟩, rfl, rfl⟩
    · exact ⟨(x, y), ⟨_, h, Or.inr rfl⟩, rfl, rfl⟩

theorem mem_sortedBucket {edges : List (Fin n × Fin n)} {x y : Fin n} :
    y ∈ sortedBucket edges x ↔ (x, y) ∈ edges ∨ (y, x) ∈ edges := by
  rw [sortedBucket, List.mem_insertionSort, List.mem_dedup, mem_bucket]

theorem sortedBucket_sorted (edges : List (Fin n × Fin n)) (x : Fin n) :
    (sortedBucket edges x).Pairwise (· < ·) :=
  sorted_lt_insertionSort (List.nodup_dedup _)

end

/-! ### The round trip -/

section
variable {g : Graph}

theorem mem_savedPairs {u v : Fin g.n} : (u, v) ∈ savedPairs g ↔ v ∈ g.adj u ∧ u ≤ v := by
  simp [savedPairs]

/-- Any order of the saved edges builds the neighbour lists of the graph. -/
theorem sortedBucket_eq [g.Simple] {pairs : List (Fin g.n × Fin g.n)} (h : pairs.Perm (savedPairs g))
    (v : Fin g.n) : sortedBucket pairs v = g.adj v := by
  refine (sortedBucket_sorted pairs v).eq_of_mem_iff (Graph.Simple.sorted v) fun w => ?_
  rw [mem_sortedBucket, h.mem_iff, h.mem_iff, mem_savedPairs, mem_savedPairs, ← Graph.adj_comm,
    ← and_or_left]
  exact and_iff_left (le_total v w)

/-- The edges in the order of the saved lines. -/
def sortedPairs (g : Graph) : List (Fin g.n × Fin g.n) :=
  sortOn (fun p => utf16 (edgeText p)) (savedPairs g)

theorem sortedPairs_perm : (sortedPairs g).Perm (savedPairs g) := sortOn_perm _ _

theorem foldlM_save (hn : g.n < 2 ^ 31) : (readLines (save g)).foldlM edgeLine ([], -1) =
    .ok ((sortedPairs g).map coePair, maxVertex (sortedPairs g) (-1)) := by
  have hlines : sortStrings ((savedPairs g).map edgeText) = (sortedPairs g).map edgeText :=
    sortOn_map (fun _ => rfl) _
  have hone : ∀ line ∈ (sortedPairs g).map edgeText, OneLine line := by
    intro line hline
    obtain ⟨p, -, rfl⟩ := List.mem_map.mp hline
    exact oneLine_edgeText p
  rw [save, hlines]
  by_cases hnil : sortedPairs g = []
  · rw [hnil]
    rfl
  · rw [readLines_joined (by simpa using hnil) hone, foldlM_edgeLine hn]
    rfl

/-- Either there is no vertex or the last one has a neighbour. -/
def LastHasNeighbor (g : Graph) : Prop := g.n = 0 ∨ ∃ v : Fin g.n, v.1 + 1 = g.n ∧ g.adj v ≠ []

/-- The largest id on a saved line is the last vertex when that one has a neighbour. -/
theorem maxVertex_saved [g.Simple] :
    maxVertex (sortedPairs g) (-1) + 1 = g.n ↔ LastHasNeighbor g := by
  have hle : maxVertex (sortedPairs g) (-1) ≤ g.n - 1 :=
    (maxVertex_le_iff _ _).mpr ⟨by omega, fun p _ => ⟨by omega, by omega⟩⟩
  have hlt : maxVertex (sortedPairs g) (-1) ≤ g.n - 2 ↔ ¬LastHasNeighbor g := by
    rw [maxVertex_le_iff, LastHasNeighbor, not_or]
    refine and_congr (by omega) ⟨fun h => ?_, fun h p hp => ?_⟩
    · rintro ⟨v, hv, hadj⟩
      obtain ⟨w, hw⟩ := List.exists_mem_of_ne_nil _ hadj
      have hwv : w ≤ v := Fin.le_def.mpr (by omega)
      have := (h (w, v) (sortedPairs_perm.mem_iff.mpr
        (mem_savedPairs.mpr ⟨Graph.Simple.symm hw, hwv⟩))).2
      dsimp only at this
      omega
    · obtain ⟨hadj, -⟩ := mem_savedPairs.mp (sortedPairs_perm.mem_iff.mp hp)
      have hlast : ∀ v : Fin g.n, g.adj v ≠ [] → ((v : ℕ) : ℤ) ≤ g.n - 2 := fun v hv => by
        have : v.1 + 1 ≠ g.n := fun he => h ⟨v, he, hv⟩
        omega
      exact ⟨hlast _ (List.ne_nil_of_mem hadj), hlast _ (List.ne_nil_of_mem (Graph.Simple.symm hadj))⟩
  constructor
  · intro h
    by_contra hn
    have := hlt.mpr hn
    omega
  · intro h
    have := mt hlt.mp (not_not.mpr h)
    omega

/-- What is loaded is built from the saved edges, up to the largest id among them. -/
theorem loadEdgeList_save (hn : g.n < 2 ^ 31) : ∃ (k : ℕ) (pairs : List (Fin k × Fin k)),
    maxVertex (sortedPairs g) (-1) + 1 = k ∧ pairs.map coePair = (sortedPairs g).map coePair ∧
      loadEdgeList (save g) = .ok (ofBuckets k pairs) := by
  obtain ⟨hlow, hids⟩ := (maxVertex_le_iff (sortedPairs g) (-1)).mp le_rfl
  obtain ⟨k, hk⟩ := Int.eq_ofNat_of_zero_le (a := maxVertex (sortedPairs g) (-1) + 1) (by omega)
  obtain ⟨pairs, hpairs⟩ := exists_coePair (k := k) fun p hp => by
    have := hids p hp
    omega
  have hle : maxVertex (sortedPairs g) (-1) ≤ g.n - 1 :=
    (maxVertex_le_iff _ _).mpr ⟨by omega, fun p _ => ⟨by omega, by omega⟩⟩
  have hadd : addInt (maxVertex (sortedPairs g) (-1)) 1 = k := by
    rw [addInt, hk]
    exact Int.bmod_eq_of_le (by omega) (by omega)
  refine ⟨k, pairs, hk, hpairs, ?_⟩
  rw [loadEdgeList, foldlM_save hn]
  change buildFromEdges (addInt _ 1) _ = _
  rw [hadd, ← hpairs, buildFromEdges_coe]

end

/-- A saved graph is loaded with its number of vertices and its neighbour lists exactly when its last
    vertex has a neighbour; ids are Ints. -/
theorem loadEdgeList_save_iff (g : Graph) [g.Simple] (hn : g.n < 2 ^ 31) :
    (∃ h, loadEdgeList (save g) = .ok h ∧ h.n = g.n ∧ h.arrays.adj = g.arrays.adj) ↔
      LastHasNeighbor g := by
  obtain ⟨k, pairs, hk, hpairs, hload⟩ := loadEdgeList_save hn
  rw [← maxVertex_saved, hk, Nat.cast_inj]
  constructor
  · rintro ⟨h, hh, hsame, -⟩
    rw [hload] at hh
    cases hh
    exact hsame
  · rintro rfl
    have hinj : Function.Injective (coePair (n := g.n)) := fun p q hpq => by
      simp only [coePair, Prod.mk.injEq, Nat.cast_inj] at hpq
      exact Prod.ext (Fin.ext hpq.1) (Fin.ext hpq.2)
    have hperm : pairs.Perm (savedPairs g) := (List.map_injective_iff.mpr hinj hpairs) ▸ sortedPairs_perm
    refine ⟨_, hload, rfl, congrArg List.ofFn (funext fun v => ?_)⟩
    exact congrArg (List.map fun w : Fin g.n => (w.1 : ℤ)) (sortedBucket_eq hperm v)

open Dialysis.Graph in
theorem loadEdgeList_save_k23 :
    ∃ h, loadEdgeList (save (ofEdges 5 [(0, 2), (0, 3), (0, 4), (1, 2), (1, 3), (1, 4)])) = .ok h ∧
      h.n = 5 ∧ h.arrays.adj = [[2, 3, 4], [2, 3, 4], [0, 1], [0, 1], [0, 1]] :=
  (loadEdgeList_save_iff (ofEdges 5 [(0, 2), (0, 3), (0, 4), (1, 2), (1, 3), (1, 4)]) (by decide)).mpr
    (Or.inr ⟨(4 : Fin 5), rfl, by decide⟩)

open Dialysis.Graph in
/-- The vertex 2 has no edge and is lost. -/
theorem loadEdgeList_save_isolated : ¬∃ h, loadEdgeList (save (ofEdges 3 [(0, 1)])) = .ok h ∧
    h.n = (ofEdges 3 [(0, 1)]).n ∧ h.arrays.adj = (ofEdges 3 [(0, 1)]).arrays.adj := by
  rintro ⟨h, hload, hn, -⟩
  have htwo : (loadEdgeList (save (ofEdges 3 [(0, 1)]))).map Graph.n = .ok 2 := rfl
  rw [hload] at htwo
  have : h.n = 2 := Except.ok.inj htwo
  rw [hn] at this
  exact absurd this (by decide)

end Dialysis.GraphIO
