import GraphDialysis.Benchmark.MergeGroundTruth
import GraphDialysis.Graph.Subdivision
import GraphDialysis.Util.Dimacs
import Mathlib.Data.Prod.Lex

/-! The script `ground_truth.py` reads and subdivides the same files by itself. It makes one new vertex
    for every edge of the list, the program one for every edge of the graph, so the two agree
    exactly on the files that have no loop and no edge twice (`sameSubdivision_iff`). -/

namespace Dialysis.GroundTruth
open Lib Content GraphIO Benchmark

/-! ### The script -/

/-- `int()`. -/
def int (s : KString) : Except String ℤ :=
  match pythonInt (String.ofList s) with
  | some x => .ok x
  | none => .error ("ValueError: invalid literal for int() with base 10: '" ++ String.ofList s ++ "'")

/-- A line of the file; the state is `n` and the edges so far. -/
def dimacsLine (s : ℤ × List (ℤ × ℤ)) (line : KString) : Except String (ℤ × List (ℤ × ℤ)) :=
  let parts := words isspace line
  let part (i : ℕ) : Except String KString :=
    match parts[i]? with
    | some part => .ok part
    | none => .error "IndexError: list index out of range"
  match parts with
  | ['p'] :: _ => do
    let n ← (part 2).bind int
    pure (n, s.2)
  | ['e'] :: _ => do
    let u ← (part 1).bind int
    let v ← (part 2).bind int
    pure (s.1, s.2 ++ [(u - 1, v - 1)])
  | _ => .ok s

/-- `load_dimacs`. -/
def loadDimacs (text : KString) : Except String (ℤ × List (ℤ × ℤ)) :=
  (readLines text).foldlM dimacsLine (0, [])

theorem toNat_add_lt {n : ℕ} {u : ℤ} (h : -n ≤ u ∧ u < 0) : (u + n).toNat < n := by omega

/-- An index into a list of `n` elements; negative ones count from the end. -/
def index (n : ℕ) (u : ℤ) : Except String (Fin n) :=
  if h : 0 ≤ u ∧ u < n then .ok ⟨u.toNat, GraphIO.toNat_lt h⟩
  else if h : -n ≤ u ∧ u < 0 then .ok ⟨(u + n).toNat, toNat_add_lt h⟩
  else .error "IndexError: list index out of range"

/-- The sorted set of what was added at `x`. -/
def sortedSet {n : ℕ} (entries : List (Fin n × ℤ)) (x : Fin n) : List ℤ :=
  (entries.filterMap fun p => if p.1 = x then some p.2 else none).dedup.insertionSort (· ≤ ·)

/-- `build_adjacency`. -/
def buildAdjacency (n : ℤ) (edges : List (ℤ × ℤ)) : Except String (List (List ℤ)) := do
  let entries ← edges.mapM fun p => do
    let u ← index n.toNat p.1
    let v ← index n.toNat p.2
    pure [(u, p.2), (v, p.1)]
  pure (List.ofFn (sortedSet entries.flatten))

/-- `sorted((u, v) if u < v else (v, u) for u, v in edges)`. -/
def orderedEdges (edges : List (ℤ × ℤ)) : List (ℤ × ℤ) :=
  sortOn toLex (edges.map fun p => if p.1 < p.2 then p else p.swap)

/-- One new vertex per edge, in ascending order. -/
def subdivide (n : ℤ) (edges : List (ℤ × ℤ)) : ℤ × List (ℤ × ℤ) :=
  (n + (orderedEdges edges).length,
    (orderedEdges edges).zipIdx.flatMap fun e => [(e.1.1, n + e.2), (n + e.2, e.1.2)])

/-- The script and the program read the file and subdivide it to the same labelled graph. -/
def SameSubdivision (text : KString) : Prop := ∃ g n edges,
  GraphIO.loadDimacs text = .ok g ∧ loadDimacs text = .ok (n, edges) ∧
    (subdivide n edges).1 = g.subdivided.n ∧
      buildAdjacency (subdivide n edges).1 (subdivide n edges).2 = .ok g.subdivided.arrays.adj

/-! ### Reading the file -/

theorem isspace_separates : Separates isspace := by
  refine ⟨by decide, fun c h => ?_⟩
  obtain ⟨hlo, hhi⟩ := h
  simp [isspace]
  omega

theorem int_digits (k : ℕ) : int (digits k) = .ok (k : ℤ) := by
  have hread : pythonInt (String.ofList (digits k)) = some (k : ℤ) := pythonInt_toString k
  rw [int, hread]

theorem words_spells {t : KString} (ht : ∀ c ∈ t, DimacsLine.Visible c ∨ DimacsLine.isBlank c) :
    words isspace t = words DimacsLine.isBlank t := by
  rw [words, words, splitRuns_congr false fun c hc => isspace_separates.eq_isBlank (ht c hc)]

theorem dimacsLine_spells {t : KString} {line : DimacsLine} (h : line.Spells t) (hline : line.Valid)
    (n : ℕ) (es : List (ℤ × ℤ)) :
    dimacsLine (n, es) t = .ok (line.count n, es ++ line.edges.map natPair) := by
  cases line with
  | comment =>
    obtain ⟨pieces, hpieces⟩ := splitRuns_comment (show isspace ' ' = true by decide) (by decide) h.2
    rw [dimacsLine, words, hpieces]
    change Except.ok ((n : ℤ), es) = .ok ((n : ℤ), es ++ [])
    rw [List.append_nil]
  | blank =>
    rw [dimacsLine, words_spells h.1, h.2]
    change Except.ok ((n : ℤ), es) = .ok ((n : ℤ), es ++ [])
    rw [List.append_nil]
  | problem format k m =>
    rw [dimacsLine, words_spells h.1, h.2]
    change (int (digits k) >>= fun n => pure (n, es)) = _
    rw [int_digits]
    change Except.ok ((k : ℤ), es) = .ok ((k : ℤ), es ++ [])
    rw [List.append_nil]
  | edge u v =>
    rw [dimacsLine, words_spells h.1, h.2]
    change (int (digits u) >>= fun u => int (digits v) >>= fun v =>
      pure ((n : ℤ), es ++ [(u - 1, v - 1)])) = _
    rw [int_digits, int_digits]
    change Except.ok ((n : ℤ), es ++ [((u : ℤ) - 1, (v : ℤ) - 1)]) =
      .ok ((n : ℤ), es ++ [(((u - 1 : ℕ) : ℤ), ((v - 1 : ℕ) : ℤ))])
    rw [Nat.cast_pred hline.1.1, Nat.cast_pred hline.2.1]

/-- The script reads the edges of the file. -/
theorem loadDimacs_file (file : DimacsFile) :
    loadDimacs file.text = .ok ((file.n : ℤ), file.edges.map coePair) := by
  rw [loadDimacs, file.readLines_text]
  exact file.foldlM_rows dimacsLine_spells

/-! ### Building the lists -/

section
variable {n : ℕ}

theorem index_coe (v : Fin n) : index n (v : ℕ) = .ok v := by
  rw [index, dif_pos ⟨by omega, by omega⟩]
  exact congrArg Except.ok (Fin.ext (Int.toNat_natCast _))

theorem mapM_index : ∀ pairs : List (Fin n × Fin n), (pairs.map coePair).mapM (fun p => do
      let u ← index n p.1
      let v ← index n p.2
      pure [(u, p.2), (v, p.1)]) =
    Except.ok (pairs.map fun p => [(p.1, ((p.2 : ℕ) : ℤ)), (p.2, ((p.1 : ℕ) : ℤ))])
  | [] => rfl
  | p :: pairs => by
    rw [List.map_cons, List.mapM_cons, mapM_index pairs, coePair, index_coe, index_coe]
    rfl

/-- The sets of the script are the buckets of the program. -/
theorem sortedSet_eq (pairs : List (Fin n × Fin n)) (x : Fin n) :
    sortedSet (pairs.map fun p => [(p.1, ((p.2 : ℕ) : ℤ)), (p.2, ((p.1 : ℕ) : ℤ))]).flatten x =
      (sortedBucket pairs x).map fun w : Fin n => (w.1 : ℤ) := by
  have hinj : Function.Injective fun w : Fin n => (w.1 : ℤ) := fun v w h =>
    Fin.ext (Int.ofNat.inj h)
  have hentries : ((pairs.map fun p => [(p.1, ((p.2 : ℕ) : ℤ)), (p.2, ((p.1 : ℕ) : ℤ))]).flatten.filterMap
      fun p => if p.1 = x then some p.2 else none) = (bucket pairs x).map fun w : Fin n => (w.1 : ℤ) := by
    induction pairs with
    | nil => rfl
    | cons p pairs ih =>
      rw [List.map_cons, List.flatten_cons, List.filterMap_append, ih, bucket, bucket,
        List.flatMap_cons, List.filterMap_append, List.map_append]
      congr 1
      simp only [List.filterMap_cons, List.filterMap_nil]
      split <;> split <;> simp_all
  rw [sortedSet, hentries, List.dedup_map_of_injective hinj, sortedBucket]
  exact (List.map_insertionSort (· ≤ ·) (· ≤ ·) _ _ fun v _ w _ => by simp).symm

theorem buildAdjacency_coe (pairs : List (Fin n × Fin n)) :
    buildAdjacency n (pairs.map coePair) = .ok (ofBuckets n pairs).arrays.adj := by
  change (List.mapM _ (pairs.map coePair) >>= _) = _
  rw [Int.toNat_natCast, mapM_index]
  exact congrArg Except.ok (congrArg List.ofFn (funext (sortedSet_eq pairs)))

end

/-! ### Edges of the list and edges of the graph -/

section
variable {n : ℕ}

/-- The pair with its smaller end first. -/
def ordered (p : Fin n × Fin n) : Fin n × Fin n := if p.1 < p.2 then p else p.swap

theorem ordered_le (p : Fin n × Fin n) : (ordered p).1 ≤ (ordered p).2 := by
  rw [ordered]
  split
  · exact le_of_lt ‹_›
  · exact not_lt.mp ‹_›

theorem mk_ordered (p : Fin n × Fin n) : s((ordered p).1, (ordered p).2) = s(p.1, p.2) := by
  rw [ordered]
  split
  · rfl
  · exact Sym2.eq_swap

theorem ordered_injOn {p q : Fin n × Fin n} (h : s(p.1, p.2) = s(q.1, q.2)) (hp : p.1 ≤ p.2)
    (hq : q.1 ≤ q.2) : p = q := by
  rcases Sym2.eq_iff.mp h with ⟨h₁, h₂⟩ | ⟨h₁, h₂⟩
  · exact Prod.ext h₁ h₂
  · rw [h₁, h₂] at hp
    have := le_antisymm hp hq
    exact Prod.ext (h₁.trans this) (h₂.trans this.symm)

/-- The edge list has no loop, and no edge twice in either orientation. -/
def NoRepeat (pairs : List (Fin n × Fin n)) : Prop :=
  (pairs.map fun p => s(p.1, p.2)).Nodup ∧ ∀ p ∈ pairs, p.1 ≠ p.2

theorem noRepeat_iff {pairs : List (Fin n × Fin n)} :
    NoRepeat pairs ↔ (pairs.map ordered).Nodup ∧ ∀ p ∈ pairs.map ordered, p.1 < p.2 := by
  have hmap : (pairs.map fun p => s(p.1, p.2)) = (pairs.map ordered).map fun p => s(p.1, p.2) := by
    rw [List.map_map]
    exact List.map_congr_left fun p _ => (mk_ordered p).symm
  refine and_congr ⟨fun h => ?_, fun h => ?_⟩ ?_
  · exact (hmap ▸ h).of_map
  · rw [hmap]
    refine h.map_on fun p hp q hq heq => ?_
    obtain ⟨p, -, rfl⟩ := List.mem_map.mp hp
    obtain ⟨q, -, rfl⟩ := List.mem_map.mp hq
    exact ordered_injOn heq (ordered_le p) (ordered_le q)
  · rw [List.forall_mem_map]
    refine forall₂_congr fun p _ => ?_
    rw [lt_iff_le_and_ne, and_iff_right (ordered_le p), ordered]
    split
    · rfl
    · exact ne_comm

/-- The edges of the graph of the list. -/
def graphEdges (pairs : List (Fin n × Fin n)) : List (Fin n × Fin n) := (ofBuckets n pairs).edges

theorem mem_graphEdges {pairs : List (Fin n × Fin n)} {p : Fin n × Fin n} :
    p ∈ graphEdges pairs ↔ p ∈ pairs.map ordered ∧ p.1 < p.2 := by
  obtain ⟨u, v⟩ := p
  refine Iff.trans Graph.mem_edges (Iff.trans (Iff.and mem_sortedBucket Iff.rfl) ?_)
  refine and_congr_left fun hlt => ?_
  rw [List.mem_map]
  constructor
  · rintro (h | h)
    · exact ⟨(u, v), h, if_pos hlt⟩
    · exact ⟨(v, u), h, if_neg hlt.asymm⟩
  · rintro ⟨p, hp, heq⟩
    rw [ordered] at heq
    split at heq
    · exact Or.inl (heq ▸ hp)
    · exact Or.inr (by rwa [← Prod.swap_swap p, heq] at hp)

/-- The edges of a graph come in ascending order. -/
theorem graphEdges_pairwise (pairs : List (Fin n × Fin n)) :
    (graphEdges pairs).Pairwise fun p q => toLex p < toLex q := by
  refine List.pairwise_flatMap.mpr ⟨fun u _ => ?_, ?_⟩
  · refine List.pairwise_map.mpr (((sortedBucket_sorted pairs u).filter _).imp fun h => ?_)
    exact Prod.Lex.toLex_lt_toLex.mpr (Or.inr ⟨rfl, h⟩)
  · refine (List.pairwise_lt_finRange n).imp fun huu p hp q hq => ?_
    obtain ⟨v, -, rfl⟩ := List.mem_map.mp hp
    obtain ⟨w, -, rfl⟩ := List.mem_map.mp hq
    exact Prod.Lex.toLex_lt_toLex.mpr (Or.inl huu)

theorem graphEdges_perm (pairs : List (Fin n × Fin n)) : (graphEdges pairs).Perm
    ((pairs.map ordered).dedup.filter fun p => p.1 < p.2) := by
  refine (List.perm_ext_iff_of_nodup ?_ ((List.nodup_dedup _).filter _)).mpr fun p => ?_
  · exact (graphEdges_pairwise pairs).imp fun h heq => absurd (congrArg toLex heq) (ne_of_lt h)
  · rw [List.mem_filter, List.mem_dedup, decide_eq_true_eq]
    exact mem_graphEdges

/-- The program finds as many edges as there are pairs when no pair repeats another. -/
theorem length_graphEdges_eq_iff {pairs : List (Fin n × Fin n)} :
    pairs.length = (graphEdges pairs).length ↔ NoRepeat pairs := by
  rw [noRepeat_iff, (graphEdges_perm pairs).length_eq, ← List.length_map (f := ordered)]
  constructor
  · intro h
    have hsub : ((pairs.map ordered).dedup.filter fun p => p.1 < p.2).Sublist (pairs.map ordered) :=
      List.filter_sublist.trans (List.dedup_sublist _)
    have heq := hsub.eq_of_length h.symm
    refine ⟨heq ▸ (List.nodup_dedup _).filter _, fun p hp => ?_⟩
    rw [← heq, List.mem_filter] at hp
    exact of_decide_eq_true hp.2
  · rintro ⟨hnd, hlt⟩
    rw [hnd.dedup, List.filter_eq_self.mpr fun p hp => decide_eq_true (hlt p hp)]

/-- Then the script orders them as the program does. -/
theorem orderedEdges_coe {pairs : List (Fin n × Fin n)} (h : NoRepeat pairs) :
    orderedEdges (pairs.map coePair) = (graphEdges pairs).map coePair := by
  obtain ⟨hnd, hlt⟩ := noRepeat_iff.mp h
  have hmap : (pairs.map coePair).map (fun p => if p.1 < p.2 then p else p.swap) =
      (pairs.map ordered).map coePair := by
    rw [List.map_map, List.map_map]
    refine List.map_congr_left fun p _ => ?_
    simp only [Function.comp_apply, coePair, ordered, Nat.cast_lt, Fin.val_fin_lt]
    split <;> rfl
  have hperm : ((pairs.map ordered).map coePair).Perm ((graphEdges pairs).map coePair) := by
    refine List.Perm.map _ ((graphEdges_perm pairs).trans ?_).symm
    rw [hnd.dedup, List.filter_eq_self.mpr fun p hp => decide_eq_true (hlt p hp)]
  rw [orderedEdges, hmap]
  refine eq_of_sorted (fun _ _ _ _ h => toLex.injective h) (sortOn_sorted _ _) ?_
    ((sortOn_perm _ _).trans hperm)
  refine List.pairwise_map.mpr ((graphEdges_pairwise pairs).imp fun {p q} hpq => ?_)
  refine Prod.Lex.toLex_le_toLex.mpr ((Prod.Lex.toLex_lt_toLex.mp hpq).imp (fun h => ?_) fun h => ?_)
  · exact Nat.cast_lt.mpr h
  · exact ⟨congrArg (fun v : Fin n => (v.1 : ℤ)) h.1, Nat.cast_le.mpr (le_of_lt h.2)⟩

end

/-! ### The subdivisions -/

section
variable (g : Graph)

/-- The edges of the subdivided graph, two for every old one. -/
def halves : List (Fin (g.n + g.edges.length) × Fin (g.n + g.edges.length)) :=
  (List.finRange g.edges.length).flatMap fun i =>
    [((g.edges.get i).1.castAdd _, i.natAdd _), (i.natAdd _, (g.edges.get i).2.castAdd _)]

variable {g}

theorem sortedBucket_halves (x : Fin (g.n + g.edges.length)) :
    sortedBucket (halves g) x = g.subdivided.adj x := by
  refine (sortedBucket_sorted _ x).eq_of_mem_iff (sorted_lt_insertionSort (g.bucket_nodup x)) fun y => ?_
  refine mem_sortedBucket.trans (Iff.trans ?_ Graph.adj_subdivided.symm)
  simp only [halves, List.mem_flatMap, List.mem_finRange, true_and, List.mem_cons, Prod.mk.injEq,
    List.not_mem_nil, or_false, Graph.ends, Sym2.mem_iff]
  constructor
  · rintro (⟨i, ⟨hx, hy⟩ | ⟨hx, hy⟩⟩ | ⟨i, ⟨hy, hx⟩ | ⟨hy, hx⟩⟩)
    · exact ⟨i, _, Or.inl rfl, Or.inl ⟨hx, hy⟩⟩
    · exact ⟨i, _, Or.inr rfl, Or.inr ⟨hx, hy⟩⟩
    · exact ⟨i, _, Or.inl rfl, Or.inr ⟨hx, hy⟩⟩
    · exact ⟨i, _, Or.inr rfl, Or.inl ⟨hx, hy⟩⟩
  · rintro ⟨i, u, rfl | rfl, ⟨hx, hy⟩ | ⟨hx, hy⟩⟩
    · exact Or.inl ⟨i, Or.inl ⟨hx, hy⟩⟩
    · exact Or.inr ⟨i, Or.inl ⟨hy, hx⟩⟩
    · exact Or.inr ⟨i, Or.inr ⟨hy, hx⟩⟩
    · exact Or.inl ⟨i, Or.inr ⟨hx, hy⟩⟩

/-- On pairs in order, the script makes the halves of the edges. -/
theorem subdivide_of_ordered {edges : List (ℤ × ℤ)} (h : orderedEdges edges = g.edges.map coePair) :
    subdivide g.n edges = (((g.n + g.edges.length : ℕ) : ℤ), (halves g).map coePair) := by
  rw [subdivide, h, List.length_map, Nat.cast_add]
  refine Prod.ext rfl ?_
  have hzip : g.edges.zipIdx = (List.finRange g.edges.length).map fun i => (g.edges.get i, i.1) :=
    List.ext_getElem (by simp) fun i _ _ => by simp
  change List.flatMap _ (List.zipIdx _) = (halves g).map coePair
  rw [List.zipIdx_map, List.flatMap_map, hzip, List.flatMap_map, halves, List.map_flatMap]
  refine List.flatMap_congr fun i _ => ?_
  simp [coePair]

/-- They are the edges of the subdivided graph. -/
theorem subdivide_spec {edges : List (ℤ × ℤ)} (h : orderedEdges edges = g.edges.map coePair) :
    (subdivide g.n edges).1 = g.subdivided.n ∧
      buildAdjacency (subdivide g.n edges).1 (subdivide g.n edges).2 =
        .ok g.subdivided.arrays.adj := by
  rw [subdivide_of_ordered h]
  refine ⟨rfl, (buildAdjacency_coe (halves g)).trans ?_⟩
  have hadj : sortedBucket (halves g) = g.subdivided.adj := funext sortedBucket_halves
  rw [Graph.arrays, Graph.arrays, ← hadj]
  rfl

end

/-- The two subdivisions agree exactly when no edge of the file is a loop or repeats another. -/
theorem sameSubdivision_iff (file : DimacsFile) : SameSubdivision file.text ↔ NoRepeat file.edges := by
  rw [← length_graphEdges_eq_iff]
  constructor
  · rintro ⟨g, n, edges, hg, hr, hn, -⟩
    rw [ GraphIO.loadDimacs_file] at hg
    rw [loadDimacs_file] at hr
    cases hg
    cases hr
    have hlength : (orderedEdges (file.edges.map coePair)).length = file.edges.length := by
      rw [orderedEdges, (sortOn_perm _ _).length_eq, List.length_map, List.length_map]
    have : (file.n : ℤ) + file.edges.length = (file.n + (graphEdges file.edges).length : ℕ) := by
      rw [← hlength]
      exact hn
    omega
  · intro h
    exact ⟨_, _, _, GraphIO.loadDimacs_file file, loadDimacs_file file,
      subdivide_spec (g := ofBuckets file.n file.edges)
        (orderedEdges_coe (length_graphEdges_eq_iff.mp h))⟩

/-- Two vertices and the edge between them in both orientations. -/
def bothWays : DimacsFile where
  rows := [("p edge 2 2".toList, .problem "edge".toList 2 2), ("e 1 2".toList, .edge 1 2),
    ("e 2 1".toList, .edge 2 1)]
  spelled := by
    refine List.forall_mem_cons.mpr ⟨⟨And.intro (by decide) (by decide), by decide⟩, ?_⟩
    refine List.forall_mem_cons.mpr ⟨⟨And.intro (by decide) (by decide), by decide⟩, ?_⟩
    exact List.forall_mem_singleton.mpr ⟨And.intro (by decide) (by decide), by decide⟩
  inRange := by decide

/-- The script makes two new vertices, the program one. -/
theorem sameSubdivision_bothWays : ¬SameSubdivision bothWays.text := by
  rintro ⟨g, n, edges, hg, hr, hn, -⟩
  have hg' : ( GraphIO.loadDimacs bothWays.text).map (fun g => g.subdivided.n) = .ok 3 := by decide +kernel
  have hr' : loadDimacs bothWays.text = .ok (2, [(0, 1), (1, 0)]) := by decide +kernel
  rw [hg] at hg'
  rw [hr] at hr'
  cases hr'
  have hthree : g.subdivided.n = 3 := Except.ok.inj hg'
  rw [hthree] at hn
  exact absurd hn (by decide)

end Dialysis.GroundTruth
