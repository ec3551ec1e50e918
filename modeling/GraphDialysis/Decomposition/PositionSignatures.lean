import GraphDialysis.Ahu.SubtreeStrings
import GraphDialysis.Content.Content
import GraphDialysis.Decomposition.Peel
import GraphDialysis.Lib.ParentTree

/-! `positionSignatures`: the parent pointers of a quotient piece are made into a graph of their own, which
    is a tree whatever else joins the vertices in `g` (`treeOnlyGraph_isTree`), and its subtrees are
    the labels of the tree vertices; an orphan has the labels of those it is attached to. Every
    vertex of the pieces gets a signature, unless the pool refuses a string
    (`positionSignatures_outcome`). -/

namespace Dialysis
open Lib Ahu

/-- `getValue` of a map. -/
def getValue {α : Type} (entry : Option α) (key : String) : Except String α :=
  match entry with
  | some a => .ok a
  | none => .error ("Key " ++ key ++ " is missing in the map.")

/-! ### Part 4.1 -/

/-- `(|P|, |E(P)|, sorted degree sequence of P, sorted boundary colours)`. -/
def pieceKey {g : Graph} (pieceVertices : VertexList g.n) (colouring : Fin g.n → Content) : Content :=
  let degrees := pieceVertices.1.map fun v => ((g.adj v).filter (· ∈ pieceVertices.1)).length
  let boundaryColours :=
    (pieceVertices.1.filter fun v => (g.adj v).any (· ∉ pieceVertices.1)).map colouring
  .tup [.num pieceVertices.1.length, .num (degrees.sum / 2 : ℕ),
    .mset ((degrees.insertionSort (· ≤ ·)).map fun it => .num it),
    .mset (sortOn Content.canon boundaryColours)]

structure PositionSignature where
  pieceKey : Content
  ahuOrAttachmentLabel : KString
  depth : ℤ
  kind : KString

/-! ### The graph of the parent pointers -/

section
variable {n : ℕ} (tree : VertexList n) (parent : Fin n → Option (Fin n))

/-- The edge of the tree vertex `lv` to its parent, in local ids. -/
def addParentEdge (edges : List (Fin tree.1.length × Fin tree.1.length)) (lv : Fin tree.1.length) :
    Except String (List (Fin tree.1.length × Fin tree.1.length)) :=
  match parent (tree.1.get lv) with
  | none => .ok edges
  | some p =>
    (getValue (Graph.oldToNew tree p) (toString p)).bind fun lp => .ok (edges ++ [(lv, lp)])

/-- The loop over the tree vertices. -/
def treeEdges : Except String (List (Fin tree.1.length × Fin tree.1.length)) :=
  (List.finRange tree.1.length).foldlM (addParentEdge tree parent) []

end

/-- The graph on `k` vertices with the given edges in its buckets. -/
def treeOnlyGraph (k : ℕ) (edges : List (Fin k × Fin k)) : Graph where
  n := k
  adj := fun i => (edges.flatMap fun e =>
    (if e.1 = i then [e.2] else []) ++ if e.2 = i then [e.1] else []).dedup.insertionSort (· ≤ ·)
  names := fun i => toString i

/-! ### Signatures -/

/-- `sig`, with the pool of the thread. -/
structure Signatures (n : ℕ) where
  sig : Fin n → Option PositionSignature
  pool : InternPool

def uniformColours {k : ℕ} : Fin k → Option KString := fun _ => some ['u']

/-- `attachLabels.toString()`. -/
def listToString (l : List KString) : KString := '[' :: (l.intersperse [',', ' ']).flatten ++ [']']

section
variable {g : Graph} {k : ℕ} (key : Content) (ahu : ColoredAHUResult k) (pool : InternPool)

def signTreeVertex (depthOf : Fin g.n → Option ℤ) (old : Fin k → Fin g.n)
    (sig : Fin g.n → Option PositionSignature) (v : Fin k) :
    Except String (Fin g.n → Option PositionSignature) :=
  (ahu.subtreeCanonicalString pool v).bind fun label =>
    (getValue (depthOf (old v)) (toString (old v))).bind fun depth =>
      .ok (Function.update sig (old v) (some ⟨key, label, depth, "TREE".toList⟩))

def signOrphan (oldToNewTree : Fin g.n → Option (Fin k)) (sig : Fin g.n → Option PositionSignature)
    (o : Fin g.n) : Except String (Fin g.n → Option PositionSignature) :=
  (((g.adj o).filterMap oldToNewTree).mapM (ahu.subtreeCanonicalString pool)).bind fun attachLabels =>
    .ok (Function.update sig o
      (some ⟨key, listToString (sortStrings attachLabels), -1, "ORPHAN".toList⟩))

end

section
variable {g : Graph} (colouring : Fin g.n → Content)

/-- A QUOTIENT piece. -/
def signQuotient (key : Content) (q : QuotientTree g.n) (s : Signatures g.n) :
    Except String (Signatures g.n) :=
  (treeEdges q.tree q.parent).bind fun edges =>
    (getValue (Graph.oldToNew q.tree q.root) (toString q.root)).bind fun root =>
      (compute (treeOnlyGraph q.tree.1.length edges) uniformColours root s.pool).bind fun ahu =>
        ((List.finRange q.tree.1.length).foldlM
          (signTreeVertex key ahu.1 ahu.2 q.depthOf q.tree.1.get) s.sig).bind fun sig =>
          (q.orphans.foldlM (signOrphan key ahu.1 ahu.2 (Graph.oldToNew q.tree)) sig).bind fun sig =>
            .ok ⟨sig, ahu.2⟩

def signPiece (s : Signatures g.n) (piece : Piece g.n) : Except String (Signatures g.n) :=
  let key := pieceKey piece.vertices colouring
  match piece with
  | .base vertices => .ok { s with
      sig := fun v => if v ∈ vertices.1 then some ⟨key, [], -1, "BASE".toList⟩ else s.sig v }
  | .quotient _ fields => signQuotient key fields s

/-- `positionSignatures`. -/
def positionSignatures (pieces : List (Piece g.n)) (pool : InternPool) :
    Except String (Signatures g.n) :=
  pieces.foldlM (signPiece colouring) ⟨fun _ => none, pool⟩

end

/-! ### The tree -/

section
variable {k : ℕ} {edges : List (Fin k × Fin k)} {i j : Fin k}

theorem mem_treeOnlyGraph :
    j ∈ (treeOnlyGraph k edges).adj i ↔ (i, j) ∈ edges ∨ (j, i) ∈ edges := by
  change j ∈ List.insertionSort _ _ ↔ _
  rw [List.mem_insertionSort, List.mem_dedup, List.mem_flatMap]
  constructor
  · rintro ⟨e, he, hj⟩
    rcases List.mem_append.mp hj with hj | hj
    · split at hj
      · rename_i hi
        rw [← hi, List.mem_singleton.mp hj]
        exact Or.inl he
      · cases hj
    · split at hj
      · rename_i hi
        rw [← hi, List.mem_singleton.mp hj]
        exact Or.inr he
      · cases hj
  · rintro (he | he)
    · exact ⟨_, he, List.mem_append_left _ (by rw [if_pos rfl]; exact List.mem_singleton_self _)⟩
    · exact ⟨_, he, List.mem_append_right _ (by rw [if_pos rfl]; exact List.mem_singleton_self _)⟩

theorem treeOnlyGraph_simple (h : ∀ e ∈ edges, e.1 ≠ e.2) : (treeOnlyGraph k edges).Simple where
  sorted := fun i => sorted_lt_insertionSort (List.nodup_dedup _)
  symm := fun hij => mem_treeOnlyGraph.mpr (mem_treeOnlyGraph.mp hij).symm
  irrefl := fun i hi => by
    rcases mem_treeOnlyGraph.mp hi with he | he
    · exact h _ he rfl
    · exact h _ he rfl

end

/-- Along parent pointers a graph is levelled as `ColoredAHU` wants its trees. -/
theorem rootedTree_of_isParentGraph {t : Graph} [t.Simple] {parent : Fin t.n → Option (Fin t.n)}
    {depth : Fin t.n → ℕ} {root : Fin t.n} (h : IsParentGraph t.simpleGraph parent depth root)
    (hroot : parent root = none) : RootedTree t root depth := by
  have hadj : ∀ {v w}, w ∈ t.adj v → parent v = some w ∨ parent w = some v := fun {v w} => (h.adj v w).mp
  have hup : ∀ {v w}, w ∈ t.adj v → depth v = depth w + 1 → parent v = some w := by
    intro v w hw hd
    refine (hadj hw).resolve_right fun hp => ?_
    have := h.depth w v hp
    omega
  refine ⟨fun {v w} hw => ?_, fun {v w w'} hw hw' hd hd' => ?_, fun {w} hw => ?_⟩
  · rcases hadj hw with hp | hp
    · exact Or.inr (h.depth v w hp)
    · exact Or.inl (h.depth w v hp)
  · exact Option.some.inj ((hup hw hd).symm.trans (hup hw' hd'))
  · rcases hadj hw with hp | hp
    · rw [hroot] at hp
      cases hp
    · exact h.depth w root hp

theorem descends_of_isParentGraph {t : Graph} [t.Simple] {parent : Fin t.n → Option (Fin t.n)}
    {depth : Fin t.n → ℕ} {root : Fin t.n} (h : IsParentGraph t.simpleGraph parent depth root) :
    ∀ (d : ℕ) (v : Fin t.n), depth v = d → Descends t depth root v := by
  intro d
  induction d with
  | zero =>
    intro v hv
    by_cases heq : v = root
    · rw [heq]
      exact .refl
    · obtain ⟨p, hp⟩ := h.parent v heq
      have := h.depth v p hp
      omega
  | succ d ih =>
    intro v hv
    by_cases heq : v = root
    · rw [heq]
      exact .refl
    · obtain ⟨p, hp⟩ := h.parent v heq
      have hd := h.depth v p hp
      exact (ih p (by omega)).tail (mem_children.mpr ⟨(h.adj p v).mpr (Or.inr hp), hd⟩)

section
variable {n : ℕ} (tree : VertexList n) (parent : Fin n → Option (Fin n)) (depthOf : Fin n → Option ℤ)

/-- The parent of a tree vertex in local ids. -/
def localParent (i : Fin tree.1.length) : Option (Fin tree.1.length) :=
  (parent (tree.1.get i)).bind (Graph.oldToNew tree)

def localDepth (i : Fin tree.1.length) : ℕ := ((depthOf (tree.1.get i)).getD 0).toNat

end

section
variable {n : ℕ} {tree : VertexList n} {parent : Fin n → Option (Fin n)} {depthOf : Fin n → Option ℤ}

theorem oldToNew_of_mem {v : Fin n} (hv : v ∈ tree.1) : ∃ i, Graph.oldToNew tree v = some i ∧
    tree.1.get i = v := by
  obtain ⟨i, rfl⟩ := List.get_of_mem hv
  exact ⟨i, Graph.oldToNew_get tree i, rfl⟩

/-- The edges are the parent pointers; none leads out of the tree, so nothing is missing in the map. -/
theorem treeEdges_ok (h : ∀ v p, parent v = some p → p ∈ tree.1) :
    ∃ edges, treeEdges tree parent = .ok edges ∧
      ∀ i j, (i, j) ∈ edges ↔ localParent tree parent i = some j := by
  obtain ⟨edges, hrun, hedges⟩ := foldlM_ok (f := addParentEdge tree parent)
    (P := fun done edges => ∀ i j, (i, j) ∈ edges ↔ i ∈ done ∧ localParent tree parent i = some j)
    (fun done lv edges _ hedges => by
      have hmem : ∀ i j, (i, j) ∈ edges ∨ i = lv ∧ localParent tree parent i = some j ↔
          i ∈ done ++ [lv] ∧ localParent tree parent i = some j := by
        intro i j
        rw [hedges, List.mem_append, List.mem_singleton, or_and_right]
      rw [addParentEdge]
      cases hp : parent (tree.1.get lv) with
      | none =>
        refine ⟨edges, rfl, fun i j => ?_⟩
        rw [← hmem, or_iff_left]
        rintro ⟨rfl, hj⟩
        rw [localParent, hp] at hj
        cases hj
      | some p =>
        obtain ⟨lp, hlp, -⟩ := oldToNew_of_mem (h _ p hp)
        refine ⟨edges ++ [(lv, lp)], ?_, fun i j => ?_⟩
        · dsimp only
          rw [hlp]
          rfl
        · rw [← hmem, List.mem_append, List.mem_singleton, Prod.mk.injEq]
          refine or_congr_right (and_congr_right ?_)
          rintro rfl
          rw [localParent, hp, Option.bind_some, hlp, Option.some.injEq, eq_comm])
    (List.finRange tree.1.length) [] [] (fun _ hv => hv) (by simp)
  refine ⟨edges, hrun, fun i j => ?_⟩
  rw [hedges, List.nil_append, and_iff_right (List.mem_finRange i)]

end

variable {g : Graph} {vertices : VertexList g.n} {q : QuotientTree g.n}

theorem localParent_iff {i j : Fin q.tree.1.length} :
    localParent q.tree q.parent i = some j ↔ q.parent (q.tree.1.get i) = some (q.tree.1.get j) := by
  rw [localParent, Option.bind_eq_some_iff]
  constructor
  · rintro ⟨p, hp, hj⟩
    rw [hp, Graph.oldToNew_eq_some.mp hj]
  · exact fun hp => ⟨_, hp, Graph.oldToNew_get q.tree j⟩

theorem localDepth_eq {i : Fin q.tree.1.length} {d : ℕ}
    (hd : q.depthOf (q.tree.1.get i) = some (d : ℤ)) : localDepth q.tree q.depthOf i = d := by
  rw [localDepth, hd, Option.getD_some, Int.toNat_natCast]

/-- The graph handed to `ColoredAHU`. -/
theorem IsQuotient.isParentGraph (h : IsQuotient g vertices q) :
    ∃ edges root, treeEdges q.tree q.parent = .ok edges ∧
      Graph.oldToNew q.tree q.root = some root ∧
      ∃ _ : (treeOnlyGraph q.tree.1.length edges).Simple,
        IsParentGraph (treeOnlyGraph q.tree.1.length edges).simpleGraph (localParent q.tree q.parent)
          (localDepth q.tree q.depthOf) root ∧ localParent q.tree q.parent root = none := by
  obtain ⟨edges, hrun, hedges⟩ := treeEdges_ok fun v p hp => (h.parent v p hp).2.1
  obtain ⟨root, hroot, hget⟩ := oldToNew_of_mem h.root_mem
  have hdepth : ∀ i j, localParent q.tree q.parent i = some j →
      localDepth q.tree q.depthOf i = localDepth q.tree q.depthOf j + 1 := by
    intro i j hij
    obtain ⟨-, -, -, d, hdp, hdv⟩ := h.parent _ _ (localParent_iff.mp hij)
    rw [localDepth_eq hdp, localDepth_eq (d := d + 1) (by rw [hdv, Nat.cast_succ])]
  refine ⟨edges, root, hrun, hroot, treeOnlyGraph_simple ?_, ⟨?_, hdepth, ?_⟩, ?_⟩
  · rintro ⟨i, j⟩ he heq
    obtain rfl : i = j := heq
    have := hdepth i i ((hedges i i).mp he)
    omega
  · exact fun i j => mem_treeOnlyGraph.trans (or_congr (hedges i j) (hedges j i))
  · intro i hne
    have hne' : q.tree.1.get i ≠ q.root := by
      intro heq
      rw [← hget] at heq
      exact hne (q.tree.2.injective_get heq)
    obtain ⟨p, hp⟩ := h.exists_parent _ (List.get_mem _ i) hne'
    obtain ⟨j, -, rfl⟩ := oldToNew_of_mem (h.parent _ p hp).2.1
    exact ⟨j, localParent_iff.mpr hp⟩
  · rw [localParent, hget, h.root_parent, Option.bind_none]

/-! ### Every vertex is signed -/

section
variable {k : ℕ} {key : Content} {ahu : ColoredAHUResult k} {pool : InternPool}
  {sig : Fin g.n → Option PositionSignature}

theorem signTreeVertex_ok {depthOf : Fin g.n → Option ℤ} {old : Fin k → Fin g.n} {v : Fin k}
    {label : KString} {d : ℤ} (hlabel : ahu.subtreeCanonicalString pool v = .ok label)
    (hd : depthOf (old v) = some d) : signTreeVertex key ahu pool depthOf old sig v =
      .ok (Function.update sig (old v) (some ⟨key, label, d, "TREE".toList⟩)) := by
  rw [signTreeVertex, hlabel, hd]
  rfl

theorem signOrphan_ok {oldToNewTree : Fin g.n → Option (Fin k)} {o : Fin g.n}
    (h : ∀ v, ∃ label, ahu.subtreeCanonicalString pool v = .ok label) :
    ∃ s, signOrphan key ahu pool oldToNewTree sig o = .ok (Function.update sig o (some s)) := by
  obtain ⟨labels, hlabels⟩ := mapM_ok (f := ahu.subtreeCanonicalString pool)
    (l := (g.adj o).filterMap oldToNewTree) fun v _ => h v
  refine ⟨⟨key, listToString (sortStrings labels), -1, "ORPHAN".toList⟩, ?_⟩
  rw [signOrphan, hlabels]
  rfl

end

section
variable {colouring : Fin g.n → Content}

/-- A quotient piece is signed, unless the pool refuses a string of its tree. -/
theorem signQuotient_outcome (h : IsQuotient g vertices q) (key : Content) (s : Signatures g.n) :
    Outcome (fun s' : Signatures g.n => Keeps s.sig s'.sig ∧ ∀ v ∈ vertices.1, (s'.sig v).isSome)
      SizeError (signQuotient key q s) := by
  obtain ⟨edges, root, hedges, hroot, hsimple, htree, hnone⟩ := h.isParentGraph
  have hrooted := rootedTree_of_isParentGraph htree hnone
  rw [signQuotient, hedges, hroot]
  refine (compute_outcome hrooted s.pool).bind fun ahu hahu => ?_
  have hstring : ∀ v : Fin q.tree.1.length, ∃ label, ahu.1.subtreeCanonicalString ahu.2 v = .ok label :=
    fun v => ⟨_, hahu.subtreeCanonicalString (descends_of_isParentGraph htree _ v rfl)⟩
  obtain ⟨sig₁, hrun₁, hkeeps₁, hsigned₁⟩ := foldlM_fills (l := List.finRange q.tree.1.length)
    (f := signTreeVertex key ahu.1 ahu.2 q.depthOf q.tree.1.get) (k := q.tree.1.get)
    (fun sig v _ => by
      obtain ⟨label, hlabel⟩ := hstring v
      obtain ⟨d, hd⟩ := (h.depthOf _).mp (List.get_mem q.tree.1 v)
      exact ⟨_, signTreeVertex_ok hlabel hd⟩) s.sig
  obtain ⟨sig₂, hrun₂, hkeeps₂, hsigned₂⟩ := foldlM_fills (l := q.orphans)
    (f := signOrphan key ahu.1 ahu.2 (Graph.oldToNew q.tree)) (k := fun o => o)
    (fun sig o _ => signOrphan_ok hstring) sig₁
  rw [hrun₁]
  dsimp only [Except.bind]
  rw [hrun₂]
  refine ⟨hkeeps₁.trans hkeeps₂, fun v hv => ?_⟩
  rw [h.vertices, List.mem_append] at hv
  rcases hv with hv | hv
  · obtain ⟨i, rfl⟩ := List.get_of_mem hv
    exact hkeeps₂ _ (hsigned₁ i (List.mem_finRange i))
  · exact hsigned₂ v hv

theorem signPiece_outcome {piece : Piece g.n}
    (hpiece : ∀ vertices fields, piece = .quotient vertices fields → IsQuotient g vertices fields)
    (s : Signatures g.n) : Outcome (fun s' : Signatures g.n => Keeps s.sig s'.sig ∧
      ∀ v ∈ piece.vertices.1, (s'.sig v).isSome) SizeError (signPiece colouring s piece) := by
  cases piece with
  | base vertices =>
    refine ⟨fun v hv => ?_, fun v hv => ?_⟩
    · dsimp only
      split
      · rfl
      · exact hv
    · exact congrArg Option.isSome (if_pos hv)
  | quotient vertices fields => exact signQuotient_outcome (hpiece vertices fields rfl) _ s

/-- Every vertex of the pieces has a signature, unless the pool has refused a string. -/
theorem positionSignatures_outcome {pieces : List (Piece g.n)}
    (hpieces : ∀ vertices fields, .quotient vertices fields ∈ pieces → IsQuotient g vertices fields)
    (pool : InternPool) : Outcome (fun s : Signatures g.n => ∀ piece ∈ pieces, ∀ v ∈ piece.vertices.1,
      (s.sig v).isSome) SizeError (positionSignatures colouring pieces pool) := by
  have hloop := Outcome.foldlM (f := signPiece colouring) (E := SizeError)
    (I := fun done (s : Signatures g.n) => ∀ piece ∈ done, ∀ v ∈ piece.vertices.1, (s.sig v).isSome)
    (fun done piece s hpiece hs => by
      refine (signPiece_outcome (fun vertices fields heq => hpieces vertices fields (heq ▸ hpiece)) s).imp ?_
      rintro s' ⟨hkeeps, hsigned⟩ p hp v hv
      rcases List.mem_append.mp hp with hp | hp
      · exact hkeeps v (hs p hp v hv)
      · rw [List.mem_singleton.mp hp] at hv
        exact hsigned v hv)
    pieces [] ⟨fun _ => none, pool⟩ (fun _ hp => hp) (by simp)
  rwa [List.nil_append] at hloop

end

end Dialysis
