import GraphDialysis.Decomposition.PositionSignatures
import GraphDialysis.Decomposition.WideTree
import GraphDialysis.Graph.Subdivision

/-! `decomposeWithRoot`: the vertices of each quotient piece are peeled again, with their signatures added
    to the colours, until only base pieces are left or `maxDepth` is reached. The root is forced for
    the set of all vertices only. Every original vertex comes away with a key, unless the pool has
    refused a string (`decomposeWithRoot_outcome`). -/

namespace Dialysis.Experimental
open Lib Ahu

/-- The graph that is decomposed. -/
def decompositionGraphFor (g : Graph) : Graph := g.subdivided

def signatureContent (s : PositionSignature) : Content :=
  .tup [s.pieceKey, .str s.ahuOrAttachmentLabel, .num s.depth, .str s.kind]

/-- `finalContent`, with the pool of the thread. -/
structure FinalContent (n : ℕ) where
  content : Fin n → Option Content
  pool : InternPool

section
variable {n : ℕ} {dg : Graph} [dg.Simple]

/-- `if (v < g.n) finalContent[v] = ...`. -/
def assign (content : Fin n → Option Content) (v : Fin dg.n) (c : Content) : Fin n → Option Content :=
  if h : v.1 < n then Function.update content ⟨v.1, h⟩ (some c) else content

/-- The forced root where there is one and the subgraph is the whole set. -/
def rootRuleFor {verts : VertexList dg.n} (forcedRoot : Option (Fin verts.1.length)) : RootRule :=
  fun sub restricted h =>
    match forcedRoot with
    | some r =>
      if hn : verts.1.length = sub.n then r.cast hn else defaultRootRule sub restricted h
    | none => defaultRootRule sub restricted h

/-- A colour with the signature added to it. -/
def withSignature (dgColouring : Fin dg.n → Content) (sig : Fin dg.n → Option PositionSignature)
    (v : Fin dg.n) : Except String Content :=
  (getValue (sig v) (toString v)).bind fun s => .ok (.tup [dgColouring v, signatureContent s])

def assignBase (dgColouring : Fin dg.n → Content) (sig : Fin dg.n → Option PositionSignature)
    (content : Fin n → Option Content) (v : Fin dg.n) : Except String (Fin n → Option Content) :=
  if v.1 < n then
    (withSignature dgColouring sig v).bind fun c => .ok (assign content v c)
  else .ok content

def enrich (dgColouring : Fin dg.n → Content) (sig : Fin dg.n → Option PositionSignature)
    (enriched : Fin dg.n → Content) (v : Fin dg.n) : Except String (Fin dg.n → Content) :=
  (withSignature dgColouring sig v).bind fun c => .ok (Function.update enriched v c)

/-- `recurse`, with `maxDepth - depth` levels left. -/
def recurse : ℕ → (verts : VertexList dg.n) → Option (Fin verts.1.length) → (Fin dg.n → Content) →
    FinalContent n → Except String (FinalContent n)
  | 0, verts, _, dgColouring, s =>
    .ok { s with content := verts.1.foldl (fun content v => assign content v (dgColouring v)) s.content }
  | left + 1, verts, forcedRoot, dgColouring, s =>
    let pieces := peel dgColouring (rootRuleFor forcedRoot) verts
    (positionSignatures dgColouring pieces s.pool).bind fun signed =>
      pieces.foldlM (fun s piece =>
        match piece with
        | .base vertices =>
          (vertices.1.foldlM (assignBase dgColouring signed.sig) s.content).bind fun content =>
            .ok { s with content := content }
        | .quotient vertices _ =>
          (vertices.1.foldlM (enrich dgColouring signed.sig) dgColouring).bind fun enriched =>
            recurse left vertices none enriched s) ⟨s.content, signed.pool⟩

end

/-- The colours of the original vertices, and one colour for the others. -/
def dgColouringOf {n : ℕ} (dg : Graph) (colouring : Fin n → Content) (v : Fin dg.n) : Content :=
  if h : v.1 < n then colouring ⟨v.1, h⟩ else .str "SUBDIV_EDGE".toList

/-- `decomposeWithRoot`. -/
def decomposeWithRoot (g dg : Graph) [dg.Simple] (root : Fin dg.n) (colouring : Fin g.n → Content)
    (maxDepth : ℕ) (pool : InternPool) : Except String (FinalContent g.n) :=
  recurse maxDepth (allVertices dg.n) (some (root.cast List.length_finRange.symm))
    (dgColouringOf dg colouring) ⟨fun _ => none, pool⟩

/-! ### Every vertex has a key -/

section
variable {n : ℕ} {dg : Graph} {content : Fin n → Option Content}

theorem keeps_assign {v : Fin dg.n} {c : Content} : Keeps content (assign content v c) := by
  rw [assign]
  split
  · exact keeps_update
  · exact Keeps.refl _

theorem assign_isSome {v : Fin dg.n} {c : Content} (h : v.1 < n) :
    (assign content v c ⟨v.1, h⟩).isSome := by
  rw [assign, dif_pos h, Function.update_self]
  rfl

/-- All original vertices among these have a key. -/
def Keyed (content : Fin n → Option Content) (l : List (Fin dg.n)) : Prop :=
  ∀ v ∈ l, ∀ h : v.1 < n, (content ⟨v.1, h⟩).isSome

theorem Keyed.mono {content' : Fin n → Option Content} {l : List (Fin dg.n)} (h : Keyed content l)
    (hkeeps : Keeps content content') : Keyed content' l := fun v hv hn => hkeeps _ (h v hv hn)

theorem keyed_append {l l' : List (Fin dg.n)} (h : Keyed content l) (h' : Keyed content l') :
    Keyed content (l ++ l') := fun v hv => (List.mem_append.mp hv).elim (h v) (h' v)

/-- Where the depth is used up the colours are the keys. -/
theorem foldl_assign (dgColouring : Fin dg.n → Content) : ∀ (l : List (Fin dg.n))
    (content : Fin n → Option Content),
    Keeps content (l.foldl (fun content v => assign content v (dgColouring v)) content) ∧
      Keyed (l.foldl (fun content v => assign content v (dgColouring v)) content) l
  | [], content => ⟨Keeps.refl _, fun v hv => by cases hv⟩
  | v :: l, content => by
    obtain ⟨hkeeps, hkeyed⟩ := foldl_assign dgColouring l (assign content v (dgColouring v))
    refine ⟨keeps_assign.trans hkeeps, fun w hw hn => ?_⟩
    rcases List.mem_cons.mp hw with rfl | hw
    · exact hkeeps _ (assign_isSome hn)
    · exact hkeyed w hw hn

variable {dgColouring : Fin dg.n → Content} {sig : Fin dg.n → Option PositionSignature}

theorem withSignature_ok {v : Fin dg.n} (h : (sig v).isSome) :
    ∃ c, withSignature dgColouring sig v = .ok c := by
  obtain ⟨s, hs⟩ := Option.isSome_iff_exists.mp h
  exact ⟨.tup [dgColouring v, signatureContent s], by rw [withSignature, hs]; rfl⟩

/-- Every vertex of a base piece gets its key. -/
theorem foldlM_assignBase : ∀ {l : List (Fin dg.n)} {content : Fin n → Option Content},
    (∀ v ∈ l, (sig v).isSome) → ∃ content', l.foldlM (assignBase dgColouring sig) content = .ok content' ∧
      Keeps content content' ∧ Keyed content' l
  | [], content, _ => ⟨content, rfl, Keeps.refl _, fun v hv => by cases hv⟩
  | v :: l, content, h => by
    obtain ⟨c, hc⟩ := withSignature_ok (h v List.mem_cons_self)
    have hstep : ∃ content₁, assignBase dgColouring sig content v = .ok content₁ ∧
        Keeps content content₁ ∧ ∀ hn : v.1 < n, (content₁ ⟨v.1, hn⟩).isSome := by
      rw [assignBase]
      split
      · exact ⟨_, by rw [hc]; rfl, keeps_assign, fun hn => assign_isSome hn⟩
      · rename_i hn
        exact ⟨content, rfl, Keeps.refl _, fun hn' => absurd hn' hn⟩
    obtain ⟨content₁, hrun₁, hkeeps₁, hkey₁⟩ := hstep
    obtain ⟨content', hrun, hkeeps, hkeyed⟩ := foldlM_assignBase (l := l)
      fun w hw => h w (List.mem_cons_of_mem _ hw)
    refine ⟨content', ?_, hkeeps₁.trans hkeeps, fun w hw hn => ?_⟩
    · rw [List.foldlM_cons, hrun₁]
      exact hrun
    · rcases List.mem_cons.mp hw with rfl | hw
      · exact hkeeps _ (hkey₁ hn)
      · exact hkeyed w hw hn

theorem foldlM_enrich : ∀ {l : List (Fin dg.n)} {enriched : Fin dg.n → Content},
    (∀ v ∈ l, (sig v).isSome) → ∃ enriched', l.foldlM (enrich dgColouring sig) enriched = .ok enriched'
  | [], enriched, _ => ⟨enriched, rfl⟩
  | v :: l, enriched, h => by
    obtain ⟨c, hc⟩ := withSignature_ok (h v List.mem_cons_self)
    obtain ⟨enriched', hrun⟩ := foldlM_enrich (l := l)
      fun w hw => h w (List.mem_cons_of_mem _ hw)
    refine ⟨enriched', ?_⟩
    rw [List.foldlM_cons, enrich, hc]
    exact hrun

variable [dg.Simple]

/-- However many levels are left, and whatever the colours are by then. -/
theorem recurse_outcome : ∀ (left : ℕ) (verts : VertexList dg.n) (forcedRoot : Option (Fin verts.1.length))
    (dgColouring : Fin dg.n → Content) (s : FinalContent n),
    Outcome (fun r : FinalContent n => Keeps s.content r.content ∧ Keyed r.content verts.1) SizeError
      (recurse left verts forcedRoot dgColouring s) := by
  intro left
  induction left with
  | zero =>
    intro verts forcedRoot dgColouring s
    exact foldl_assign dgColouring verts.1 s.content
  | succ left ih =>
    intro verts forcedRoot dgColouring s
    have hpieces : ∀ vertices fields, .quotient vertices fields ∈
        peel dgColouring (rootRuleFor forcedRoot) verts → IsQuotient dg vertices fields :=
      fun _ _ => peel_isQuotient verts
    have hperm : ((peel dgColouring (rootRuleFor forcedRoot) verts).flatMap fun piece =>
        piece.vertices.1).Perm verts.1 := peel_perm verts
    rw [recurse]
    refine (positionSignatures_outcome hpieces s.pool).bind fun signed hsigned => ?_
    refine (Outcome.foldlM
      (I := fun done (t : FinalContent n) => Keeps s.content t.content ∧
        Keyed t.content (done.flatMap fun piece => piece.vertices.1)) ?_ _ [] ⟨s.content, signed.pool⟩
      (fun _ hp => hp) ⟨Keeps.refl _, fun v hv => by cases hv⟩).imp ?_
    · rintro done piece t hpiece ⟨hkeeps, hkeyed⟩
      -- what is left to show of the piece, however it is handled
      have hstep : ∀ t' : FinalContent n, Keeps t.content t'.content ∧ Keyed t'.content piece.vertices.1 →
          Keeps s.content t'.content ∧
            Keyed t'.content ((done ++ [piece]).flatMap fun piece => piece.vertices.1) := by
        rintro t' ⟨hkeeps', hkeyed'⟩
        rw [List.flatMap_append, List.flatMap_singleton]
        exact ⟨hkeeps.trans hkeeps', keyed_append (hkeyed.mono hkeeps') hkeyed'⟩
      cases piece with
      | base vertices =>
        have hsig : ∀ v ∈ vertices.1, (signed.sig v).isSome := hsigned _ hpiece
        obtain ⟨content', hrun, hboth⟩ := foldlM_assignBase hsig
        dsimp only
        rw [hrun]
        exact hstep ⟨content', t.pool⟩ hboth
      | quotient vertices fields =>
        have hsig : ∀ v ∈ vertices.1, (signed.sig v).isSome := hsigned _ hpiece
        obtain ⟨enriched, hrun⟩ := foldlM_enrich hsig
        dsimp only
        rw [hrun]
        exact (ih vertices none enriched t).imp hstep
    · rintro r ⟨hkeeps, hkeyed⟩
      exact ⟨hkeeps, fun v hv => hkeyed v (hperm.mem_iff.mpr hv)⟩

end

/-- Every original vertex has a key, unless the pool has refused a string. -/
theorem decomposeWithRoot_outcome (g dg : Graph) [dg.Simple] (hle : g.n ≤ dg.n) (root : Fin dg.n)
    (colouring : Fin g.n → Content) (maxDepth : ℕ) (pool : InternPool) :
    Outcome (fun r : FinalContent g.n => ∀ v, (r.content v).isSome) SizeError
      (decomposeWithRoot g dg root colouring maxDepth pool) := by
  refine (recurse_outcome maxDepth (allVertices dg.n) _ _ _).imp fun r hr v => ?_
  exact hr.2 (v.castLE hle) (List.mem_finRange _) v.2

/-- The pieces hold every vertex of the set once. The parents in a quotient piece lead to its root, one
    step up at a time, and the graph made of them is a tree. Every vertex of the set has a signature
    and every original vertex a key, unless the pool has refused a string. -/
theorem peel_spec (g : Graph) [g.Simple] (colouring : Fin g.n → Content) (rootRule : RootRule)
    (x : VertexList g.n) (pool : InternPool) :
    ((peel colouring rootRule x).flatMap fun piece => piece.vertices.1).Perm x.1 ∧
    (∀ vertices fields, .quotient vertices fields ∈ peel colouring rootRule x →
      IsQuotient g vertices fields ∧ ∃ edges root, treeEdges fields.tree fields.parent = .ok edges ∧
        Graph.oldToNew fields.tree fields.root = some root ∧
        ∃ _ : (treeOnlyGraph fields.tree.1.length edges).Simple,
          (treeOnlyGraph fields.tree.1.length edges).simpleGraph.IsTree) ∧
    Outcome (fun s : Signatures g.n => ∀ v ∈ x.1, (s.sig v).isSome) SizeError
      (positionSignatures colouring (peel colouring rootRule x) pool) ∧
    ∀ (dg : Graph) [dg.Simple], g.n ≤ dg.n → ∀ (root : Fin dg.n) (maxDepth : ℕ),
      Outcome (fun r : FinalContent g.n => ∀ v, (r.content v).isSome) SizeError
        (decomposeWithRoot g dg root colouring maxDepth pool) := by
  have hperm : ((peel colouring rootRule x).flatMap fun piece => piece.vertices.1).Perm x.1 := peel_perm x
  have hpieces : ∀ vertices fields, .quotient vertices fields ∈ peel colouring rootRule x →
      IsQuotient g vertices fields := fun _ _ => peel_isQuotient x
  refine ⟨hperm, fun vertices fields hmem => ⟨hpieces vertices fields hmem, ?_⟩, ?_, ?_⟩
  · obtain ⟨edges, root, hedges, hroot, hsimple, htree, -⟩ := (hpieces vertices fields hmem).isParentGraph
    exact ⟨edges, root, hedges, hroot, hsimple, htree.isTree⟩
  · refine (positionSignatures_outcome hpieces pool).imp fun s hs v hv => ?_
    obtain ⟨piece, hpiece, hv⟩ := List.mem_flatMap.mp (hperm.mem_iff.mpr hv)
    exact hs piece hpiece v hv
  · intro dg _ hle root maxDepth
    exact decomposeWithRoot_outcome g dg hle root colouring maxDepth pool

/-- A square with a pendant vertex, peeled from a vertex of the square. -/
theorem peel_spec_square :
    ((peel (g := .ofEdges 5 [(0, 1), (1, 2), (2, 3), (0, 3), (3, 4)]) (fun _ => .num 0) firstVertex
      (allVertices 5)).flatMap fun piece => piece.vertices.1).Perm (List.finRange 5) ∧
    Outcome (fun r : FinalContent 5 => ∀ v, (r.content v).isSome) SizeError
      (decomposeWithRoot (.ofEdges 5 [(0, 1), (1, 2), (2, 3), (0, 3), (3, 4)])
        (.ofEdges 5 [(0, 1), (1, 2), (2, 3), (0, 3), (3, 4)]) (0 : Fin 5) (fun _ => .num 0) 12 .empty) := by
  have h := peel_spec (.ofEdges 5 [(0, 1), (1, 2), (2, 3), (0, 3), (3, 4)]) (fun _ => .num 0) firstVertex
    (allVertices 5) .empty
  exact ⟨h.1, h.2.2.2 _ (le_refl _) _ _⟩

/-- Two hubs that share 64 Mi neighbours are not signed: the string of the root is too long. -/
theorem not_peel_spec : ¬∃ s, positionSignatures (g := twoHubs (2 ^ 26)) (fun _ => .num 0)
    (peel (fun _ => .num 0) firstVertex (allVertices _)) .empty = .ok s ∧
      ∀ v ∈ (allVertices (twoHubs (2 ^ 26)).n).1, (s.sig v).isSome := by
  rintro ⟨s, hs, -⟩
  exact not_signed_twoHubs (by omega) (.num 0) ⟨s, hs⟩

end Dialysis.Experimental
