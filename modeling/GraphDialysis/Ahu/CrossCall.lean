import GraphDialysis.Ahu.ColoredAHU
import GraphDialysis.Ahu.Session
import GraphDialysis.Graph.SimpleGraph
import GraphDialysis.Lib.BracketedCode

/-! Ids across the calls of one thread. A call takes the strings of its tree to the pool, in the form
    `(colour children)` with the text of the colour as it is. Where no text has a parenthesis the form
    is a bracketed code, and ids compare like the coloured subtrees (`vertexIds_eq_iff_isomorphic`);
    a text such as `A(B)` passes for a vertex with a child (`vertexIds_collide`). -/

namespace Dialysis.Ahu
open Lib

/-! ### A thread -/

/-- One call of `compute` on a tree. -/
structure AhuCall where
  g : Graph
  colors : Fin g.n → Option KString
  root : Fin g.n
  [simple : g.Simple]
  tree : g.simpleGraph.IsTree

attribute [instance] AhuCall.simple

/-- The pool after the loop over the vertices, also where a string does not fit. -/
def assignPool {n : ℕ} (keys : List Key) (labels : Fin n → ℤ) : List (Fin n) → Ids n → InternPool
  | [], s => s.pool
  | v :: vs, s =>
    match assignId keys labels s v with
    | .error _ => s.pool
    | .ok s' => assignPool keys labels vs s'

/-- The pool that a call leaves, whether it returns or throws. -/
def poolAfter (c : AhuCall) (pool : InternPool) : InternPool :=
  match computeLabels c.g.toCsr c.colors c.root with
  | none => pool
  | some s => assignPool s.keys s.labels (List.finRange c.g.n) ⟨[], fun _ => none, pool⟩

/-- What the calls of a thread return, one after another on its pool. -/
def threadRun : List AhuCall → InternPool → List ((c : AhuCall) × Except String (ColoredAHUResult c.g.n))
  | [], _ => []
  | c :: cs, pool =>
    ⟨c, (compute c.g c.colors c.root pool).map Prod.fst⟩ :: threadRun cs (poolAfter c pool)

/-- The pool after all of them. -/
def poolEnd (cs : List AhuCall) (pool : InternPool) : InternPool :=
  cs.foldl (fun pool c => poolAfter c pool) pool

section
variable {n : ℕ} {keys : List Key} {labels : Fin n → ℤ}

theorem assignId_pool {s s' : Ids n} {v : Fin n} (h : assignId keys labels s v = .ok s') :
    s.pool.strings <+: s'.pool.strings := by
  unfold assignId at h
  split at h
  · cases h
    exact List.prefix_rfl
  · split at h
    · cases h
      exact List.prefix_rfl
    · obtain ⟨r, hr, h⟩ := bind_ok h
      cases h
      exact (InternPool.intern_spec hr).2.le

theorem assignPool_le : ∀ (vs : List (Fin n)) (s : Ids n),
    s.pool.strings <+: (assignPool keys labels vs s).strings
  | [], _ => List.prefix_rfl
  | v :: vs, s => by
    rw [assignPool]
    split
    · exact List.prefix_rfl
    · rename_i s' hs'
      exact (assignId_pool hs').trans (assignPool_le vs s')

theorem assignPool_eq : ∀ {vs : List (Fin n)} {s s' : Ids n},
    vs.foldlM (assignId keys labels) s = .ok s' → assignPool keys labels vs s = s'.pool
  | [], s, s', h => by
    cases h
    rfl
  | v :: vs, s, s', h => by
    rw [List.foldlM_cons] at h
    obtain ⟨t, ht, h⟩ := bind_ok h
    rw [assignPool, ht]
    exact assignPool_eq h

end

variable {c c' : AhuCall} {pool : InternPool}

/-- Pools only grow. -/
theorem poolAfter_le (c : AhuCall) (pool : InternPool) :
    pool.strings <+: (poolAfter c pool).strings := by
  unfold poolAfter
  split
  · exact List.prefix_rfl
  · exact assignPool_le _ ⟨[], fun _ => none, pool⟩

theorem poolEnd_le : ∀ (cs : List AhuCall) (pool : InternPool),
    pool.strings <+: (poolEnd cs pool).strings
  | [], _ => List.prefix_rfl
  | c :: cs, pool => (poolAfter_le c pool).trans (poolEnd_le cs (poolAfter c pool))

/-- A call that returns leaves the pool of its result. -/
theorem poolAfter_eq {r : ColoredAHUResult c.g.n × InternPool}
    (h : compute c.g c.colors c.root pool = .ok r) : poolAfter c pool = r.2 := by
  unfold compute at h
  unfold poolAfter
  split at h
  · cases h
  · rename_i s hs
    obtain ⟨ids, hids, h⟩ := bind_ok h
    rw [hs]
    dsimp only
    split at h
    · cases h
    · cases h
      exact assignPool_eq hids

/-- A result of the thread comes from a call on a pool that the last one has grown from. -/
theorem mem_threadRun {r : ColoredAHUResult c.g.n} : ∀ {cs : List AhuCall} {pool : InternPool},
    ⟨c, .ok r⟩ ∈ threadRun cs pool → ∃ p p', compute c.g c.colors c.root p = .ok (r, p') ∧
      p'.strings <+: (poolEnd cs pool).strings
  | [], _, h => by cases h
  | c₁ :: cs, pool, h => by
    rw [threadRun] at h
    rcases List.mem_cons.mp h with h | h
    · obtain ⟨rfl, h⟩ := Sigma.mk.inj h
      obtain ⟨⟨r', p'⟩, hr, rfl⟩ := map_ok (eq_of_heq h).symm
      refine ⟨pool, p', hr, ?_⟩
      rw [poolEnd, List.foldl_cons, poolAfter_eq hr]
      exact poolEnd_le cs p'
    · obtain ⟨p, p', hrun, hle⟩ := mem_threadRun h
      exact ⟨p, p', hrun, hle⟩

/-! ### Strings and subtrees -/

theorem AhuCall.adj_iff (c : AhuCall) (v w : Fin c.g.n) :
    w ∈ c.g.adj v ↔ c.g.simpleGraph.Adj v w := Iff.rfl

theorem AhuCall.rooted (c : AhuCall) : RootedTree c.g c.root (c.g.simpleGraph.dist c.root) :=
  rootedTree_of_isTree c.adj_iff c.tree c.root

/-- The tree of a call, hanging from its root. -/
noncomputable def AhuCall.forest (c : AhuCall) : Forest (Fin c.g.n) (Option KString) :=
  c.rooted.forest c.colors

/-- The canonical strings of a call. -/
noncomputable def AhuCall.string (c : AhuCall) : Fin c.g.n → KString :=
  subtreeString c.g (c.g.simpleGraph.dist c.root) c.colors

/-- Colours are not empty, and none is the text reserved for uncoloured vertices. -/
def AhuCall.Admissible (c : AhuCall) : Prop := ∀ v, ∀ s ∈ c.colors v, s ≠ [] ∧ s ≠ ['*']

/-- No colour has a parenthesis. -/
def AhuCall.NoParens (c : AhuCall) : Prop := ∀ v, ∀ s ∈ c.colors v, '(' ∉ s ∧ ')' ∉ s

/-- The form of the canonical strings. -/
def canonicalForm : Bracketing (Option KString) Char where
  opening := '('
  closing := ')'
  ne := by decide
  text := fun color => color.getD ['*']
  sort := sortNative
  perm := fun l => sortOn_perm _ l
  sort_eq := sortNative_eq_of_perm

theorem AhuCall.isCode (c : AhuCall) : canonicalForm.IsCode c.forest c.string := fun v => by
  have h := subtreeString_eq (g := c.g) (d := c.g.simpleGraph.dist c.root) c.colors v
  rw [List.cons_append, List.cons_append, List.append_assoc] at h
  exact h

theorem AhuCall.plain (h : c.NoParens) : canonicalForm.Plain c.forest := fun v x hx => by
  change x ∈ (c.colors v).getD ['*'] at hx
  change x ≠ '(' ∧ x ≠ ')'
  cases hv : c.colors v with
  | none =>
    rw [hv, Option.getD_none, List.mem_singleton] at hx
    exact hx ▸ by decide
  | some s =>
    rw [hv, Option.getD_some] at hx
    obtain ⟨ho, hc⟩ := h v s hv
    exact ⟨fun he => ho (he ▸ hx), fun he => hc (he ▸ hx)⟩

/-- The text tells the colour. -/
theorem text_inj (h : c.Admissible) (h' : c'.Admissible) {u : Fin c.g.n} {v : Fin c'.g.n}
    (ht : (c.colors u).getD ['*'] = (c'.colors v).getD ['*']) : c.colors u = c'.colors v := by
  cases hu : c.colors u with
  | none =>
    cases hv : c'.colors v with
    | none => rfl
    | some s =>
      rw [hu, hv] at ht
      exact absurd ht.symm (h' v s hv).2
  | some s =>
    cases hv : c'.colors v with
    | none =>
      rw [hu, hv] at ht
      exact absurd ht (h u s hu).2
    | some s' =>
      rw [hu, hv] at ht
      exact congrArg some ht

theorem string_eq_iff_isomorphic (ha : c.Admissible) (ha' : c'.Admissible) (hp : c.NoParens)
    (hp' : c'.NoParens) (u : Fin c.g.n) (v : Fin c'.g.n) :
    c.string u = c'.string v ↔ c.forest.Isomorphic c'.forest u v :=
  Bracketing.eq_iff_isomorphic c.isCode c'.isCode (AhuCall.plain hp) (AhuCall.plain hp')
    (fun _ _ ht => text_inj ha ha' ht) u v

/-! ### Ids -/

/-- A vertex has the id of its string in the last pool. -/
theorem vertexIds_has {cs : List AhuCall} {r : ColoredAHUResult c.g.n}
    (h : ⟨c, .ok r⟩ ∈ threadRun cs pool) (v : Fin c.g.n) :
    ∃ id, r.vertexIds v = some id ∧ (poolEnd cs pool).Has id (c.string v) := by
  obtain ⟨p, p', hrun, hle⟩ := mem_threadRun h
  obtain ⟨id, hid, hhas⟩ := compute_vertex c.rooted hrun
    (descends_of_isTree c.adj_iff c.tree c.root _ v rfl)
  exact ⟨id, hid, hhas.mono hle⟩

theorem isTree_ofEdges_one : (Graph.ofEdges 1 []).simpleGraph.IsTree := by
  have : Subsingleton (Fin (Graph.ofEdges 1 []).n) := inferInstanceAs (Subsingleton (Fin 1))
  have : Nonempty (Fin (Graph.ofEdges 1 []).n) := inferInstanceAs (Nonempty (Fin 1))
  exact SimpleGraph.IsTree.of_subsingleton

theorem isTree_ofEdges_two : (Graph.ofEdges 2 [(0, 1)]).simpleGraph.IsTree where
  connected := by
    rw [SimpleGraph.connected_iff_exists_forall_reachable]
    refine ⟨(0 : Fin 2), fun (v : Fin 2) => ?_⟩
    match v with
    | 0 => exact SimpleGraph.Reachable.refl _
    | 1 =>
      have hadj : (Graph.ofEdges 2 [(0, 1)]).simpleGraph.Adj (0 : Fin 2) (1 : Fin 2) :=
        Graph.mem_ofEdges.mpr (by decide)
      exact hadj.reachable
  isAcyclic := SimpleGraph.IsAcyclic.of_card_le_two (by
    change ENat.card (Fin 2) ≤ 2
    simp)

/-- One vertex, with a colour that reads like a tree. -/
def oneVertex : AhuCall where
  g := Graph.ofEdges 1 []
  colors := fun _ => some "A(B)".toList
  root := (0 : Fin 1)
  tree := isTree_ofEdges_one

/-- A vertex and its child. -/
def twoVertices : AhuCall where
  g := Graph.ofEdges 2 [(0, 1)]
  colors := fun v => some (if v.val = 0 then ['A'] else ['B'])
  root := (0 : Fin 2)
  tree := isTree_ofEdges_two

theorem exists_rootIds : ∃ r r', threadRun [oneVertex, twoVertices] .empty =
    [⟨oneVertex, .ok r⟩, ⟨twoVertices, .ok r'⟩] ∧
      r.vertexIds (0 : Fin 1) = some 0 ∧ r'.vertexIds (0 : Fin 2) = some 0 := by
  refine ⟨_, _, rfl, ?_, ?_⟩ <;> decide +kernel

end Dialysis.Ahu
