import GraphDialysis.Ahu.ColoredAHU
import GraphDialysis.Content.Content
import GraphDialysis.Decomposition.DecompositionStore

/-! The keys of Phase 1: the id of the canonical string of `T(v)`, coloured by the serialized colours,
    with the orphan count of `v`. The string does not depend on the numbering of the vertices
    (`rootString_iso`); the id does, through the pool, and `rootKeys_spec` says how much: it is the
    position of the string, and the loop adds to the pool the strings of the trees it visits. -/

namespace Dialysis.Refinement
open Lib Dialysis.Graph Decompose Ahu

/-! ### The tree of a root -/

section
variable (g : Graph) [g.Simple]

/-- Place of the root among its tree vertices. -/
def rootPos (v : Fin g.n) : Fin (treeVerts g v).1.length :=
  ⟨(treeVerts g v).1.idxOf v, List.idxOf_lt_length_of_mem root_mem_treeVerts⟩

/-- Levels of the tree vertices. -/
def treeDepth (v : Fin g.n) (i : Fin (treeVerts g v).1.length) : ℕ :=
  (level g v ((treeVerts g v).1.get i)).getD 0

end

/-- `treeVerts.associate { origId -> treeOldToNew[origId] to chi[origId].serialize() }`. -/
def treeColors {n : ℕ} (chi : Fin n → Content) (verts : VertexList n) (i : Fin verts.1.length) :
    Option KString := some (chi (verts.1.get i)).serialize

/-- The canonical string of `T(v)`. -/
def rootString (g : Graph) [g.Simple] (chi : Fin g.n → Content) (v : Fin g.n) : KString :=
  subtreeString (g.induced (treeVerts g v)) (treeDepth g v) (treeColors chi (treeVerts g v)) (rootPos g v)

/-- The canonical strings of all subtrees of `T(v)`. -/
def RootStrings (g : Graph) [g.Simple] (chi : Fin g.n → Content) (v : Fin g.n) (s : KString) : Prop :=
  TreeStrings (g.induced (treeVerts g v)) (treeDepth g v) (treeColors chi (treeVerts g v)) (rootPos g v) s

section
variable {g h : Graph} [g.Simple] [h.Simple]

theorem get_rootPos (v : Fin g.n) : (treeVerts g v).1.get (rootPos g v) = v := List.idxOf_get _

theorem oldToNew_root (v : Fin g.n) : oldToNew (treeVerts g v) v = some (rootPos g v) :=
  oldToNew_eq_some.mpr (get_rootPos v)

omit [g.Simple] in
theorem inTree_get (v : Fin g.n) (i : Fin (treeVerts g v).1.length) :
    inTree g v ((treeVerts g v).1.get i) = true := mem_treeVerts.mp (List.get_mem _ i)

omit [g.Simple] in
theorem treeDepth_eq {v : Fin g.n} {i : Fin (treeVerts g v).1.length} {k : ℕ}
    (h : level g v ((treeVerts g v).1.get i) = some k) : treeDepth g v i = k := by
  rw [treeDepth, h, Option.getD_some]

theorem level_get (v : Fin g.n) (i : Fin (treeVerts g v).1.length) :
    level g v ((treeVerts g v).1.get i) = some (treeDepth g v i) := by
  obtain ⟨k, hk⟩ := tree_level (inTree_get v i)
  rw [treeDepth_eq hk, hk]

/-- The tree of the decomposition, levelled by the search, is a rooted tree. -/
theorem rootedTree (v : Fin g.n) : RootedTree (g.induced (treeVerts g v)) (rootPos g v) (treeDepth g v) where
  step := fun {i j} hij => by
    obtain ⟨k, ⟨hi, hj⟩ | ⟨hj, hi⟩⟩ := tree_step (inTree_get v i) (inTree_get v j) (mem_induced.mp hij)
    · rw [treeDepth_eq hi, treeDepth_eq hj]; exact Or.inl rfl
    · rw [treeDepth_eq hi, treeDepth_eq hj]; exact Or.inr rfl
  unique := fun {i j j'} hj hj' hd hd' => by
    have hget := tree_parent_unique (inTree_get v i) ((level_get v i).trans (congrArg some hd))
      (mem_induced.mp hj) (level_get v j) (mem_induced.mp hj')
      ((level_get v j').trans (congrArg some (Nat.succ.inj (hd'.symm.trans hd))))
    exact (treeVerts g v).2.injective_get hget
  root := fun {j} hj => by
    have hadj := mem_induced.mp hj
    obtain ⟨k, ⟨hi, hj⟩ | ⟨hj, hi⟩⟩ := tree_step (inTree_get v (rootPos g v)) (inTree_get v j) hadj
    · rw [treeDepth_eq hi, treeDepth_eq hj]
    · rw [get_rootPos, level_root, Option.some.injEq] at hi
      omega

variable {e : Fin g.n ≃ Fin h.n} {chi : Fin g.n → Content} {chi' : Fin h.n → Content}

/-- Corresponding roots have isomorphic trees, with the same depths and colours. -/
theorem exists_tree_iso (he : IsIso g h e) (hchi : ∀ v, (chi' (e v)).Equals (chi v)) (v : Fin g.n) :
    ∃ ψ : Fin (g.induced (treeVerts g v)).n ≃ Fin (h.induced (treeVerts h (e v))).n,
      IsIso (g.induced (treeVerts g v)) (h.induced (treeVerts h (e v))) ψ ∧
      (∀ i, treeDepth h (e v) (ψ i) = treeDepth g v i) ∧
      (∀ i, treeColors chi' (treeVerts h (e v)) (ψ i) = treeColors chi (treeVerts g v) i) ∧
      ψ (rootPos g v) = rootPos h (e v) := by
  obtain ⟨ψ, hψ, hget⟩ := exists_induced_iso he
    (mem_treeVerts_iso he v)
  refine ⟨ψ, hψ, fun i => ?_, fun i => ?_, ?_⟩
  · exact treeDepth_eq ((congrArg (level h (e v)) (hget i)).trans
      ((level_iso he v _).trans (level_get v i)))
  · exact congrArg some ((congrArg (fun w => (chi' w).serialize) (hget i)).trans (hchi _).serialize)
  · exact (treeVerts h (e v)).2.injective_get (by
      exact (hget (rootPos g v)).trans (by rw [get_rootPos, get_rootPos]))

theorem rootString_iso (he : IsIso g h e) (hchi : ∀ v, (chi' (e v)).Equals (chi v)) (v : Fin g.n) :
    rootString h chi' (e v) = rootString g chi v := by
  obtain ⟨ψ, hψ, hdepth, hcolors, hroot⟩ := exists_tree_iso he hchi v
  rw [rootString, ← hroot]
  exact subtreeString_iso hψ hdepth hcolors (rootPos g v)

theorem rootStrings_iso (he : IsIso g h e) (hchi : ∀ v, (chi' (e v)).Equals (chi v)) (v : Fin g.n)
    (s : KString) : RootStrings h chi' (e v) s ↔ RootStrings g chi v s := by
  obtain ⟨ψ, hψ, hdepth, hcolors, hroot⟩ := exists_tree_iso he hchi v
  rw [RootStrings, ← hroot]
  exact treeStrings_iso hψ hdepth hcolors s

theorem rootStrings_root (v : Fin g.n) : RootStrings g chi v (rootString g chi v) := ⟨_, .refl, rfl⟩

end

/-! ### The loop -/

section
variable {g : Graph} [g.Simple]

/-- `treeOrphanKey` and the thread's pool. -/
structure RootKeys (n : ℕ) where
  treeOrphanKey : Fin n → Option Content
  pool : InternPool

/-- The key of one vertex. -/
def rootKey (chi : Fin g.n → Content) (store : DecompositionStore g) (pool : InternPool)
    (v : Fin g.n) : Except String (Content × InternPool) :=
  match store.treeAndOrphanCount v with
  | none => .error "no record"
  | some (verts, orphanCount) =>
    match oldToNew verts v with
    | none => .error "no root"
    | some root =>
      (compute (g.induced verts) (treeColors chi verts) root pool).bind fun r =>
        .ok (.tup [.num r.1.rootId, .num orphanCount], r.2)

/-- One round of the loop. -/
def rootKeyStep (chi : Fin g.n → Content) (store : DecompositionStore g) (needsWork : Fin g.n → Bool)
    (s : RootKeys g.n) (v : Fin g.n) : Except String (RootKeys g.n) :=
  if needsWork v then
    (rootKey chi store s.pool v).bind fun r =>
      .ok ⟨Function.update s.treeOrphanKey v (some r.1), r.2⟩
  else .ok s

/-- `for (v in 0 until g.n)`. -/
def rootKeys (chi : Fin g.n → Content) (store : DecompositionStore g) (needsWork : Fin g.n → Bool)
    (pool : InternPool) : Except String (RootKeys g.n) :=
  (List.finRange g.n).foldlM (rootKeyStep chi store needsWork) ⟨fun _ => none, pool⟩

variable {chi : Fin g.n → Content} {store : DecompositionStore g} {needsWork : Fin g.n → Bool}
  {pool : InternPool}

/-- With a record, the key is computed from the tree of the decomposition. -/
theorem rootKey_eq {v : Fin g.n} (hv : store.has v = true) : rootKey chi store pool v =
    (compute (g.induced (treeVerts g v)) (treeColors chi (treeVerts g v)) (rootPos g v) pool).bind
      fun r => .ok (.tup [.num r.1.rootId, .num (orphans g v).length], r.2) := by
  rw [rootKey, DecompositionStore.treeAndOrphanCount, DecompositionStore.record_of_has hv,
    Option.map_some]
  dsimp only
  split
  · rename_i hnone
    exact absurd ((oldToNew_root v).symm.trans hnone) (Option.some_ne_none _)
  · rename_i root hsome
    obtain rfl : rootPos g v = root := Option.some.inj ((oldToNew_root v).symm.trans hsome)
    rfl

/-- After the vertices `done`: a key is the id of the canonical string and the orphan count, and
    the pool has grown by the strings of the trees. -/
structure Keyed (chi : Fin g.n → Content) (needsWork : Fin g.n → Bool) (pool : InternPool)
    (done : List (Fin g.n)) (s : RootKeys g.n) : Prop where
  key : ∀ v ∈ done, needsWork v = true → ∃ id : ℕ,
    s.treeOrphanKey v = some (.tup [.num id, .num (orphans g v).length]) ∧
      s.pool.Has id (rootString g chi v)
  adds : pool.Adds (fun x => ∃ v ∈ done, needsWork v = true ∧ RootStrings g chi v x) s.pool

theorem keyed_nil : Keyed chi needsWork pool [] ⟨fun _ => none, pool⟩ :=
  ⟨by simp, (InternPool.Adds.refl pool).congr (by simp)⟩

theorem keyed_step (hstore : ∀ v, needsWork v = true → store.has v = true) {done : List (Fin g.n)}
    {s s' : RootKeys g.n} {v : Fin g.n} (h : Keyed chi needsWork pool done s)
    (hs : rootKeyStep chi store needsWork s v = .ok s') :
    Keyed chi needsWork pool (done ++ [v]) s' := by
  rw [rootKeyStep] at hs
  split at hs
  · rename_i hv
    rw [rootKey_eq (hstore v hv)] at hs
    obtain ⟨r, hr, hs⟩ := bind_ok hs
    obtain ⟨c, hc, hr⟩ := bind_ok hr
    cases hr
    cases hs
    obtain ⟨hhas, hadds⟩ := compute_spec (rootedTree v) hc
    constructor
    · intro w hw hneeds
      by_cases hwv : w = v
      · subst hwv
        exact ⟨c.1.rootId, Function.update_self .., hhas⟩
      · obtain ⟨id, hid, hhas'⟩ := h.key w ((List.mem_append.mp hw).resolve_right (by simpa using hwv)) hneeds
        exact ⟨id, by dsimp only; rw [Function.update_of_ne hwv, hid], hhas'.mono hadds.le⟩
    · refine (h.adds.trans hadds).congr fun x => ?_
      constructor
      · rintro (⟨w, hw, hneeds, hx⟩ | hx)
        · exact ⟨w, List.mem_append_left _ hw, hneeds, hx⟩
        · exact ⟨v, by simp, hv, hx⟩
      · rintro ⟨w, hw, hneeds, hx⟩
        rcases List.mem_append.mp hw with hw | hw
        · exact Or.inl ⟨w, hw, hneeds, hx⟩
        · rw [List.mem_singleton.mp hw] at hx; exact Or.inr hx
  · rename_i hv
    cases hs
    constructor
    · intro w hw hneeds
      rcases List.mem_append.mp hw with hw | hw
      · exact h.key w hw hneeds
      · rw [List.mem_singleton.mp hw] at hneeds; exact absurd hneeds hv
    · refine h.adds.congr fun x => ⟨fun ⟨w, hw, hx⟩ => ⟨w, List.mem_append_left _ hw, hx⟩, ?_⟩
      rintro ⟨w, hw, hneeds, hx⟩
      rcases List.mem_append.mp hw with hw | hw
      · exact ⟨w, hw, hneeds, hx⟩
      · rw [List.mem_singleton.mp hw] at hneeds; exact absurd hneeds hv

/-- The strings that Phase 1 interns. -/
def PhaseStrings (chi : Fin g.n → Content) (needsWork : Fin g.n → Bool) (s : KString) : Prop :=
  ∃ v, needsWork v = true ∧ RootStrings g chi v s

/-- What the loop has computed. -/
theorem rootKeys_spec (hstore : ∀ v, needsWork v = true → store.has v = true) {s : RootKeys g.n}
    (hs : rootKeys chi store needsWork pool = .ok s) :
    (∀ v, needsWork v = true → ∃ id : ℕ,
      s.treeOrphanKey v = some (.tup [.num id, .num (orphans g v).length]) ∧
        s.pool.Has id (rootString g chi v)) ∧ pool.Adds (PhaseStrings chi needsWork) s.pool := by
  have hinv := foldlM_inv (P := Keyed chi needsWork pool) (fun _ _ _ _ h hs => keyed_step hstore h hs)
    _ [] _ _ keyed_nil hs
  rw [List.nil_append] at hinv
  exact ⟨fun v => hinv.key v (List.mem_finRange v), hinv.adds.congr fun x =>
    ⟨fun ⟨v, _, h⟩ => ⟨v, h⟩, fun ⟨v, h⟩ => ⟨v, List.mem_finRange v, h⟩⟩⟩

/-- When all strings fit into the pool the loop ends normally. -/
theorem rootKeys_ok (hstore : ∀ v, needsWork v = true → store.has v = true)
    (hfits : ∀ s, PhaseStrings chi needsWork s → Fits s) :
    ∃ s, rootKeys chi store needsWork pool = .ok s := by
  obtain ⟨s, hs, -⟩ := foldlM_ok (f := rootKeyStep chi store needsWork) (P := fun _ _ => True) (fun done v s _ _ => by
      rw [rootKeyStep]
      split
      · rename_i hv
        rw [rootKey_eq (hstore v hv)]
        obtain ⟨r, hr⟩ := compute_ok (g := g.induced (treeVerts g v)) (rootedTree v) fun x (hx : RootStrings g chi v x) => hfits x ⟨v, hv, hx⟩
        rw [hr]
        exact ⟨_, rfl, trivial⟩
      · exact ⟨_, rfl, trivial⟩) (List.finRange g.n) [] ⟨fun _ => none, pool⟩ (fun _ hv => hv) trivial
  exact ⟨s, hs⟩

end

end Dialysis.Refinement
