import GraphDialysis.Ahu.UseOrder
import GraphDialysis.Content.KeyOrder
import GraphDialysis.Decomposition.Structure
import GraphDialysis.Refinement.ColouringDispatch
import GraphDialysis.Refinement.PrecomputedStore

/-! Two calls of `initialPhase` on a graph and on a renumbered copy of it, on threads with different
    histories. Phase 1 ranks the vertices of a class by the ids of their trees, hence by the order in
    which the strings of the trees were first used, and the ranks decide in which order Phase 2 visits
    the classes. `initialPhase_relabeled`: where the strings were first used in the same order the
    partitions correspond. On `tangle` they were not, and they do not. -/

namespace Dialysis.Refinement
open Lib Dialysis.Graph Ahu Decompose

/-! ### The strings that Phase 1 uses -/

section
variable (g : Graph) [g.Simple] (chi : Fin g.n → Content)

/-- The canonical strings of `T(v)`, vertex after vertex. -/
def treeStringList (v : Fin g.n) : List KString :=
  (List.finRange (g.induced (treeVerts g v)).n).map
    (subtreeString (g.induced (treeVerts g v)) (treeDepth g v) (treeColors chi (treeVerts g v)))

/-- All of them, in the order in which they are used. -/
def usedStrings : List KString :=
  ((List.finRange g.n).filter (needsWork (colorRefine1WL g chi))).flatMap (treeStringList g chi)

/-- The thread used `s` before `t`: for what it processed before, or else in this call. -/
def UsedBefore (pool : InternPool) (s t : KString) : Prop :=
  (pool.strings ++ usedStrings g chi).idxOf s < (pool.strings ++ usedStrings g chi).idxOf t

instance (pool : InternPool) (s t : KString) : Decidable (UsedBefore g chi pool s t) :=
  inferInstanceAs (Decidable (_ < _))

end

section
variable {g : Graph} [g.Simple] {chi : Fin g.n → Content} {store : DecompositionStore g}
  {needed : Fin g.n → Bool} {pool : InternPool}

/-- Every tree vertex hangs below the root. -/
theorem descends_rootPos (v : Fin g.n) : ∀ (k : ℕ) (i : Fin (treeVerts g v).1.length),
    treeDepth g v i = k → Descends (g.induced (treeVerts g v)) (treeDepth g v) (rootPos g v) i
  | 0, i, hi => by
    have hroot := eq_root_of_level ((level_get v i).trans (congrArg some hi))
    have hpos : i = rootPos g v := (treeVerts g v).2.injective_get (hroot.trans (get_rootPos v).symm)
    rw [hpos]
    exact .refl
  | k + 1, i, hi => by
    obtain ⟨p, hp, hpt, hlp⟩ := exists_parent (inTree_get v i) ((level_get v i).trans (congrArg some hi))
    obtain ⟨j, rfl⟩ := List.get_of_mem (mem_treeVerts.mpr hpt)
    have hj := treeDepth_eq hlp
    refine (descends_rootPos v k j hj).tail (mem_children.mpr ⟨?_, by rw [hi, hj]⟩)
    exact mem_induced.mpr (Graph.Simple.symm hp)

/-- The pool after the loop. -/
theorem rootKeys_strings (hstore : ∀ v, needed v = true → store.has v = true) {s : RootKeys g.n}
    (hs : rootKeys chi store needed pool = .ok s) : s.pool.strings =
      (((List.finRange g.n).filter needed).flatMap (treeStringList g chi)).foldl addNew pool.strings := by
  refine foldlM_inv (P := fun done t => t.pool.strings =
    ((done.filter needed).flatMap (treeStringList g chi)).foldl addNew pool.strings)
    (fun done v t t' ht hstep => ?_) _ [] _ _ rfl hs
  rw [rootKeyStep] at hstep
  split at hstep
  · rename_i hv
    rw [rootKey_eq (hstore v hv)] at hstep
    obtain ⟨r, hr, hstep⟩ := bind_ok hstep
    obtain ⟨c, hc, hr⟩ := bind_ok hr
    cases hr
    cases hstep
    dsimp only
    rw [compute_strings (rootedTree v) (fun i => descends_rootPos v _ i rfl) hc, ht,
      List.filter_append, List.flatMap_append, List.foldl_append]
    simp [hv, treeStringList]
  · rename_i hv
    cases hstep
    rw [ht, List.filter_append]
    simp [hv]

end

/-! ### The order of the keys -/

section
variable {g : Graph} [g.Simple] {chi : Fin g.n → Content} {flag : Bool} {pool pool₁ : InternPool}
  {ids : Fin g.n → ℕ} {keys : RootKeys g.n} {store : DecompositionStore g}

theorem Run.strings (hrun : Run g chi flag pool ids pool₁ keys store) :
    pool₁.strings = (usedStrings g chi).foldl addNew pool.strings := by
  rw [← hrun.pool_eq]
  exact rootKeys_strings hrun.has hrun.rootKeys

/-- Vertices are ranked by the first uses of their trees, then by their orphans. -/
theorem Run.key_lt_iff (hrun : Run g chi flag pool ids pool₁ keys store)
    (hids : pool₁.strings.length ≤ 2 ^ 63) {u v : Fin g.n}
    (hu : needsWork (colorRefine1WL g chi) u = true) (hv : needsWork (colorRefine1WL g chi) v = true) :
    utf16 (Refinement.rootKeyString keys u) < utf16 (Refinement.rootKeyString keys v) ↔
      UsedBefore g chi pool (rootString g chi u) (rootString g chi v) ∨
        rootString g chi u = rootString g chi v ∧
          utf16 (Content.num (orphans g u).length).serialize <
            utf16 (Content.num (orphans g v).length).serialize := by
  have hkey : ∀ {w : Fin g.n}, needsWork (colorRefine1WL g chi) w = true → ∃ id : Long,
      pool₁.strings.idxOf (rootString g chi w) = id.1 ∧ rootString g chi w ∈ pool₁.strings ∧
        Refinement.rootKeyString keys w =
          (Content.tup [.num id.1, .num (orphans g w).length]).serialize := by
    intro w hw
    obtain ⟨id, hhas, hkey⟩ := hrun.rootKeyString hw
    obtain ⟨hlt, he⟩ := List.getElem?_eq_some_iff.mp hhas
    refine ⟨⟨id, by omega⟩, ?_, hhas.mem, hkey⟩
    rw [← he, pool₁.nodup.idxOf_getElem]
  obtain ⟨i, hi, hmemi, hkeyi⟩ := hkey hu
  obtain ⟨j, hj, hmemj, hkeyj⟩ := hkey hv
  rw [hkeyi, hkeyj, Content.pair_text_lt_iff, UsedBefore, ← idxOf_foldl_addNew_lt, ← hrun.strings,
    ← List.idxOf_inj hmemi, ← Subtype.coe_lt_coe, ← Subtype.coe_inj, ← hi, ← hj]
  simp only [Nat.cast_lt, Nat.cast_inj]

end

/-! ### Two calls -/

section
variable {g h : Graph} [g.Simple] [h.Simple] {e : Fin g.n ≃ Fin h.n} {chi : Fin g.n → Content}
  {chi' : Fin h.n → Content} {flag : Bool} {pool pool₁ pool' pool₁' : InternPool}
  {ids : Fin g.n → ℕ} {ids' : Fin h.n → ℕ} {keys : RootKeys g.n} {keys' : RootKeys h.n}
  {store : DecompositionStore g} {store' : DecompositionStore h}

/-- The trees of vertices of one class were first used in the same order on both threads. -/
def SameFirstUses (g h : Graph) [g.Simple] [h.Simple] (chi : Fin g.n → Content)
    (chi' : Fin h.n → Content) (pool pool' : InternPool) : Prop :=
  ∀ u v, ((colorRefine1WL g chi).color u).Equals ((colorRefine1WL g chi).color v) →
    (UsedBefore g chi pool (rootString g chi u) (rootString g chi v) ↔
      UsedBefore h chi' pool' (rootString g chi u) (rootString g chi v))

theorem Run.keysAgree (he : IsIso g h e) (hchi : ∀ v, (chi' (e v)).Equals (chi v))
    (hrun : Run g chi flag pool ids pool₁ keys store)
    (hrun' : Run h chi' flag pool' ids' pool₁' keys' store') (hids : pool₁.strings.length ≤ 2 ^ 63)
    (hids' : pool₁'.strings.length ≤ 2 ^ 63) (hfirst : SameFirstUses g h chi chi' pool pool') :
    ∀ c ∈ cellsOf (stableInts g chi),
      KeysAgree e (fun _ => Refinement.rootKeyString keys) (fun _ => Refinement.rootKeyString keys') c := by
  intro c hc _ _ _ hlen u hu v hv
  have hwork : ∀ {w}, w ∈ c → needsWork (colorRefine1WL g chi) w = true := needsWork_of_mem hc hlen
  have hwork' : ∀ {w}, w ∈ c → needsWork (colorRefine1WL h chi') (e w) = true := fun hw =>
    (needsWork_iso e (stableInts_iso he hchi) _).trans (hwork hw)
  have hclass : ((colorRefine1WL g chi).color u).Equals ((colorRefine1WL g chi).color v) :=
    numColors_equals.mpr ((mem_cell_iff hc hv).mp hu)
  dsimp only
  rw [hrun.key_lt_iff hids (hwork hu) (hwork hv), hrun'.key_lt_iff hids' (hwork' hu) (hwork' hv),
    rootString_iso he hchi, rootString_iso he hchi, orphans_iso he, orphans_iso he,
    hfirst u v hclass]

/-- Two calls on isomorphic inputs end with corresponding ids when the trees were first used in the
    same order. -/
theorem RunsTo.corr_of_firstUses (he : IsIso g h e) (hchi : ∀ v, (chi' (e v)).Equals (chi v))
    (hrun : RunsTo g chi flag pool ids pool₁) (hrun' : RunsTo h chi' flag pool' ids' pool₁')
    (hids : pool₁.strings.length ≤ 2 ^ 63) (hids' : pool₁'.strings.length ≤ 2 ^ 63)
    (hfirst : SameFirstUses g h chi chi' pool pool') (v : Fin g.n) : ids' (e v) = ids v := by
  have hdiscrete := colorRefine1WL_isDiscrete_iso he hchi
  rcases hrun with ⟨hd, rfl, -⟩ | ⟨keys, store, hrun⟩
  · rcases hrun' with ⟨-, rfl, -⟩ | ⟨_, _, hrun'⟩
    · exact stableInts_iso he hchi v
    · rw [hrun'.notDiscrete, hd] at hdiscrete; cases hdiscrete
  · rcases hrun' with ⟨hd, -, -⟩ | ⟨keys', store', hrun'⟩
    · rw [hrun.notDiscrete, hd] at hdiscrete; cases hdiscrete
    · exact hrun.corr he hchi hrun' (hrun.keysAgree he hchi hrun' hids hids' hfirst) v

end

/-- A call uses at most `n` strings for every vertex. -/
theorem initialPhase_strings_length {g : Graph} [g.Simple] {chi : Fin g.n → Content} {flag : Bool}
    {pool : InternPool} {r : StablePartition g.n × InternPool}
    (h : initialPhase g chi flag none pool = .ok r) :
    r.2.strings.length ≤ pool.strings.length + g.n * g.n := by
  obtain ⟨p, pool₁⟩ := r
  obtain ⟨ids, -, -, hrun⟩ := initialPhase_run h
  rcases hrun with ⟨-, -, rfl⟩ | ⟨keys, store, hrun⟩
  · exact Nat.le_add_right _ _
  · dsimp only
    rw [hrun.strings]
    refine (length_foldl_addNew_le _ _).trans (Nat.add_le_add_left ?_ _)
    have htree : ∀ v, (treeStringList g chi v).length ≤ g.n := fun v => by
      rw [treeStringList, List.length_map, List.length_finRange]
      exact ((treeVerts g v).2.length_le_card).trans_eq (Fintype.card_fin _)
    rw [usedStrings, List.length_flatMap]
    refine (List.sum_le_card_nsmul _ g.n fun k hk => ?_).trans ?_
    · obtain ⟨v, -, rfl⟩ := List.mem_map.mp hk
      exact htree v
    · rw [List.length_map, smul_eq_mul]
      exact Nat.mul_le_mul_right _ ((List.length_filter_le _ _).trans_eq (List.length_finRange))

/-- Exchanges the ends of the edge 0-1. -/
def turn : Equiv.Perm (Fin (ofEdges 2 [(0, 1)]).n) := finRotate 2

section
variable (g : Graph) [g.Simple]

/-- The stable ids, from the abstract refinement that the native kernel carries out. -/
def refinedInts (chi : Fin g.n → Content) : Fin g.n → ℕ :=
  if g.n = 0 ∨ g.n = 1 then fun _ => 0
  else
    let colors := some (contentsToCompactInts chi)
    ((Splitter.loop g.adj g.n (Splitter.start (startIds colors) (numInit colors))).map
      Splitter.State.color).getD fun _ => 0

theorem stableInts_eq_refinedInts (chi : Fin g.n → Content) :
    stableInts g chi = refinedInts g chi := by
  have hrun := run1WL_compute1WLColorsFrom g (contentsToCompactInts chi)
  rw [refinedInts]
  split
  · rename_i hn
    rw [run1WL, if_pos hn] at hrun
    exact (Option.some.inj hrun).symm
  · rename_i hn
    obtain ⟨st, hst, -, -, heq⟩ := run1WL_eq g.toCsr hn le_rfl (some (contentsToCompactInts chi))
    rw [g.row_toCsr_eq] at hst
    dsimp only
    rw [hst]
    exact Option.some.inj (hrun.symm.trans heq)

/-- The remainder keys, read off the decomposition. -/
def refinedKey (chi : Fin g.n → Content) (v : Fin g.n) : KString :=
  (Content.mset ((remainderComps g v).map fun comp => .mset (List.ofFn fun i =>
    .num (refinedInts (g.induced comp) (fun localId => chi (comp.1.get localId)) i)))).serialize

/-- The ids after Phases 2 and 3. -/
def refinedIds (ids : Fin g.n → ℕ) : Fin g.n → ℕ :=
  let swept := anchorCells (refinedKey g) (cellsOf ids) (numColors ids)
  if swept.2 then refinedInts g swept.1 else ids

variable {g}

theorem phases23Ids_eq_refinedIds {store : DecompositionStore g} {ids : Fin g.n → ℕ}
    (hhas : ∀ v, needsWork (stablePartitionFromNativeColors ids) v = true → store.has v = true) :
    phases23Ids store ids = refinedIds g ids := by
  have hkey : ∀ chi v, store.has v = true → remainderKeyOf store chi v = refinedKey g chi v := by
    intro chi v hv
    rw [remainderKeyOf_eq hv, refinedKey]
    simp only [← stableInts_eq_refinedInts]
    rfl
  have hswept : anchorCells (remainderKeyOf store) (cellsOf ids) (numColors ids) =
      anchorCells (refinedKey g) (cellsOf ids) (numColors ids) :=
    anchorCells_congr (fun cell hc hlen chi v hv => hkey chi v (hhas v (needsWork_of_mem hc hlen hv))) _
  rw [phases23Ids, refinedIds, hswept]
  simp only [stableInts_eq_refinedInts]

/-- With the colours after the sweep. -/
theorem refinedIds_eq {ids : Fin g.n → ℕ} (chi : Fin g.n → Content)
    (h : ∀ v, ((anchorCells (refinedKey g) (cellsOf ids) (numColors ids)).1 v,
      (anchorCells (refinedKey g) (cellsOf ids) (numColors ids)).2) = (chi v, true)) (hn : 0 < g.n) :
    refinedIds g ids = refinedInts g chi := by
  have hchi : (anchorCells (refinedKey g) (cellsOf ids) (numColors ids)).1 = chi :=
    funext fun v => (Prod.ext_iff.mp (h v)).1
  rw [refinedIds, hchi]
  exact if_pos (Prod.ext_iff.mp (h ⟨0, hn⟩)).2

/-- What a run ends with that ranks the vertices of every class by `rank`. -/
theorem Run.eq_refinedIds {chi : Fin g.n → Content} {pool pool₁ : InternPool} {ids : Fin g.n → ℕ}
    {keys : RootKeys g.n} {store : DecompositionStore g} {rank : Fin g.n → Long}
    (hrun : Run g chi true pool ids pool₁ keys store)
    (hrank : ∀ u v, utf16 (Refinement.rootKeyString keys u) < utf16 (Refinement.rootKeyString keys v) ↔
      rank u < rank v) {ids₀ ids₁ : Fin g.n → ℕ} (hids₀ : refinedInts g chi = ids₀)
    (hids₁ : refinedInts g (anchorCells (fun _ v => (Content.num (rank v).1).serialize) (cellsOf ids₀)
      (numColors ids₀)).1 = ids₁)
    (hdiscrete : (stablePartitionFromNativeColors ids₁).isDiscrete = false) :
    ids = refinedIds g ids₁ := by
  have hphase : phase1Ids keys (stableInts g chi) = ids₁ := by
    have hkeys : ∀ c ∈ cellsOf ids₀, KeysAgree (Equiv.refl _) (fun _ => Refinement.rootKeyString keys)
        (fun _ v => (Content.num (rank v).1).serialize) c := fun _ _ _ _ _ _ u _ v _ =>
      (Content.numText_lt_iff (rank u) (rank v)).trans (hrank u v).symm
    have hsame : ∀ v, ids₀ (Equiv.refl _ v) = ids₀ v := fun _ => rfl
    have hanchored := (anchorCells_corr hsame hkeys).1
    rw [stableInts_eq_refinedInts, hids₀, ← hids₁, phase1Ids, stableInts_eq_refinedInts]
    exact congrArg _ (funext fun v => (hanchored v).symm)
  have hneeds : ∀ v, needsWork (stablePartitionFromNativeColors ids₁) v = true →
      store.has v = true := fun v hv =>
    hrun.has v (needsWork_of_refines (hphase ▸ phase1Ids_refines keys (stableInts g chi)) hv)
  rw [hrun.ids_eq, anchoredIds, hphase, hdiscrete, ← phases23Ids_eq_refinedIds hneeds]
  rfl

/-- What a call returns that starts with larger classes only, on vertices whose trees have one of two
    strings and that have equally many orphans. -/
theorem initialPhase_refinedIds {chi : Fin g.n → Content} {pool pool₁ : InternPool}
    {p : StablePartition g.n} (h : initialPhase g chi true none pool = .ok (p, pool₁))
    (ids₀ ids₁ : Fin g.n → ℕ) (first second : KString) (isSecond : Fin g.n → Bool)
    (hids₀ : refinedInts g chi = ids₀)
    (hwork : ∀ v, needsWork (stablePartitionFromNativeColors ids₀) v = true)
    (hdiscrete₀ : (stablePartitionFromNativeColors ids₀).isDiscrete = false)
    (hroots : ∀ v, rootString g chi v = if isSecond v then second else first)
    (horphans : ∀ u v, (orphans g u).length = (orphans g v).length)
    (hlength : (pool.strings ++ (List.finRange g.n).flatMap (treeStringList g chi)).length ≤ 2 ^ 63)
    (hfirst : (pool.strings ++ (List.finRange g.n).flatMap (treeStringList g chi)).idxOf first <
      (pool.strings ++ (List.finRange g.n).flatMap (treeStringList g chi)).idxOf second)
    (hids₁ : refinedInts g (anchorCells (fun _ v => (Content.num (if isSecond v then 1 else 0)).serialize)
      (cellsOf ids₀) (numColors ids₀)).1 = ids₁)
    (hdiscrete : (stablePartitionFromNativeColors ids₁).isDiscrete = false) :
    p.color = numColors (refinedIds g ids₁) := by
  obtain ⟨ids, hcolor, -, hrun⟩ := initialPhase_run h
  have hstart : colorRefine1WL g chi = stablePartitionFromNativeColors ids₀ := by
    rw [colorRefine1WL, stableInts_eq_refinedInts, hids₀]
  rcases hrun with ⟨hd, -⟩ | ⟨keys, store, hrun⟩
  · rw [hstart, hdiscrete₀] at hd
    cases hd
  · have hall : usedStrings g chi = (List.finRange g.n).flatMap (treeStringList g chi) := by
      rw [usedStrings, hstart, List.filter_eq_self.mpr fun v _ => hwork v]
    have hfits : pool₁.strings.length ≤ 2 ^ 63 := by
      have := length_foldl_addNew_le (usedStrings g chi) pool.strings
      rw [← hrun.strings, ← List.length_append, hall] at this
      omega
    let rank : Fin g.n → Long := fun v => if isSecond v then ⟨1, by decide⟩ else ⟨0, by decide⟩
    have hrank : ∀ u v, utf16 (Refinement.rootKeyString keys u) <
        utf16 (Refinement.rootKeyString keys v) ↔ rank u < rank v := by
      intro u v
      rw [hrun.key_lt_iff hfits (hstart ▸ hwork u) (hstart ▸ hwork v), UsedBefore, hall, hroots, hroots,
        horphans u v]
      dsimp only [rank]
      rcases isSecond u <;> rcases isSecond v
      · simp
      · simpa using hfirst
      · simpa using hfirst.le
      · simp
    have hval : ∀ v, (rank v).1 = if isSecond v then 1 else 0 := fun v => by
      dsimp only [rank]
      split <;> rfl
    rw [hcolor, hrun.eq_refinedIds hrank hids₀ (by simpa only [hval] using hids₁) hdiscrete]

end

/-! ### Two numberings of one graph -/

/-- Twelve vertices of degree four; the trees of 1, 4, 8 and 11 have two leaves, the others none. -/
def tangle : Graph where
  n := 12
  adj := fun v => ([[3, 7, 8, 10], [4, 7, 10, 11], [5, 6, 9, 11], [0, 5, 8, 9], [1, 5, 8, 9], [2, 3, 4, 9],
    [2, 7, 10, 11], [0, 1, 6, 10], [0, 3, 4, 11], [2, 3, 4, 5], [0, 1, 6, 7], [1, 2, 6, 8]] :
    List (List (Fin 12))).getD v.1 []
  names := fun v => toString v.1

/-- Exchanges the vertices 0 and 1. -/
def exchange : Equiv.Perm (Fin tangle.n) := (Equiv.swap 0 1 : Equiv.Perm (Fin 12))

/-- `tangle.relabeled exchange`, with its lists written out. -/
def exchanged : Graph where
  n := 12
  adj := fun v => ([[4, 7, 10, 11], [3, 7, 8, 10], [5, 6, 9, 11], [1, 5, 8, 9], [0, 5, 8, 9], [2, 3, 4, 9],
    [2, 7, 10, 11], [0, 1, 6, 10], [1, 3, 4, 11], [2, 3, 4, 5], [0, 1, 6, 7], [0, 2, 6, 8]] :
    List (List (Fin 12))).getD v.1 []
  names := fun v => toString (exchange.symm v).1

instance : tangle.Simple := by decide +kernel

instance : exchanged.Simple := by decide +kernel

theorem relabeled_exchange : tangle.relabeled exchange = exchanged := by
  have hadj : ∀ v : Fin exchanged.n, (tangle.relabeled exchange).adj v = exchanged.adj v := by
    intro v
    fin_cases v <;> rfl
  exact congrArg (fun adj => Graph.mk 12 adj exchanged.names) (funext hadj)

/-- The strings of a leaf and of a vertex with two leaves. -/
def leafString : KString := ['(', 'S', '1', ':', 'u', ')']
def cherryString : KString := ['(', 'S', '1', ':', 'u'] ++ leafString ++ leafString ++ [')']

/-- Ids as a list. -/
def idsOf (n : ℕ) (ids : List ℕ) (v : Fin n) : ℕ := ids.getD v.1 0

/-- Colours as a list. -/
def colorsOf (n : ℕ) (colors : List Content) (v : Fin n) : Content := colors.getD v.1 (.num 0)

/-- The tree of 0 comes first, and the others are ranked behind it. -/
theorem tangle_run : ∃ r, initialPhase tangle (uniformSeed tangle.n) true none .empty = .ok r ∧
    r.1.color = numColors (idsOf tangle.n [0, 4, 0, 2, 4, 3, 2, 3, 1, 3, 3, 1]) := by
  obtain ⟨r, hr⟩ : ∃ r, initialPhase tangle (uniformSeed tangle.n) true none .empty = .ok r := by
    refine initialPhase_ok (fun _ h => by cases h) (by decide +kernel) fun v s hs => ?_
    obtain ⟨i, -, rfl⟩ := hs
    revert v i
    decide +kernel
  refine ⟨r, hr, ?_⟩
  let swept : Fin tangle.n → Content := colorsOf tangle.n [.num 0, .tup [.num 1, .num 1], .num 0,
    .tup [.num 0, .num 1], .tup [.num 1, .num 1], .tup [.num 0, .num 2], .tup [.num 0, .num 1],
    .tup [.num 0, .num 2], .num 1, .tup [.num 0, .num 2], .tup [.num 0, .num 2], .num 1]
  have hids : ∀ v, refinedInts tangle swept v =
      idsOf tangle.n [0, 4, 0, 2, 4, 3, 2, 3, 1, 3, 3, 1] v := by decide +kernel
  rw [initialPhase_refinedIds hr (idsOf tangle.n [])
    (idsOf tangle.n [0, 1, 0, 0, 1, 0, 0, 0, 1, 0, 0, 1]) leafString cherryString
    (fun v => v.1 ∈ [1, 4, 8, 11]) (by decide +kernel) (by decide +kernel) (by decide +kernel)
    (by decide +kernel) (by decide +kernel) (by decide +kernel) (by decide +kernel) (by decide +kernel)
    (by decide +kernel), refinedIds_eq swept (by decide +kernel) (by decide)]
  exact congrArg numColors (funext hids)

/-- The tree of 0, which is the old 1, comes first again. -/
theorem exchanged_run : ∃ r, initialPhase exchanged (uniformSeed exchanged.n) true none .empty = .ok r ∧
    r.1.color = numColors (idsOf exchanged.n [0, 1, 1, 1, 0, 3, 1, 3, 2, 3, 3, 2]) := by
  obtain ⟨r, hr⟩ : ∃ r, initialPhase exchanged (uniformSeed exchanged.n) true none .empty = .ok r := by
    refine initialPhase_ok (fun _ h => by cases h) (by decide +kernel) fun v s hs => ?_
    obtain ⟨i, -, rfl⟩ := hs
    revert v i
    decide +kernel
  refine ⟨r, hr, ?_⟩
  let swept : Fin exchanged.n → Content := colorsOf exchanged.n [.num 0, .num 1, .num 1, .num 1, .num 0,
    .tup [.num 1, .num 1], .num 1, .tup [.num 1, .num 1], .tup [.num 0, .num 1], .tup [.num 1, .num 1],
    .tup [.num 1, .num 1], .tup [.num 0, .num 1]]
  have hids : ∀ v, refinedInts exchanged swept v =
      idsOf exchanged.n [0, 1, 1, 1, 0, 3, 1, 3, 2, 3, 3, 2] v := by decide +kernel
  rw [initialPhase_refinedIds hr (idsOf exchanged.n [])
    (idsOf exchanged.n [0, 1, 1, 1, 0, 1, 1, 1, 0, 1, 1, 0]) cherryString leafString
    (fun v => v.1 ∉ [0, 4, 8, 11]) (by decide +kernel) (by decide +kernel) (by decide +kernel)
    (by decide +kernel) (by decide +kernel) (by decide +kernel) (by decide +kernel) (by decide +kernel)
    (by decide +kernel), refinedIds_eq swept (by decide +kernel) (by decide)]
  exact congrArg numColors (funext hids)

theorem relabeled_run {h : Graph} [h.Simple] (hh : h = exchanged) :
    ∃ r, initialPhase h (uniformSeed h.n) true none .empty = .ok r ∧
      r.1.color = numColors (idsOf h.n [0, 1, 1, 1, 0, 3, 1, 3, 2, 3, 3, 2]) := by
  subst hh
  exact exchanged_run

end Dialysis.Refinement

