import GraphDialysis.Ahu.EncodeTree
import GraphDialysis.Lib.RootedForest
import Mathlib.Combinatorics.SimpleGraph.Acyclic

/-! A native session: trees are encoded on one registry, and canonical strings asked for in between,
    without a reset. `nativeRun_spec`: every call returns, labels are equal exactly on isomorphic
    coloured subtrees, whichever trees of the session they are in, and a child has a smaller label
    than its parent. -/

namespace Dialysis.Ahu
open Lib

/-! ### Trees -/

/-- The rows as a graph in the sense of the library. -/
def rowGraph {n : ℕ} (csr : Csr n) [csr.Simple] : SimpleGraph (Fin n) where
  Adj v w := w ∈ csr.row v
  symm := ⟨fun _ _ => Csr.Simple.symm⟩
  loopless := ⟨Csr.Simple.irrefl⟩

section Tree
variable {V : Type*} {G : SimpleGraph V} (hG : G.IsTree) {r v w w' : V}
include hG

theorem exists_above_of_isTree (hv : v ≠ r) : ∃ w, G.Adj w v ∧ G.dist r v = G.dist r w + 1 := by
  obtain ⟨p, hp⟩ := (hG.connected v r).exists_walk_length_eq_dist
  cases p with
  | nil => exact absurd rfl hv
  | @cons _ w _ hadj p =>
    refine ⟨w, hadj.symm, ?_⟩
    rw [SimpleGraph.Walk.length_cons, SimpleGraph.dist_comm] at hp
    have hle := SimpleGraph.dist_le p.reverse
    rw [SimpleGraph.Walk.length_reverse] at hle
    rcases hG.dist_eq_dist_add_one_of_adj r hadj with h | h
    · exact h
    · omega

/-- In a tree only one neighbour is nearer to the root. -/
theorem above_unique_of_isTree (hw : G.Adj v w) (hw' : G.Adj v w')
    (hd : G.dist r v = G.dist r w + 1) (hd' : G.dist r v = G.dist r w' + 1) : w = w' := by
  obtain ⟨q, hq, -⟩ := (hG.connected r v).exists_path_of_dist
  have hmem : ∀ {x}, G.Adj v x → G.dist r v = G.dist r x + 1 → x = q.penultimate := by
    intro x hx hdx
    obtain ⟨p, hp, hlen⟩ := (hG.connected r x).exists_path_of_dist
    have hv : v ∉ p.support := fun hv => by
      classical
      have := SimpleGraph.dist_le (p.takeUntil v hv)
      have := p.length_takeUntil_le_length hv
      omega
    exact hG.isAcyclic.eq_penultimate_of_adj_end hq hx
      (hG.isAcyclic.mem_support_of_ne_mem_support_of_adj_of_isPath hq hp hx hv)
  exact (hmem hw hd).trans (hmem hw' hd').symm

end Tree

section Graph
variable {g : Graph} {G : SimpleGraph (Fin g.n)} (hadj : ∀ v w, w ∈ g.adj v ↔ G.Adj v w)
  (hG : G.IsTree) (root : Fin g.n)
include hadj hG

theorem rootedTree_of_isTree : RootedTree g root (G.dist root) where
  step := fun {v w} hw => (hG.dist_eq_dist_add_one_of_adj root ((hadj v w).mp hw)).symm
  unique := fun {v w w'} hw hw' hd hd' =>
    above_unique_of_isTree hG ((hadj v w).mp hw) ((hadj v w').mp hw') hd hd'
  root := fun {w} hw => by
    rw [SimpleGraph.dist_self, SimpleGraph.dist_eq_one_iff_adj.mpr ((hadj root w).mp hw)]

/-- Everybody is in the subtree of the root. -/
theorem descends_of_isTree : ∀ (k : ℕ) (v : Fin g.n), G.dist root v = k →
    Descends g (G.dist root) root v
  | 0, v, hk => by
    obtain rfl : root = v := (hG.connected root v).dist_eq_zero_iff.mp hk
    exact .refl
  | k + 1, v, hk => by
    have hne : v ≠ root := by
      rintro rfl
      rw [SimpleGraph.dist_self] at hk
      cases hk
    obtain ⟨w, hw, hd⟩ := exists_above_of_isTree hG hne
    exact (descends_of_isTree k w (by omega)).tail (mem_children.mpr ⟨(hadj w v).mpr hw, hd⟩)

end Graph

/-- A coloured tree, hanging from its root. -/
def RootedTree.forest {g : Graph} [g.toCsr.Simple] {root : Fin g.n} {d : Fin g.n → ℕ}
    (h : RootedTree g root d) (colors : Fin g.n → Option KString) :
    Forest (Fin g.n) (Option KString) where
  children := children g d
  color := colors
  nodup := fun v => (g.adj_nodup_of_toCsr v).filter _
  unique := fun {v v' w} hv hv' => by
    obtain ⟨ha, hd⟩ := mem_children.mp hv
    obtain ⟨ha', hd'⟩ := mem_children.mp hv'
    exact h.unique (Graph.adj_symm_of_toCsr ha) (Graph.adj_symm_of_toCsr ha') hd hd'
  wf := Subrelation.wf (fun {w v} hw => by
    have := height_pos (d := d) v
    have := height_child hw
    exact (by omega : height d w < height d v)) (measure (height d)).wf

variable {n : ℕ}

/-- A tree as it is handed to the native side. -/
structure TreeInput where
  n : ℕ
  csr : Csr n
  colors : Fin n → Option KString
  root : Fin n
  [simple : csr.Simple]
  tree : (rowGraph csr).IsTree

attribute [instance] TreeInput.simple

/-- Levels of the tree. -/
noncomputable abbrev TreeInput.level (t : TreeInput) (v : Fin t.n) : ℕ := (rowGraph t.csr).dist t.root v

theorem TreeInput.adj_iff (t : TreeInput) (v w : Fin t.n) :
    w ∈ t.csr.graph.adj v ↔ (rowGraph t.csr).Adj v w := Iff.rfl

theorem TreeInput.rooted (t : TreeInput) : RootedTree t.csr.graph t.root t.level :=
  rootedTree_of_isTree (g := t.csr.graph) t.adj_iff t.tree t.root

/-- The tree, hanging from its root. -/
noncomputable def TreeInput.forest (t : TreeInput) : Forest (Fin t.n) (Option KString) :=
  t.rooted.forest t.colors

/-! ### Calls -/

/-- `g_label_to_str.at(c)`. -/
def strAt (strs : List KString) (c : ℤ) : Option KString :=
  if c < 0 then none else strs[c.toNat]?

/-- One string of `ensure_strings_up_to`; looking up a child may fail. -/
def buildString (strs : List KString) (k : Key) : Option KString :=
  (k.children.mapM (strAt strs)).map fun cs =>
    '(' :: k.color.getD ['*'] ++ (sortNative cs).flatten ++ [')']

/-- The loop of `ensure_strings_up_to` over the first labels; the strings are there from the first
    label on without a gap. -/
def ensureStrings (keys : List Key) : ℕ → List KString → Option (List KString)
  | 0, strs => some strs
  | l + 1, strs => (ensureStrings keys l strs).bind fun strs =>
    if l < strs.length then some strs
    else match keys[l]? with
      | none => some strs
      | some k => (buildString strs k).map fun s => strs ++ [s]

/-- The registry and the strings built so far. -/
structure Native where
  keys : List Key
  strs : List KString

inductive NativeCall where
  | computeLabels (t : TreeInput)
  | canonicalString (label : ℤ)

inductive NativeAnswer where
  | labels (t : TreeInput) (labels : Fin t.n → ℤ)
  | string (s : KString)

/-- `computeLabels` and `canonicalString`; there is no result when a loop does not end or a string is
    not found. -/
def nativeCall (s : Native) : NativeCall → Option (NativeAnswer × Native)
  | .computeLabels t => (encodeTree t.csr t.colors t.root s.keys).map fun e =>
    (.labels t e.labels, { s with keys := e.keys })
  | .canonicalString label =>
    if label < 0 ∨ (s.keys.length : ℤ) ≤ label then some (.string [], s)
    else (ensureStrings s.keys (label.toNat + 1) s.strs).bind fun strs =>
      (strAt strs label).map fun str => (.string str, { s with strs := strs })

/-- Calls without a reset in between. -/
def nativeRun : List NativeCall → Native → Option (List NativeAnswer × Native)
  | [], s => some ([], s)
  | c :: cs, s => (nativeCall s c).bind fun p => (nativeRun cs p.2).map fun r => (p.1 :: r.1, r.2)

/-! ### What a label stands for -/

/-- The labels of a tree belong to the colours and the sorted labels of the children. -/
def Reads (keys : List Key) (t : TreeInput) (labels : Fin t.n → ℤ) : Prop :=
  ∀ v, HasKey keys (labels v)
    ⟨t.colors v, ((t.forest.children v).map labels).insertionSort (· ≤ ·)⟩

theorem Reads.append {keys : List Key} {t : TreeInput} {labels : Fin t.n → ℤ}
    (h : Reads keys t labels) (more : List Key) : Reads (keys ++ more) t labels :=
  fun v => (h v).append more

theorem insertionSort_eq_iff_perm {l l' : List ℤ} :
    l.insertionSort (· ≤ ·) = l'.insertionSort (· ≤ ·) ↔ l.Perm l' := by
  refine ⟨fun h => ?_, fun h => ?_⟩
  · exact (List.perm_insertionSort _ l).symm.trans (h ▸ List.perm_insertionSort _ l')
  · exact (((List.perm_insertionSort _ l).trans h).trans
      (List.perm_insertionSort _ l').symm).eq_of_pairwise (fun _ _ _ _ hab hba => le_antisymm hab hba)
        (List.pairwise_insertionSort _ l) (List.pairwise_insertionSort _ l')

/-- Labels of one registry compare like isomorphism classes. -/
theorem Reads.eq_iff {keys : List Key} (hk : RegistryOk keys) {t t' : TreeInput}
    {labels : Fin t.n → ℤ} {labels' : Fin t'.n → ℤ} (h : Reads keys t labels)
    (h' : Reads keys t' labels') (u : Fin t.n) (v : Fin t'.n) :
    labels u = labels' v ↔ t.forest.Isomorphic t'.forest u v := by
  refine Forest.eq_iff_isomorphic (fun u v => ?_) u v
  rw [(h u).eq_iff hk.nodup (h' v), Key.mk.injEq, insertionSort_eq_iff_perm]
  rfl

theorem Reads.child_lt {keys : List Key} (hk : RegistryOk keys) {t : TreeInput}
    {labels : Fin t.n → ℤ} (h : Reads keys t labels) {v c : Fin t.n}
    (hc : c ∈ t.forest.children v) : labels c < labels v :=
  ((h v).child_lt hk ((List.mem_insertionSort _).mpr (List.mem_map_of_mem hc))).2

theorem encodeRun_congr {csr csr' : Csr n} (h : csr.row = csr'.row)
    {colors : Fin n → Option KString} : ∀ (fuel : ℕ) (s : Encoder n),
    encodeRun csr colors fuel s = encodeRun csr' colors fuel s
  | 0, _ => rfl
  | fuel + 1, s => by
    have hstep : encodeStep csr colors s = encodeStep csr' colors s := by
      unfold encodeStep
      rw [h]
    rw [encodeRun, encodeRun, hstep, encodeRun_congr h fuel]

/-- Encoding a tree ends, and its labels mean what they should. -/
theorem encodeTree_reads (t : TreeInput) {keys : List Key} (hk : RegistryOk keys) :
    ∃ e, encodeTree t.csr t.colors t.root keys = some e ∧ RegistryOk e.keys ∧
      keys <+: e.keys ∧ Reads e.keys t e.labels := by
  obtain ⟨e, he, hlabelled, hdescends⟩ : ∃ e : Encoder t.n,
      encodeTree t.csr.graph.toCsr t.colors t.root keys = some e ∧
      Labelled (g := t.csr.graph) t.colors t.root t.level e ∧
      ∀ v, 0 ≤ e.labels v ↔ Descends t.csr.graph t.level t.root v := encodeTree_spec t.rooted hk
  have hrun : encodeTree t.csr t.colors t.root keys = some e := by
    have hrow : t.csr.row = t.csr.graph.toCsr.row := t.csr.row_graph.symm
    rw [encodeTree, encodeRun_congr hrow, hrow]
    exact he
  refine ⟨e, hrun, hlabelled.registry, encodeRun_keys hrun, fun v => ?_⟩
  exact hlabelled.key v ((hdescends v).mpr
    (descends_of_isTree (g := t.csr.graph) t.adj_iff t.tree t.root _ v rfl))

/-! ### Strings are found -/

theorem mapM_eq_some {α β : Type} {f : α → Option β} {g : α → β} : ∀ {l : List α},
    (∀ a ∈ l, f a = some (g a)) → l.mapM f = some (l.map g)
  | [], _ => rfl
  | a :: l, h => by
    rw [List.mapM_cons, h a List.mem_cons_self,
      mapM_eq_some fun b hb => h b (List.mem_cons_of_mem _ hb)]
    rfl

/-- A key whose children have their strings. -/
theorem buildString_eq {keys : List Key} (hk : RegistryOk keys) {strs : List KString}
    (hs : strs <+: strings keys) {l : ℕ} (hl : l < keys.length) (hlen : strs.length = l) :
    buildString strs keys[l] = (strings keys)[l]? := by
  have hlt : l < (strings keys).length := by rwa [length_strings]
  have hat : ∀ c ∈ keys[l].children, strAt strs c = some ((strings keys).getD c.toNat []) := by
    intro c hc
    have h0 := (hk.valid _ (List.getElem_mem hl) c hc).1
    have hcl := hk.below l hl c hc
    obtain ⟨rest, hrest⟩ := hs
    rw [strAt, if_neg (by omega), ← hrest, List.getD_append _ _ _ _ (by omega), List.getD_eq_getElem?_getD,
      List.getElem?_eq_getElem (by omega), Option.getD_some]
  have hrender := hk.render l hl
  rw [stringOf, Int.toNat_natCast, List.getD_eq_getElem?_getD, List.getElem?_eq_getElem hlt,
    Option.getD_some] at hrender
  rw [buildString, mapM_eq_some hat, Option.map_some, List.getElem?_eq_getElem hlt, hrender, renderKey]

/-- The strings of the children are always there when a string is built. -/
theorem ensureStrings_spec {keys : List Key} (hk : RegistryOk keys) {strs : List KString}
    (hs : strs <+: strings keys) : ∀ l : ℕ, ∃ strs', ensureStrings keys l strs = some strs' ∧
      strs' <+: strings keys ∧ (l ≤ keys.length → l ≤ strs'.length)
  | 0 => ⟨strs, rfl, hs, fun _ => Nat.zero_le _⟩
  | l + 1 => by
    obtain ⟨strs', hrun, hs', hlen⟩ := ensureStrings_spec hk hs l
    rw [ensureStrings, hrun, Option.bind_some]
    by_cases hdone : l < strs'.length
    · exact ⟨strs', if_pos hdone, hs', fun _ => hdone⟩
    · rw [if_neg hdone]
      by_cases hl : l < keys.length
      · have hlen' : strs'.length = l := by
          have := hlen hl.le
          omega
        have hlt : l < (strings keys).length := by rwa [length_strings]
        rw [List.getElem?_eq_getElem hl]
        dsimp only
        rw [buildString_eq hk hs' hl hlen', List.getElem?_eq_getElem hlt, Option.map_some]
        refine ⟨_, rfl, ?_, fun _ => by rw [List.length_append, hlen']; simp⟩
        rw [List.prefix_iff_eq_take.mp hs', hlen', ← List.take_succ_eq_append_getElem hlt]
        exact List.take_prefix _ _
      · rw [List.getElem?_eq_none (by omega)]
        exact ⟨strs', rfl, hs', fun h => absurd h (by omega)⟩

/-! ### A session -/

/-- Between two calls, after the given answers. -/
structure NativeOk (s : Native) (answers : List NativeAnswer) : Prop where
  registry : RegistryOk s.keys
  strs : s.strs <+: strings s.keys
  reads : ∀ t labels, .labels t labels ∈ answers → Reads s.keys t labels

/-- The answer that a call deserves. -/
def AnswerTo : NativeCall → NativeAnswer → Prop
  | .computeLabels t, a => ∃ labels, a = .labels t labels
  | .canonicalString _, a => ∃ str, a = .string str

theorem nativeCall_ok {s : Native} {answers : List NativeAnswer} (h : NativeOk s answers)
    (c : NativeCall) : ∃ a s', nativeCall s c = some (a, s') ∧ AnswerTo c a ∧
      NativeOk s' (answers ++ [a]) := by
  have hold : ∀ {t labels a}, (∀ t' labels', a ≠ NativeAnswer.labels t' labels') →
      .labels t labels ∈ answers ++ [a] → .labels t labels ∈ answers := fun hne hmem =>
    (List.mem_append.mp hmem).resolve_right fun h => hne _ _ (List.mem_singleton.mp h).symm
  cases c with
  | computeLabels t =>
    obtain ⟨e, he, hreg, ⟨more, hmore⟩, hreads⟩ := encodeTree_reads t h.registry
    refine ⟨_, _, by rw [nativeCall, he]; rfl, ⟨_, rfl⟩, hreg, ?_, fun t' labels' hmem => ?_⟩
    · obtain ⟨rest, hrest⟩ := strings_append s.keys more
      dsimp only
      rw [← hmore, hrest]
      exact h.strs.trans (List.prefix_append _ _)
    · rcases List.mem_append.mp hmem with hmem | hmem
      · exact hmore ▸ (h.reads t' labels' hmem).append more
      · rw [List.mem_singleton, NativeAnswer.labels.injEq] at hmem
        obtain ⟨rfl, hl⟩ := hmem
        rw [eq_of_heq hl]
        exact hreads
  | canonicalString label =>
    rw [nativeCall]
    split
    · exact ⟨_, _, rfl, ⟨_, rfl⟩, h.registry, h.strs, fun t labels hmem =>
        h.reads t labels (hold (by simp) hmem)⟩
    · rename_i hvalid
      obtain ⟨strs, hrun, hs, hlen⟩ := ensureStrings_spec h.registry h.strs (label.toNat + 1)
      have hlt := hlen (by omega)
      rw [hrun, Option.bind_some, strAt, if_neg (by omega), List.getElem?_eq_getElem hlt]
      exact ⟨_, _, rfl, ⟨_, rfl⟩, h.registry, hs, fun t labels hmem =>
        h.reads t labels (hold (by simp) hmem)⟩

theorem nativeRun_ok : ∀ (calls : List NativeCall) {s : Native} {done : List NativeAnswer},
    NativeOk s done → ∃ answers s', nativeRun calls s = some (answers, s') ∧
      List.Forall₂ AnswerTo calls answers ∧ NativeOk s' (done ++ answers)
  | [], s, done, h => ⟨[], s, rfl, .nil, by rwa [List.append_nil]⟩
  | c :: calls, s, done, h => by
    obtain ⟨a, s₁, hcall, hanswer, h₁⟩ := nativeCall_ok h c
    obtain ⟨answers, s', hrun, hanswers, h'⟩ := nativeRun_ok calls h₁
    refine ⟨a :: answers, s', ?_, .cons hanswer hanswers, ?_⟩
    · rw [nativeRun, hcall, Option.bind_some, hrun]
      rfl
    · rwa [List.append_assoc, List.singleton_append] at h'

/-- In a session every call returns, labels are equal exactly on isomorphic coloured subtrees, and
    the label of a child is smaller than that of its parent. -/
theorem nativeRun_spec (calls : List NativeCall) : ∃ answers s,
    nativeRun calls ⟨[], []⟩ = some (answers, s) ∧ List.Forall₂ AnswerTo calls answers ∧
      (∀ t labels t' labels', .labels t labels ∈ answers → .labels t' labels' ∈ answers →
        ∀ u v, labels u = labels' v ↔ t.forest.Isomorphic t'.forest u v) ∧
      ∀ t labels, .labels t labels ∈ answers →
        ∀ v, 0 ≤ labels v ∧ ∀ c ∈ t.forest.children v, labels c < labels v := by
  have hstart : NativeOk ⟨[], []⟩ [] := ⟨registryOk_nil, List.nil_prefix, by simp⟩
  obtain ⟨answers, s, hrun, hanswers, h⟩ := nativeRun_ok calls hstart
  rw [List.nil_append] at h
  refine ⟨answers, s, hrun, hanswers, fun t labels t' labels' ht ht' u v => ?_,
    fun t labels ht v => ⟨(h.reads t labels ht v).1, fun c hc => ?_⟩⟩
  · exact (h.reads t labels ht).eq_iff h.registry (h.reads t' labels' ht') u v
  · exact (h.reads t labels ht).child_lt h.registry hc

end Dialysis.Ahu
