import GraphDialysis.Ahu.Registry
import Mathlib.Logic.Relation

/-! What the native encoder computes on a rooted tree: the canonical string of a vertex is its colour
    followed by the sorted strings of its children (`subtreeString_eq`), and the label of a vertex is
    one of the registry with that string. `Labelled` and `StackOk` hold at every turn; each turn takes
    one from `potential`, twice the number of vertices still to be entered, so the loop ends
    (`computeLabels_spec`). Isomorphic coloured trees have the same strings (`subtreeString_iso`). -/

namespace Dialysis.Ahu
variable {g : Graph} {root : Fin g.n} {d : Fin g.n → ℕ}

/-- Neighbours are one level apart, nobody has two neighbours above, and the root has none. -/
structure RootedTree (g : Graph) (root : Fin g.n) (d : Fin g.n → ℕ) : Prop where
  step : ∀ {v w}, w ∈ g.adj v → d w = d v + 1 ∨ d v = d w + 1
  unique : ∀ {v w w'}, w ∈ g.adj v → w' ∈ g.adj v → d v = d w + 1 → d v = d w' + 1 → w = w'
  root : ∀ {w}, w ∈ g.adj root → d w = d root + 1

/-- The neighbours one level below. -/
def children (g : Graph) (d : Fin g.n → ℕ) (v : Fin g.n) : List (Fin g.n) :=
  (g.adj v).filter fun w => d w = d v + 1

/-- The canonical string of the subtree at `v`, to the given height. -/
def treeString (g : Graph) (d : Fin g.n → ℕ) (colors : Fin g.n → Option KString) :
    ℕ → Fin g.n → KString
  | 0, _ => []
  | k + 1, v => '(' :: (colors v).getD ['*'] ++
      (sortNative ((children g d v).map (treeString g d colors k))).flatten ++ [')']

/-- The vertices of the subtree at `v`, to the given height. -/
def treeNodes (g : Graph) (d : Fin g.n → ℕ) : ℕ → Fin g.n → List (Fin g.n)
  | 0, _ => []
  | k + 1, v => v :: (children g d v).flatMap (treeNodes g d k)

/-- The height that is enough for the subtree at `v`. -/
def height (d : Fin g.n → ℕ) (v : Fin g.n) : ℕ := Finset.univ.sup d + 1 - d v

/-- The canonical string of the subtree at `v`. -/
def subtreeString (g : Graph) (d : Fin g.n → ℕ) (colors : Fin g.n → Option KString) (v : Fin g.n) :
    KString := treeString g d colors (height d v) v

/-- The vertices of the subtree at `v`. -/
def subtreeNodes (g : Graph) (d : Fin g.n → ℕ) (v : Fin g.n) : List (Fin g.n) :=
  treeNodes g d (height d v) v

/-- `w` lies in the subtree at `v`. -/
def Descends (g : Graph) (d : Fin g.n → ℕ) : Fin g.n → Fin g.n → Prop :=
  Relation.ReflTransGen fun v w => w ∈ children g d v

theorem mem_children {v w : Fin g.n} : w ∈ children g d v ↔ w ∈ g.adj v ∧ d w = d v + 1 := by
  simp [children]

theorem height_pos (v : Fin g.n) : height d v = Finset.univ.sup d - d v + 1 := by
  have : d v ≤ Finset.univ.sup d := Finset.le_sup (Finset.mem_univ v)
  rw [height]; omega

theorem height_child {v w : Fin g.n} (hw : w ∈ children g d v) :
    height d w = Finset.univ.sup d - d v := by
  rw [height, (mem_children.mp hw).2]; omega

theorem subtreeString_eq (colors : Fin g.n → Option KString) (v : Fin g.n) :
    subtreeString g d colors v = '(' :: (colors v).getD ['*'] ++
      (sortNative ((children g d v).map (subtreeString g d colors))).flatten ++ [')'] := by
  have hmap : (children g d v).map (treeString g d colors (Finset.univ.sup d - d v)) =
      (children g d v).map (subtreeString g d colors) :=
    List.map_congr_left fun w hw => by rw [subtreeString, height_child hw]
  rw [subtreeString, height_pos, treeString, hmap]

theorem subtreeNodes_eq (v : Fin g.n) :
    subtreeNodes g d v = v :: (children g d v).flatMap (subtreeNodes g d) := by
  have hmap : (children g d v).flatMap (treeNodes g d (Finset.univ.sup d - d v)) =
      (children g d v).flatMap (subtreeNodes g d) :=
    List.flatMap_congr fun w hw => by rw [subtreeNodes, height_child hw]
  rw [subtreeNodes, height_pos, treeNodes, hmap]

/-! ### Subtrees -/

theorem descends_le {v w : Fin g.n} (h : Descends g d v w) : d v ≤ d w := by
  induction h with
  | refl => exact le_rfl
  | tail _ hw ih => have := (mem_children.mp hw).2; omega

theorem descends_of_mem : ∀ {k : ℕ} {v w : Fin g.n}, w ∈ treeNodes g d k v → Descends g d v w
  | 0, _, _, h => by cases h
  | k + 1, v, w, h => by
    rw [treeNodes, List.mem_cons, List.mem_flatMap] at h
    rcases h with rfl | ⟨c, hc, hw⟩
    · exact .refl
    · exact (descends_of_mem hw).head hc

/-- Subtrees at different vertices of one level are disjoint. -/
theorem descends_unique [g.toCsr.Simple] (h : RootedTree g root d) {u v w : Fin g.n}
    (hu : Descends g d u w) (hv : Descends g d v w) (heq : d u = d v) : u = v := by
  induction hu generalizing v with
  | refl =>
    cases hv with
    | refl => rfl
    | tail hy hw =>
      have := descends_le hy
      have := (mem_children.mp hw).2
      omega
  | tail hy hw ih =>
    cases hv with
    | refl =>
      have := descends_le hy
      have := (mem_children.mp hw).2
      omega
    | tail hy' hw' =>
      obtain ⟨ha, hd⟩ := mem_children.mp hw
      obtain ⟨ha', hd'⟩ := mem_children.mp hw'
      obtain rfl := h.unique (Graph.adj_symm_of_toCsr ha) (Graph.adj_symm_of_toCsr ha') hd hd'
      exact ih hy' heq

theorem treeNodes_nodup [g.toCsr.Simple] (h : RootedTree g root d) : ∀ (k : ℕ) (v : Fin g.n),
    (treeNodes g d k v).Nodup
  | 0, _ => List.nodup_nil
  | k + 1, v => by
    rw [treeNodes, List.nodup_cons, List.mem_flatMap, List.nodup_flatMap]
    refine ⟨?_, fun c _ => treeNodes_nodup h k c, ?_⟩
    · rintro ⟨c, hc, hv⟩
      have := descends_le (descends_of_mem hv)
      have := (mem_children.mp hc).2
      omega
    · have hnd : (children g d v).Nodup := (g.adj_nodup_of_toCsr v).filter _
      refine hnd.imp_of_mem fun {c c'} hc hc' hne x hx hx' => hne ?_
      exact descends_unique h (descends_of_mem hx) (descends_of_mem hx')
        ((mem_children.mp hc).2.trans (mem_children.mp hc').2.symm)

theorem length_subtreeNodes [g.toCsr.Simple] (h : RootedTree g root d) (v : Fin g.n) :
    (subtreeNodes g d v).length ≤ g.n := by
  have := (treeNodes_nodup h (height d v) v).length_le_card
  rwa [Fintype.card_fin] at this

/-! ### The loop -/

variable (colors : Fin g.n → Option KString)

/-- `par` is the neighbour above `v`, if there is one. -/
def EnteredFrom (g : Graph) (d : Fin g.n → ℕ) (par : Option (Fin g.n)) (v : Fin g.n) : Prop :=
  ∀ w ∈ g.adj v, some w = par ↔ d v = d w + 1

theorem filter_entered (h : RootedTree g root d) {par : Option (Fin g.n)} {v : Fin g.n}
    (hp : EnteredFrom g d par v) : (g.adj v).filter (fun w => some w ≠ par) = children g d v := by
  refine List.filter_congr fun w hw => ?_
  have hiff := hp w hw
  have hstep := h.step hw
  by_cases he : some w = par
  · have := hiff.mp he
    simp only [he, ne_eq, not_true_eq_false, decide_false]
    exact (decide_eq_false (by omega)).symm
  · have hne : d v ≠ d w + 1 := fun hd => he (hiff.mpr hd)
    simp only [he, ne_eq, not_false_eq_true, decide_true]
    exact (decide_eq_true (by omega)).symm

/-- What is known about the labelled vertices. -/
structure Labelled (colors : Fin g.n → Option KString) (root : Fin g.n) (d : Fin g.n → ℕ)
    (s : Encoder g.n) : Prop where
  registry : RegistryOk s.keys
  key : ∀ v, 0 ≤ s.labels v → HasKey s.keys (s.labels v)
    ⟨colors v, ((children g d v).map s.labels).insertionSort (· ≤ ·)⟩
  string : ∀ v, 0 ≤ s.labels v → stringOf s.keys (s.labels v) = subtreeString g d colors v
  closed : ∀ v, 0 ≤ s.labels v → ∀ w ∈ children g d v, 0 ≤ s.labels w
  descends : ∀ v, 0 ≤ s.labels v → Descends g d root v

/-- The part of a row that a frame has passed is labelled, except the vertices it must not look at:
    its parent and the frame `above` it. -/
def StackOk (root : Fin g.n) (d : Fin g.n → ℕ) (labels : Fin g.n → ℤ) :
    Option (Fin g.n) → List (Frame g.n) → Prop
  | _, [] => True
  | above, f :: below => EnteredFrom g d f.parent f.node ∧ Descends g d root f.node ∧
      (∃ passed, g.adj f.node = passed ++ f.rest ∧
        ∀ w ∈ passed, some w ≠ f.parent → 0 ≤ labels w ∨ some w = above) ∧
      StackOk root d labels (some f.node) below

/-- Twice the vertices that the frames have still to enter, and one for leaving each frame. -/
def potential (d : Fin g.n → ℕ) (stk : List (Frame g.n)) : ℕ :=
  (stk.map fun f => 1 + 2 * ((f.rest.filter fun w => some w ≠ f.parent).flatMap
    (subtreeNodes g d)).length).sum

/-- Between two turns. -/
structure Turn (colors : Fin g.n → Option KString) (root : Fin g.n) (d : Fin g.n → ℕ)
    (s : Encoder g.n) : Prop extends Labelled colors root d s where
  stack : StackOk root d s.labels none s.stk
  started : 0 ≤ s.labels root ∨ ∃ f ∈ s.stk, f.node = root

theorem stackOk_mono {labels labels' : Fin g.n → ℤ} {above above' : Option (Fin g.n)}
    (h : ∀ w, 0 ≤ labels w ∨ some w = above → 0 ≤ labels' w ∨ some w = above')
    (hmono : ∀ w, 0 ≤ labels w → 0 ≤ labels' w) : ∀ {stk : List (Frame g.n)},
    StackOk root d labels above stk → StackOk root d labels' above' stk
  | [], _ => trivial
  | _ :: _, ⟨he, hd, ⟨passed, hp, hl⟩, hb⟩ =>
    ⟨he, hd, ⟨passed, hp, fun w hw hne => h w (hl w hw hne)⟩,
      stackOk_mono (fun w hor => hor.imp_left (hmono w)) hmono hb⟩

variable {colors}

theorem Labelled.lt {s : Encoder g.n} (h : Labelled colors root d s) (v : Fin g.n)
    (hv : 0 ≤ s.labels v) : s.labels v < s.keys.length := (h.key v hv).lt

/-- Entering a child. -/
theorem turn_enter [g.toCsr.Simple] (h : RootedTree g root d) {s : Encoder g.n} {top : Frame g.n}
    {below : List (Frame g.n)} {child : Fin g.n} {skipped rest : List (Fin g.n)}
    (hs : Turn colors root d s) (hstk : s.stk = top :: below)
    (hrest : top.rest = skipped ++ child :: rest) (hskip : ∀ w ∈ skipped, some w = top.parent)
    (hchild : some child ≠ top.parent) :
    let stk := ⟨child, some top.node, g.adj child⟩ :: { top with rest := rest } :: below
    Turn colors root d { s with stk := stk } ∧ potential d stk + 1 = potential d s.stk := by
  have hstack := hs.stack
  rw [hstk] at hstack
  obtain ⟨hent, hdesc, ⟨passed, hp, hl⟩, hb⟩ := hstack
  have hmem : child ∈ children g d top.node := by
    rw [← filter_entered h hent, List.mem_filter, hp, hrest]
    exact ⟨by simp, by simpa using hchild⟩
  obtain ⟨hadj, hd⟩ := mem_children.mp hmem
  have hent' : EnteredFrom g d (some top.node) child := by
    intro w hw
    rw [Option.some.injEq]
    constructor
    · rintro rfl; exact hd
    · intro hw'; exact h.unique hw (Graph.adj_symm_of_toCsr hadj) hw' hd
  refine ⟨⟨⟨hs.registry, hs.key, hs.string, hs.closed, hs.descends⟩, ⟨hent', hdesc.tail hmem,
    ⟨[], rfl, by simp⟩, hent, hdesc, ⟨passed ++ skipped ++ [child], ?_, fun w hw hne => ?_⟩, hb⟩, ?_⟩, ?_⟩
  · rw [hp, hrest]; simp
  · rw [List.mem_append, List.mem_append, List.mem_singleton] at hw
    rcases hw with (hw | hw) | rfl
    · exact (hl w hw hne).imp_right fun h => by cases h
    · exact absurd (hskip w hw) hne
    · exact Or.inr rfl
  · refine hs.started.imp_right fun ⟨f, hf, hr⟩ => ?_
    rw [hstk] at hf
    rcases List.mem_cons.mp hf with rfl | hf
    · exact ⟨{ f with rest := rest }, by simp, hr⟩
    · exact ⟨f, by simp [hf], hr⟩
  · have hfilter : top.rest.filter (fun w => some w ≠ top.parent) =
        child :: rest.filter fun w => some w ≠ top.parent := by
      rw [hrest, List.filter_append, List.filter_cons_of_pos (by simpa using hchild),
        List.filter_eq_nil_iff.mpr (fun w hw => by simpa using hskip w hw), List.nil_append]
    rw [hstk, potential, potential, List.map_cons, List.map_cons, List.map_cons, List.sum_cons,
      List.sum_cons, List.sum_cons, hfilter, List.flatMap_cons, List.length_append,
      subtreeNodes_eq child, List.length_cons]
    dsimp only
    rw [filter_entered h hent']
    omega

/-- Labelling a vertex and leaving it. -/
theorem turn_leave [g.toCsr.Simple] (h : RootedTree g root d) {s : Encoder g.n} {top : Frame g.n}
    {below : List (Frame g.n)} (hs : Turn colors root d s) (hstk : s.stk = top :: below)
    (hskip : ∀ w ∈ top.rest, some w = top.parent) :
    let ch := ((g.adj top.node).filter fun w => some w ≠ top.parent).map s.labels
    let p := internKey s.keys ⟨colors top.node, ch.insertionSort (· ≤ ·)⟩
    Turn colors root d { stk := below, labels := Function.update s.labels top.node p.1, keys := p.2 } ∧
      potential d below + 1 = potential d s.stk := by
  have hstack := hs.stack
  rw [hstk] at hstack
  obtain ⟨hent, hdesc, ⟨passed, hp, hl⟩, hb⟩ := hstack
  dsimp only
  rw [filter_entered h hent]
  have hch : ∀ w ∈ children g d top.node, 0 ≤ s.labels w := by
    intro w hw
    rw [← filter_entered h hent, List.mem_filter, hp] at hw
    obtain ⟨hw, hne⟩ := hw
    have hne : some w ≠ top.parent := by simpa using hne
    rcases List.mem_append.mp hw with hw | hw
    · exact (hl w hw hne).resolve_right fun h => by cases h
    · exact absurd (hskip w hw) hne
  have hvalid : Valid s.keys (((children g d top.node).map s.labels).insertionSort (· ≤ ·)) := by
    intro c hc
    obtain ⟨w, hw, rfl⟩ := List.mem_map.mp ((List.mem_insertionSort _).mp hc)
    exact ⟨hch w hw, hs.lt w (hch w hw)⟩
  obtain ⟨hreg, ⟨more, hmore⟩, hkey, hstring⟩ := internKey_spec (k := ⟨colors top.node,
    ((children g d top.node).map s.labels).insertionSort (· ≤ ·)⟩) hs.registry hvalid
  have hrender : renderKey (strings s.keys) ⟨colors top.node,
      ((children g d top.node).map s.labels).insertionSort (· ≤ ·)⟩ =
      subtreeString g d colors top.node := by
    have hperm : ((((children g d top.node).map s.labels).insertionSort (· ≤ ·)).map
        fun c => (strings s.keys).getD c.toNat []).Perm
        ((children g d top.node).map (subtreeString g d colors)) := by
      refine ((List.perm_insertionSort _ _).map _).trans ?_
      rw [List.map_map]
      exact List.Perm.of_eq (List.map_congr_left fun w hw => hs.string w (hch w hw))
    rw [renderKey, subtreeString_eq]
    dsimp only
    rw [sortNative_eq_of_perm hperm]
  generalize internKey s.keys ⟨colors top.node,
    ((children g d top.node).map s.labels).insertionSort (· ≤ ·)⟩ = p at hreg hmore hkey hstring
  -- a vertex that has its label already gets it once more
  have hsame : ∀ w, 0 ≤ s.labels w → Function.update s.labels top.node p.1 w = s.labels w := by
    intro w hw
    by_cases he : w = top.node
    · subst he
      rw [Function.update_self]
      exact (hkey.eq_iff hreg.nodup (hmore ▸ (hs.key _ hw).append more)).mpr rfl
    · exact Function.update_of_ne he _ _
  have hchildren : ∀ v, (∀ w ∈ children g d v, 0 ≤ s.labels w) →
      (children g d v).map (Function.update s.labels top.node p.1) = (children g d v).map s.labels :=
    fun v hv => List.map_congr_left fun w hw => hsame w (hv w hw)
  have hmono : ∀ w, 0 ≤ s.labels w → 0 ≤ Function.update s.labels top.node p.1 w := fun w hw =>
    (hsame w hw).symm ▸ hw
  refine ⟨⟨⟨hreg, fun v hv => ?_, fun v hv => ?_, fun v hv w hw => ?_, fun v hv => ?_⟩, ?_, ?_⟩, ?_⟩
  · dsimp only at hv ⊢
    by_cases he : v = top.node
    · subst he
      rw [hchildren _ hch, Function.update_self]
      exact hkey
    · rw [Function.update_of_ne he] at hv ⊢
      rw [hchildren v (hs.closed v hv), hmore]
      exact (hs.key v hv).append more
  · dsimp only at hv ⊢
    by_cases he : v = top.node
    · subst he; rw [Function.update_self, hstring, hrender]
    · rw [Function.update_of_ne he] at hv ⊢
      rw [hmore, stringOf_append more hv (hs.lt v hv), hs.string v hv]
  · dsimp only at hv ⊢
    by_cases he : v = top.node
    · subst he; exact hmono w (hch w hw)
    · rw [Function.update_of_ne he] at hv
      exact hmono w (hs.closed v hv w hw)
  · dsimp only at hv
    by_cases he : v = top.node
    · subst he; exact hdesc
    · rw [Function.update_of_ne he] at hv
      exact hs.descends v hv
  · refine stackOk_mono (fun w hw => Or.inl ?_) hmono hb
    rcases hw with hw | hw
    · exact hmono w hw
    · rw [Option.some.inj hw, Function.update_self]; exact hkey.1
  · rcases hs.started with hr | ⟨f, hf, hr⟩
    · exact Or.inl (hmono root hr)
    · rw [hstk] at hf
      rcases List.mem_cons.mp hf with rfl | hf
      · left
        dsimp only
        rw [← hr, Function.update_self]; exact hkey.1
      · exact Or.inr ⟨f, hf, hr⟩
  · have hnil : top.rest.filter (fun w => some w ≠ top.parent) = [] :=
      List.filter_eq_nil_iff.mpr fun w hw => by simpa using hskip w hw
    rw [hstk, potential, potential, List.map_cons, List.sum_cons, hnil]
    simp only [List.flatMap_nil, List.length_nil]
    omega

theorem turn_step [g.toCsr.Simple] (h : RootedTree g root d) {s : Encoder g.n} (hs : Turn colors root d s)
    (hne : s.stk ≠ []) : Turn colors root d (encodeStep g.toCsr colors s) ∧
      potential d (encodeStep g.toCsr colors s).stk + 1 = potential d s.stk := by
  obtain ⟨top, below, hstk⟩ := List.exists_cons_of_ne_nil hne
  have hsplit := List.takeWhile_append_dropWhile (p := fun w => decide (some w = top.parent)) (l := top.rest)
  have htake : ∀ w ∈ top.rest.takeWhile fun w => decide (some w = top.parent), some w = top.parent :=
    fun w hw => by simpa using List.all_eq_true.mp List.all_takeWhile w hw
  rw [encodeStep, hstk]
  dsimp only
  simp only [Graph.row_toCsr]
  cases hdrop : top.rest.dropWhile fun w => decide (some w = top.parent) with
  | nil =>
    rw [hdrop, List.append_nil] at hsplit
    have := turn_leave h hs hstk fun w hw => htake w (by rw [hsplit]; exact hw)
    rw [hstk] at this
    exact this
  | cons child rest =>
    rw [hdrop] at hsplit
    have hchild : some child ≠ top.parent := by
      have := List.head?_dropWhile_not (fun w => decide (some w = top.parent)) top.rest
      rw [hdrop] at this
      simpa using this
    have := turn_enter h hs hstk hsplit.symm htake hchild
    rw [hstk] at this
    exact this

theorem encodeRun_spec [g.toCsr.Simple] (h : RootedTree g root d) : ∀ (fuel : ℕ) {s : Encoder g.n},
    Turn colors root d s → potential d s.stk ≤ fuel →
      ∃ s', encodeRun g.toCsr colors fuel s = some s' ∧ s'.stk = [] ∧ Turn colors root d s'
  | 0, s, hs, hk => by
    have hnil : s.stk = [] := by
      by_contra hne
      have := (turn_step h hs hne).2
      omega
    exact ⟨s, by rw [encodeRun, if_pos hnil], hnil, hs⟩
  | fuel + 1, s, hs, hk => by
    rw [encodeRun]
    by_cases hnil : s.stk = []
    · exact ⟨s, if_pos hnil, hnil, hs⟩
    · obtain ⟨hs', hpot⟩ := turn_step h hs hnil
      rw [if_neg hnil]
      exact encodeRun_spec h fuel hs' (by omega)

theorem encodeStep_keys {n : ℕ} (csr : Csr n) (colors : Fin n → Option KString) (s : Encoder n) :
    s.keys <+: (encodeStep csr colors s).keys := by
  unfold encodeStep
  split
  · exact List.prefix_rfl
  · split
    · exact List.prefix_rfl
    · dsimp only
      unfold internKey
      split
      · exact List.prefix_rfl
      · exact List.prefix_append _ _

/-- The registry only grows. -/
theorem encodeRun_keys {n : ℕ} {csr : Csr n} {colors : Fin n → Option KString} : ∀ {fuel : ℕ}
    {s s' : Encoder n}, encodeRun csr colors fuel s = some s' → s.keys <+: s'.keys
  | 0, s, s', h => by
    rw [encodeRun] at h
    split at h
    · cases h
      exact List.prefix_rfl
    · cases h
  | fuel + 1, s, s', h => by
    rw [encodeRun] at h
    split at h
    · cases h
      exact List.prefix_rfl
    · exact (encodeStep_keys csr colors s).trans (encodeRun_keys h)

/-- On a rooted tree the encoder ends, from any registry, and labels exactly the subtree of the
    root. -/
theorem encodeTree_spec [g.toCsr.Simple] (h : RootedTree g root d) {keys : List Key}
    (hkeys : RegistryOk keys) : ∃ s, encodeTree g.toCsr colors root keys = some s ∧
      Labelled colors root d s ∧ ∀ v, 0 ≤ s.labels v ↔ Descends g d root v := by
  have hent : EnteredFrom g d none root := fun w hw => by
    have := h.root hw
    simp only [reduceCtorEq, false_iff]
    omega
  have hstart : Turn colors root d ⟨[⟨root, none, g.toCsr.row root⟩], fun _ => -1, keys⟩ :=
    ⟨⟨hkeys, fun v hv => by simp at hv, fun v hv => by simp at hv, fun v hv => by simp at hv,
      fun v hv => by simp at hv⟩, ⟨hent, .refl, ⟨[], by simp, by simp⟩, trivial⟩,
      Or.inr ⟨_, List.mem_singleton.mpr rfl, rfl⟩⟩
  have hpot : potential d [(⟨root, none, g.toCsr.row root⟩ : Frame g.n)] ≤ 2 * g.n := by
    have hlen := length_subtreeNodes h root
    rw [subtreeNodes_eq, List.length_cons, ← filter_entered h hent] at hlen
    simp only [potential, Graph.row_toCsr, List.map_cons, List.map_nil, List.sum_cons, List.sum_nil]
    omega
  obtain ⟨s, hs, hnil, hturn⟩ := encodeRun_spec h (2 * g.n) hstart hpot
  refine ⟨s, hs, hturn.toLabelled, fun v => ⟨hturn.descends v, fun hv => ?_⟩⟩
  have hroot : 0 ≤ s.labels root := hturn.started.resolve_right (by simp [hnil])
  induction hv with
  | refl => exact hroot
  | tail _ hw ih => exact hturn.closed _ ih _ hw

/-- On a rooted tree the encoder ends, labels exactly the subtree of the root, and every label
    stands for the canonical string of its vertex. -/
theorem computeLabels_spec [g.toCsr.Simple] (h : RootedTree g root d) :
    ∃ s, computeLabels g.toCsr colors root = some s ∧ (∀ v, 0 ≤ s.labels v ↔ Descends g d root v) ∧
      ∀ v, 0 ≤ s.labels v → s.labels v < s.keys.length ∧
        stringOf s.keys (s.labels v) = subtreeString g d colors v := by
  obtain ⟨s, hs, hlabelled, hdescends⟩ := encodeTree_spec h registryOk_nil
  exact ⟨s, hs, hdescends, fun v hv => ⟨hlabelled.lt v hv, hlabelled.string v hv⟩⟩

/-! ### Isomorphic trees -/

section Iso
variable {h : Graph} {e : Fin g.n ≃ Fin h.n} {d' : Fin h.n → ℕ}

theorem children_iso [g.Simple] [h.Simple] (he : Graph.IsIso g h e) (hd : ∀ v, d' (e v) = d v)
    (v : Fin g.n) : ((children g d v).map e).Perm (children h d' (e v)) := by
  have := (he.adj_perm v).filter fun w => d' w = d' (e v) + 1
  rw [List.filter_map] at this
  rwa [List.filter_congr (l := g.adj v) (q := fun w => decide (d w = d v + 1))
    fun w _ => by simp [hd]] at this

theorem height_iso (hd : ∀ v, d' (e v) = d v) (v : Fin g.n) : height d' (e v) = height d v := by
  have hsup : Finset.univ.sup d' = Finset.univ.sup d := by
    refine le_antisymm (Finset.sup_le fun w _ => ?_) (Finset.sup_le fun v _ => ?_)
    · obtain ⟨v, rfl⟩ := e.surjective w
      rw [hd]; exact Finset.le_sup (Finset.mem_univ v)
    · rw [← hd]; exact Finset.le_sup (Finset.mem_univ (e v))
  rw [height, height, hsup, hd]

/-- Isomorphic coloured trees have the same canonical strings. -/
theorem subtreeString_iso [g.Simple] [h.Simple] (he : Graph.IsIso g h e) (hd : ∀ v, d' (e v) = d v)
    {colors : Fin g.n → Option KString} {colors' : Fin h.n → Option KString}
    (hcolors : ∀ v, colors' (e v) = colors v) (v : Fin g.n) :
    subtreeString h d' colors' (e v) = subtreeString g d colors v := by
  have htree : ∀ (k : ℕ) (v : Fin g.n), treeString h d' colors' k (e v) = treeString g d colors k v := by
    intro k
    induction k with
    | zero => exact fun _ => rfl
    | succ k ih =>
      intro v
      have hperm : ((children h d' (e v)).map (treeString h d' colors' k)).Perm
          ((children g d v).map (treeString g d colors k)) := by
        refine ((children_iso he hd v).symm.map _).trans ?_
        rw [List.map_map]
        exact List.Perm.of_eq (List.map_congr_left fun w _ => ih w)
      rw [treeString, treeString, hcolors, sortNative_eq_of_perm hperm]
  rw [subtreeString, subtreeString, height_iso hd, htree]

theorem descends_iso [g.Simple] [h.Simple] (he : Graph.IsIso g h e) (hd : ∀ v, d' (e v) = d v)
    (u v : Fin g.n) : Descends h d' (e u) (e v) ↔ Descends g d u v := by
  have hchild : ∀ x y, e y ∈ children h d' (e x) ↔ y ∈ children g d x := fun x y => by
    rw [mem_children, mem_children, hd, hd, ← he x y]
  constructor
  · intro hr
    have := Relation.ReflTransGen.lift (p := fun v w => w ∈ children g d v) e.symm
      (r := fun v w => w ∈ children h d' v)
      (fun x y hxy => (hchild (e.symm x) (e.symm y)).mp (by simpa using hxy)) _ _ hr
    rw [Descends]
    simpa [Function.onFun] using this
  · exact Relation.ReflTransGen.lift (p := fun v w => w ∈ children h d' v) e
      (fun x y hxy => (hchild x y).mpr hxy) u v

end Iso

end Dialysis.Ahu
