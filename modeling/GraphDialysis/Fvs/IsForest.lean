import GraphDialysis.Graph.SimpleGraph
import GraphDialysis.Lib.Forest

/-! The `isForest` of `dialysis.fvs.FeedbackVertexSet`: a depth-first search that remembers the
    parent of every vertex on its stack and gives up on a visited neighbour that is not the parent.
    `isForest_spec`: it ends, and says whether the graph without the excluded vertices has no
    cycle. The proof keeps the visited vertices in order of discovery: until the search gives up
    every vertex has one older neighbour at most, and when it does, one has two. -/

namespace Dialysis

namespace Fvs
open Lib Dialysis.Graph

/-- What has been visited, and the stack, its top first; each entry carries the parent. -/
structure Dfs (n : ℕ) where
  visited : Finset (Fin n)
  stack : List (Fin n × Option (Fin n))

variable {g : Graph} {excluded : Finset (Fin g.n)}

/-- One neighbour `w` of the vertex `v` that has been popped; `none` when it closes a cycle. -/
def look {n : ℕ} (excluded : Finset (Fin n)) (v : Fin n) (parent : Option (Fin n)) (s : Dfs n)
    (w : Fin n) : Option (Dfs n) :=
  if w ∈ excluded then some s
  else if w ∉ s.visited then some ⟨insert w s.visited, (w, some v) :: s.stack⟩
  else if some w ≠ parent then none
  else some s

/-- The search from what is on the stack: what it has visited, or `none` when it gives up. The first
    argument bounds the number of pops. -/
def dfs (g : Graph) (excluded : Finset (Fin g.n)) :
    ℕ → Dfs g.n → Except String (Option (Finset (Fin g.n)))
  | _, ⟨visited, []⟩ => .ok (some visited)
  | 0, _ => .error "more pops than vertices"
  | k + 1, ⟨visited, (v, parent) :: stack⟩ =>
    match (g.adj v).foldlM (look excluded v parent) ⟨visited, stack⟩ with
    | none => .ok none
    | some s => dfs g excluded k s

/-- The outer loop of `isForest`. -/
def isForestFrom (g : Graph) (excluded : Finset (Fin g.n)) :
    List (Fin g.n) → Finset (Fin g.n) → Except String Bool
  | [], _ => .ok true
  | start :: starts, visited =>
    if start ∈ excluded ∨ start ∈ visited then isForestFrom g excluded starts visited
    else
      match dfs g excluded g.n ⟨insert start visited, [(start, none)]⟩ with
      | .error e => .error e
      | .ok none => .ok false
      | .ok (some visited) => isForestFrom g excluded starts visited

/-- True iff the graph restricted to all vertices except the excluded ones is acyclic. -/
def isForest (g : Graph) (excluded : Finset (Fin g.n)) : Except String Bool :=
  isForestFrom g excluded (List.finRange g.n) ∅

/-! ### One vertex -/

/-- The neighbours that a pop discovers. -/
def discovered {n : ℕ} (excluded visited : Finset (Fin n)) (ws : List (Fin n)) : List (Fin n) :=
  ws.filter fun w => w ∉ excluded ∧ w ∉ visited

theorem mem_discovered {n : ℕ} {excluded visited : Finset (Fin n)} {ws : List (Fin n)}
    {w : Fin n} : w ∈ discovered excluded visited ws ↔ w ∈ ws ∧ w ∉ excluded ∧ w ∉ visited := by
  simp [discovered]

/-- The inner loop: it gives up on a neighbour that was visited before and is not the parent, and
    otherwise pushes what it discovers. -/
theorem look_foldlM {n : ℕ} (excluded : Finset (Fin n)) (v : Fin n) (parent : Option (Fin n)) :
    ∀ {ws : List (Fin n)} (s : Dfs n), ws.Nodup →
      ((∃ w ∈ ws, w ∉ excluded ∧ w ∈ s.visited ∧ some w ≠ parent) ∧
          ws.foldlM (look excluded v parent) s = none) ∨
        (∀ w ∈ ws, w ∉ excluded → w ∈ s.visited → some w = parent) ∧
          ws.foldlM (look excluded v parent) s = some
            ⟨s.visited ∪ (discovered excluded s.visited ws).toFinset,
              (discovered excluded s.visited ws).reverse.map (fun w => (w, some v)) ++ s.stack⟩
  | [], s, _ => Or.inr ⟨by simp, by simp [discovered]⟩
  | w :: ws, s, hnd => by
    obtain ⟨hw, hws⟩ := List.nodup_cons.mp hnd
    rw [List.foldlM_cons, look]
    by_cases hexc : w ∈ excluded
    · rw [if_pos hexc, Option.bind_eq_bind, Option.bind_some]
      have hsame : discovered excluded s.visited (w :: ws) = discovered excluded s.visited ws :=
        List.filter_cons_of_neg (by simp [hexc])
      rw [hsame]
      rcases look_foldlM excluded v parent s hws with ⟨⟨x, hx, h⟩, he⟩ | ⟨h, he⟩
      · exact Or.inl ⟨⟨x, List.mem_cons_of_mem _ hx, h⟩, he⟩
      · refine Or.inr ⟨fun x hx hnot => ?_, he⟩
        rcases List.mem_cons.mp hx with rfl | hx
        · exact absurd hexc hnot
        · exact h x hx hnot
    rw [if_neg hexc]
    by_cases hvis : w ∈ s.visited
    · rw [if_neg (not_not.mpr hvis)]
      have hsame : discovered excluded s.visited (w :: ws) = discovered excluded s.visited ws :=
        List.filter_cons_of_neg (by simp [hvis])
      rw [hsame]
      by_cases hpar : some w = parent
      · rw [if_neg (not_not.mpr hpar), Option.bind_eq_bind, Option.bind_some]
        rcases look_foldlM excluded v parent s hws with ⟨⟨x, hx, h⟩, he⟩ | ⟨h, he⟩
        · exact Or.inl ⟨⟨x, List.mem_cons_of_mem _ hx, h⟩, he⟩
        · refine Or.inr ⟨fun x hx hnot hxv => ?_, he⟩
          rcases List.mem_cons.mp hx with rfl | hx
          · exact hpar
          · exact h x hx hnot hxv
      · rw [if_pos hpar]
        exact Or.inl ⟨⟨w, by simp, hexc, hvis, hpar⟩, rfl⟩
    · rw [if_pos hvis, Option.bind_eq_bind, Option.bind_some]
      -- what is discovered later is not `w`
      have hrest : discovered excluded (insert w s.visited) ws = discovered excluded s.visited ws :=
        List.filter_congr fun x hx => by
          have hne : x ≠ w := fun he => hw (he ▸ hx)
          simp [hne]
      have hcons : discovered excluded s.visited (w :: ws) =
          w :: discovered excluded s.visited ws := List.filter_cons_of_pos (by simp [hexc, hvis])
      rcases look_foldlM excluded v parent ⟨insert w s.visited, (w, some v) :: s.stack⟩ hws with
        ⟨⟨x, hx, hnot, hxv, hpar⟩, he⟩ | ⟨h, he⟩
      · refine Or.inl ⟨⟨x, List.mem_cons_of_mem _ hx, hnot, ?_, hpar⟩, he⟩
        exact (Finset.mem_insert.mp hxv).resolve_left fun he => hw (he ▸ hx)
      · refine Or.inr ⟨fun x hx hnot hxv => ?_, ?_⟩
        · rcases List.mem_cons.mp hx with rfl | hx
          · exact absurd hxv hvis
          · exact h x hx hnot (Finset.mem_insert_of_mem hxv)
        · rw [he, hcons, hrest]
          simp [Finset.insert_union, Finset.union_insert]

/-! ### One search -/

variable [g.Simple]

/-- The vertices of the current search, latest first, after the searches before it listed `base`. -/
structure SearchInv (g : Graph) [g.Simple] (excluded : Finset (Fin g.n)) (base cur : List (Fin g.n))
    (s : Dfs g.n) : Prop where
  visited : ∀ v, v ∈ s.visited ↔ v ∈ cur ∨ v ∈ base
  avoids : ∀ v ∈ s.visited, v ∉ excluded
  nodup : (cur ++ base).Nodup
  closed : ∀ v ∈ base, ∀ w ∈ g.adj v, w ∉ excluded → w ∈ base
  onStack : ∀ e ∈ s.stack, e.1 ∈ cur
  stackNodup : (s.stack.map Prod.fst).Nodup
  parent : ∀ e ∈ s.stack, (e.2 = none ∧ older cur e.1 = []) ∨
    ∃ p, e.2 = some p ∧ p ∈ older cur e.1 ∧ p ∈ g.adj e.1
  rooted : ∀ v ∈ cur, older cur v = [] ∨
    ∃ u ∈ older cur v, u ∈ g.adj v ∧ u ∉ s.stack.map Prod.fst
  done : ∀ v ∈ cur, v ∉ s.stack.map Prod.fst → (∀ w ∈ g.adj v, w ∉ excluded → w ∈ cur) ∧
    degreeIn g.simpleGraph (older cur v).toFinset v ≤ 1

namespace SearchInv
variable {base cur : List (Fin g.n)} {s : Dfs g.n} {visited : Finset (Fin g.n)}
  {stack : List (Fin g.n × Option (Fin g.n))} {v w : Fin g.n} {parent : Option (Fin g.n)}

/-- No edge leads from the current search to an earlier one. -/
theorem mem_cur (h : SearchInv g excluded base cur s) (hv : v ∈ cur) (hw : w ∈ g.adj v)
    (hwv : w ∈ s.visited) : w ∈ cur := by
  refine ((h.visited w).mp hwv).resolve_right fun hbase => ?_
  have hvbase := h.closed w hbase v (Graph.Simple.symm hw)
    (h.avoids v ((h.visited v).mpr (Or.inl hv)))
  exact (List.nodup_append.mp h.nodup).2.2 v hv v hvbase rfl

/-- A visited neighbour that is not the parent closes a cycle. -/
theorem not_forestOn (h : SearchInv g excluded base cur ⟨visited, (v, parent) :: stack⟩)
    (hw : w ∈ g.adj v) (hwv : w ∈ visited) (hpar : some w ≠ parent) :
    ¬ForestOn g.simpleGraph (Finset.univ \ excluded) := by
  have hv : v ∈ cur := h.onStack (v, parent) (by simp)
  have hwcur : w ∈ cur := h.mem_cur hv hw hwv
  have hne : w ≠ v := fun he => Graph.Simple.irrefl v (he ▸ hw)
  have hsub : cur.toFinset ⊆ Finset.univ \ excluded := fun x hx =>
    Finset.mem_sdiff.mpr ⟨Finset.mem_univ x,
      h.avoids x ((h.visited x).mpr (Or.inl (List.mem_toFinset.mp hx)))⟩
  have hrooted : Rooted g.simpleGraph cur := fun x hx =>
    (h.rooted x hx).imp_right fun ⟨u, hu, hadj, _⟩ => ⟨u, hu, hadj⟩
  have hnd : cur.Nodup := (List.nodup_append.mp h.nodup).1
  intro hforest
  rcases mem_older_or_mem_older hwcur hv hne with holder | holder
  · -- `w` is older than `v`, and so is the parent of `v`
    rcases h.parent (v, parent) (by simp) with ⟨-, hnil⟩ | ⟨p, hp, hpolder, hadj⟩
    · simp only at hnil
      rw [hnil] at holder
      cases holder
    · refine hrooted.not_forestOn hnd hv (two_le_degreeIn_iff.mpr ⟨p, List.mem_toFinset.mpr hpolder,
        w, List.mem_toFinset.mpr holder, fun he => hpar (he ▸ hp.symm), hadj, hw⟩)
        (hforest.mono hsub)
  · -- `v` is older than `w`, and so is the vertex that discovered `w`
    rcases h.rooted w hwcur with hnil | ⟨u, hu, hadj, hustack⟩
    · rw [hnil] at holder
      cases holder
    · refine hrooted.not_forestOn hnd hwcur (two_le_degreeIn_iff.mpr ⟨u, List.mem_toFinset.mpr hu,
        v, List.mem_toFinset.mpr holder, ?_, hadj, Graph.Simple.symm hw⟩) (hforest.mono hsub)
      rintro rfl
      exact hustack (by simp)

/-- A pop that does not give up. -/
theorem pop (h : SearchInv g excluded base cur ⟨visited, (v, parent) :: stack⟩)
    (hpar : ∀ w ∈ g.adj v, w ∉ excluded → w ∈ visited → some w = parent) :
    SearchInv g excluded base ((discovered excluded visited (g.adj v)).reverse ++ cur)
      ⟨visited ∪ (discovered excluded visited (g.adj v)).toFinset,
        (discovered excluded visited (g.adj v)).reverse.map (fun w => (w, some v)) ++ stack⟩ := by
  have hv : v ∈ cur := h.onStack (v, parent) (by simp)
  obtain ⟨fresh, hfresh⟩ : ∃ fresh, fresh = (discovered excluded visited (g.adj v)).reverse :=
    ⟨_, rfl⟩
  have hmem : ∀ w, w ∈ fresh ↔ w ∈ g.adj v ∧ w ∉ excluded ∧ w ∉ visited := fun w => by
    rw [hfresh, List.mem_reverse, mem_discovered]
  have hfin : (discovered excluded visited (g.adj v)).toFinset = fresh.toFinset := by
    rw [hfresh, List.toFinset_reverse]
  have hfreshNodup : fresh.Nodup := hfresh ▸ List.nodup_reverse.mpr ((g.adj_nodup v).filter _)
  have hnew : ∀ w ∈ fresh, w ∉ cur ∧ w ∉ base := fun w hw =>
    ⟨fun hc => ((hmem w).mp hw).2.2 ((h.visited w).mpr (Or.inl hc)),
      fun hb => ((hmem w).mp hw).2.2 ((h.visited w).mpr (Or.inr hb))⟩
  have hkeep : ∀ u ∈ cur, older (fresh ++ cur) u = older cur u := fun u hu =>
    older_append_of_notMem cur fun hf => (hnew u hf).1 hu
  have hfirst : (fresh.map (fun w => (w, some v)) ++ stack).map Prod.fst =
      fresh ++ stack.map Prod.fst := by
    rw [List.map_append, List.map_map]
    exact congrArg (· ++ _) (List.map_id fresh)
  have hstackNodup := h.stackNodup
  rw [List.map_cons, List.nodup_cons] at hstackNodup
  rw [← hfresh, hfin]
  refine ⟨fun u => ?_, fun u hu => ?_, ?_, h.closed, fun e he => ?_, ?_, fun e he => ?_,
    fun u hu => ?_, fun u hu hus => ?_⟩
  · rw [Finset.mem_union, List.mem_toFinset, List.mem_append, h.visited u]
    tauto
  · rcases Finset.mem_union.mp hu with hu | hu
    · exact h.avoids u hu
    · exact ((hmem u).mp (List.mem_toFinset.mp hu)).2.1
  · rw [List.append_assoc]
    refine List.nodup_append.mpr ⟨hfreshNodup, h.nodup, fun a ha b hb hab => ?_⟩
    rcases List.mem_append.mp hb with hb | hb
    · exact (hnew a ha).1 (hab ▸ hb)
    · exact (hnew a ha).2 (hab ▸ hb)
  · rcases List.mem_append.mp he with he | he
    · obtain ⟨w, hw, rfl⟩ := List.mem_map.mp he
      exact List.mem_append_left _ hw
    · exact List.mem_append_right _ (h.onStack e (List.mem_cons_of_mem _ he))
  · rw [hfirst]
    refine List.nodup_append.mpr ⟨hfreshNodup, hstackNodup.2, fun a ha b hb hab => ?_⟩
    obtain ⟨e, he, rfl⟩ := List.mem_map.mp hb
    exact (hnew a ha).1 (hab ▸ h.onStack e (List.mem_cons_of_mem _ he))
  · rcases List.mem_append.mp he with he | he
    · obtain ⟨w, hw, rfl⟩ := List.mem_map.mp he
      refine Or.inr ⟨v, rfl, ?_, Graph.Simple.symm ((hmem w).mp hw).1⟩
      rw [older_append_of_mem cur hw]
      exact List.mem_append_right _ hv
    · rw [hkeep e.1 (h.onStack e (List.mem_cons_of_mem _ he))]
      exact h.parent e (List.mem_cons_of_mem _ he)
  · rw [hfirst]
    rcases List.mem_append.mp hu with hu | hu
    · refine Or.inr ⟨v, ?_, Graph.Simple.symm ((hmem u).mp hu).1, ?_⟩
      · rw [older_append_of_mem cur hu]
        exact List.mem_append_right _ hv
      · rw [List.mem_append, not_or]
        exact ⟨fun hf => (hnew v hf).1 hv, hstackNodup.1⟩
    · rw [hkeep u hu]
      refine (h.rooted u hu).imp_right fun ⟨x, hx, hadj, hxs⟩ => ⟨x, hx, hadj, ?_⟩
      rw [List.map_cons, List.mem_cons, not_or] at hxs
      rw [List.mem_append, not_or]
      exact ⟨fun hf => (hnew x hf).1 (mem_of_mem_older hx), hxs.2⟩
  · rw [hfirst, List.mem_append, not_or] at hus
    have hucur : u ∈ cur := (List.mem_append.mp hu).resolve_left hus.1
    rw [hkeep u hucur]
    rcases eq_or_ne u v with rfl | hne
    · -- the vertex that was popped
      refine ⟨fun w hw hexc => ?_, Finset.card_le_one.mpr fun a ha b hb => ?_⟩
      · by_cases hvis : w ∈ visited
        · exact List.mem_append_right _ (h.mem_cur hucur hw hvis)
        · exact List.mem_append_left _ ((hmem w).mpr ⟨hw, hexc, hvis⟩)
      · have hone : ∀ x ∈ (older cur u).toFinset.filter (g.simpleGraph.Adj u), some x = parent := by
          intro x hx
          obtain ⟨hx, hadj⟩ := Finset.mem_filter.mp hx
          have hxv := (h.visited x).mpr (Or.inl (mem_of_mem_older (List.mem_toFinset.mp hx)))
          exact hpar x hadj (h.avoids x hxv) hxv
        exact Option.some.inj ((hone a ha).trans (hone b hb).symm)
    · obtain ⟨hall, hdeg⟩ := h.done u hucur (by
        rw [List.map_cons, List.mem_cons, not_or]; exact ⟨hne, hus.2⟩)
      exact ⟨fun w hw hexc => List.mem_append_right _ (hall w hw hexc), hdeg⟩

end SearchInv

/-- A search ends within its bound, and gives up only when there is a cycle. -/
theorem dfs_spec {base : List (Fin g.n)} : ∀ (k : ℕ) (cur : List (Fin g.n)) (s : Dfs g.n),
    SearchInv g excluded base cur s → s.stack.length + (g.n - (cur ++ base).length) ≤ k →
      (∃ visited cur', dfs g excluded k s = .ok (some visited) ∧
        SearchInv g excluded base cur' ⟨visited, []⟩ ∧ cur <:+ cur') ∨
      dfs g excluded k s = .ok none ∧ ¬ForestOn g.simpleGraph (Finset.univ \ excluded)
  | k, cur, ⟨visited, []⟩, h, _ =>
    Or.inl ⟨visited, cur, by cases k <;> rfl, h, List.suffix_refl _⟩
  | 0, cur, ⟨visited, e :: stack⟩, _, hk => by simp at hk
  | k + 1, cur, ⟨visited, (v, parent) :: stack⟩, h, hk => by
    rcases look_foldlM excluded v parent ⟨visited, stack⟩ (g.adj_nodup v) with ⟨⟨w, hw, -, hwv, hpar⟩, he⟩ | ⟨hpar, he⟩
    · exact Or.inr ⟨by rw [dfs, he], h.not_forestOn hw hwv hpar⟩
    · have hpop := h.pop hpar
      have hlen : ((discovered excluded visited (g.adj v)).reverse ++ cur ++ base).length ≤ g.n := by
        simpa using hpop.nodup.length_le_card
      have hk' : ((discovered excluded visited (g.adj v)).reverse.map (fun w => (w, some v)) ++
          stack).length +
          (g.n - ((discovered excluded visited (g.adj v)).reverse ++ cur ++ base).length) ≤ k := by
        simp only [List.length_append, List.length_map, List.length_reverse, List.length_cons]
          at hk hlen ⊢
        omega
      rcases dfs_spec k _ _ hpop hk' with ⟨visited', cur', hok, hinv, hsuf⟩ | ⟨hnone, hnot⟩
      · exact Or.inl ⟨visited', cur', by rw [dfs, he]; exact hok, hinv,
          (List.suffix_append _ _).trans hsuf⟩
      · exact Or.inr ⟨by rw [dfs, he]; exact hnone, hnot⟩

/-! ### All searches -/

/-- What has been visited between two searches: a closed set, listed so that every vertex has at
    most one older neighbour. -/
structure ForestInv (g : Graph) [g.Simple] (excluded : Finset (Fin g.n)) (order : List (Fin g.n))
    (visited : Finset (Fin g.n)) : Prop where
  visited : ∀ v, v ∈ visited ↔ v ∈ order
  avoids : ∀ v ∈ order, v ∉ excluded
  nodup : order.Nodup
  closed : ∀ v ∈ order, ∀ w ∈ g.adj v, w ∉ excluded → w ∈ order
  older_le : ∀ v ∈ order, degreeIn g.simpleGraph (older order v).toFinset v ≤ 1

variable {order : List (Fin g.n)} {visited : Finset (Fin g.n)} {start : Fin g.n}

theorem ForestInv.search (h : ForestInv g excluded order visited) (hexc : start ∉ excluded)
    (hstart : start ∉ visited) :
    SearchInv g excluded order [start] ⟨insert start visited, [(start, none)]⟩ where
  visited := fun v => by rw [Finset.mem_insert, h.visited, List.mem_singleton]
  avoids := fun v hv => by
    rcases Finset.mem_insert.mp hv with rfl | hv
    · exact hexc
    · exact h.avoids v ((h.visited v).mp hv)
  nodup := List.nodup_cons.mpr ⟨fun hs => hstart ((h.visited start).mpr hs), h.nodup⟩
  closed := h.closed
  onStack := fun e he => by rw [List.mem_singleton.mp he]; simp
  stackNodup := by simp
  parent := fun e he => by rw [List.mem_singleton.mp he]; exact Or.inl ⟨rfl, by simp⟩
  rooted := fun v hv => by rw [List.mem_singleton.mp hv]; exact Or.inl (by simp)
  done := fun v hv hvs => absurd (by rw [List.mem_singleton.mp hv]; simp) hvs

theorem SearchInv.finished {base cur : List (Fin g.n)}
    (h : SearchInv g excluded base cur ⟨visited, []⟩)
    (hbase : ∀ v ∈ base, degreeIn g.simpleGraph (older base v).toFinset v ≤ 1) :
    ForestInv g excluded (cur ++ base) visited where
  visited := fun v => by rw [List.mem_append]; exact h.visited v
  avoids := fun v hv => h.avoids v ((h.visited v).mpr (List.mem_append.mp hv))
  nodup := h.nodup
  closed := fun v hv w hw hexc => by
    rcases List.mem_append.mp hv with hv | hv
    · exact List.mem_append_left _ ((h.done v hv (by simp)).1 w hw hexc)
    · exact List.mem_append_right _ (h.closed v hv w hw hexc)
  older_le := fun v hv => by
    by_cases hcur : v ∈ cur
    · -- nothing in `base` is a neighbour
      refine (Finset.card_le_card fun w hw => ?_).trans (h.done v hcur (by simp)).2
      obtain ⟨hw, hadj⟩ := Finset.mem_filter.mp hw
      rw [List.mem_toFinset, older_append_of_mem base hcur, List.mem_append] at hw
      refine Finset.mem_filter.mpr ⟨List.mem_toFinset.mpr (hw.resolve_right fun hb => ?_), hadj⟩
      have hwcur := h.mem_cur hcur hadj ((h.visited w).mpr (Or.inr hb))
      exact (List.nodup_append.mp h.nodup).2.2 w hwcur w hb rfl
    · rw [older_append_of_notMem base hcur]
      exact hbase v ((List.mem_append.mp hv).resolve_left hcur)

theorem isForestFrom_spec : ∀ (starts order : List (Fin g.n)) (visited : Finset (Fin g.n)),
    ForestInv g excluded order visited → (∀ v, v ∈ starts ∨ v ∈ excluded ∨ v ∈ order) →
      ∃ b, isForestFrom g excluded starts visited = .ok b ∧
        (b = true ↔ ForestOn g.simpleGraph (Finset.univ \ excluded))
  | [], order, visited, h, hall => by
    refine ⟨true, rfl, ⟨fun _ => ?_, fun _ => rfl⟩⟩
    have heq : Finset.univ \ excluded = order.toFinset := by
      ext v
      rw [Finset.mem_sdiff, List.mem_toFinset]
      exact ⟨fun hv => ((hall v).resolve_left (by simp)).resolve_left hv.2,
        fun hv => ⟨Finset.mem_univ v, h.avoids v hv⟩⟩
    rw [heq]
    exact forestOn_of_older h.nodup h.older_le
  | start :: starts, order, visited, h, hall => by
    rw [isForestFrom]
    split
    · rename_i hskip
      refine isForestFrom_spec starts order visited h fun v => ?_
      rcases hall v with hv | hv
      · rcases List.mem_cons.mp hv with rfl | hv
        · exact Or.inr (hskip.imp_right (h.visited v).mp)
        · exact Or.inl hv
      · exact Or.inr hv
    · rename_i hskip
      obtain ⟨hexc, hstart⟩ := not_or.mp hskip
      have hsearch := h.search hexc hstart
      have hfuel : 1 + (g.n - ([start] ++ order).length) ≤ g.n := by
        have := hsearch.nodup.length_le_card
        simp only [Fintype.card_fin, List.length_append, List.length_cons, List.length_nil] at this ⊢
        omega
      rcases dfs_spec g.n [start] _ hsearch hfuel with
        ⟨visited', cur, hok, hinv, hsuf⟩ | ⟨hnone, hnot⟩
      · rw [hok]
        refine isForestFrom_spec starts (cur ++ order) visited' (hinv.finished h.older_le)
          fun v => ?_
        rcases hall v with hv | hv | hv
        · rcases List.mem_cons.mp hv with rfl | hv
          · exact Or.inr (Or.inr (List.mem_append_left _ (hsuf.subset (by simp))))
          · exact Or.inl hv
        · exact Or.inr (Or.inl hv)
        · exact Or.inr (Or.inr (List.mem_append_right _ hv))
      · rw [hnone]
        exact ⟨false, rfl, ⟨fun hf => absurd hf (by simp), fun hforest => absurd hforest hnot⟩⟩

/-- The check ends, and accepts exactly when the graph without the excluded vertices has no cycle. -/
theorem isForest_spec (g : Graph) [g.Simple] (excluded : Finset (Fin g.n)) :
    ∃ b, isForest g excluded = .ok b ∧
      (b = true ↔ ForestOn g.simpleGraph (Finset.univ \ excluded)) :=
  isForestFrom_spec (List.finRange g.n) [] ∅ ⟨by simp, by simp, by simp, by simp, by simp⟩
    fun v => Or.inl (List.mem_finRange v)

end Fvs

end Dialysis
