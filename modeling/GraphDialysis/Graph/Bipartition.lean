import GraphDialysis.Graph.Basic
import GraphDialysis.Lib.Bfs

/-! `Graph.bipartition`: a two-colouring by breadth-first search, one search for every component,
    each giving side 0 to the vertex it starts from. A neighbour that already has the side of the
    vertex being expanded aborts with `null`. The two parts are proper sides when it returns them
    (`bipartition_proper`), and when it returns `null` there are none (`bipartition_eq_none_iff`).
    Components choose their sides independently: which side a vertex gets means something only
    relative to the other vertices of its component (`sides_agree`). -/

namespace Dialysis.Graph
open Lib.Bfs
variable (g : Graph)

/-- The other side, `1 - side[v]`. -/
def otherSide (a : Fin 2) : Fin 2 := 1 - a

/-- The check on a neighbour that has a side already. -/
def differs (a b : Fin 2) : Bool := decide (b ≠ a)

/-- One round of the outer loop: search from `start` unless it has a side. -/
def sideFrom (s : State (Fin g.n) (Fin 2)) (v : Fin g.n) : Option (State (Fin g.n) (Fin 2)) :=
  if s.label v ≠ none then some s else loop g.adj otherSide differs g.n (start s v 0)

/-- All rounds: every vertex with its side, in order of discovery. -/
def sideSearch : Option (State (Fin g.n) (Fin 2)) :=
  (List.finRange g.n).foldlM g.sideFrom ⟨fun _ => none, [], []⟩

/-- Two-coloring of the graph (per connected component independently), or none if any component
    is non-bipartite. -/
def bipartition : Option (List (Fin g.n) × List (Fin g.n)) :=
  g.sideSearch.map fun s =>
    (s.order.filter fun v => s.label v = some 0, s.order.filter fun v => s.label v = some 1)

/-- Side of a vertex as the encoders read it off: 0 everywhere when there is no bipartition. -/
def side (v : Fin g.n) : Fin 2 :=
  match g.bipartition with
  | none => 0
  | some (partA, _) => if v ∈ partA then 0 else 1

/-- A map to two values that differ along every edge. -/
def ProperSides (c : Fin g.n → Fin 2) : Prop := ∀ v w, w ∈ g.adj v → c w ≠ c v

variable {g} {s s' : State (Fin g.n) (Fin 2)}

theorem otherSide_ne (a : Fin 2) : otherSide a ≠ a := by
  revert a; decide

theorem eq_otherSide_of_ne {a b : Fin 2} (h : b ≠ a) : b = otherSide a := by
  revert a b; decide

theorem differs_otherSide (a : Fin 2) : differs a (otherSide a) = true :=
  decide_eq_true (otherSide_ne a)

/-! ### What the search returns -/

/-- Between two rounds the queue is empty, on top of what holds at every pop. -/
def Round (s : State (Fin g.n) (Fin 2)) : Prop := Inv g.adj differs s ∧ s.queue = []

theorem round_sideFrom {v : Fin g.n} (hs : Round s) (h : g.sideFrom s v = some s') :
    Round s' ∧ (s'.label v).isSome ∧ ∀ u b, s.label u = some b → s'.label u = some b := by
  unfold sideFrom at h
  split at h
  · rename_i hv
    obtain rfl := Option.some.inj h
    exact ⟨hs, Option.isSome_iff_ne_none.mpr hv, fun _ _ hu => hu⟩
  · rename_i hv
    have hv : s.label v = none := not_not.mp hv
    have hi := inv_start (b := 0) hs.1 hs.2 hv
    have hfuel : remaining (start s v 0) ≤ g.n :=
      (remaining_le hi.queue_nodup hi.queue_sub).trans_eq (Fintype.card_fin _)
    refine ⟨⟨inv_loop differs_otherSide hi h, loop_queue differs_otherSide _ _ _ hi hfuel h⟩, ?_, ?_⟩
    · rw [loop_mono h (u := v) (b := 0) (by simp [start])]; rfl
    · intro u b hu
      have : u ≠ v := by rintro rfl; rw [hv] at hu; simp at hu
      exact loop_mono h (by simp [start, this, hu])

theorem round_foldlM : ∀ {vs : List (Fin g.n)} {s : State (Fin g.n) (Fin 2)}, Round s →
    vs.foldlM g.sideFrom s = some s' →
    Round s' ∧ (∀ v ∈ vs, (s'.label v).isSome) ∧ ∀ u b, s.label u = some b → s'.label u = some b
  | [], s, hs, h => by
    rw [List.foldlM_nil] at h
    obtain rfl := Option.some.inj h
    exact ⟨hs, by simp, fun _ _ hu => hu⟩
  | v :: vs, s, hs, h => by
    rw [List.foldlM_cons] at h
    obtain ⟨t, ht, hrest⟩ := Option.bind_eq_some_iff.mp h
    obtain ⟨ht1, hv, hmono⟩ := round_sideFrom hs ht
    obtain ⟨hs', hvs, hmono'⟩ := round_foldlM ht1 hrest
    refine ⟨hs', fun x hx => ?_, fun u b hu => hmono' u b (hmono u b hu)⟩
    rcases List.mem_cons.mp hx with rfl | hx
    · obtain ⟨b, hb⟩ := Option.isSome_iff_exists.mp hv
      rw [hmono' _ _ hb]; rfl
    · exact hvs x hx

/-- A finished search gives every vertex a side, and neighbours different ones. -/
theorem sideSearch_spec (h : g.sideSearch = some s) :
    Round s ∧ ∃ c : Fin g.n → Fin 2, (∀ v, s.label v = some (c v)) ∧ g.ProperSides c := by
  obtain ⟨hs, hall, -⟩ := round_foldlM ⟨inv_empty, rfl⟩ h
  choose c hc using fun v => Option.isSome_iff_exists.mp (hall v (List.mem_finRange v))
  refine ⟨hs, c, hc, fun v w hw => ?_⟩
  obtain ⟨b, hb, hok⟩ := hs.1.closed v (c v) (hc v) (by simp [hs.2]) w hw
  rw [hc w] at hb
  exact Option.some.inj hb ▸ of_decide_eq_true hok

/-! ### The search succeeds on a graph with proper sides -/

theorem visit_of_properSides {c : Fin g.n → Fin 2} (hc : g.ProperSides c) {v w : Fin g.n}
    (hw : w ∈ g.adj v) (hv : (s.label v).isSome) (hs : ∀ u b, s.label u = some b → c u = b) :
    ∃ s', visit otherSide differs v s w = some s' ∧ ∀ u b, s'.label u = some b → c u = b := by
  obtain ⟨a, ha⟩ := Option.isSome_iff_exists.mp hv
  have hca := hs v a ha
  unfold visit
  cases hl : s.label w with
  | none =>
    refine ⟨_, rfl, fun u b hu => ?_⟩
    rcases eq_or_ne u w with rfl | hne
    · simp only [Function.update_self, ha, Option.map_some, Option.some.injEq] at hu
      rw [← hu, ← hca]
      exact eq_otherSide_of_ne (hc v u hw)
    · exact hs u b (by simpa [Function.update_of_ne hne] using hu)
  | some b =>
    have : differs a b = true := decide_eq_true (by rw [← hs w b hl, ← hca]; exact hc v w hw)
    exact ⟨s, by simp [ha, this], hs⟩

theorem foldlM_of_properSides {c : Fin g.n → Fin 2} (hc : g.ProperSides c) {v : Fin g.n} :
    ∀ {ws : List (Fin g.n)} {s : State (Fin g.n) (Fin 2)}, (∀ w ∈ ws, w ∈ g.adj v) →
      (s.label v).isSome → (∀ u b, s.label u = some b → c u = b) →
      ∃ s', ws.foldlM (visit otherSide differs v) s = some s' ∧
        ∀ u b, s'.label u = some b → c u = b
  | [], s, _, _, hs => ⟨s, rfl, hs⟩
  | w :: ws, s, hws, hv, hs => by
    obtain ⟨t, ht, hst⟩ := visit_of_properSides hc (hws w (by simp)) hv hs
    obtain ⟨a, ha⟩ := Option.isSome_iff_exists.mp hv
    obtain ⟨s', hs', hfin⟩ := foldlM_of_properSides hc
      (fun x hx => hws x (List.mem_cons_of_mem _ hx)) (by rw [visit_mono ht ha]; rfl) hst
    exact ⟨s', by rw [List.foldlM_cons, ht]; exact hs', hfin⟩

theorem loop_of_properSides {c : Fin g.n → Fin 2} (hc : g.ProperSides c) :
    ∀ (k : ℕ) (s : State (Fin g.n) (Fin 2)), Inv g.adj differs s →
      (∀ u b, s.label u = some b → c u = b) →
      ∃ s', loop g.adj otherSide differs k s = some s' ∧ ∀ u b, s'.label u = some b → c u = b
  | 0, s, _, hs => ⟨s, rfl, hs⟩
  | k + 1, s, hi, hs => by
    rw [loop]
    split
    · exact ⟨s, rfl, hs⟩
    · obtain ⟨t, ht, hst⟩ : ∃ t, expand g.adj otherSide differs s = some t ∧
          ∀ u b, t.label u = some b → c u = b := by
        unfold expand
        split
        · exact ⟨s, rfl, hs⟩
        · rename_i v q hq
          exact foldlM_of_properSides hc (fun _ hw => hw) (hi.queue_sub v (by simp [hq])) hs
      rw [ht]
      exact loop_of_properSides hc k t (inv_expand differs_otherSide hi ht) hst

/-- Turning over the vertices without a side keeps the sides proper: no edge leaves the finished
    components. -/
theorem properSides_flip [g.Simple] {c : Fin g.n → Fin 2} (hc : g.ProperSides c) (hs : Round s) :
    g.ProperSides fun v => if s.label v = none then otherSide (c v) else c v := by
  intro v w hw
  have hclosed : ∀ {x y : Fin g.n}, y ∈ g.adj x → s.label x ≠ none → s.label y ≠ none := by
    intro x y hy hx hny
    obtain ⟨a, ha⟩ := Option.ne_none_iff_exists'.mp hx
    obtain ⟨b, hb, -⟩ := hs.1.closed x a ha (by simp [hs.2]) y hy
    rw [hny] at hb
    simp at hb
  by_cases hv : s.label v = none
  · have hwn : s.label w = none := by
      by_contra hn
      exact hclosed (Simple.symm hw) hn hv
    simp only [hv, hwn, if_true]
    intro he
    exact hc v w hw (by revert he; generalize c v = a; generalize c w = b; revert a b; decide)
  · simp only [hv, hclosed hw hv, if_false]
    exact hc v w hw

theorem sideFrom_of_properSides [g.Simple] (hs : Round s) (v : Fin g.n)
    (h : ∃ c, g.ProperSides c ∧ ∀ u b, s.label u = some b → c u = b) :
    ∃ s', g.sideFrom s v = some s' ∧
      ∃ c, g.ProperSides c ∧ ∀ u b, s'.label u = some b → c u = b := by
  obtain ⟨c, hc, hext⟩ := h
  unfold sideFrom
  split
  · exact ⟨s, rfl, c, hc, hext⟩
  · rename_i hv
    have hv : s.label v = none := not_not.mp hv
    -- of the two orientations of the unfinished part, take the one that puts `v` on side 0
    obtain ⟨c', hc', hext', hv0⟩ : ∃ c', g.ProperSides c' ∧
        (∀ u b, s.label u = some b → c' u = b) ∧ c' v = 0 := by
      by_cases h0 : c v = 0
      · exact ⟨c, hc, hext, h0⟩
      · refine ⟨_, properSides_flip hc hs, fun u b hu => ?_, ?_⟩
        · simp [hu, hext u b hu]
        · simp only [hv, if_true]
          exact (eq_otherSide_of_ne fun e => h0 e.symm).symm
    have hstart : ∀ u b, (start s v 0).label u = some b → c' u = b := by
      intro u b hu
      rcases eq_or_ne u v with rfl | hne
      · have : (0 : Fin 2) = b := by simpa [start] using hu
        rw [hv0, this]
      · exact hext' u b (by simpa [start, hne] using hu)
    obtain ⟨s', hs', hfin⟩ := loop_of_properSides hc' g.n _ (inv_start hs.1 hs.2 hv) hstart
    exact ⟨s', hs', c', hc', hfin⟩

theorem foldlM_sideFrom_of_properSides [g.Simple] : ∀ {vs : List (Fin g.n)}
    {s : State (Fin g.n) (Fin 2)}, Round s →
    (∃ c, g.ProperSides c ∧ ∀ u b, s.label u = some b → c u = b) →
    ∃ s', vs.foldlM g.sideFrom s = some s'
  | [], s, _, _ => ⟨s, rfl⟩
  | v :: vs, s, hs, h => by
    obtain ⟨t, ht, hc⟩ := sideFrom_of_properSides hs v h
    obtain ⟨s', hs'⟩ := foldlM_sideFrom_of_properSides (round_sideFrom hs ht).1 hc
    exact ⟨s', by rw [List.foldlM_cons, ht]; exact hs'⟩

/-! ### The two parts -/

/-- No bipartition is returned exactly when the graph has no proper sides. -/
theorem bipartition_eq_none_iff [g.Simple] :
    g.bipartition = none ↔ ¬∃ c, g.ProperSides c := by
  rw [bipartition, Option.map_eq_none_iff]
  constructor
  · rintro h ⟨c, hc⟩
    obtain ⟨s', hs'⟩ := foldlM_sideFrom_of_properSides
      (s := ⟨fun _ => none, [], []⟩) ⟨inv_empty, rfl⟩ ⟨c, hc, by simp⟩
    rw [sideSearch, hs'] at h
    simp at h
  · intro h
    by_contra hn
    obtain ⟨s, hs⟩ := Option.ne_none_iff_exists'.mp hn
    obtain ⟨-, c, -, hc⟩ := sideSearch_spec hs
    exact h ⟨c, hc⟩

/-- The two parts list every vertex once between them, and every edge joins the two. -/
theorem bipartition_parts {partA partB : List (Fin g.n)} (h : g.bipartition = some (partA, partB)) :
    partA.Nodup ∧ partB.Nodup ∧ (∀ v, v ∈ partB ↔ v ∉ partA) ∧
      ∀ v w, w ∈ g.adj v → (w ∈ partA ↔ v ∉ partA) := by
  obtain ⟨s, hs, hparts⟩ := Option.map_eq_some_iff.mp h
  obtain ⟨hround, c, hc, hproper⟩ := sideSearch_spec hs
  obtain ⟨hA, hB⟩ := Prod.mk.inj hparts
  have hmem : ∀ v, v ∈ s.order := fun v => (hround.1.mem_order v).mpr (by rw [hc v]; rfl)
  have memA : ∀ v, v ∈ partA ↔ c v = 0 := by
    intro v; rw [← hA]; simp [hmem v, hc v]
  have memB : ∀ v, v ∈ partB ↔ c v = 1 := by
    intro v; rw [← hB]; simp [hmem v, hc v]
  refine ⟨hA ▸ hround.1.order_nodup.filter _, hB ▸ hround.1.order_nodup.filter _, ?_, ?_⟩
  · intro v; rw [memA, memB]; generalize c v = a; revert a; decide
  · intro v w hw
    have := hproper v w hw
    rw [memA, memA]
    revert this; generalize c v = a; generalize c w = b; revert a b; decide

/-- The sides of a bipartite graph are proper. -/
theorem properSides_side (h : g.bipartition ≠ none) : g.ProperSides g.side := by
  obtain ⟨⟨partA, partB⟩, hp⟩ := Option.ne_none_iff_exists'.mp h
  intro v w hw
  have := (bipartition_parts hp).2.2.2 v w hw
  simp only [side, hp, this]
  by_cases hv : v ∈ partA <;> simp [hv]

theorem side_eq_zero_iff {partA partB : List (Fin g.n)} (h : g.bipartition = some (partA, partB))
    (v : Fin g.n) : g.side v = 0 ↔ v ∈ partA := by
  by_cases hv : v ∈ partA <;> simp [side, h, hv]

theorem side_eq_one_iff {partA partB : List (Fin g.n)} (h : g.bipartition = some (partA, partB))
    (v : Fin g.n) : g.side v = 1 ↔ v ∈ partB := by
  rw [(bipartition_parts h).2.2.1]
  by_cases hv : v ∈ partA <;> simp [side, h, hv]

theorem side_of_none (h : g.bipartition = none) (v : Fin g.n) : g.side v = 0 := by simp [side, h]

/-! ### Automorphisms and sides -/

/-- Along an edge, an automorphism keeps the side of both ends or of none. -/
theorem side_keep_iff (hb : g.bipartition ≠ none) {α : Equiv.Perm (Fin g.n)} (hα : IsAut g α)
    {v w : Fin g.n} (hw : w ∈ g.adj v) : g.side (α w) = g.side w ↔ g.side (α v) = g.side v := by
  have h1 := properSides_side hb v w hw
  have h2 := properSides_side hb (α v) (α w) ((hα v w).mp hw)
  revert h1 h2
  generalize g.side v = a; generalize g.side w = b
  generalize g.side (α v) = c; generalize g.side (α w) = d
  revert a b c d; decide

/-- Vertices joined by a walk. -/
def Reachable (g : Graph) : Fin g.n → Fin g.n → Prop := Relation.ReflTransGen fun v w => w ∈ g.adj v

/-- Every two vertices are joined by a walk. -/
def Connected (g : Graph) : Prop := ∀ v w, g.Reachable v w

/-- Inside a component, an automorphism keeps the sides of all vertices or of none. -/
theorem sides_agree (hb : g.bipartition ≠ none) {α : Equiv.Perm (Fin g.n)} (hα : IsAut g α)
    {v w : Fin g.n} (h : g.Reachable v w) : g.side (α w) = g.side w ↔ g.side (α v) = g.side v := by
  induction h with
  | refl => rfl
  | tail _ hw ih => exact (side_keep_iff hb hα hw).trans ih

theorem Reachable.symm [g.Simple] {v w : Fin g.n} (h : g.Reachable v w) : g.Reachable w v := by
  induction h with
  | refl => exact Relation.ReflTransGen.refl
  | tail _ hw ih => exact Relation.ReflTransGen.head (Simple.symm hw) ih

theorem Reachable.map {α : Equiv.Perm (Fin g.n)} (hα : IsAut g α) {v w : Fin g.n}
    (h : g.Reachable v w) : g.Reachable (α v) (α w) := by
  induction h with
  | refl => exact Relation.ReflTransGen.refl
  | tail _ hw ih => exact ih.tail ((hα _ _).mp hw)

open Classical in
/-- `α` on the component of `v`, its inverse on the component of `w`, nothing elsewhere. -/
noncomputable def exchange (α : Equiv.Perm (Fin g.n)) (v w x : Fin g.n) : Fin g.n :=
  if g.Reachable v x then α x else if g.Reachable w x then α.symm x else x

theorem exchange_edge [g.Simple] {α : Equiv.Perm (Fin g.n)} (hα : IsAut g α) (v w : Fin g.n)
    {x y : Fin g.n} (hy : y ∈ g.adj x) : exchange α v w y ∈ g.adj (exchange α v w x) := by
  have hsame : ∀ r, g.Reachable r y ↔ g.Reachable r x := fun r =>
    ⟨fun h => h.tail (Simple.symm hy), fun h => h.tail hy⟩
  unfold exchange
  by_cases hv : g.Reachable v x
  · rw [if_pos hv, if_pos ((hsame v).mpr hv)]
    exact (hα x y).mp hy
  · rw [if_neg hv, if_neg fun h => hv ((hsame v).mp h)]
    by_cases hw : g.Reachable w x
    · rw [if_pos hw, if_pos ((hsame w).mpr hw)]
      exact (IsIso.symm hα x y).mp hy
    · rw [if_neg hw, if_neg fun h => hw ((hsame w).mp h)]
      exact hy

/-- Exchanging back undoes the exchange. -/
theorem exchange_exchange [g.Simple] {α : Equiv.Perm (Fin g.n)} (hα : IsAut g α) {v w : Fin g.n}
    (hvw : α v = w) (x : Fin g.n) : exchange α.symm w v (exchange α v w x) = x := by
  have hwv : α.symm w = v := by rw [← hvw, α.symm_apply_apply]
  by_cases hv : g.Reachable v x
  · have : g.Reachable w (α x) := hvw ▸ hv.map hα
    simp [exchange, hv, this]
  · by_cases hw : g.Reachable w x
    · have hback : g.Reachable v (α.symm x) := hwv ▸ hw.map (IsIso.symm hα)
      -- otherwise the two components would be one
      have hnot : ¬g.Reachable w (α.symm x) := fun h => hv ((hback.trans h.symm).trans hw)
      simp [exchange, hv, hw, hback, hnot]
    · simp [exchange, hv, hw]

/-- Orbit-mates on one side are mates of an automorphism that keeps all sides: it exchanges their
    components and leaves the others alone. -/
theorem exists_keeps_sides [g.Simple] (hb : g.bipartition ≠ none) {α : Equiv.Perm (Fin g.n)}
    (hα : IsAut g α) {v : Fin g.n} (hside : g.side (α v) = g.side v) :
    ∃ β, IsAut g β ∧ (∀ x, g.side (β x) = g.side x) ∧ β v = α v := by
  obtain ⟨w, hw⟩ : ∃ w, α v = w := ⟨_, rfl⟩
  have hwv : α.symm w = v := by rw [← hw, α.symm_apply_apply]
  refine ⟨⟨exchange α v w, exchange α.symm w v, exchange_exchange hα hw, fun x => ?_⟩,
    isAut_of_forward fun x y hy => exchange_edge hα v w hy, fun x => ?_, ?_⟩
  · exact exchange_exchange (IsIso.symm hα) hwv x
  · change g.side (exchange α v w x) = g.side x
    unfold exchange
    split_ifs with hv hw'
    · exact (sides_agree hb hα hv).mpr hside
    · exact (sides_agree hb (IsIso.symm hα) hw').mpr (by rw [hwv, ← hw, hside])
    · rfl
  · change exchange α v w v = α v
    simp [exchange, Reachable, Relation.ReflTransGen.refl]

end Dialysis.Graph
