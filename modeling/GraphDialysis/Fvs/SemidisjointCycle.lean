import GraphDialysis.Fvs.Residual
import GraphDialysis.Lib.LocalRatio

/-! `findSemidisjointCycle`: from a vertex of degree two both ways are followed through vertices of
    degree two; a way that returns, or two ways that end at one vertex, are the cycle. In the second
    case the start is listed twice.

    `findSemidisjointCycle_spec`: the search ends, what it returns is a semidisjoint cycle on which
    no vertex is listed more than twice, and when it returns nothing there is no handle, for a trace
    cannot leave a handle but through the vertex it hangs on. -/

namespace Dialysis.Fvs
open Lib Dialysis.Graph
variable {n : ℕ}

/-- `alive[cur] && degree(cur) == 2 && cur != start`. -/
def passes (s : FvsState n) (start cur : Fin n) : Bool :=
  s.alive cur && s.degree cur = 2 && cur ≠ start

/-- The loop of `trace`: what it has passed and where it ends. The first argument bounds the number
    of steps. -/
def trace (s : FvsState n) (start : Fin n) :
    ℕ → List (Fin n) → Fin n → Fin n → Except String (List (Fin n) × Fin n)
  | 0, path, _, cur =>
    if passes s start cur then .error "more steps than vertices" else .ok (path, cur)
  | k + 1, path, prev, cur =>
    if passes s start cur then
      match (s.adj cur).find? (· ≠ prev) with
      | none => .error "Collection contains no element matching the predicate."
      | some next => trace s start k (path ++ [cur]) cur next
    else .ok (path, cur)

/-- The loop over the starts. -/
def findFrom (s : FvsState n) :
    List (Fin n) → Finset (Fin n) → Except String (Option (List (Fin n)))
  | [], _ => .ok none
  | start :: starts, visited =>
    if !s.alive start || start ∈ visited || s.degree start ≠ 2 then findFrom s starts visited
    else
      match s.adj start with
      | nbr₀ :: nbr₁ :: _ =>
        (trace s start n [start] start nbr₀).bind fun (path₁, end₁) =>
          if end₁ = start then .ok (some path₁)
          else
            (trace s start n [start] start nbr₁).bind fun (path₂, end₂) =>
              if end₁ = end₂ then .ok (some (path₁ ++ [end₁] ++ path₂.reverse))
              else findFrom s starts (visited ∪ path₁.toFinset ∪ path₂.toFinset)
      | _ => .error "Index out of bounds"

def findSemidisjointCycle (s : FvsState n) : Except String (Option (List (Fin n))) :=
  findFrom s (List.finRange n) ∅

theorem passes_iff {s : FvsState n} {start cur : Fin n} : passes s start cur = true ↔
    s.alive cur = true ∧ s.degree cur = 2 ∧ cur ≠ start := by
  simp [passes, and_assoc]

theorem trace_of_not_passes {s : FvsState n} {start cur : Fin n} (h : ¬passes s start cur = true)
    (k : ℕ) (path : List (Fin n)) (prev : Fin n) :
    trace s start k path prev cur = .ok (path, cur) := by
  cases k with
  | zero => rw [trace, if_neg h]
  | succ k => rw [trace, if_neg h]

/-- A list of two has one other member. -/
theorem exists_other {l : List (Fin n)} {a : Fin n} (hnd : l.Nodup) (hlen : l.length = 2)
    (ha : a ∈ l) : ∃ b, l.find? (· ≠ a) = some b ∧ b ≠ a ∧ ∀ w, w ∈ l ↔ w = a ∨ w = b := by
  obtain ⟨x, y, rfl⟩ := List.length_eq_two.mp hlen
  have hxy : x ≠ y := by
    rintro rfl
    simp at hnd
  rcases eq_or_ne x a with rfl | hx
  · exact ⟨y, by simp [hxy.symm], hxy.symm, fun w => by simp⟩
  · obtain rfl : y = a := by
      simp only [List.mem_cons, List.not_mem_nil, or_false] at ha
      exact (ha.resolve_left hx.symm).symm
    exact ⟨x, by simp [hx], hx, fun w => by simp [or_comm]⟩

variable {g : Graph} [g.Simple] {s : FvsState g.n} {start first prev cur : Fin g.n}
  {path : List (Fin g.n)}

/-! ### A trace -/

/-- Between two steps: the path leads from `start` to `prev`, and on to `cur`. -/
structure TraceInv (s : FvsState n) (start first : Fin n) (path : List (Fin n)) (prev cur : Fin n) :
    Prop where
  nodup : path.Nodup
  start_mem : start ∈ path
  prev_mem : prev ∈ path
  step : cur ∈ s.adj prev
  fresh : cur ∈ path → cur = start
  first_mem : first ∈ path ∨ first = cur
  two : ∀ v ∈ path, v ≠ start → s.degree v = 2 ∧ ∀ w ∈ s.adj v, w ∈ path ∨ w = cur
  inner : ∀ v ∈ path, v ≠ start → v ≠ prev → ∀ w ∈ s.adj v, w ∈ path
  spread : ∀ S : Finset (Fin n), (∀ v ∈ path, v ∈ S → ∀ w ∈ s.adj v, w ∈ S) →
    ∀ v ∈ path, v ∈ S → ∀ u ∈ path, u ∈ S

omit [g.Simple] in
theorem traceInv_start (hfirst : first ∈ s.adj start) (hne : first ≠ start) :
    TraceInv s start first [start] start first where
  nodup := by simp
  start_mem := by simp
  prev_mem := by simp
  step := hfirst
  fresh := fun h => absurd (List.mem_singleton.mp h) hne
  first_mem := Or.inr rfl
  two := fun v hv hvs => absurd (List.mem_singleton.mp hv) hvs
  inner := fun v hv hvs => absurd (List.mem_singleton.mp hv) hvs
  spread := fun S _ v hv hvS u hu => by
    rw [List.mem_singleton] at hv hu
    rwa [hu, ← hv]

/-- The next step. -/
theorem TraceInv.next (hm : Mirrors g s) (h : TraceInv s start first path prev cur)
    (hdeg : s.degree cur = 2) (hne : cur ≠ start) :
    ∃ next, (s.adj cur).find? (· ≠ prev) = some next ∧
      TraceInv s start first (path ++ [cur]) cur next := by
  have hcur : cur ∉ path := fun hc => hne (h.fresh hc)
  obtain ⟨next, hfind, hnp, hadj⟩ := exists_other (hm.nodup cur) hdeg (hm.symm h.step)
  have hnext : next ∈ s.adj cur := (hadj next).mpr (Or.inr rfl)
  refine ⟨next, hfind, ?_, ?_, by simp, hnext, fun hn => ?_, ?_, fun v hv hvs => ?_,
    fun v hv hvs hvc w hw => ?_, fun S hS v hv hvS u hu => ?_⟩
  · refine List.nodup_append.mpr ⟨h.nodup, List.nodup_singleton cur, fun a ha b hb hab => ?_⟩
    exact hcur (List.mem_singleton.mp hb ▸ hab ▸ ha)
  · exact List.mem_append_left _ h.start_mem
  · -- an inner vertex of the path has no neighbour outside it
    rcases List.mem_append.mp hn with hn | hn
    · by_contra hns
      exact hcur (h.inner next hn hns hnp cur (hm.symm hnext))
    · exact absurd (List.mem_singleton.mp hn) (hm.ne hnext)
  · rcases h.first_mem with hf | hf
    · exact Or.inl (List.mem_append_left _ hf)
    · exact Or.inl (List.mem_append_right _ (List.mem_singleton.mpr hf))
  · rcases List.mem_append.mp hv with hv | hv
    · refine ⟨(h.two v hv hvs).1, fun w hw => Or.inl ?_⟩
      rcases (h.two v hv hvs).2 w hw with hw | rfl
      · exact List.mem_append_left _ hw
      · simp
    · obtain rfl := List.mem_singleton.mp hv
      refine ⟨hdeg, fun w hw => ?_⟩
      rcases (hadj w).mp hw with rfl | rfl
      · exact Or.inl (List.mem_append_left _ h.prev_mem)
      · exact Or.inr rfl
  · have hv := (List.mem_append.mp hv).resolve_right fun hv => hvc (List.mem_singleton.mp hv)
    rcases (h.two v hv hvs).2 w hw with hw | rfl
    · exact List.mem_append_left _ hw
    · simp
  · have hold : ∀ x ∈ path, x ∈ S → ∀ y ∈ path, y ∈ S := h.spread S fun x hx =>
      hS x (List.mem_append_left _ hx)
    -- `prev` and `cur` are neighbours
    have hall : ∀ y ∈ path, y ∈ S := by
      rcases List.mem_append.mp hv with hv | hv
      · exact hold v hv hvS
      · obtain rfl := List.mem_singleton.mp hv
        exact hold prev h.prev_mem (hS v (by simp) hvS prev (hm.symm h.step))
    rcases List.mem_append.mp hu with hu | hu
    · exact hall u hu
    · rw [List.mem_singleton.mp hu]
      exact hS prev (List.mem_append_left _ h.prev_mem) (hall prev h.prev_mem) cur h.step

/-- The same, as a line of neighbours: the start is left to `first`, and no inner vertex but `first`
    leads back to it. -/
structure TraceLine (s : FvsState n) (start first : Fin n) (path : List (Fin n)) (prev cur : Fin n) :
    Prop extends TraceInv s start first path prev cur where
  chain : (path ++ [cur]).IsChain fun v w => w ∈ s.adj v
  head : ∃ t, path = start :: t
  begins : prev = start → cur = first
  back : ∀ v ∈ path, v ≠ start → start ∈ s.adj v → v = first ∨ cur = start
  three : cur = start → 3 ≤ path.length

omit [g.Simple] in
theorem traceLine_start (hfirst : first ∈ s.adj start) (hne : first ≠ start) :
    TraceLine s start first [start] start first where
  toTraceInv := traceInv_start hfirst hne
  chain := by simpa using hfirst
  head := ⟨[], rfl⟩
  begins := fun _ => rfl
  back := fun v hv hvs => absurd (List.mem_singleton.mp hv) hvs
  three := fun h => absurd h hne

theorem TraceLine.next (hm : Mirrors g s) (h : TraceLine s start first path prev cur)
    (hdeg : s.degree cur = 2) (hne : cur ≠ start) :
    ∃ next, (s.adj cur).find? (· ≠ prev) = some next ∧
      TraceLine s start first (path ++ [cur]) cur next := by
  obtain ⟨next, hfind, hinv⟩ := h.toTraceInv.next hm hdeg hne
  obtain ⟨next', hfind', hnp, hadj⟩ := exists_other (hm.nodup cur) hdeg (hm.symm h.step)
  obtain rfl : next' = next := Option.some.inj (hfind'.symm.trans hfind)
  refine ⟨next', hfind, hinv, ?_, ?_, fun hc => absurd hc hne, fun v hv hvs hback => ?_, ?_⟩
  · refine List.isChain_append.mpr ⟨h.chain, List.isChain_singleton _, fun x hx y hy => ?_⟩
    rw [List.getLast?_concat, Option.mem_some_iff] at hx
    rw [List.head?_cons, Option.mem_some_iff] at hy
    exact hx ▸ hy ▸ hinv.step
  · obtain ⟨t, rfl⟩ := h.head
    exact ⟨t ++ [cur], rfl⟩
  · rcases List.mem_append.mp hv with hv | hv
    · exact Or.inl ((h.back v hv hvs hback).resolve_right hne)
    · obtain rfl := List.mem_singleton.mp hv
      rcases (hadj start).mp hback with hp | hn
      · exact Or.inl (h.begins hp.symm)
      · exact Or.inr hn.symm
  · -- the vertex before the last is not the start
    rintro rfl
    have htwo : [next', prev].Subperm path := List.subperm_of_subset (by simpa using hnp)
      fun x hx => by
        rcases List.mem_cons.mp hx with rfl | hx
        · exact h.start_mem
        · exact List.mem_singleton.mp hx ▸ h.prev_mem
    have := htwo.length_le
    rw [List.length_append, List.length_singleton]
    simp only [List.length_cons, List.length_nil] at this
    omega

/-- The rule of a trace: what every step keeps holds where it ends, at its start or at a vertex of
    another degree. -/
theorem trace_rule {I : List (Fin n) → Fin n → Fin n → Prop} {s : FvsState n} {start : Fin n}
    (hnodup : ∀ path prev cur, I path prev cur → path.Nodup)
    (halive : ∀ path prev cur, I path prev cur → s.alive cur = true)
    (hnext : ∀ path prev cur, I path prev cur → s.degree cur = 2 → cur ≠ start →
      ∃ next, (s.adj cur).find? (· ≠ prev) = some next ∧ I (path ++ [cur]) cur next) :
    ∀ (k : ℕ) (path : List (Fin n)) (prev cur : Fin n), I path prev cur → n ≤ k + path.length →
      ∃ path' prev' cur', trace s start k path prev cur = .ok (path', cur') ∧
        I path' prev' cur' ∧ (cur' = start ∨ s.degree cur' ≠ 2)
  | k, path, prev, cur, h, hk => by
    by_cases hgo : passes s start cur = true
    · obtain ⟨-, hdeg, hne⟩ := passes_iff.mp hgo
      obtain ⟨next, hfind, hI⟩ := hnext path prev cur h hdeg hne
      have hlen : (path ++ [cur]).length ≤ n := by
        simpa using (hnodup _ _ _ hI).length_le_card
      rw [List.length_append, List.length_singleton] at hlen
      cases k with
      | zero => omega
      | succ k =>
        rw [trace, if_pos hgo, hfind]
        refine trace_rule hnodup halive hnext k (path ++ [cur]) cur next hI ?_
        rw [List.length_append, List.length_singleton]
        omega
    · refine ⟨path, prev, cur, trace_of_not_passes hgo k path prev, h, ?_⟩
      by_contra hboth
      obtain ⟨hne, hdeg⟩ := not_or.mp hboth
      exact hgo (passes_iff.mpr ⟨halive _ _ _ h, not_not.mp hdeg, hne⟩)

/-- A trace ends, at its start or at a vertex of another degree. -/
theorem trace_spec (hm : Mirrors g s) (hfirst : first ∈ s.adj start) :
    ∃ path prev cur, trace s start g.n [start] start first = .ok (path, cur) ∧
      TraceLine s start first path prev cur ∧ (cur = start ∨ s.degree cur ≠ 2) :=
  trace_rule (fun _ _ _ h => h.nodup) (fun _ _ _ h => (hm.alive_of_mem h.step).2)
    (fun _ _ _ h hdeg hne => h.next hm hdeg hne) g.n [start] start first
    (traceLine_start hfirst (hm.ne hfirst)) (by simp)

omit [g.Simple] in
/-- A trace does not leave a set that vertices of degree two, its start apart, do not lead out of. -/
theorem trace_stays {W : Fin g.n → Prop}
    (hW : ∀ v, W v → s.degree v = 2 → v ≠ start → ∀ w ∈ s.adj v, W w) :
    ∀ (k : ℕ) (path : List (Fin g.n)) (prev cur : Fin g.n) {path' : List (Fin g.n)}
      {cur' : Fin g.n}, trace s start k path prev cur = .ok (path', cur') →
      (∀ v ∈ path, W v) → W cur → (∀ v ∈ path', W v) ∧ W cur'
  | k, path, prev, cur, path', cur', he, hpath, hcur => by
    by_cases hgo : passes s start cur = true
    · cases k with
      | zero => rw [trace, if_pos hgo] at he; cases he
      | succ k =>
        rw [trace, if_pos hgo] at he
        cases hf : (s.adj cur).find? (· ≠ prev) with
        | none => rw [hf] at he; cases he
        | some next =>
          rw [hf] at he
          refine trace_stays hW k (path ++ [cur]) cur next he (fun v hv => ?_)
            (hW cur hcur (passes_iff.mp hgo).2.1 (passes_iff.mp hgo).2.2 next
              (List.mem_of_find?_eq_some hf))
          rcases List.mem_append.mp hv with hv | hv
          · exact hpath v hv
          · exact List.mem_singleton.mp hv ▸ hcur
    · rw [trace_of_not_passes hgo] at he
      cases he
      exact ⟨hpath, hcur⟩

/-! ### What is returned -/

/-- A list of the vertices of a semidisjoint cycle, each at most twice. -/
structure ListsCycle (g : Graph) [g.Simple] (s : FvsState g.n) (cycle : List (Fin g.n)) : Prop where
  semidisjoint : Semidisjoint g.simpleGraph s.aliveSet cycle.toFinset
  count_le : ∀ v, cycle.count v ≤ 2

namespace TraceInv

omit [g.Simple] in
/-- Every vertex of a path has degree two. -/
theorem degree_eq (h : TraceInv s start first path prev cur) (hstart : s.degree start = 2)
    {v : Fin g.n} (hv : v ∈ path) : s.degree v = 2 := by
  rcases eq_or_ne v start with rfl | hne
  · exact hstart
  · exact (h.two v hv hne).1

omit [g.Simple] in
theorem alive (h : TraceInv s start first path prev cur) (hm : Mirrors g s)
    (hstart : s.degree start = 2) {v : Fin g.n} (hv : v ∈ path) : s.alive v = true := by
  obtain ⟨w, hw⟩ : ∃ w, w ∈ s.adj v := List.exists_mem_of_length_pos (by
    have := h.degree_eq hstart hv
    unfold FvsState.degree at this
    omega)
  exact (hm.alive_of_mem hw).1

/-- What a path leads to, from any of its vertices. -/
theorem spread_in (h : TraceInv s start first path prev cur) (hm : Mirrors g s)
    (hstart : s.degree start = 2) {C S : Finset (Fin g.n)} (hpath : ∀ v ∈ path, v ∈ C)
    (hS : ∀ v ∈ C, degreeIn g.simpleGraph s.aliveSet v = 2 → v ∈ S →
      ∀ w ∈ s.aliveSet, g.simpleGraph.Adj v w → w ∈ S)
    {v : Fin g.n} (hv : v ∈ path) (hvS : v ∈ S) : (∀ u ∈ path, u ∈ S) ∧ cur ∈ S := by
  have hclosed : ∀ x ∈ path, x ∈ S → ∀ w ∈ s.adj x, w ∈ S := by
    intro x hx hxS w hw
    have hxa := h.alive hm hstart hx
    obtain ⟨hwa, hadj⟩ := (hm.mem_iff hxa).mp hw
    exact hS x (hpath x hx) ((hm.degree_eq hxa).symm.trans (h.degree_eq hstart hx)) hxS w hwa hadj
  have hall := h.spread S hclosed v hv hvS
  exact ⟨hall, hclosed prev h.prev_mem (hall prev h.prev_mem) cur h.step⟩

end TraceInv

/-- A way that returns to its start. -/
theorem listsCycle_of_return (hm : Mirrors g s) (hstart : s.degree start = 2)
    (hfirst : first ∈ s.adj start) (h : TraceInv s start first path prev start) :
    ListsCycle g s path := by
  have hdeg := fun {v} (hv : v ∈ path) => (hm.degree_eq (h.alive hm hstart hv)).symm.trans
    (h.degree_eq hstart hv)
  refine ⟨⟨fun v hv => ?_, ⟨start, List.mem_toFinset.mpr h.start_mem, ⟨first, ?_, ?_⟩,
    fun v hv hne => ?_⟩, fun S _ hS v hv _ hvS u hu => ?_⟩, fun v => ?_⟩
  · exact FvsState.mem_aliveSet.mpr (h.alive hm hstart (List.mem_toFinset.mp hv))
  · exact List.mem_toFinset.mpr (h.first_mem.resolve_right (hm.ne hfirst))
  · exact ((hm.mem_iff (h.alive hm hstart h.start_mem)).mp hfirst).2
  · rw [List.mem_toFinset] at hv
    refine ⟨hdeg hv, fun w hw hadj => List.mem_toFinset.mpr ?_⟩
    rcases (h.two v hv hne).2 w ((hm.mem_iff (h.alive hm hstart hv)).mpr ⟨hw, hadj⟩) with hw | rfl
    · exact hw
    · exact h.start_mem
  · exact (h.spread_in hm hstart (fun x hx => List.mem_toFinset.mpr hx) hS
      (List.mem_toFinset.mp hv) hvS).1 u (List.mem_toFinset.mp hu)
  · exact (List.nodup_iff_count_le_one.mp h.nodup v).trans (by omega)

/-- Two ways that end at one vertex. -/
theorem listsCycle_of_meet (hm : Mirrors g s) (hstart : s.degree start = 2)
    {nbr₀ nbr₁ hub prev₁ prev₂ : Fin g.n} {path₁ path₂ : List (Fin g.n)}
    (hadj : ∀ w ∈ s.adj start, w = nbr₀ ∨ w = nbr₁) (hhub : s.degree hub ≠ 2)
    (h₁ : TraceInv s start nbr₀ path₁ prev₁ hub) (h₂ : TraceInv s start nbr₁ path₂ prev₂ hub) :
    ListsCycle g s (path₁ ++ [hub] ++ path₂.reverse) := by
  have hnot₁ : hub ∉ path₁ := fun hv => hhub (h₁.degree_eq hstart hv)
  have hnot₂ : hub ∉ path₂ := fun hv => hhub (h₂.degree_eq hstart hv)
  have hmem : ∀ v, v ∈ (path₁ ++ [hub] ++ path₂.reverse).toFinset ↔
      (v ∈ path₁ ∨ v ∈ path₂) ∨ v = hub := by
    intro v
    simp only [List.mem_toFinset, List.mem_append, List.mem_singleton, List.mem_reverse]
    tauto
  have halive : ∀ v, v ∈ path₁ ∨ v ∈ path₂ → s.alive v = true ∧ s.degree v = 2 := by
    rintro v (hv | hv)
    · exact ⟨h₁.alive hm hstart hv, h₁.degree_eq hstart hv⟩
    · exact ⟨h₂.alive hm hstart hv, h₂.degree_eq hstart hv⟩
  refine ⟨⟨fun v hv => ?_, ⟨hub, (hmem hub).mpr (Or.inr rfl), ⟨prev₁, ?_, ?_⟩, fun v hv hne => ?_⟩,
    fun S _ hS v hv hdeg hvS => ?_⟩, fun v => ?_⟩
  · rw [FvsState.mem_aliveSet]
    rcases (hmem v).mp hv with hv | rfl
    · exact (halive v hv).1
    · exact (hm.alive_of_mem h₁.step).2
  · exact (hmem prev₁).mpr (Or.inl (Or.inl h₁.prev_mem))
  · exact ((hm.mem_iff (hm.alive_of_mem h₁.step).2).mp (hm.symm h₁.step)).2
  · obtain ⟨hva, hvd⟩ := halive v (((hmem v).mp hv).resolve_right hne)
    refine ⟨(hm.degree_eq hva).symm.trans hvd, fun w hw hvw => (hmem w).mpr ?_⟩
    have hw : w ∈ s.adj v := (hm.mem_iff hva).mpr ⟨hw, hvw⟩
    rcases eq_or_ne v start with rfl | hvs
    · -- the start has one neighbour on each way
      rcases hadj w hw with rfl | rfl
      · exact h₁.first_mem.imp_left Or.inl
      · exact h₂.first_mem.imp_left Or.inr
    · rcases ((hmem v).mp hv).resolve_right hne with hv | hv
      · exact ((h₁.two v hv hvs).2 w hw).imp_left Or.inl
      · exact ((h₂.two v hv hvs).2 w hw).imp_left Or.inr
  · have hne : v ≠ hub := by
      rintro rfl
      have := hm.degree_eq (hm.alive_of_mem h₁.step).2
      omega
    have hin₁ : ∀ x ∈ path₁, x ∈ (path₁ ++ [hub] ++ path₂.reverse).toFinset := fun x hx =>
      (hmem x).mpr (Or.inl (Or.inl hx))
    have hin₂ : ∀ x ∈ path₂, x ∈ (path₁ ++ [hub] ++ path₂.reverse).toFinset := fun x hx =>
      (hmem x).mpr (Or.inl (Or.inr hx))
    -- both ways pass the start
    have hstartS : start ∈ S := by
      rcases ((hmem v).mp hv).resolve_right hne with hv | hv
      · exact (h₁.spread_in hm hstart hin₁ hS hv hvS).1 start h₁.start_mem
      · exact (h₂.spread_in hm hstart hin₂ hS hv hvS).1 start h₂.start_mem
    obtain ⟨hall₁, hhubS⟩ := h₁.spread_in hm hstart hin₁ hS h₁.start_mem hstartS
    have hall₂ := (h₂.spread_in hm hstart hin₂ hS h₂.start_mem hstartS).1
    intro u hu
    rcases (hmem u).mp hu with (hu | hu) | rfl
    · exact hall₁ u hu
    · exact hall₂ u hu
    · exact hhubS
  · rw [List.count_append, List.count_append, List.count_reverse]
    have hle₁ := List.nodup_iff_count_le_one.mp h₁.nodup v
    have hle₂ := List.nodup_iff_count_le_one.mp h₂.nodup v
    rcases eq_or_ne v hub with rfl | hne
    · rw [List.count_eq_zero_of_not_mem hnot₁, List.count_eq_zero_of_not_mem hnot₂]
      simp
    · rw [List.count_eq_zero_of_not_mem (a := v) (l := [hub]) (by simpa using hne)]
      omega

/-! ### What is not missed -/

/-- Vertices of degree two that lead to each other, and otherwise to one vertex of another degree. -/
structure Trap (s : FvsState n) (W : Finset (Fin n)) (hub : Fin n) : Prop where
  two : ∀ v ∈ W, s.degree v = 2
  closed : ∀ v ∈ W, ∀ w ∈ s.adj v, w ∈ W ∨ w = hub ∧ s.degree hub ≠ 2

/-- A handle makes a trap, together with the vertex it hangs on if that has degree two. -/
theorem exists_trap (hm : Mirrors g s) {T : Finset (Fin g.n)} {f : Fin g.n}
    (h : Handle g.simpleGraph s.aliveSet T f) : ∃ W, W.Nonempty ∧ Trap s W f := by
  have halive : ∀ v ∈ T, s.alive v = true := fun v hv => FvsState.mem_aliveSet.mp (h.sub hv)
  have hf : s.alive f = true := FvsState.mem_aliveSet.mp h.mem
  have htwo : ∀ v ∈ T, s.degree v = 2 := fun v hv => (hm.degree_eq (halive v hv)).trans (h.two v hv)
  have hclosed : ∀ v ∈ T, ∀ w ∈ s.adj v, w = f ∨ w ∈ T := by
    intro v hv w hw
    obtain ⟨hwa, hadj⟩ := (hm.mem_iff (halive v hv)).mp hw
    exact h.closed v hv w hwa hadj
  by_cases hdeg : s.degree f = 2
  · refine ⟨insert f T, ⟨f, Finset.mem_insert_self f T⟩, fun v hv => ?_, fun v hv w hw => Or.inl ?_⟩
    · rcases Finset.mem_insert.mp hv with rfl | hv
      · exact hdeg
      · exact htwo v hv
    · rcases Finset.mem_insert.mp hv with rfl | hv
      · obtain ⟨hwa, hadj⟩ := (hm.mem_iff hf).mp hw
        exact Finset.mem_insert_of_mem
          (h.back ((hm.degree_eq hf).symm.trans hdeg) w hwa hadj)
      · exact Finset.mem_insert.mpr (hclosed v hv w hw)
  · exact ⟨T, h.nonempty, htwo, fun v hv w hw =>
      (hclosed v hv w hw).symm.imp_right fun he => ⟨he, hdeg⟩⟩

/-- If one way returns to the start, the other cannot end elsewhere: by parity both neighbours of
    the start are on the way that returns. -/
theorem mem_of_return (hm : Mirrors g s) (hstart : s.degree start = 2)
    (hfirst : first ∈ s.adj start) (h : TraceInv s start first path prev start) :
    ∀ v ∈ path, s.degree v = 2 → ∀ w ∈ s.adj v, w ∈ path := by
  intro v hv _ w hw
  rcases eq_or_ne v start with rfl | hne
  · have hva := h.alive hm hstart h.start_mem
    have hfirst' : first ∈ path := h.first_mem.resolve_right (hm.ne hfirst)
    have hsub : path.toFinset ⊆ s.aliveSet := fun x hx =>
      FvsState.mem_aliveSet.mpr (h.alive hm hstart (List.mem_toFinset.mp hx))
    have hrest : ∑ x ∈ path.toFinset.erase v, degreeIn g.simpleGraph path.toFinset x =
        2 * (path.toFinset.erase v).card := by
      rw [mul_comm, ← smul_eq_mul, ← Finset.sum_const]
      refine Finset.sum_congr rfl fun x hx => ?_
      obtain ⟨hxv, hx⟩ := Finset.mem_erase.mp hx
      rw [List.mem_toFinset] at hx
      have hxa := h.alive hm hstart hx
      rw [degreeIn_eq_of_subset hsub, ← hm.degree_eq hxa, (h.two x hx hxv).1]
      intro y hy hadj
      refine List.mem_toFinset.mpr ?_
      rcases (h.two x hx hxv).2 y ((hm.mem_iff hxa).mpr ⟨hy, hadj⟩) with hy | rfl
      · exact hy
      · exact h.start_mem
    have heven := even_sum_degreeIn (G := g.simpleGraph) path.toFinset
    rw [← Finset.add_sum_erase _ _ (List.mem_toFinset.mpr h.start_mem), hrest] at heven
    have hpos : 0 < degreeIn g.simpleGraph path.toFinset v := degreeIn_pos_iff.mpr
      ⟨first, List.mem_toFinset.mpr hfirst', ((hm.mem_iff hva).mp hfirst).2⟩
    have htwo : 2 ≤ degreeIn g.simpleGraph path.toFinset v := by
      have := (Nat.even_add.mp heven).mpr (even_two_mul _)
      obtain ⟨k, hk⟩ := this
      omega
    have hfull : path.toFinset.filter (g.simpleGraph.Adj v) =
        s.aliveSet.filter (g.simpleGraph.Adj v) :=
      Finset.eq_of_subset_of_card_le (Finset.filter_subset_filter _ hsub)
        (((hm.degree_eq hva).symm.trans hstart).le.trans htwo)
    have hwfull := hfull ▸ Finset.mem_filter.mpr ((hm.mem_iff hva).mp hw)
    exact List.mem_toFinset.mp (Finset.mem_of_mem_filter w hwfull)
  · rcases (h.two v hv hne).2 w hw with hw | rfl
    · exact hw
    · exact h.start_mem

/-- Nothing outside a trap leads into it but a vertex of another degree. -/
theorem Trap.notMem (hm : Mirrors g s) {W : Finset (Fin g.n)} {hub v : Fin g.n}
    (hW : Trap s W hub) (hv : v ∉ W) (hdeg : s.degree v = 2) : ∀ w ∈ s.adj v, w ∉ W := by
  intro w hw hwW
  rcases hW.closed w hwW v (hm.symm hw) with h | ⟨rfl, hne⟩
  · exact hv h
  · exact hne hdeg

/-- Two ways from inside a trap meet at its hub, unless one returns. -/
theorem Trap.ends_eq (hm : Mirrors g s) {W : Finset (Fin g.n)} {hub nbr₀ nbr₁ : Fin g.n}
    (hW : Trap s W hub) (hstart : start ∈ W) (hnbr₀ : nbr₀ ∈ s.adj start)
    (hnbr₁ : nbr₁ ∈ s.adj start) {path₁ path₂ : List (Fin g.n)} {prev₁ prev₂ end₁ end₂ : Fin g.n}
    (hrun₁ : trace s start g.n [start] start nbr₀ = .ok (path₁, end₁))
    (hrun₂ : trace s start g.n [start] start nbr₁ = .ok (path₂, end₂))
    (h₁ : TraceInv s start nbr₀ path₁ prev₁ end₁) (h₂ : TraceInv s start nbr₁ path₂ prev₂ end₂)
    (hend₁ : s.degree end₁ ≠ 2) (hend₂ : end₂ = start ∨ s.degree end₂ ≠ 2) : end₁ = end₂ := by
  have hdeg := hW.two start hstart
  have hstay : ∀ v, v ∈ W ∨ v = hub ∧ s.degree hub ≠ 2 → s.degree v = 2 → v ≠ start →
      ∀ w ∈ s.adj v, w ∈ W ∨ w = hub ∧ s.degree hub ≠ 2 := by
    rintro v (hv | ⟨rfl, hne⟩) hv2 - w hw
    · exact hW.closed v hv w hw
    · exact absurd hv2 hne
  have hinside : ∀ {nbr e : Fin g.n} {path : List (Fin g.n)}, nbr ∈ s.adj start →
      trace s start g.n [start] start nbr = .ok (path, e) → e ∈ W ∨ e = hub ∧ s.degree hub ≠ 2 := by
    intro nbr e path hnbr hrun
    refine (trace_stays hstay g.n [start] start nbr hrun (fun v hv => ?_)
      (hW.closed start hstart nbr hnbr)).2
    exact Or.inl (List.mem_singleton.mp hv ▸ hstart)
  have hhub : ∀ {e : Fin g.n}, e ∈ W ∨ e = hub ∧ s.degree hub ≠ 2 → s.degree e ≠ 2 → e = hub :=
    fun he hne => (he.resolve_left fun hw => hne (hW.two _ hw)).1
  rcases hend₂ with rfl | hend₂
  · -- then the first way stays on the second, and has nowhere to end
    have hback := mem_of_return hm hdeg hnbr₁ h₂
    have hmem := (trace_stays (W := (· ∈ path₂)) (fun v hv hv2 _ => hback v hv hv2) g.n [end₂] end₂
      nbr₀ hrun₁ (fun v hv => List.mem_singleton.mp hv ▸ h₂.start_mem)
      (hback end₂ h₂.start_mem hdeg nbr₀ hnbr₀)).2
    exact absurd (h₂.degree_eq hdeg hmem) hend₁
  · rw [hhub (hinside hnbr₀ hrun₁) hend₁, hhub (hinside hnbr₁ hrun₂) hend₂]

/-- What is returned for `start`: a way that comes back to it, or two ways that meet. -/
inductive Found (s : FvsState n) (start : Fin n) : List (Fin n) → Prop
  | returned {first prev : Fin n} {path : List (Fin n)} (hfirst : first ∈ s.adj start)
      (h : TraceLine s start first path prev start) : Found s start path
  | met {nbr₀ nbr₁ hub prev₁ prev₂ : Fin n} {path₁ path₂ : List (Fin n)}
      (hadj : s.adj start = [nbr₀, nbr₁]) (hhub : s.degree hub ≠ 2)
      (hrun₁ : trace s start n [start] start nbr₀ = .ok (path₁, hub))
      (hrun₂ : trace s start n [start] start nbr₁ = .ok (path₂, hub))
      (h₁ : TraceLine s start nbr₀ path₁ prev₁ hub) (h₂ : TraceLine s start nbr₁ path₂ prev₂ hub) :
      Found s start (path₁ ++ [hub] ++ path₂.reverse)

theorem Found.listsCycle (hm : Mirrors g s) (hstart : s.degree start = 2) {cycle : List (Fin g.n)}
    (h : Found s start cycle) : ListsCycle g s cycle := by
  cases h with
  | returned hfirst h => exact listsCycle_of_return hm hstart hfirst h.toTraceInv
  | met hadj hhub _ _ h₁ h₂ =>
    exact listsCycle_of_meet hm hstart (fun w hw => by simpa [hadj] using hw) hhub h₁.toTraceInv
      h₂.toTraceInv

/-- Nothing is returned when no trap is left, and otherwise what is found for a start that no trap
    comes before. -/
structure FindSpec (s : FvsState n) (starts : List (Fin n)) (visited : Finset (Fin n))
    (r : Option (List (Fin n))) : Prop where
  nothing : r = none → ∀ W hub, Trap s W hub → (∀ v ∈ W, v ∉ visited) → ∀ v ∈ W, v ∉ starts
  found : ∀ cycle, r = some cycle → ∃ before start after, starts = before ++ start :: after ∧
    s.degree start = 2 ∧ Found s start cycle ∧
    ∀ W hub, Trap s W hub → (∀ v ∈ W, v ∉ visited) → ∀ v ∈ W, v ∉ before

omit [g.Simple] in
/-- A start that is passed over is in no trap that has not been visited. -/
theorem FindSpec.cons {starts : List (Fin g.n)} {visited visited' : Finset (Fin g.n)}
    {r : Option (List (Fin g.n))} (h : FindSpec s starts visited' r)
    (hstart : ∀ W hub, Trap s W hub → (∀ v ∈ W, v ∉ visited) → start ∉ W ∧ ∀ v ∈ W, v ∉ visited') :
    FindSpec s (start :: starts) visited r := by
  refine ⟨fun hn W hub hW hvis v hv hmem => ?_, fun cycle hc => ?_⟩
  · obtain ⟨hns, hvis'⟩ := hstart W hub hW hvis
    exact h.nothing hn W hub hW hvis' v hv ((List.mem_cons.mp hmem).resolve_left fun he => hns (he ▸ hv))
  · obtain ⟨before, found, after, rfl, hdeg, hfound, hbefore⟩ := h.found cycle hc
    refine ⟨start :: before, found, after, rfl, hdeg, hfound, fun W hub hW hvis v hv hmem => ?_⟩
    obtain ⟨hns, hvis'⟩ := hstart W hub hW hvis
    exact hbefore W hub hW hvis' v hv
      ((List.mem_cons.mp hmem).resolve_left fun he => hns (he ▸ hv))

theorem findFrom_spec (hm : Mirrors g s) : ∀ (starts : List (Fin g.n)) (visited : Finset (Fin g.n)),
    ∃ r, findFrom s starts visited = .ok r ∧ FindSpec s starts visited r
  | [], visited => ⟨none, rfl, fun _ _ _ _ _ _ _ => by simp, by simp⟩
  | start :: starts, visited => by
    rw [findFrom]
    split
    · rename_i hskip
      obtain ⟨r, hr, hspec⟩ := findFrom_spec hm starts visited
      refine ⟨r, hr, hspec.cons fun W hub hW hvis => ⟨fun hv => ?_, hvis⟩⟩
      have hdeg := hW.two start hv
      have halive : s.alive start = true := by
        obtain ⟨w, hw⟩ : ∃ w, w ∈ s.adj start := List.exists_mem_of_length_pos (by
          unfold FvsState.degree at hdeg; omega)
        exact (hm.alive_of_mem hw).1
      simp [halive, hvis start hv, hdeg] at hskip
    · rename_i hgo
      have hdeg : s.degree start = 2 := by
        by_contra hne
        exact hgo (by simp [hne])
      obtain ⟨nbr₀, nbr₁, hadj⟩ := List.length_eq_two.mp hdeg
      have hnbr₀ : nbr₀ ∈ s.adj start := by simp [hadj]
      have hnbr₁ : nbr₁ ∈ s.adj start := by simp [hadj]
      obtain ⟨path₁, prev₁, end₁, hrun₁, h₁, hend₁⟩ := trace_spec hm hnbr₀
      obtain ⟨path₂, prev₂, end₂, hrun₂, h₂, hend₂⟩ := trace_spec hm hnbr₁
      rw [hadj]
      dsimp only
      rw [hrun₁, Except.bind]
      dsimp only
      split
      · rename_i hreturn
        subst hreturn
        refine ⟨some path₁, rfl, by simp, fun cycle hc => ⟨[], end₁, starts, rfl, hdeg, ?_, by simp⟩⟩
        cases hc
        exact .returned hnbr₀ h₁
      rename_i hne
      have hend₁ := hend₁.resolve_left hne
      rw [hrun₂, Except.bind]
      dsimp only
      split
      · rename_i hmeet
        subst hmeet
        refine ⟨_, rfl, by simp, fun cycle hc => ⟨[], start, starts, rfl, hdeg, ?_, by simp⟩⟩
        cases hc
        exact .met hadj hend₁ hrun₁ hrun₂ h₁ h₂
      · rename_i hapart
        obtain ⟨r, hr, hspec⟩ := findFrom_spec hm starts
          (visited ∪ path₁.toFinset ∪ path₂.toFinset)
        refine ⟨r, hr, hspec.cons fun W hub hW hvis => ?_⟩
        have hstart : start ∉ W := fun hs => hapart
          (hW.ends_eq hm hs hnbr₀ hnbr₁ hrun₁ hrun₂ h₁.toTraceInv h₂.toTraceInv hend₁ hend₂)
        -- neither way enters the trap
        have havoid : ∀ {nbr e : Fin g.n} {path : List (Fin g.n)}, nbr ∈ s.adj start →
            trace s start g.n [start] start nbr = .ok (path, e) → ∀ u ∈ path, u ∉ W := by
          intro nbr e path hnbr hrun
          refine (trace_stays (W := (· ∉ W)) (fun u hu hu2 _ => hW.notMem hm hu hu2) g.n [start] start
            nbr hrun (fun u hu => ?_) (hW.notMem hm hstart hdeg nbr hnbr)).1
          exact List.mem_singleton.mp hu ▸ hstart
        refine ⟨hstart, fun u hu huv => ?_⟩
        rcases Finset.mem_union.mp huv with huv | huv
        · rcases Finset.mem_union.mp huv with huv | huv
          · exact hvis u hu huv
          · exact havoid hnbr₀ hrun₁ u (List.mem_toFinset.mp huv) hu
        · exact havoid hnbr₁ hrun₂ u (List.mem_toFinset.mp huv) hu

/-- The search ends; what it returns is a semidisjoint cycle, and it returns nothing only when there
    is no handle. -/
theorem findSemidisjointCycle_spec (hm : Mirrors g s) : ∃ r, findSemidisjointCycle s = .ok r ∧
    (∀ cycle, r = some cycle → ListsCycle g s cycle) ∧
    (r = none → ∀ T f, ¬Handle g.simpleGraph s.aliveSet T f) := by
  obtain ⟨r, hr, hspec⟩ := findFrom_spec hm (List.finRange g.n) ∅
  refine ⟨r, hr, fun cycle hc => ?_, fun hn T f hT => ?_⟩
  · obtain ⟨-, start, -, -, hdeg, hfound, -⟩ := hspec.found cycle hc
    exact hfound.listsCycle hm hdeg
  · obtain ⟨W, ⟨v, hv⟩, hW⟩ := exists_trap hm hT
    exact hspec.nothing hn W f hW (by simp) v hv (List.mem_finRange v)

end Dialysis.Fvs
