import GraphDialysis.Refinement.ColouringDispatch
import GraphDialysis.Sat.PerQueryDriver

/-! The PER_QUERY branch of the runner's `measureOne`: every colour class with two members is driven,
    the counters are added up, and the row is CERTIFIED when nothing is unknown. The pairs skipped
    because their formula is too large are not among the counters. -/

namespace Dialysis.Benchmark
open Lib Lib.Cnf Dialysis.Graph Ahu Refinement Dialysis.Sat

/-- The status of a row whose solve phase was completed. -/
inductive SolveStatus
  | certified
  | incomplete
  deriving DecidableEq

/-- How the runner writes it. -/
def SolveStatus.text : SolveStatus → String
  | .certified => "CERTIFIED"
  | .incomplete => "PARTIAL"

/-- `if (unknown == 0) "CERTIFIED" else "PARTIAL"`. -/
def solveStatus (unknown : ℕ) : SolveStatus := if unknown = 0 then .certified else .incomplete

/-- The runner's totals. It keeps of `orbits` their number; `learnt` is what each drive ended with. -/
structure PerQueryTotals (n : ℕ) where
  totalIssued : ℕ
  totalSkippedWitness : ℕ
  totalSkippedSeparation : ℕ
  totalSat : ℕ
  totalUnsat : ℕ
  totalUnknown : ℕ
  totalVerified : ℕ
  totalRejected : ℕ
  orbits : List (List (Fin n))
  learnt : List (List (Fin n) × SeparatingUnionFind n)
  pool : InternPool
  clockReads : ℕ
  calls : ℕ

def PerQueryTotals.start (n : ℕ) (pool : InternPool) : PerQueryTotals n :=
  ⟨0, 0, 0, 0, 0, 0, 0, 0, [], [], pool, 0, 0⟩

variable {g : Graph} [g.Simple] (d : PerQueryDrive g)

/-- Add the results of one class. -/
def PerQueryTotals.add {n : ℕ} (t : PerQueryTotals n) (cell : List (Fin n))
    (r : PerQueryDriveResult n × PerQueryState n) : PerQueryTotals n :=
  ⟨t.totalIssued + r.1.queriesIssued, t.totalSkippedWitness + r.1.queriesSkippedWitness,
    t.totalSkippedSeparation + r.1.queriesSkippedSeparation, t.totalSat + r.1.sat,
    t.totalUnsat + r.1.unsat, t.totalUnknown + r.1.unknown,
    t.totalVerified + r.1.witnessesVerified, t.totalRejected + r.1.witnessesRejected,
    t.orbits ++ r.1.orbits, t.learnt ++ [(cell, r.2.uf)], r.2.pool, r.2.clockReads, r.2.calls⟩

/-- One pass of the loop over the classes. -/
def measureCell (t : PerQueryTotals g.n) (cell : List (Fin g.n)) :
    Except String (PerQueryTotals g.n) :=
  if cell.length < 2 then .ok { t with orbits := t.orbits ++ [cell] }
  else if d.deadlineEpochMs ≤ d.clock t.clockReads then
    let pairs := cell.length * (cell.length - 1)
    .ok { t with
      totalIssued := t.totalIssued + pairs
      totalUnknown := t.totalUnknown + pairs
      orbits := t.orbits ++ cell.map fun v => [v]
      clockReads := t.clockReads + 1 }
  else (drivePerQueryOrbits d cell t.pool (t.clockReads + 1) t.calls).map (t.add cell)

/-- The runner's checks of the totals. -/
def checkTotals {n : ℕ} (activeCells : List (List (Fin n))) (t : PerQueryTotals n) :
    Except String Unit :=
  if t.totalRejected ≠ 0 then
    .error s!"{t.totalRejected} REJECTED witness(es) -- aborting per BENCHMARK_SPEC.md 2.3"
  else if t.totalIssued ≠ t.totalSat + t.totalUnsat + t.totalUnknown then
    .error s!"sat+unsat+unknown ({t.totalSat}+{t.totalUnsat}+{t.totalUnknown}) != queriesIssued ({t.totalIssued})"
  else if t.orbits.length < activeCells.length then
    .error s!"recovered_orbits ({t.orbits.length}) < classes ({activeCells.length}) -- orbits must refine colour classes"
  else .ok ()

/-- `measureOne`, when it solves by single queries. -/
def measurePerQuery (pool : InternPool) : Except String (SolveStatus × PerQueryTotals g.n) :=
  let activeCells := colourCells d.base
  (activeCells.foldlM (measureCell d) (.start g.n pool)).bind fun t =>
    (checkTotals activeCells t).bind fun _ => .ok (solveStatus t.totalUnknown, t)

/-! ### What a certificate is worth -/

variable {d} {t t' : PerQueryTotals g.n} {cell : List (Fin g.n)} {u v : Fin g.n}

theorem sameClass_append {α : Type*} {as bs : List (List α)} {a b : α} :
    SameClass (as ++ bs) a b ↔ SameClass as a b ∨ SameClass bs a b := by
  simp only [SameClass, List.mem_append, or_and_right, exists_or]

/-- No query of the class is passed because its formula is too large. -/
def CellFits (d : PerQueryDrive g) (t : PerQueryTotals g.n) (cell : List (Fin g.n)) : Prop :=
  2 ≤ cell.length → d.clock t.clockReads < d.deadlineEpochMs →
    AtEachStep (visit d (orderedPairs cell)) (FitsAt d) (orderedPairs cell)
      (.start g.n t.pool (t.clockReads + 1) t.calls)

/-- No query of the whole run is passed because its formula is too large. -/
def EveryQueryFits (d : PerQueryDrive g) (pool : InternPool) : Prop :=
  AtEachStep (measureCell d) (CellFits d) (colourCells d.base) (.start g.n pool)

/-- The totals pass the checks; the classes list the vertices of `done` once each and are true. -/
structure TotalsSound (done : List (List (Fin g.n))) (t : PerQueryTotals g.n) : Prop where
  rejected : t.totalRejected = 0
  counts : t.totalIssued = t.totalSat + t.totalUnsat + t.totalUnknown
  classes : done.length ≤ t.orbits.length
  once : t.orbits.flatten.Perm done.flatten
  same : ∀ u v, SameClass t.orbits u v → OrbitMates g.Aut u v
  learnt : ∀ e ∈ t.learnt, e.2.view.Sound (OrbitMates g.Aut)

/-- Something is unknown, or the pair is decided and in one class if it is in one orbit. -/
def PairDone (t : PerQueryTotals g.n) (u v : Fin g.n) : Prop :=
  0 < t.totalUnknown ∨ ((OrbitMates g.Aut u v → SameClass t.orbits u v) ∧
    (u ≠ v → ∃ e ∈ t.learnt, u ∈ e.1 ∧ v ∈ e.1 ∧ e.2.view.Decided u v))

/-- Totals only grow. -/
structure TotalsLater (t t' : PerQueryTotals g.n) : Prop where
  unknown : t.totalUnknown ≤ t'.totalUnknown
  orbits : ∀ c ∈ t.orbits, c ∈ t'.orbits
  learnt : ∀ e ∈ t.learnt, e ∈ t'.learnt

omit [g.Simple] in
theorem TotalsLater.pairDone (h : TotalsLater t t') (hp : PairDone t u v) : PairDone t' u v := by
  rcases hp with hp | ⟨hsame, hdec⟩
  · exact Or.inl (hp.trans_le h.unknown)
  · refine Or.inr ⟨fun ho => ?_, fun hne => ?_⟩
    · obtain ⟨c, hc, hcu, hcv⟩ := hsame ho
      exact ⟨c, h.orbits c hc, hcu, hcv⟩
    · obtain ⟨e, he, hdec⟩ := hdec hne
      exact ⟨e, h.learnt e he, hdec⟩

omit [g.Simple] in
/-- Add the classes of one cell. -/
theorem TotalsSound.append {done : List (List (Fin g.n))} (ht : TotalsSound done t)
    {classes : List (List (Fin g.n))} (horbits : t'.orbits = t.orbits ++ classes)
    (hne : cell ≠ []) (honce : classes.flatten.Perm cell)
    (hsame : ∀ u v, SameClass classes u v → OrbitMates g.Aut u v)
    (hlearnt : ∀ e ∈ t'.learnt, e.2.view.Sound (OrbitMates g.Aut)) (hrej : t'.totalRejected = 0)
    (hcounts : t'.totalIssued = t'.totalSat + t'.totalUnsat + t'.totalUnknown) :
    TotalsSound (done ++ [cell]) t' := by
  refine ⟨hrej, hcounts, ?_, ?_, fun u v h => ?_, hlearnt⟩
  · have hpos : classes ≠ [] := by
      rintro rfl
      exact hne (List.nil_perm.mp honce)
    have := List.length_pos_iff.mpr hpos
    have := ht.classes
    rw [horbits, List.length_append, List.length_append, List.length_singleton]
    omega
  · rw [horbits, List.flatten_append, List.flatten_append, List.flatten_singleton]
    exact ht.once.append honce
  · rw [horbits, sameClass_append] at h
    exact h.elim (ht.same u v) (hsame u v)

/-- A class by which nothing is asked. -/
theorem sameClass_singletons {α : Type*} {l : List α} {a b : α}
    (h : SameClass (l.map fun v => [v]) a b) : a = b := by
  obtain ⟨c, hc, ha, hb⟩ := h
  obtain ⟨x, -, rfl⟩ := List.mem_map.mp hc
  rw [List.mem_singleton.mp ha, List.mem_singleton.mp hb]

theorem eq_of_length_lt_two {α : Type*} {l : List α} (h : l.length < 2) {a b : α} (ha : a ∈ l)
    (hb : b ∈ l) : a = b := by
  match l, h with
  | [x], _ => rw [List.mem_singleton.mp ha, List.mem_singleton.mp hb]

omit [g.Simple] in
/-- The classes of a drive are what its union-find knows. -/
theorem sameClass_result (s : PerQueryState g.n) : SameClass (s.result cell).orbits u v ↔
    u ∈ cell ∧ v ∈ cell ∧ s.uf.view.mates u v := by
  rw [PerQueryState.result, sameClass_groups]
  simp [SeparatingUnionFind.mates_view]

/-- The first state of a class. -/
theorem perQueryInv_start (pool : InternPool) (clockReads calls : ℕ) :
    PerQueryInv d (.start g.n pool clockReads calls) :=
  ⟨by simpa [PerQueryState.start] using Knowledge.sound_nothing (orbitMates_equivalence g.Aut),
    .nil _, rfl, rfl⟩

/-- One more class. -/
theorem measureCell_spec (hd : d.Sound) {done : List (List (Fin g.n))} (ht : TotalsSound done t)
    (hcell : cell.Nodup) (hne : cell ≠ []) (h : measureCell d t cell = .ok t') :
    TotalsSound (done ++ [cell]) t' ∧ TotalsLater t t' ∧
      (CellFits d t cell → ∀ u ∈ cell, ∀ v ∈ cell, PairDone t' u v) := by
  have hrefl : ∀ u, OrbitMates g.Aut u u := (orbitMates_equivalence g.Aut).refl
  unfold measureCell at h
  split at h
  · -- a single vertex
    rename_i hlen
    cases h
    have heq : ∀ {u v}, u ∈ cell → v ∈ cell → u = v := eq_of_length_lt_two hlen
    refine ⟨ht.append rfl hne (by simp)
        (fun u v h => ?_) ht.learnt ht.rejected ht.counts,
      ⟨le_refl _, fun c hc => List.mem_append_left _ hc, fun _ he => he⟩,
      fun _ u hu v hv => Or.inr ⟨fun _ => ?_, fun hne => absurd (heq hu hv) hne⟩⟩
    · obtain ⟨c, hc, hu, hv⟩ := h
      rw [List.mem_singleton.mp hc] at hu hv
      exact heq hu hv ▸ hrefl u
    · exact ⟨cell, by simp, hu, hv⟩
  rename_i hlen
  split at h
  · -- the time is up
    rename_i htime
    cases h
    have hpos : 0 < cell.length * (cell.length - 1) := Nat.mul_pos (by omega) (by omega)
    refine ⟨ht.append rfl hne ?_ (fun u v h => ?_) ht.learnt
        ht.rejected ?_,
      ⟨Nat.le_add_right _ _, fun c hc => List.mem_append_left _ hc, fun _ he => he⟩,
      fun _ _ _ _ _ => Or.inl (Nat.add_pos_right _ hpos)⟩
    · rw [← List.flatMap_def, List.flatMap_singleton']
    · exact sameClass_singletons h ▸ hrefl u
    · have := ht.counts
      simp only
      omega
  · -- the class is driven
    rename_i htime
    obtain ⟨⟨r, s⟩, hr, rfl⟩ := map_ok h
    obtain ⟨s', hs', he⟩ := map_ok hr
    cases he
    obtain ⟨hinv, -, -, hall⟩ := driveCell_spec hd (s := .start g.n t.pool (t.clockReads + 1) t.calls)
      (perQueryInv_start _ _ _) rfl hs'
    refine ⟨ht.append rfl hne ?_ (fun u v h => ?_)
        (fun e he => ?_) ?_ ?_,
      ⟨Nat.le_add_right _ _, fun c hc => List.mem_append_left _ hc,
        fun _ he => List.mem_append_left _ he⟩, fun hfits u hu v hv => ?_⟩
    · exact flatten_groups_perm _ hcell
    · exact hinv.sound.mates ((sameClass_result s).mp h).2.2
    · rcases List.mem_append.mp he with he | he
      · exact ht.learnt e he
      · rw [List.mem_singleton.mp he]; exact hinv.sound
    · exact congrArg₂ (· + ·) ht.rejected hinv.rejected
    · have := ht.counts
      have := hinv.counts
      simp only [PerQueryTotals.add, PerQueryState.result]
      omega
    · rcases hall (hfits (by omega) (not_le.mp htime)) u hu v hv with he | hdec | hunk
      · obtain rfl : v = u := he
        exact Or.inr ⟨fun _ => sameClass_append.mpr (Or.inr ((sameClass_result s).mpr
          ⟨hu, hv, s.uf.view.equiv.refl v⟩)), fun hne => absurd rfl hne⟩
      · refine Or.inr ⟨fun ho => sameClass_append.mpr (Or.inr ((sameClass_result s).mpr
          ⟨hu, hv, hdec.resolve_right (hinv.sound.not_apart ho)⟩)), fun _ => ⟨(cell, s.uf), ?_, hu, hv,
          hdec⟩⟩
        exact List.mem_append_right _ (List.mem_singleton_self _)
      · exact Or.inl (Nat.add_pos_right _ hunk)

/-- Without delays a class adds nothing unknown. -/
theorem measureCell_prompt (hd : d.Sound) (hp : d.Prompt) (h : measureCell d t cell = .ok t') :
    t'.totalUnknown = t.totalUnknown := by
  unfold measureCell at h
  split at h
  · cases h; rfl
  split at h
  · rename_i htime
    exact absurd htime (not_le.mpr (hp.clock _))
  · obtain ⟨⟨r, s⟩, hr, rfl⟩ := map_ok h
    obtain ⟨s', hs', he⟩ := map_ok hr
    cases he
    obtain ⟨-, -, hunk, -⟩ := driveCell_spec hd (s := .start g.n t.pool (t.clockReads + 1) t.calls)
      (perQueryInv_start _ _ _) rfl hs'
    exact congrArg (t.totalUnknown + ·) (hunk hp)

omit [g.Simple] in
theorem totalsSound_start (pool : InternPool) : TotalsSound [] (.start g.n pool) :=
  ⟨rfl, rfl, le_refl _, List.Perm.nil, fun _ _ ⟨_, hc, _⟩ => absurd hc (List.not_mem_nil),
    fun _ he => absurd he (List.not_mem_nil)⟩

omit [g.Simple] in
theorem nodup_of_mem_colourCells {c : Fin g.n → Content} (h : cell ∈ colourCells c) :
    cell.Nodup ∧ cell ≠ [] :=
  ⟨group_nodup (List.nodup_finRange _) h, group_ne_nil h⟩

variable {pool : InternPool}

/-- All classes together; the totals pass the checks. -/
theorem measureCells_sound (hd : d.Sound)
    (h : (colourCells d.base).foldlM (measureCell d) (.start g.n pool) = .ok t) :
    TotalsSound (colourCells d.base) t ∧ checkTotals (colourCells d.base) t = .ok () := by
  have hsound := foldlM_inv_of (P := TotalsSound) (Q := fun _ cell => cell.Nodup ∧ cell ≠ [])
    (fun done cell t t' ht hc hok => (measureCell_spec hd ht hc.1 hc.2 hok).1)
    (colourCells d.base) [] _ t (totalsSound_start pool)
    (atEachStep_of_forall fun cell hc _ => nodup_of_mem_colourCells hc) h
  rw [List.nil_append] at hsound
  refine ⟨hsound, ?_⟩
  rw [checkTotals, if_neg (not_not.mpr hsound.rejected), if_neg (not_not.mpr hsound.counts),
    if_neg (not_lt.mpr hsound.classes)]

/-- When nothing is too large, every pair of one colour is done. -/
theorem measureCells_done (hd : d.Sound) (hfits : EveryQueryFits d pool)
    (h : (colourCells d.base).foldlM (measureCell d) (.start g.n pool) = .ok t) :
    ∀ cell ∈ colourCells d.base, ∀ u ∈ cell, ∀ v ∈ cell, PairDone t u v := by
  have hdone := foldlM_inv_of (P := fun done t => TotalsSound done t ∧
      ∀ cell ∈ done, ∀ u ∈ cell, ∀ v ∈ cell, PairDone t u v)
    (fun done cell t t' ht hc hok => by
      obtain ⟨hcell, hne⟩ := nodup_of_mem_colourCells hc.1
      obtain ⟨hsound, hlater, hpairs⟩ := measureCell_spec hd ht.1 hcell hne hok
      refine ⟨hsound, fun cell' hc' u hu v hv => ?_⟩
      rcases List.mem_append.mp hc' with hc' | hc'
      · exact hlater.pairDone (ht.2 cell' hc' u hu v hv)
      · rw [List.mem_singleton.mp hc'] at hu hv
        exact hpairs hc.2 u hu v hv)
    (colourCells d.base) [] _ t ⟨totalsSound_start pool, by simp⟩
    (hfits.with_mem fun _ h => h) h
  rw [List.nil_append] at hdone
  exact hdone.2

theorem measureCell_ok (hd : d.Sound) (hret : d.Returns) (t : PerQueryTotals g.n)
    (cell : List (Fin g.n)) : ∃ t', measureCell d t cell = .ok t' := by
  unfold measureCell
  split
  · exact ⟨_, rfl⟩
  split
  · exact ⟨_, rfl⟩
  · obtain ⟨s, hs⟩ := driveCell_ok hd hret
      (perQueryInv_start t.pool (t.clockReads + 1) t.calls) cell
    exact ⟨_, by rw [drivePerQueryOrbits, hs]; rfl⟩

/-- When every colouring returns so does the run: no check fires. -/
theorem measurePerQuery_ok (hd : d.Sound) (hret : d.Returns) (pool : InternPool) : ∃ t,
    (colourCells d.base).foldlM (measureCell d) (.start g.n pool) = .ok t ∧
      measurePerQuery d pool = .ok (solveStatus t.totalUnknown, t) := by
  obtain ⟨t, ht, -⟩ := foldlM_ok (P := fun _ _ => True)
    (fun _ cell t _ _ => by
      obtain ⟨t', ht'⟩ := measureCell_ok hd hret t cell
      exact ⟨t', ht', trivial⟩)
    (colourCells d.base) [] (PerQueryTotals.start g.n pool) (fun _ h => h) trivial
  refine ⟨t, ht, ?_⟩
  simp only [measurePerQuery, ht, (measureCells_sound hd ht).2, Except.bind]

/-- A solver that always answers. -/
noncomputable def answer (F : Formula) (l : ℤ) : SolverResult :=
  open Classical in if h : ∃ τ, Models τ F ∧ holds τ l then .sat h.choose else .unsat

theorem answer_correct (F : Formula) (l : ℤ) : (answer F l).Correct F l := by
  unfold answer
  split
  · rename_i h; exact h.choose_spec
  · rename_i h; exact fun τ hτ hl => h ⟨τ, hτ, hl⟩

theorem answer_ne_unknown (F : Formula) (l : ℤ) : answer F l ≠ .unknown := by
  unfold answer
  split <;> simp

/-- No 64-bit count exceeds the largest limit. -/
theorem tooLarge_maxValue (h : d.maxEdgeClauses = 2 ^ 63 - 1) (cU cV : Fin g.n → Content) :
    tooLarge d cU cV = false := by
  have hle : ∀ k : ℕ, ¬d.maxEdgeClauses < toLong k := fun k => by
    rw [h, not_lt]
    exact toLong_le k
  unfold tooLarge
  dsimp only [estimatePerQueryEncodingSize]
  rw [decide_eq_false_iff_not, not_or]
  exact ⟨hle _, hle _⟩

theorem everyQueryFits_maxValue (h : d.maxEdgeClauses = 2 ^ 63 - 1) (pool : InternPool) :
    EveryQueryFits d pool :=
  atEachStep_of_forall fun _ _ _ _ _ => atEachStep_of_forall
    fun _ _ _ _ _ _ cU _ cV _ _ _ => tooLarge_maxValue h cU cV

theorem certified_of_prompt (hd : d.Sound) (hp : d.Prompt) (hret : d.Returns) (pool : InternPool) :
    ∃ t, (colourCells d.base).foldlM (measureCell d) (.start g.n pool) = .ok t ∧
      measurePerQuery d pool = .ok (.certified, t) := by
  obtain ⟨t, ht, h⟩ := measurePerQuery_ok hd hret pool
  have hzero := foldlM_inv (P := fun _ t => t.totalUnknown = 0)
    (fun _ cell t t' h hok => (measureCell_prompt hd hp hok).trans h)
    (colourCells d.base) [] _ t rfl ht
  exact ⟨t, ht, by rw [h, solveStatus, if_pos hzero]⟩

/-- The edge 0-1, with the largest limit. -/
noncomputable def edgeDrive : PerQueryDrive (ofEdges 2 [(0, 1)]) :=
  ⟨fun _ => .str ['u'], .initialPhase none, 2 ^ 63 - 1, 1, fun _ => 0, fun _ => answer⟩

/-- The classes of a cell are made of its own vertices. -/
theorem sameClass_measureCell (h : measureCell d t cell = .ok t') (hu : u ∉ cell) :
    SameClass t'.orbits u v ↔ SameClass t.orbits u v := by
  have key : ∀ classes, t'.orbits = t.orbits ++ classes → (∀ c ∈ classes, u ∉ c) →
      (SameClass t'.orbits u v ↔ SameClass t.orbits u v) := fun classes he hc => by
    rw [he, sameClass_append, or_iff_left]
    rintro ⟨c, hmem, huc, -⟩
    exact hc c hmem huc
  unfold measureCell at h
  split at h
  · cases h
    exact key [cell] rfl fun c hc => List.mem_singleton.mp hc ▸ hu
  split at h
  · cases h
    refine key _ rfl fun c hc huc => ?_
    obtain ⟨x, hx, rfl⟩ := List.mem_map.mp hc
    exact hu (List.mem_singleton.mp huc ▸ hx)
  · obtain ⟨⟨r, s⟩, hr, rfl⟩ := map_ok h
    obtain ⟨s', -, he⟩ := map_ok hr
    cases he
    exact key _ rfl fun c hc huc => hu (mem_of_mem_groups hc huc)

/-- A class all of whose formulas are too large stays in pieces. -/
theorem measureCell_tooLarge (hd : d.Sound) (hp : d.Prompt) (hlen : 2 ≤ cell.length)
    (hlarge : ∀ cache pool u v cU cV, Cached d cache pool → (u, cU) ∈ cache → (v, cV) ∈ cache →
      u ∈ cell → v ∈ cell → v ≠ u → tooLarge d cU cV = true)
    (h : measureCell d t cell = .ok t') (hne : u ≠ v)
    (ht : ¬SameClass t.orbits u v) : ¬SameClass t'.orbits u v := by
  rw [measureCell, if_neg (by omega), if_neg (not_le.mpr (hp.clock _))] at h
  obtain ⟨⟨r, s⟩, hr, rfl⟩ := map_ok h
  obtain ⟨s', hs', he⟩ := map_ok hr
  cases he
  have hview := foldlM_inv_of (P := fun _ t => PerQueryInv d t ∧ t.uf.view = Knowledge.nothing _)
    (Q := fun _ q => q ∈ orderedPairs cell) (fun done q s s' hs hq hok => by
    refine ⟨(visit_inv hd hs.1 hok).1, ?_⟩
    obtain ⟨uf, w, a, hview, hframe⟩ := s.skip_frame q.1 q.2
    have hskip : (s.skip q.1 q.2).2.uf.view = s.uf.view := by rw [hframe, hview]
    rcases visit_cases hok with ⟨-, rfl⟩ | ⟨-, hne, ⟨-, rfl⟩ | ⟨htime, -⟩ | ⟨-, hok⟩⟩
    · exact hs.2
    · exact hskip.trans hs.2
    · exact absurd htime (not_le.mpr (hp.clock _))
    · obtain ⟨hs₁, -, -, -⟩ := skip_inv hs.1 q.1 q.2
      have hs₂ : PerQueryInv d (s.skip q.1 q.2).2.readClock :=
        ⟨hs₁.sound, hs₁.cached, hs₁.counts, hs₁.rejected⟩
      obtain ⟨cU, s₁, cV, s₂, hU, hV, -, -, -, -, hstay, -⟩ := decidePair_cases hd hs₂ hne hok
      obtain ⟨cache₁, pool₁, rfl, hc₁, hmemU, -⟩ := colouringFor_cached hs₂.cached hU
      obtain ⟨cache₂, pool₂, rfl, hc₂, hmemV, hkeep⟩ := colouringFor_cached (s := {
        (s.skip q.1 q.2).2.readClock with colouringCache := cache₁, pool := pool₁ }) hc₁ hV
      obtain ⟨hqu, hqv⟩ := mem_orderedPairs.mp hq
      rw [hstay (hlarge cache₂ pool₂ q.1 q.2 cU cV hc₂ (hkeep _ hmemU) hmemV hqu hqv hne)]
      exact hskip.trans hs.2)
    (orderedPairs cell) [] _ s ⟨perQueryInv_start _ _ _, SeparatingUnionFind.view_init _⟩
    (atEachStep_of_forall fun _ h _ => h) hs'
  rintro hsame
  rcases sameClass_append.mp hsame with hsame | hsame
  · exact ht hsame
  · have := (sameClass_result s).mp hsame
    rw [hview.2] at this
    exact hne this.2.2

/-- Two isolated vertices 0, 1 and the cycle 2-3-4-5. -/
abbrev pairAndCycle : Graph := ofEdges 6 [(2, 3), (3, 4), (4, 5), (2, 5)]

/-- Its two classes. -/
def pairAndCycleBase (v : Fin pairAndCycle.n) : Content :=
  if pairAndCycle.adj v = [] then .num 0 else .num 1

/-- A limit of 40 clauses; the 4 vertices of the cycle alone cost 56. -/
noncomputable def pairAndCycleDrive : PerQueryDrive pairAndCycle :=
  ⟨pairAndCycleBase, .initialPhase none, 40, 1, fun _ => 0, fun _ => answer⟩

theorem pairAndCycle_cells : colourCells (n := 6) pairAndCycleBase = [[0, 1], [2, 3, 4, 5]] := by
  decide +kernel

theorem pairAndCycle_base (α : Equiv.Perm (Fin pairAndCycle.n)) (hα : IsAut pairAndCycle α)
    (i : Fin pairAndCycle.n) : (pairAndCycleBase (α i)).Equals (pairAndCycleBase i) := by
  have hempty : pairAndCycle.adj (α i) = [] ↔ pairAndCycle.adj i = [] := by
    rw [← List.length_eq_zero_iff, ← List.length_eq_zero_iff, ← (IsIso.adj_perm hα i).length_eq,
      List.length_map]
  simp only [pairAndCycleBase, hempty]
  rfl

theorem pairAndCycle_returns : pairAndCycleDrive.Returns := by
  intro u pool
  obtain ⟨r, hr⟩ : ∃ r, initialPhase pairAndCycle
      (individualize pairAndCycleBase u) false none pool = .ok r := by
    refine initialPhase_ok (fun _ h => by cases h) (by decide +kernel) fun v s hs => ?_
    obtain ⟨i, -, rfl⟩ := hs
    revert u v i
    decide +kernel
  exact ⟨(r.1.color, r.2), by simp only [perQueryColouring, pairAndCycleDrive, FilterRefine.refine, hr]; rfl⟩

/-- The exchange of the isolated vertices, and the rotation of the cycle. -/
def exchange : Equiv.Perm (Fin 6) := Equiv.swap 0 1

def rotation : Equiv.Perm (Fin 6) :=
  ⟨![0, 1, 3, 4, 5, 2], ![0, 1, 5, 2, 3, 4], by decide, by decide⟩

theorem exchange_isAut : IsAut pairAndCycle exchange := fun v w => by revert v w; decide

theorem rotation_isAut : IsAut pairAndCycle rotation := fun v w => by revert v w; decide

/-- A bucket with four rows and four columns is too large. -/
theorem pairAndCycle_tooLarge {cU cV : Fin pairAndCycle.n → Content} {c : Content}
    (hU : ∀ i : Fin pairAndCycle.n, 2 ≤ i.val → hashKeys cU i = c)
    (hV : ∀ i : Fin pairAndCycle.n, 2 ≤ i.val → hashKeys cV i = c) :
    tooLarge pairAndCycleDrive cU cV = true := by
  have hfour : ∀ key : Fin pairAndCycle.n → Content, (∀ i : Fin pairAndCycle.n, 2 ≤ i.val → key i = c) →
      4 ≤ ((List.finRange pairAndCycle.n).filter fun i => key i = c).length := fun key hkey => by
    have hsub : ((List.finRange 6).filter fun i => 2 ≤ i.val).length ≤
        ((List.finRange 6).filter fun i => (key i = c : Bool)).length :=
      List.Sublist.length_le (List.monotone_filter_right _ fun i hi =>
        decide_eq_true (hkey i (of_decide_eq_true hi)))
    exact le_trans (by decide) hsub
  have hsix : ∀ p : Fin pairAndCycle.n → Bool, ((List.finRange pairAndCycle.n).filter p).length ≤ 6 :=
    fun p => (List.length_filter_le _ _).trans (List.length_finRange).le
  have hcols : ∀ k, colsByColour (hashKeys cV) k =
      (List.finRange pairAndCycle.n).filter fun i => hashKeys cV i = k := fun k => by
    rw [colsByColour, lookup_groupBy]
  have hsixCols : ∀ k, (colsByColour (hashKeys cV) k).length ≤ 6 := fun k => by
    rw [hcols]
    exact hsix _
  have hrange : ∀ r ≤ 6, ∀ c ≤ 6, r * (1 + c * (c - 1) / 2) + c * (1 + r * (r - 1) / 2) ≤ 192 ∧
      (4 ≤ r → 4 ≤ c → 40 < r * (1 + c * (c - 1) / 2) + c * (1 + r * (r - 1) / 2)) := by decide
  have hcost : ∀ b : List (Fin pairAndCycle.n) × List (Fin pairAndCycle.n), b.1.length ≤ 6 →
      b.2.length ≤ 6 → bucketBijectionCost b ≤ 192 ∧
        (4 ≤ b.1.length → 4 ≤ b.2.length → 40 < bucketBijectionCost b) :=
    fun b hr hc => hrange _ hr _ hc
  have hbound : ((buckets (hashKeys cU) (hashKeys cV)).map bucketBijectionCost).sum ≤ 6 * 192 := by
    refine (List.sum_le_card_nsmul _ 192 fun k hk => ?_).trans ?_
    · obtain ⟨b, hb, rfl⟩ := List.mem_map.mp hk
      obtain ⟨i, rfl⟩ := mem_buckets.mp hb
      exact (hcost _ (hsix fun i' => hashKeys cU i' = hashKeys cU i) (hsixCols _)).1
    · rw [List.length_map, smul_eq_mul, buckets, List.length_map]
      refine Nat.mul_le_mul_right _ ?_
      have := length_keys (hashKeys cU)
      rw [keys, List.length_map] at this
      rw [this]
      exact Finset.card_image_le.trans (Finset.card_fin 6).le
  have hlarge : 40 < ((buckets (hashKeys cU) (hashKeys cV)).map bucketBijectionCost).sum := by
    refine lt_of_lt_of_le ?_ (List.le_sum_of_mem (List.mem_map_of_mem (mem_buckets.mpr ⟨(2 : Fin 6), rfl⟩)))
    refine (hcost _ (hsix fun i => hashKeys cU i = hashKeys cU (2 : Fin 6)) (hsixCols _)).2 ?_ ?_
    · rw [hU (2 : Fin 6) (le_refl 2)]
      exact hfour _ hU
    · rw [hU (2 : Fin 6) (le_refl 2), hcols]
      exact hfour _ hV
  have hlimit : 40 < toLong ((buckets (hashKeys cU) (hashKeys cV)).map bucketBijectionCost).sum := by
    rw [toLong_of_lt (hbound.trans_lt (by omega))]
    exact Int.ofNat_lt.mpr hlarge
  exact tooLarge_of_bijectionClauses pairAndCycleDrive hlimit

/-- Wherever they come from, the two colourings give the cycle one colour. -/
theorem pairAndCycle_cached {cache : List (Fin pairAndCycle.n × (Fin pairAndCycle.n → Content))}
    {pool : InternPool} {u v : Fin pairAndCycle.n} {cU cV : Fin pairAndCycle.n → Content}
    (h : Cached pairAndCycleDrive cache pool) (hU : (u, cU) ∈ cache) (hV : (v, cV) ∈ cache)
    (hu : u ∈ [(0 : Fin 6), 1]) (hv : v ∈ [(0 : Fin 6), 1]) (hne : v ≠ u) :
    tooLarge pairAndCycleDrive cU cV = true := by
  have hbase := pairAndCycle_base
  have hrot : ∀ i, cU (rotation i) = cU i := fun i => by
    obtain ⟨pool₀, pool₁, hrun, -⟩ := h.computed hU
    have hfix : ∀ u ∈ [(0 : Fin 6), 1], rotation u = u := by decide
    obtain ⟨ids, rfl, -, hids⟩ := perQueryColouring_run hrun
    exact numColors_inj.mpr (RunsTo.orbits rotation_isAut
      (individualize_carried (hbase rotation rotation_isAut) (hfix u hu)) hids i)
  have hconst : ∀ i : Fin pairAndCycle.n, 2 ≤ i.val → hashKeys cU i = hashKeys cU (2 : Fin 6) := by
    have h₃ : cU (3 : Fin 6) = cU (2 : Fin 6) := hrot (2 : Fin 6)
    have h₄ : cU (4 : Fin 6) = cU (3 : Fin 6) := hrot (3 : Fin 6)
    have h₅ : cU (5 : Fin 6) = cU (4 : Fin 6) := hrot (4 : Fin 6)
    have hcycle : ∀ i : Fin 6, 2 ≤ i.val → i = 2 ∨ i = 3 ∨ i = 4 ∨ i = 5 := by decide
    intro i hi
    refine congrArg Content.canon ?_
    rcases hcycle i hi with rfl | rfl | rfl | rfl
    · rfl
    · exact h₃
    · exact h₄.trans h₃
    · exact h₅.trans (h₄.trans h₃)
  refine pairAndCycle_tooLarge hconst fun i hi => ?_
  have hexch : ∀ u ∈ [(0 : Fin 6), 1], ∀ v ∈ [(0 : Fin 6), 1], v ≠ u → exchange u = v := by decide
  have hcarry := h.carried exchange_isAut (hbase exchange exchange_isAut) (hexch u hu v hv hne) hne
    hU hV i
  have hstay : ∀ i : Fin 6, 2 ≤ i.val → exchange i = i := by decide
  have hstays : cV i = cU i := (congrArg cV (hstay i hi)).symm.trans hcarry
  exact (congrArg Content.canon hstays).trans (hconst i hi)

end Dialysis.Benchmark
