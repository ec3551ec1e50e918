import GraphDialysis.Sat.OrbitDriver

/-! `driveToOrbitsCadicalParallel`: any number of workers draw classes from one shared queue index,
    ask their own solvers, and share one `SeparatingUnionFind` of which every single access is
    synchronized. The state of a worker says which access, or which query, it does next; one
    step of the system is one step of one worker (`stepWorker`), so the runs of the system are
    all the interleavings of atomic increments, critical sections and solver calls. In particular
    other workers change the union-find between a worker's two skip checks, its query and the
    update after it.

    `WorkerInv` is what one worker relies on, `SystemInv` adds how the claims of the workers fit
    together; `stepWorker_ok` is the step lemma for the worker that moves, `system_step` for all
    of them, and `reachable_inv` the induction over a run. -/

namespace Dialysis.Sat
open Lib Dialysis.Graph

/-- One class to process; `admissiblePairsOnly` for the classes of the side-swapping encoding. -/
structure WorkUnit where
  classIdx : ℕ
  admissiblePairsOnly : Bool
  estimatedCost : ℕ
deriving DecidableEq

/-- The classes of one encoding that have two members or more. -/
def unitsOf {V : Type*} (groups : List (List V)) (admissiblePairsOnly : Bool) : List WorkUnit :=
  (groups.zipIdx.filter fun p => 1 < p.1.length).map fun p =>
    ⟨p.2, admissiblePairsOnly, p.1.length * p.1.length⟩

/-- All work units, largest first. -/
def workQueue {V : Type*} (preserveGroups : List (List V)) (swapGroups : Option (List (List V))) :
    List WorkUnit :=
  (unitsOf preserveGroups false ++ swapGroups.elim [] fun groups => unitsOf groups true).insertionSort
    fun a b => b.estimatedCost ≤ a.estimatedCost

/-- The encodings every worker builds for itself; they are the same for all. -/
structure ParallelConfig (g : Graph) where
  preserve : CadicalEncoding g
  swap : Option (CadicalEncoding g)

inductive Pass
  | short
  | long
deriving DecidableEq

/-- A verified answer on its way into the union-find. -/
inductive Update (n : ℕ)
  | witness (alpha : Fin n → Option (Fin n))
  | separation

/-- Where a worker is: before drawing a unit, before the first or the second skip check of a pair,
    before its query, before applying its answer, or at the end. -/
inductive Phase (n : ℕ)
  | claim
  | checkMate (pass : Pass) (rest : List (PendingPair n))
  | checkSeparated (pass : Pass) (q : PendingPair n) (rest : List (PendingPair n))
  | query (pass : Pass) (q : PendingPair n) (rest : List (PendingPair n))
  | apply (pass : Pass) (q : PendingPair n) (update : Update n) (rest : List (PendingPair n))
  | done

/-- The variables of a worker; `claimed` lists the queue positions it has drawn. -/
structure Worker (n : ℕ) where
  phase : Phase n
  survivors : List (PendingPair n)
  touchedClasses : List (List (Fin n))
  claimed : List ℕ
  issued : ℕ
  skippedWitness : ℕ
  skippedSeparation : ℕ
  sat : ℕ
  unsat : ℕ
  unknown : ℕ
  verified : ℕ
  rejected : ℕ

def Worker.start (n : ℕ) : Worker n := ⟨.claim, [], [], [], 0, 0, 0, 0, 0, 0, 0, 0⟩

/-- What the workers share. -/
structure Shared (n : ℕ) where
  nextIndex : ℕ
  uf : SeparatingUnionFind n

variable {g : Graph}

/-- The shared work queue. -/
def ParallelConfig.queue (cfg : ParallelConfig g) : List WorkUnit :=
  workQueue cfg.preserve.groups (cfg.swap.map (·.groups))

/-- The encoding a unit is about. -/
def ParallelConfig.encodingOf (cfg : ParallelConfig g) (unit : WorkUnit) :
    Option (CadicalEncoding g) :=
  if unit.admissiblePairsOnly then cfg.swap else some cfg.preserve

def classMembers (encoding : CadicalEncoding g) (unit : WorkUnit) : List (Fin g.n) :=
  encoding.groups.getD unit.classIdx []

/-- The ordered pairs of distinct members of the class of a unit. -/
def collectClassQueue (encoding : CadicalEncoding g) (unit : WorkUnit) : List (PendingPair g.n) :=
  let members := classMembers encoding unit
  members.flatMap fun u =>
    (members.filter fun v => v ≠ u ∧ ¬(unit.admissiblePairsOnly ∧ encoding.varOf u v < 0)).map
      fun v => ⟨u, v, unit.admissiblePairsOnly⟩

/-- Count an answer, and go on to apply it if there is something to apply. -/
def Worker.record (w : Worker g.n) (pass : Pass) (q : PendingPair g.n) (rest : List (PendingPair g.n))
    (r : SatQueryResult g.n) : Worker g.n :=
  match r with
  | .sat alpha =>
    if verifyAutomorphism g alpha then
      { w with sat := w.sat + 1, verified := w.verified + 1,
               phase := .apply pass q (.witness alpha) rest }
    else { w with sat := w.sat + 1, rejected := w.rejected + 1, phase := .checkMate pass rest }
  | .unsat => { w with unsat := w.unsat + 1, phase := .apply pass q .separation rest }
  | .unknown => { w with unknown := w.unknown + 1, phase := .checkMate pass rest }

/-- The next atomic step of a worker; `r` is what the solver answers if it is asked now. -/
def stepWorker (cfg : ParallelConfig g) (r : SatQueryResult g.n) (s : Shared g.n) (w : Worker g.n) :
    Except String (Shared g.n × Worker g.n) :=
  match w.phase with
  | .claim =>
    let idx := s.nextIndex
    let s := { s with nextIndex := idx + 1 }
    match cfg.queue[idx]? with
    | none => .ok (s, { w with phase := .checkMate .long w.survivors })
    | some unit =>
      match cfg.encodingOf unit with
      | none => .error "scheduled a swap work unit but no swap encoding exists"
      | some encoding =>
        .ok (s, { w with
          claimed := w.claimed ++ [idx]
          touchedClasses := w.touchedClasses ++ [classMembers encoding unit]
          phase := .checkMate .short (collectClassQueue encoding unit) })
  | .checkMate .short [] => .ok (s, { w with phase := .claim })
  | .checkMate .long [] => .ok (s, { w with phase := .done })
  | .checkMate pass (q :: rest) =>
    let (ru, uf) := s.uf.find q.u
    let (rv, uf) := uf.find q.v
    let s := { s with uf := uf }
    if ru = rv then
      .ok (s, { w with skippedWitness := w.skippedWitness + 1, phase := .checkMate pass rest })
    else .ok (s, { w with phase := .checkSeparated pass q rest })
  | .checkSeparated pass q rest =>
    let (known, uf) := s.uf.separated q.u q.v
    let s := { s with uf := uf }
    if known then
      .ok (s, { w with skippedSeparation := w.skippedSeparation + 1, phase := .checkMate pass rest })
    else .ok (s, { w with phase := .query pass q rest })
  | .query .short q rest =>
    match r with
    | .unknown =>
      .ok (s, { w with survivors := w.survivors ++ [q], phase := .checkMate .short rest })
    | r => .ok (s, { w with issued := w.issued + 1 }.record .short q rest r)
  | .query .long q rest => .ok (s, { w with issued := w.issued + 1 }.record .long q rest r)
  | .apply pass _ (.witness alpha) rest =>
    (applyWitness s.uf alpha).map fun uf =>
      ({ s with uf := uf }, { w with phase := .checkMate pass rest })
  | .apply pass q .separation rest =>
    (s.uf.markSeparated q.u q.v).map fun uf =>
      ({ s with uf := uf }, { w with phase := .checkMate pass rest })
  | .done => .ok (s, w)

/-- The shared state and all workers. -/
structure System (n k : ℕ) where
  shared : Shared n
  workers : Fin k → Worker n

def System.start (n k : ℕ) : System n k := ⟨⟨0, SeparatingUnionFind.init n⟩, fun _ => Worker.start n⟩

/-- The solver's answer in a step of `w` is one that `Answer` allows. -/
def Allowed (Answer : PendingPair g.n → SatQueryResult g.n → Prop) (w : Worker g.n)
    (r : SatQueryResult g.n) : Prop :=
  ∀ pass q rest, w.phase = .query pass q rest → Answer q r

/-- One worker makes one step. -/
inductive Step (cfg : ParallelConfig g) (Answer : PendingPair g.n → SatQueryResult g.n → Prop)
    {k : ℕ} : System g.n k → System g.n k → Prop
  | mk {s : System g.n k} (i : Fin k) (r : SatQueryResult g.n) {shared : Shared g.n}
      {w : Worker g.n} (allowed : Allowed Answer (s.workers i) r)
      (ok : stepWorker cfg r s.shared (s.workers i) = .ok (shared, w)) :
      Step cfg Answer s ⟨shared, Function.update s.workers i w⟩

/-- Every interleaving, from the start. -/
def Reachable (cfg : ParallelConfig g) (Answer : PendingPair g.n → SatQueryResult g.n → Prop) {k : ℕ}
    (s : System g.n k) : Prop :=
  Relation.ReflTransGen (Step cfg Answer) (System.start g.n k) s

/-- Some worker can throw. -/
def Throws (cfg : ParallelConfig g) (Answer : PendingPair g.n → SatQueryResult g.n → Prop) {k : ℕ}
    (s : System g.n k) : Prop :=
  ∃ i r msg, Allowed Answer (s.workers i) r ∧ stepWorker cfg r s.shared (s.workers i) = .error msg

/-- All workers have returned. -/
def System.Finished {n k : ℕ} (s : System n k) : Prop := ∀ i, (s.workers i).phase = .done

/-- The joined result of all workers. -/
structure ParallelDriveResult (n : ℕ) where
  orbits : List (List (Fin n))
  queriesIssued : ℕ
  queriesSkippedWitness : ℕ
  queriesSkippedSeparation : ℕ
  sat : ℕ
  unsat : ℕ
  unknown : ℕ
  witnessesVerified : ℕ
  witnessesRejected : ℕ

/-- Group all touched vertices by their final root; every other vertex stays alone. -/
def System.result {n k : ℕ} (s : System n k) : ParallelDriveResult n :=
  let touched := (List.finRange n).filter fun v => ∃ i, ∃ c ∈ (s.workers i).touchedClasses, v ∈ c
  let untouchedSingletons := ((List.finRange n).filter fun v => v ∉ touched).map fun v => [v]
  let total := fun count : Worker n → ℕ => ((List.finRange k).map fun i => count (s.workers i)).sum
  ⟨Lib.groups (fun v => (s.shared.uf.find v).1) touched ++ untouchedSingletons,
    total (·.issued), total (·.skippedWitness), total (·.skippedSeparation), total (·.sat),
    total (·.unsat), total (·.unknown), total (·.verified), total (·.rejected)⟩

/-! ### Units and pairs -/

/-- The pairs that come with a queue position. -/
def ParallelConfig.unitPairs (cfg : ParallelConfig g) (idx : ℕ) : List (PendingPair g.n) :=
  (cfg.queue[idx]?).elim [] fun unit =>
    (cfg.encodingOf unit).elim [] fun encoding => collectClassQueue encoding unit

/-- The members of the class at a queue position. -/
def ParallelConfig.unitMembers (cfg : ParallelConfig g) (idx : ℕ) : List (Fin g.n) :=
  (cfg.queue[idx]?).elim [] fun unit =>
    (cfg.encodingOf unit).elim [] fun encoding => classMembers encoding unit

/-- Both vertices are in one class of the first encoding, or in one of the second with a variable. -/
def ParallelConfig.AdmissiblePair (cfg : ParallelConfig g) (u v : Fin g.n) : Prop :=
  SameClass cfg.preserve.groups u v ∨
    ∃ e, cfg.swap = some e ∧ SameClass e.groups u v ∧ 0 ≤ e.varOf u v

theorem mem_unitsOf {V : Type*} {groups : List (List V)} {b : Bool} {unit : WorkUnit} :
    unit ∈ unitsOf groups b ↔ ∃ members, groups[unit.classIdx]? = some members ∧
      1 < members.length ∧ unit.admissiblePairsOnly = b ∧
        unit.estimatedCost = members.length * members.length := by
  obtain ⟨classIdx, only, cost⟩ := unit
  simp only [unitsOf, List.mem_map, List.mem_filter, Prod.exists, List.mem_zipIdx_iff_getElem?,
    WorkUnit.mk.injEq, decide_eq_true_eq]
  constructor
  · rintro ⟨members, i, ⟨hi, hlen⟩, rfl, rfl, rfl⟩
    exact ⟨members, hi, hlen, rfl, rfl⟩
  · rintro ⟨members, hi, hlen, rfl, rfl⟩
    exact ⟨members, classIdx, ⟨hi, hlen⟩, rfl, rfl, rfl⟩

variable {cfg : ParallelConfig g}

theorem mem_queue {unit : WorkUnit} : unit ∈ cfg.queue ↔
    unit ∈ unitsOf cfg.preserve.groups false ∨ ∃ e, cfg.swap = some e ∧ unit ∈ unitsOf e.groups true := by
  rw [ParallelConfig.queue, workQueue, List.mem_insertionSort, List.mem_append]
  refine or_congr_right ?_
  cases cfg.swap <;> simp

/-- A class of the second encoding is scheduled only when there is one. -/
theorem encodingOf_ne_none {unit : WorkUnit} (h : unit ∈ cfg.queue) : cfg.encodingOf unit ≠ none := by
  unfold ParallelConfig.encodingOf
  rcases mem_queue.mp h with h | ⟨e, he, -⟩
  · obtain ⟨_, -, -, hb, -⟩ := mem_unitsOf.mp h
    simp [hb]
  · split <;> simp [he]

theorem mem_collectClassQueue {encoding : CadicalEncoding g} {unit : WorkUnit} {u v : Fin g.n}
    (hu : u ∈ classMembers encoding unit) (hv : v ∈ classMembers encoding unit) (hne : v ≠ u)
    (hvar : unit.admissiblePairsOnly = true → 0 ≤ encoding.varOf u v) :
    ⟨u, v, unit.admissiblePairsOnly⟩ ∈ collectClassQueue encoding unit := by
  simp only [collectClassQueue, List.mem_flatMap, List.mem_map, List.mem_filter, decide_eq_true_eq]
  exact ⟨u, hu, v, ⟨hv, hne, fun h => absurd (hvar h.1) (not_le.mpr h.2)⟩, rfl⟩

/-- The pairs that come with a queue position are admissible, for the encoding they are asked about. -/
theorem mem_unitPairs {idx : ℕ} {q : PendingPair g.n} (hq : q ∈ cfg.unitPairs idx) :
    if q.swapped then ∃ e, cfg.swap = some e ∧ SameClass e.groups q.u q.v ∧ 0 ≤ e.varOf q.u q.v
    else SameClass cfg.preserve.groups q.u q.v := by
  unfold ParallelConfig.unitPairs at hq
  cases hget : cfg.queue[idx]? with
  | none => rw [hget] at hq; simp at hq
  | some unit =>
    rw [hget, Option.elim_some] at hq
    cases henc : cfg.encodingOf unit with
    | none => rw [henc] at hq; simp at hq
    | some e =>
      rw [henc, Option.elim_some] at hq
      simp only [collectClassQueue, List.mem_flatMap, List.mem_map, List.mem_filter,
        decide_eq_true_eq, not_and, not_lt] at hq
      obtain ⟨u, hu, v, ⟨hv, -, hvar⟩, rfl⟩ := hq
      have hsame : SameClass e.groups u v := by
        refine ⟨classMembers e unit, ?_, hu, hv⟩
        unfold classMembers at hu ⊢
        rw [List.getD_eq_getElem?_getD] at hu ⊢
        cases hi : e.groups[unit.classIdx]? with
        | none => rw [hi] at hu; simp at hu
        | some members => exact List.mem_of_getElem? hi
      unfold ParallelConfig.encodingOf at henc
      cases hb : unit.admissiblePairsOnly with
      | true => rw [hb, if_pos rfl] at henc; exact ⟨e, henc, hsame, hvar hb⟩
      | false => rw [hb] at henc; exact Option.some.inj henc ▸ hsame

/-- Every admissible pair of distinct vertices comes with some queue position. -/
theorem exists_unitPairs {u v : Fin g.n} (hne : v ≠ u) (h : cfg.AdmissiblePair u v) :
    ∃ idx < cfg.queue.length, u ∈ cfg.unitMembers idx ∧ v ∈ cfg.unitMembers idx ∧
      ∃ q ∈ cfg.unitPairs idx, q.u = u ∧ q.v = v := by
  have key : ∀ (e : CadicalEncoding g) (b : Bool),
      (∀ unit ∈ unitsOf e.groups b, unit ∈ cfg.queue ∧ cfg.encodingOf unit = some e) →
      (b = true → 0 ≤ e.varOf u v) → SameClass e.groups u v →
      ∃ idx < cfg.queue.length, u ∈ cfg.unitMembers idx ∧ v ∈ cfg.unitMembers idx ∧
        ∃ q ∈ cfg.unitPairs idx, q.u = u ∧ q.v = v := by
    rintro e b hq hvar ⟨members, hm, hu, hv⟩
    obtain ⟨i, hi, rfl⟩ := List.mem_iff_getElem.mp hm
    have hlen : 1 < e.groups[i].length := by
      by_contra hc
      have : e.groups[i].length = 1 := by have := List.length_pos_of_mem hu; omega
      obtain ⟨x, hx⟩ := List.length_eq_one_iff.mp this
      rw [hx, List.mem_singleton] at hu hv
      exact hne (hv.trans hu.symm)
    obtain ⟨hmem, henc⟩ := hq ⟨i, b, e.groups[i].length * e.groups[i].length⟩
      (mem_unitsOf.mpr ⟨_, List.getElem?_eq_getElem hi, hlen, rfl, rfl⟩)
    obtain ⟨idx, hidx, he⟩ := List.mem_iff_getElem.mp hmem
    have hget : cfg.queue[idx]? = some ⟨i, b, e.groups[i].length * e.groups[i].length⟩ := by
      rw [List.getElem?_eq_getElem hidx, he]
    have hmembers : classMembers e ⟨i, b, e.groups[i].length * e.groups[i].length⟩ = e.groups[i] := by
      simp [classMembers, hi]
    have hunit : cfg.unitMembers idx = e.groups[i] := by
      simp [ParallelConfig.unitMembers, hget, henc, hmembers]
    refine ⟨idx, hidx, hunit ▸ hu, hunit ▸ hv, ⟨u, v, b⟩, ?_, rfl, rfl⟩
    simp only [ParallelConfig.unitPairs, hget, henc, Option.elim_some]
    exact mem_collectClassQueue (hmembers ▸ hu) (hmembers ▸ hv) hne hvar
  rcases h with h | ⟨e, he, h, hvar⟩
  · refine key cfg.preserve false (fun unit hunit => ⟨mem_queue.mpr (Or.inl hunit), ?_⟩) (by simp) h
    obtain ⟨_, -, -, hb, -⟩ := mem_unitsOf.mp hunit
    simp [ParallelConfig.encodingOf, hb]
  · refine key e true (fun unit hunit => ⟨mem_queue.mpr (Or.inr ⟨e, he, hunit⟩), ?_⟩)
      (fun _ => hvar) h
    obtain ⟨_, -, -, hb, -⟩ := mem_unitsOf.mp hunit
    simp [ParallelConfig.encodingOf, hb, he]

end Dialysis.Sat
