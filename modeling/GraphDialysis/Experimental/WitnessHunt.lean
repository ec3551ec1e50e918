import GraphDialysis.Experimental.DecomposeWithRoot
import GraphDialysis.Experimental.QuotientGraph
import GraphDialysis.Sat.EncodingSize

/-! `witnessHunt` and `witnessHuntWithClearing`: decompositions from one root after the other are used to
    split the colours, and the solver is asked which vertices of a class an automorphism that keeps the
    split colours maps to each other. The decompositions decide what is asked and nothing else: what is
    joined comes from models of the formula, which are automorphisms whatever the colours are, and
    an answer UNSAT or UNKNOWN is counted and forgotten.

    An exception carries the variables as they are when it is thrown, and `passed` lists every value that
    `uf` has had, so that `witnessHunts_sound` can speak of all of a hunt. -/

namespace Dialysis.Experimental
open Lib Dialysis.Sat Ahu

/-! ### Roots -/

section
variable (g : Graph)

/-- Distances by breadth-first search; -1 if unreachable. -/
def bfsDist (root v : Fin g.n) : ℤ := computeAllPairsDistances g root v

/-- The least distance to a root; an unreachable vertex is as far as can be. There is a root. -/
def minDist (dists : List (Fin g.n → ℤ)) (v : Fin g.n) : ℤ :=
  ((dists.map fun d => if d v < 0 then 2147483647 else d v).min?).getD (-1)

/-- The member that is farthest from the chosen ones, the first of these. -/
def farthest (classC chosen : List (Fin g.n)) (dists : List (Fin g.n → ℤ)) : Option (Fin g.n) :=
  (classC.foldl (fun (best : Option (Fin g.n) × ℤ) v =>
    if v ∈ chosen then best
    else if best.2 < minDist g dists v then (some v, minDist g dists v) else best) (none, -1)).1

/-- The rounds of the loop that are left when so many roots are missing. -/
def chooseRoots (classC : List (Fin g.n)) : ℕ → List (Fin g.n) → List (Fin g.n → ℤ) → List (Fin g.n)
  | 0, chosen, _ => chosen
  | missing + 1, chosen, dists =>
    match farthest g classC chosen dists with
    | none => chosen
    | some best => chooseRoots classC missing (chosen ++ [best]) (dists ++ [bfsDist g best])

/-- Farthest-first roots. -/
def rootSchedule (classC : List (Fin g.n)) (kMax : ℕ) : List (Fin g.n) :=
  match classC with
  | [] => []
  | c :: cs => chooseRoots g (c :: cs) (min kMax (c :: cs).length - 1) [c] [bfsDist g c]

variable {g}

theorem chooseRoots_ne_nil {classC : List (Fin g.n)} : ∀ {missing : ℕ} {chosen : List (Fin g.n)}
    {dists : List (Fin g.n → ℤ)}, chosen ≠ [] → chooseRoots g classC missing chosen dists ≠ []
  | 0, _, _, h => h
  | missing + 1, chosen, dists, h => by
    rw [chooseRoots]
    split
    · exact h
    · exact chooseRoots_ne_nil (List.append_ne_nil_of_left_ne_nil h _)

theorem rootSchedule_ne_nil {classC : List (Fin g.n)} {kMax : ℕ} (h : classC ≠ []) :
    rootSchedule g classC kMax ≠ [] := by
  cases classC with
  | nil => exact absurd rfl h
  | cons c cs => exact chooseRoots_ne_nil (List.cons_ne_nil _ _)

end

/-! ### Hunts -/

structure WitnessHuntStepReport (n : ℕ) where
  root : Fin n
  distinctSigsInC : ℕ
  queriesIssued : ℕ
  sat : ℕ
  unsatDiscarded : ℕ
  unknownDiscarded : ℕ
  witnessesVerified : ℕ
  componentsRemainingAfter : ℕ
  skippedTooLarge : Bool

structure WitnessHuntResult (n : ℕ) where
  rootsUsed : List (Fin n)
  steps : List (WitnessHuntStepReport n)
  finalComponentsRemaining : ℕ
  totalQueries : ℕ

/-- The variables of a hunt; `issued` to `verified` are those of a round. -/
structure Hunt (n : ℕ) where
  uf : SeparatingUnionFind n
  passed : List (SeparatingUnionFind n)
  steps : List (WitnessHuntStepReport n)
  totalQueries : ℕ
  pool : InternPool
  issued : ℕ
  sat : ℕ
  unsat : ℕ
  unknown : ℕ
  verified : ℕ

/-- A message, and the variables when it is thrown. -/
abbrev Thrown (n : ℕ) := String × Hunt n

/-- The solver: SAT comes with a model, the other answers may be wrong. -/
structure Solver where
  answer : ℕ → Cnf.Formula → ℤ → SolverResult
  sat : ∀ k F l value, answer k F l = .sat value → Cnf.Models value F ∧ Cnf.holds value l

/-- `MAX_COMBINED_EDGE_CLAUSES`. -/
def maxCombinedEdgeClauses : ℤ := 2000000

section
variable {n : ℕ}

def Hunt.start (pool : InternPool) : Hunt n :=
  ⟨SeparatingUnionFind.init n, [SeparatingUnionFind.init n], [], 0, pool, 0, 0, 0, 0, 0⟩

def Hunt.setUf (s : Hunt n) (uf : SeparatingUnionFind n) : Hunt n :=
  { s with uf := uf, passed := uf :: s.passed }

/-- What throws a message while the variables are `s`. -/
def during {α : Type} (s : Hunt n) (x : Except String α) : Except (Thrown n) α :=
  x.mapError fun e => (e, s)

/-- The lookups of all vertices; the first to be made are those of the size estimate, in this order. -/
def getValues (key : Fin n → String) (entry : Fin n → Option Content) : Except String (Fin n → Content) :=
  match h : (List.finRange n).find? fun v => (entry v).isNone with
  | some v => .error ("Key " ++ key v ++ " is missing in the map.")
  | none => .ok fun v => (entry v).get (by
      have hv := List.find?_eq_none.mp h v (List.mem_finRange v)
      rwa [Option.isNone_iff_eq_none, ← ne_eq, ← Option.isSome_iff_ne_none] at hv)

/-- `for (w in 0 until g.n) uf.union(w, r.alpha[w])`. -/
def unionAll (s : Hunt n) (alpha : Fin n → Option (Fin n)) : Except (Thrown n) (Hunt n) :=
  (List.finRange n).foldlM (fun s w =>
    match alpha w with
    | some x => (during s (s.uf.union w x)).map s.setUf
    | none => .error ("Index -1 out of bounds", s)) s

end

section
variable (g : Graph) (solver : Solver) (S : Cnf.Formula × CadicalEncoding g) (root : Fin g.n)

/-- One round of the loop over the pairs of a group. -/
def askPair (u : Fin g.n) (s : Hunt g.n) (v : Fin g.n) : Except (Thrown g.n) (Hunt g.n) :=
  let (ru, uf) := s.uf.find u
  let (rv, uf) := uf.find v
  let s := s.setUf uf
  if ru = rv then .ok s
  else
    let r := queryOrbitMateCadical S.2 u v (solver.answer s.totalQueries S.1 (S.2.varOf u v))
    let s := { s with issued := s.issued + 1, totalQueries := s.totalQueries + 1 }
    match r with
    | .sat alpha =>
      let s := { s with sat := s.sat + 1 }
      if verifyAutomorphism g alpha then unionAll { s with verified := s.verified + 1 } alpha
      else .error (s!"witness for ({u},{v}) at root={root} failed O(m) verification -- this is the one error class this pipeline cannot recover from, aborting", s)
    | .unsat => .ok { s with unsat := s.unsat + 1 }
    | .unknown => .ok { s with unknown := s.unknown + 1 }

/-- The first of a group against each of the others. -/
def askGroup (s : Hunt g.n) : List (Fin g.n) → Except (Thrown g.n) (Hunt g.n)
  | [] => .ok s
  | u :: vs => vs.foldlM (askPair g solver S root u) s

end

section
variable (g : Graph) (classC : List (Fin g.n)) (globalColorOf : Fin g.n → Content)

/-- The colours of a round. -/
def combinedColorOf (sig : Fin g.n → Content) (v : Fin g.n) : Content := .tup [globalColorOf v, sig v]

/-- `tooLargeToEncode`; the estimate counts in 64 bits. -/
def tooLargeToEncode (colorOf : Fin g.n → Content) : Bool :=
  let est := estimateGlobalEncodingSize g (fun v => (colorOf v).canon) defaultEdgeThreshold
  maxCombinedEdgeClauses < toLong est.edgeConflictClauses ∨ maxCombinedEdgeClauses < toLong est.bijectionClauses

/-- `classC.map { uf.find(it) }.toHashSet().size`. -/
def remainingComponents (s : Hunt g.n) : ℕ × Hunt g.n :=
  let (roots, uf) := findAll s.uf classC
  (roots.dedup.length, s.setUf uf)

/-- `classC.groupBy { sig.getValue(it) }.values`. -/
def sigGroups (sig : Fin g.n → Content) : List (List (Fin g.n)) := groups (fun v => (sig v).canon) classC

/-- A round once its signatures are there, and whether the loop ends with it. -/
def huntRound (solver : Solver) (root : Fin g.n) (sig : Fin g.n → Content) (s : Hunt g.n) :
    Except (Thrown g.n) (Hunt g.n × Bool) :=
  if tooLargeToEncode g (combinedColorOf g globalColorOf sig) then
    let (remaining, s) := remainingComponents g classC s
    .ok ({ s with steps := s.steps ++ [⟨root, (sigGroups g classC sig).length, 0, 0, 0, 0, 0, remaining, true⟩] },
      false)
  else
    let S := buildCadicalEncoding g fun v => (combinedColorOf g globalColorOf sig v).canon
    ((sigGroups g classC sig).foldlM (askGroup g solver S root)
      { s with issued := 0, sat := 0, unsat := 0, unknown := 0, verified := 0 }).bind fun s =>
        let (remaining, s) := remainingComponents g classC s
        .ok ({ s with steps := s.steps ++ [⟨root, (sigGroups g classC sig).length, s.issued, s.sat, s.unsat,
          s.unknown, s.verified, remaining, false⟩] }, remaining = 1)

/-- The lookups of a round, and the round. -/
def signedRound (solver : Solver) (root : Fin g.n) (key : Fin g.n → String) (entry : Fin g.n → Option Content)
    (s : Hunt g.n) : Except (Thrown g.n) (Hunt g.n × Bool) :=
  (during s (getValues key entry)).bind fun sig => huntRound g classC globalColorOf solver root sig s

/-- `for (root in roots)`, with a body that may break. -/
def huntRoots {n : ℕ} (round : Fin n → Hunt n → Except (Thrown n) (Hunt n × Bool)) :
    List (Fin n) → Hunt n → Except (Thrown n) (Hunt n)
  | [], s => .ok s
  | root :: roots, s => (round root s).bind fun r => if r.2 then .ok r.1 else huntRoots round roots r.1

variable [g.Simple] (kMax : ℕ) (solver : Solver) (pool : InternPool)

instance : (decompositionGraphFor g).Simple := inferInstanceAs g.subdivided.Simple

/-- A vertex of the graph in the one that is decomposed. -/
def asRoot (v : Fin g.n) : Fin (decompositionGraphFor g).n := (v.castAdd g.edges.length : Fin (_ + _))

/-- The default of `maxDepth`. -/
def defaultMaxDepth : ℕ := 12

/-- The body of the loop of `witnessHunt`. -/
def plainRound (root : Fin g.n) (s : Hunt g.n) : Except (Thrown g.n) (Hunt g.n × Bool) :=
  (during s (decomposeWithRoot g (decompositionGraphFor g) (asRoot g root) globalColorOf defaultMaxDepth
    s.pool)).bind fun decomposed =>
    signedRound g classC globalColorOf solver root (fun v => toString v) decomposed.content
      { s with pool := decomposed.pool }

/-- `witnessHunt`, and the variables at its end. -/
def witnessHunt : Except (Thrown g.n) (WitnessHuntResult g.n × Hunt g.n) :=
  (huntRoots (plainRound g classC globalColorOf solver) (rootSchedule g classC kMax) (.start pool)).bind fun s =>
    match s.steps.getLast? with
    | some last => .ok (⟨rootSchedule g classC kMax, s.steps, last.componentsRemainingAfter, s.totalQueries⟩, s)
    | none => .error ("List is empty.", s)

/-- The round over the quotient by `s.uf`, whose chains have just been compressed. -/
def quotientRound (root : Fin g.n) (s : Hunt g.n) : Except (Thrown g.n) (Hunt g.n × Bool) :=
  let qg := quotientGraph g s.uf
  let qColouring : Fin qg.n → Content := fun qv => globalColorOf (originalOf s.uf qv)
  (during s (decomposeWithRoot qg (decompositionGraphFor qg) (asRoot qg (quotientOf s.uf root)) qColouring
    defaultMaxDepth s.pool)).bind fun decomposed =>
    signedRound g classC globalColorOf solver root (fun v => toString (quotientOf s.uf v))
      (fun v => decomposed.content (quotientOf s.uf v)) { s with pool := decomposed.pool }

/-- The body of the loop of `witnessHuntWithClearing`. -/
def clearingRound (root : Fin g.n) (s : Hunt g.n) : Except (Thrown g.n) (Hunt g.n × Bool) :=
  let (remaining, s) := remainingComponents g classC s
  if remaining = 1 then .ok (s, true)
  else quotientRound g classC globalColorOf solver root (s.setUf (findAll s.uf (List.finRange g.n)).2)

/-- `witnessHuntWithClearing`, and the variables at its end. -/
def witnessHuntWithClearing : Except (Thrown g.n) (WitnessHuntResult g.n × Hunt g.n) :=
  (huntRoots (clearingRound g classC globalColorOf solver) (rootSchedule g classC kMax) (.start pool)).bind
    fun s =>
      let (remaining, s) :=
        match s.steps.getLast? with
        | some last => (last.componentsRemainingAfter, s)
        | none => remainingComponents g classC s
      .ok (⟨rootSchedule g classC kMax, s.steps, remaining, s.totalQueries⟩, s)

end

/-! ### What a hunt keeps -/

/-- The group of the colour-preserving automorphisms. -/
def colourGroup (g : Graph) (globalColorOf : Fin g.n → Content) : Subgroup (Equiv.Perm (Fin g.n)) where
  carrier := {α | Graph.IsAut g α ∧ ∀ v, (globalColorOf (α v)).Equals (globalColorOf v)}
  one_mem' := ⟨g.Aut.one_mem, fun _ => rfl⟩
  mul_mem' := fun {α β} hα hβ => ⟨g.Aut.mul_mem hα.1 hβ.1, fun v => (hα.2 (β v)).trans (hβ.2 v)⟩
  inv_mem' := fun {α} hα => ⟨g.Aut.inv_mem hα.1, fun v => by
    have h := hα.2 (α.symm v)
    rw [α.apply_symm_apply] at h
    exact h.symm⟩

/-- Nothing false has been joined, at any time, and no report counts too few components. -/
structure HuntInv {n : ℕ} (r : Fin n → Fin n → Prop) (classC : List (Fin n)) (s : Hunt n) : Prop where
  current : s.uf.view.Sound r
  passed : ∀ uf ∈ s.passed, uf.view.Sound r
  reports : ∀ report ∈ s.steps, Knowledge.classCount r classC ≤ report.componentsRemainingAfter

section
variable {n : ℕ} {r : Fin n → Fin n → Prop} {classC : List (Fin n)} {s : Hunt n}

theorem huntInv_start (hr : Equivalence r) (pool : InternPool) : HuntInv r classC (.start pool) := by
  have hinit : (SeparatingUnionFind.init n).view.Sound r := by
    rw [SeparatingUnionFind.view_init]
    exact Knowledge.sound_nothing hr
  refine ⟨hinit, fun uf huf => ?_, by simp [Hunt.start]⟩
  rw [List.mem_singleton.mp huf]
  exact hinit

theorem HuntInv.setUf {uf : SeparatingUnionFind n} (h : HuntInv r classC s) (huf : uf.view.Sound r) :
    HuntInv r classC (s.setUf uf) where
  current := huf
  passed := List.forall_mem_cons.mpr ⟨huf, h.passed⟩
  reports := h.reports

/-- Joining a vertex with its image is never refused. -/
theorem unionAll_ok (hr : Equivalence r) (h : HuntInv r classC s) {f : Fin n → Fin n} (hf : ∀ w, r w (f w)) :
    ∃ s', unionAll s (fun w => some (f w)) = .ok s' ∧ HuntInv r classC s' := by
  refine foldlM_ok (P := fun _ t => HuntInv r classC t) ?_ _ [] s (fun _ hw => hw) h
  intro done w t _ ht
  obtain ⟨uf, huf, hview⟩ := t.uf.union_ok (ht.current.not_apart (hf w))
  refine ⟨t.setUf uf, ?_, ht.setUf (hview ▸ Knowledge.sound_join hr ht.current (hf w))⟩
  dsimp only
  rw [huf]
  rfl

/-- The count of the components is never below that of the classes. -/
theorem remainingComponents_spec {g : Graph} {r : Fin g.n → Fin g.n → Prop} {classC : List (Fin g.n)}
    {s : Hunt g.n} (hr : Equivalence r) (h : HuntInv r classC s) :
    Knowledge.classCount r classC ≤ (remainingComponents g classC s).1 ∧
      HuntInv r classC (remainingComponents g classC s).2 ∧
      (remainingComponents g classC s).2.steps = s.steps := by
  refine ⟨?_, h.setUf ?_, rfl⟩
  · have hcount := h.current.classCount_le hr (fun v => (s.uf.root_root v).symm) classC
    rwa [← findAll_fst] at hcount
  · rw [view_findAll]
    exact h.current

theorem getValues_ok {key : Fin n → String} {entry : Fin n → Option Content} (h : ∀ v, (entry v).isSome) :
    ∃ f, getValues key entry = .ok f := by
  unfold getValues
  split
  · rename_i v hv
    have hnone := List.find?_some hv
    rw [Option.isNone_iff_eq_none] at hnone
    have hsome := h v
    rw [hnone] at hsome
    cases hsome
  · exact ⟨_, rfl⟩

/-- A call that throws a size error does so in the middle of a hunt. -/
theorem outcome_during {α : Type} {P : α → Prop} {x : Except String α} (hx : Outcome P SizeError x)
    (h : HuntInv r classC s) :
    Outcome P (fun e : Thrown n => SizeError e.1 ∧ HuntInv r classC e.2) (during s x) := by
  cases x with
  | ok a => exact hx
  | error e => exact ⟨hx, h⟩

end

section
variable {g : Graph} {Γ : Subgroup (Equiv.Perm (Fin g.n))} {classC : List (Fin g.n)} {solver : Solver}
  {S : Cnf.Formula × CadicalEncoding g} {P : Equiv.Perm (Fin g.n) → Prop} {root u v : Fin g.n} {s : Hunt g.n}

/-- A query never throws: a model of the formula is a member of the group, which passes the check. -/
theorem askPair_ok (hS : Encodes S P) (hP : ∀ α, P α → α ∈ Γ) (hΓ : Γ ≤ g.Aut)
    (h : HuntInv (Graph.OrbitMates Γ) classC s) :
    ∃ s', askPair g solver S root u s v = .ok s' ∧ HuntInv (Graph.OrbitMates Γ) classC s' := by
  have hfound : HuntInv (Graph.OrbitMates Γ) classC (s.setUf ((s.uf.find u).2.find v).2) :=
    h.setUf (by simpa using h.current)
  unfold askPair
  dsimp only
  split
  · exact ⟨_, rfl, hfound⟩
  · split
    · rename_i alpha hq
      obtain ⟨α, hα, -, rfl⟩ := hS.witness (fun value hv => solver.sat _ _ _ _ hv) hq
      rw [if_pos (verifyAutomorphism_iff.mpr ⟨α, hΓ (hP α hα), rfl⟩)]
      refine unionAll_ok (Graph.orbitMates_equivalence Γ) ?_ fun w => ⟨α, hP α hα, rfl⟩
      exact ⟨hfound.current, hfound.passed, hfound.reports⟩
    · exact ⟨_, rfl, hfound.current, hfound.passed, hfound.reports⟩
    · exact ⟨_, rfl, hfound.current, hfound.passed, hfound.reports⟩

theorem askGroup_ok (hS : Encodes S P) (hP : ∀ α, P α → α ∈ Γ) (hΓ : Γ ≤ g.Aut)
    (h : HuntInv (Graph.OrbitMates Γ) classC s) (group : List (Fin g.n)) :
    ∃ s', askGroup g solver S root s group = .ok s' ∧ HuntInv (Graph.OrbitMates Γ) classC s' := by
  cases group with
  | nil => exact ⟨s, rfl, h⟩
  | cons u vs =>
    exact foldlM_ok (P := fun _ t => HuntInv (Graph.OrbitMates Γ) classC t)
      (fun _ _ _ _ ht => askPair_ok hS hP hΓ ht) vs [] s (fun _ hv => hv) h

end

section
variable {g : Graph} [g.Simple] {classC : List (Fin g.n)} {globalColorOf : Fin g.n → Content} {solver : Solver}
  {root : Fin g.n} {s : Hunt g.n}

omit [g.Simple] in
/-- Who keeps the combined colours keeps the first of them. -/
theorem mem_colourGroup_of_combined {sig : Fin g.n → Content} {α : Equiv.Perm (Fin g.n)}
    (hα : Graph.IsAut g α)
    (hcolour : PreservesColour (fun v => (combinedColorOf g globalColorOf sig v).canon) α) :
    α ∈ colourGroup g globalColorOf := by
  refine ⟨hα, fun v => ?_⟩
  have h := hcolour v
  simp only [combinedColorOf, Content.canon_tup, List.map_cons, Content.tup.injEq, List.cons.injEq] at h
  exact h.1

/-- Whatever the signatures are, a round joins orbit mates only, and makes a report. -/
theorem huntRound_ok (sig : Fin g.n → Content)
    (h : HuntInv (Graph.OrbitMates (colourGroup g globalColorOf)) classC s) :
    ∃ r, huntRound g classC globalColorOf solver root sig s = .ok r ∧
      HuntInv (Graph.OrbitMates (colourGroup g globalColorOf)) classC r.1 ∧ r.1.steps ≠ [] := by
  have horb := Graph.orbitMates_equivalence (colourGroup g globalColorOf)
  rw [huntRound]
  split
  · obtain ⟨hcount, hinv, hsteps⟩ := remainingComponents_spec horb h
    refine ⟨_, rfl, ⟨hinv.current, hinv.passed, ?_⟩, by simp⟩
    exact List.forall_mem_append.mpr ⟨hinv.reports, List.forall_mem_singleton.mpr hcount⟩
  · have hencodes := encodes_hybrid defaultEdgeThreshold
      fun v => (combinedColorOf g globalColorOf sig v).canon
    obtain ⟨t, ht, hinv⟩ := foldlM_ok
      (P := fun _ t => HuntInv (Graph.OrbitMates (colourGroup g globalColorOf)) classC t)
      (fun _ group t _ ht => askGroup_ok hencodes
        (fun α hα => mem_colourGroup_of_combined hα.1 hα.2.1) (fun α hα => hα.1) ht group)
      (sigGroups g classC sig) [] { s with issued := 0, sat := 0, unsat := 0, unknown := 0, verified := 0 }
      (fun _ hp => hp) ⟨h.current, h.passed, h.reports⟩
    obtain ⟨hcount, hinv', hsteps⟩ := remainingComponents_spec horb hinv
    rw [buildCadicalEncoding]
    dsimp only
    rw [ht]
    refine ⟨_, rfl, ⟨hinv'.current, hinv'.passed, ?_⟩, by simp⟩
    exact List.forall_mem_append.mpr ⟨hinv'.reports, List.forall_mem_singleton.mpr hcount⟩

end

/-- A loop that may break keeps what each round keeps; when there was a round, the last one has left its
    mark. -/
theorem huntRoots_outcome {n : ℕ} (round : Fin n → Hunt n → Except (Thrown n) (Hunt n × Bool))
    {I J : Hunt n → Prop} {E : Thrown n → Prop}
    (hround : ∀ root s, I s → Outcome (fun r : Hunt n × Bool => I r.1 ∧ J r.1) E (round root s)) :
    ∀ (roots : List (Fin n)) (s : Hunt n), I s →
      Outcome (fun s' => I s' ∧ (roots = [] ∨ J s')) E (huntRoots round roots s)
  | [], _, h => ⟨h, Or.inl rfl⟩
  | root :: roots, s, h => by
    rw [huntRoots]
    refine (hround root s h).bind fun r hr => ?_
    split
    · exact ⟨hr.1, Or.inr hr.2⟩
    · cases roots with
      | nil => exact ⟨hr.1, Or.inr hr.2⟩
      | cons root' roots =>
        exact (huntRoots_outcome round hround (root' :: roots) r.1 hr.1).imp fun s' hs' =>
          ⟨hs'.1, hs'.2.imp (fun hnil => absurd hnil (List.cons_ne_nil _ _)) id⟩

section
variable {g : Graph} [g.Simple] {classC : List (Fin g.n)} {globalColorOf : Fin g.n → Content} {solver : Solver}
  {root : Fin g.n} {s : Hunt g.n}

theorem le_decompositionGraphFor (g : Graph) : g.n ≤ (decompositionGraphFor g).n := Nat.le_add_right _ _

/-- With all keys there, a round joins orbit mates only, and makes a report. -/
theorem signedRound_ok (key : Fin g.n → String) (entry : Fin g.n → Option Content)
    (hentry : ∀ v, (entry v).isSome) (h : HuntInv (Graph.OrbitMates (colourGroup g globalColorOf)) classC s) :
    ∃ r, signedRound g classC globalColorOf solver root key entry s = .ok r ∧
      HuntInv (Graph.OrbitMates (colourGroup g globalColorOf)) classC r.1 ∧ r.1.steps ≠ [] := by
  obtain ⟨sig, hsig⟩ := getValues_ok hentry
  have hround : signedRound g classC globalColorOf solver root key entry s =
      huntRound g classC globalColorOf solver root sig s := by
    rw [signedRound, hsig, during, Except.mapError, Except.bind]
  rw [hround]
  exact huntRound_ok sig h

theorem plainRound_outcome (h : HuntInv (Graph.OrbitMates (colourGroup g globalColorOf)) classC s) :
    Outcome (fun r : Hunt g.n × Bool => HuntInv (Graph.OrbitMates (colourGroup g globalColorOf)) classC r.1 ∧
        r.1.steps ≠ [])
      (fun e => SizeError e.1 ∧ HuntInv (Graph.OrbitMates (colourGroup g globalColorOf)) classC e.2)
      (plainRound g classC globalColorOf solver root s) := by
  have hdecomposed := decomposeWithRoot_outcome g (decompositionGraphFor g) (le_decompositionGraphFor g)
    (asRoot g root) globalColorOf defaultMaxDepth s.pool
  rw [plainRound]
  refine (outcome_during hdecomposed h).bind fun decomposed hkeys => ?_
  obtain ⟨r, hr, hboth⟩ := signedRound_ok (fun v => toString v) decomposed.content
    (s := { s with pool := decomposed.pool }) hkeys ⟨h.current, h.passed, h.reports⟩
  rw [hr]
  exact hboth

theorem quotientRound_outcome (h : HuntInv (Graph.OrbitMates (colourGroup g globalColorOf)) classC s) :
    Outcome (fun r : Hunt g.n × Bool => HuntInv (Graph.OrbitMates (colourGroup g globalColorOf)) classC r.1)
      (fun e => SizeError e.1 ∧ HuntInv (Graph.OrbitMates (colourGroup g globalColorOf)) classC e.2)
      (quotientRound g classC globalColorOf solver root s) := by
  rw [quotientRound]
  refine (outcome_during (decomposeWithRoot_outcome _ _ (le_decompositionGraphFor _) _ _ _ _) h).bind
    fun decomposed hkeys => ?_
  obtain ⟨r, hr, hinv, -⟩ := signedRound_ok (fun v => toString (quotientOf s.uf v))
    (fun v => decomposed.content (quotientOf s.uf v)) (s := { s with pool := decomposed.pool }) (fun v => hkeys _) ⟨h.current, h.passed, h.reports⟩
  rw [hr]
  exact hinv

theorem clearingRound_outcome (h : HuntInv (Graph.OrbitMates (colourGroup g globalColorOf)) classC s) :
    Outcome (fun r : Hunt g.n × Bool => HuntInv (Graph.OrbitMates (colourGroup g globalColorOf)) classC r.1)
      (fun e => SizeError e.1 ∧ HuntInv (Graph.OrbitMates (colourGroup g globalColorOf)) classC e.2)
      (clearingRound g classC globalColorOf solver root s) := by
  obtain ⟨-, hcounted, -⟩ := remainingComponents_spec (Graph.orbitMates_equivalence _) h
  rw [clearingRound]
  dsimp only
  split
  · exact hcounted
  · refine quotientRound_outcome (hcounted.setUf ?_)
    rw [view_findAll]
    exact hcounted.current

end

/-! ### Whole hunts -/

/-- At every moment of the hunt, two vertices are in one component only if an automorphism that keeps the
    colours maps one to the other, so the vertices that a quotient makes one have one colour; and no
    report counts fewer components than the class has orbits. -/
structure HuntSound (g : Graph) (classC : List (Fin g.n)) (globalColorOf : Fin g.n → Content)
    (s : Hunt g.n) : Prop where
  components : ∀ uf ∈ s.passed, ∀ u v, uf.root u = uf.root v →
    ∃ α, Graph.IsAut g α ∧ (∀ w, (globalColorOf (α w)).Equals (globalColorOf w)) ∧ α u = v
  quotients : ∀ uf ∈ s.passed, ∀ u v, quotientOf uf u = quotientOf uf v →
    (globalColorOf u).Equals (globalColorOf v)
  colours : ∀ uf ∈ s.passed, ∀ v, (globalColorOf (originalOf uf (quotientOf uf v))).Equals (globalColorOf v)
  reports : ∀ report ∈ s.steps, Knowledge.classCount (Graph.OrbitMates (colourGroup g globalColorOf)) classC ≤
    report.componentsRemainingAfter

section
variable {g : Graph} {classC : List (Fin g.n)} {globalColorOf : Fin g.n → Content} {s : Hunt g.n}

theorem huntSound_of_inv (h : HuntInv (Graph.OrbitMates (colourGroup g globalColorOf)) classC s) :
    HuntSound g classC globalColorOf s := by
  have hmates : ∀ uf ∈ s.passed, ∀ u v, uf.root u = uf.root v →
      Graph.OrbitMates (colourGroup g globalColorOf) u v := fun uf huf u v huv => (h.passed uf huf).mates huv
  have hcolour : ∀ uf ∈ s.passed, ∀ u v, quotientOf uf u = quotientOf uf v →
      (globalColorOf u).Equals (globalColorOf v) := by
    intro uf huf u v huv
    obtain ⟨α, hα, rfl⟩ := hmates uf huf u v ((quotientOf_inj uf).mp huv)
    exact (hα.2 u).symm
  refine ⟨fun uf huf u v huv => ?_, hcolour, fun uf huf v => ?_, h.reports⟩
  · obtain ⟨α, hα, huv⟩ := hmates uf huf u v huv
    exact ⟨α, hα.1, hα.2, huv⟩
  · exact hcolour uf huf _ _ (quotientOf_originalOf uf _)

end

/-- Both hunts are sound, whatever the solver answers: all that can go wrong is that the pool refuses a
    string, and up to then nothing false has been joined and no count is too small. -/
theorem witnessHunts_sound (g : Graph) [g.Simple] (classC : List (Fin g.n)) (hclass : classC ≠ [])
    (globalColorOf : Fin g.n → Content) (kMax : ℕ) (solver : Solver) (pool : InternPool) :
    Outcome (fun r : WitnessHuntResult g.n × Hunt g.n => HuntSound g classC globalColorOf r.2 ∧
        r.1.steps = r.2.steps ∧ Knowledge.classCount (Graph.OrbitMates (colourGroup g globalColorOf)) classC ≤
          r.1.finalComponentsRemaining)
      (fun e => SizeError e.1 ∧ HuntSound g classC globalColorOf e.2)
      (witnessHunt g classC globalColorOf kMax solver pool) ∧
    Outcome (fun r : WitnessHuntResult g.n × Hunt g.n => HuntSound g classC globalColorOf r.2 ∧
        r.1.steps = r.2.steps ∧ Knowledge.classCount (Graph.OrbitMates (colourGroup g globalColorOf)) classC ≤
          r.1.finalComponentsRemaining)
      (fun e => SizeError e.1 ∧ HuntSound g classC globalColorOf e.2)
      (witnessHuntWithClearing g classC globalColorOf kMax solver pool) := by
  have horb := Graph.orbitMates_equivalence (colourGroup g globalColorOf)
  have hstart : HuntInv (Graph.OrbitMates (colourGroup g globalColorOf)) classC (.start pool) :=
    huntInv_start horb pool
  have herror : ∀ e : Thrown g.n, SizeError e.1 ∧ HuntInv (Graph.OrbitMates (colourGroup g globalColorOf)) classC e.2 →
      SizeError e.1 ∧ HuntSound g classC globalColorOf e.2 := fun e he => ⟨he.1, huntSound_of_inv he.2⟩
  constructor
  · have hroots := huntRoots_outcome (plainRound g classC globalColorOf solver)
      (J := fun s => s.steps ≠ []) (fun _ _ => plainRound_outcome) (rootSchedule g classC kMax) (.start pool) hstart
    refine Outcome.bind (hroots.mono (fun _ h => h) herror) fun s hs => ?_
    have hsteps := hs.2.resolve_left (rootSchedule_ne_nil hclass)
    obtain ⟨last, hlast⟩ := Option.isSome_iff_exists.mp (List.getLast?_isSome.mpr hsteps)
    rw [hlast]
    exact ⟨huntSound_of_inv hs.1, rfl, hs.1.reports last (List.mem_of_getLast? hlast)⟩
  · have hroots := huntRoots_outcome (clearingRound g classC globalColorOf solver) (J := fun _ => True)
      (fun _ _ h => (clearingRound_outcome h).imp fun _ hr => ⟨hr, trivial⟩) (rootSchedule g classC kMax)
      (.start pool) hstart
    refine Outcome.bind (hroots.mono (fun _ h => h) herror) fun s hs => ?_
    cases hlast : s.steps.getLast? with
    | some last => exact ⟨huntSound_of_inv hs.1, rfl, hs.1.reports last (List.mem_of_getLast? hlast)⟩
    | none =>
      obtain ⟨hcount, hinv, hsteps⟩ := remainingComponents_spec horb hs.1
      exact ⟨huntSound_of_inv hinv, hsteps.symm, hcount⟩

/-- A solver that knows one assignment. -/
def Solver.knowing (value : ℕ → Bool) : Solver where
  answer := fun _ F l =>
    if (∀ c ∈ F, ∃ x ∈ c, Cnf.holds value x) ∧ Cnf.holds value l then .sat value else .unknown
  sat := by
    intro k F l value' h
    split at h
    · rename_i hmodel
      cases h
      exact hmodel
    · cases h

/-- The class of the two ends of a path; variables 2, 3 and 5 are the entries of their exchange. -/
theorem witnessHunts_sound_path :
    Outcome (fun r : WitnessHuntResult 3 × Hunt 3 =>
        HuntSound (.ofEdges 3 [(0, 1), (1, 2)]) [(0 : Fin 3), (2 : Fin 3)] (fun _ => .num 0) r.2 ∧
        r.1.steps = r.2.steps ∧ Knowledge.classCount (Graph.OrbitMates
          (colourGroup (.ofEdges 3 [(0, 1), (1, 2)]) fun _ => .num 0)) [(0 : Fin 3), (2 : Fin 3)] ≤
          r.1.finalComponentsRemaining)
      (fun e => SizeError e.1 ∧
        HuntSound (.ofEdges 3 [(0, 1), (1, 2)]) [(0 : Fin 3), (2 : Fin 3)] (fun _ => .num 0) e.2)
      (witnessHuntWithClearing (.ofEdges 3 [(0, 1), (1, 2)]) [(0 : Fin 3), (2 : Fin 3)] (fun _ => .num 0) 8
        (.knowing fun x => x ∈ [2, 3, 5]) .empty) :=
  (witnessHunts_sound (.ofEdges 3 [(0, 1), (1, 2)]) [(0 : Fin 3), (2 : Fin 3)] (List.cons_ne_nil _ _)
    (fun _ => .num 0) 8 (.knowing fun x => x ∈ [2, 3, 5]) .empty).2

end Dialysis.Experimental
