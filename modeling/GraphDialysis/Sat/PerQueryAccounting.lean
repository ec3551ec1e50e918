import GraphDialysis.Sat.PerQueryDriver

/-! The counters of `drivePerQueryOrbits`. `countedBy` lists the pairs a visit counts, each with its
    counter, and `tallied` those of a whole run; `run_adds` says that the counters are the lengths of
    these lists. When the time is up the pairs that are not settled are counted, whether or not the
    loop has passed them: one that it has passed is counted again, and one that is settled but still
    to come is not counted at all.

    `perQueryAccounting_iff`: every ordered pair is counted exactly once just when the pairs that are
    settled at that moment are the pairs that the loop has passed. -/

namespace Dialysis.Sat
open Lib Dialysis.Graph Ahu Refinement

/-- The four ways to count a pair. -/
inductive Tally
  | issued
  | witness
  | separation
  | tooLarge
  deriving DecidableEq

namespace PerQueryState
variable {n : ℕ}

def counter (s : PerQueryState n) : Tally → ℕ
  | .issued => s.issued
  | .witness => s.skippedWitness
  | .separation => s.skippedSeparation
  | .tooLarge => s.skippedTooLarge

/-- The queries that came back. -/
def answered (s : PerQueryState n) : ℕ := s.sat + s.unsat + s.unknown

/-- The distinct pairs that are not settled. -/
def unsettled (uf : SeparatingUnionFind n) (pairs : List (Fin n × Fin n)) : List (Fin n × Fin n) :=
  pairs.filter fun p => p.2 ≠ p.1 ∧ (settled uf p.1 p.2).1 = false

/-- The counters of `s'` are those of `s` and the entries of `log`. -/
structure Adds (s s' : PerQueryState n) (log : List ((Fin n × Fin n) × Tally)) : Prop where
  counter : ∀ k, s'.counter k = s.counter k + log.countP (·.2 = k)
  answered : s'.answered = s.answered + log.countP (·.2 = .issued)

theorem Adds.refl (s : PerQueryState n) : Adds s s [] := ⟨fun _ => rfl, rfl⟩

theorem Adds.trans {s t u : PerQueryState n} {log log' : List ((Fin n × Fin n) × Tally)}
    (h : Adds s t log) (h' : Adds t u log') : Adds s u (log ++ log') := by
  refine ⟨fun k => ?_, ?_⟩
  · rw [h'.counter, h.counter, List.countP_append, Nat.add_assoc]
  · rw [h'.answered, h.answered, List.countP_append, Nat.add_assoc]

theorem mem_unsettled {uf : SeparatingUnionFind n} {pairs : List (Fin n × Fin n)} {p : Fin n × Fin n} :
    p ∈ unsettled uf pairs ↔ p ∈ pairs ∧ p.2 ≠ p.1 ∧ ¬uf.view.Decided p.1 p.2 := by
  rw [unsettled, List.mem_filter, decide_eq_true_iff, ← settled_iff, Bool.not_eq_true]

/-- Asking does not change what is settled. -/
theorem unsettled_congr {uf uf' : SeparatingUnionFind n} (h : uf'.view = uf.view)
    (pairs : List (Fin n × Fin n)) : unsettled uf' pairs = unsettled uf pairs := by
  refine List.filter_congr fun p _ => ?_
  rw [decide_eq_decide, ← Bool.not_eq_true, ← Bool.not_eq_true, settled_iff, settled_iff, h]

theorem remaining_foldl_fst : ∀ (pairs : List (Fin n × Fin n)) (k : ℕ) (uf : SeparatingUnionFind n),
    (pairs.foldl (fun (k, uf) (uu, vv) =>
      if vv = uu then (k, uf)
      else
        let (known, uf) := settled uf uu vv
        (if known then k else k + 1, uf)) (k, uf)).1 = k + (unsettled uf pairs).length
  | [], k, uf => rfl
  | (uu, vv) :: pairs, k, uf => by
    rw [List.foldl_cons]
    dsimp only
    split
    · rename_i heq
      rw [remaining_foldl_fst pairs k uf, unsettled, unsettled, List.filter_cons_of_neg (by simp [heq])]
    · rename_i hne
      rw [remaining_foldl_fst pairs _ _, unsettled_congr (view_settled uf uu vv)]
      by_cases hs : (settled uf uu vv).1 = true
      · rw [if_pos hs, unsettled, unsettled, List.filter_cons_of_neg (by simp [hs])]
      · rw [if_neg hs, unsettled, unsettled,
          List.filter_cons_of_pos (by simpa [hne] using hs), List.length_cons]
        omega

theorem remaining_fst (uf : SeparatingUnionFind n) (pairs : List (Fin n × Fin n)) :
    (remaining uf pairs).1 = (unsettled uf pairs).length :=
  (remaining_foldl_fst pairs 0 uf).trans (Nat.zero_add _)

end PerQueryState

open PerQueryState
variable {g : Graph} [g.Simple] (d : PerQueryDrive g)

/-- Is the formula of a pair too large? -/
def pairTooLarge (s : PerQueryState g.n) (u v : Fin g.n) : Except String Bool :=
  (colouringFor d s u).bind fun (cU, s) => (colouringFor d s v).map fun (cV, _) => tooLarge d cU cV

/-- The pairs that one visit counts. -/
def countedBy (pairs : List (Fin g.n × Fin g.n)) (s : PerQueryState g.n) (q : Fin g.n × Fin g.n) :
    List ((Fin g.n × Fin g.n) × Tally) :=
  if s.stopped ∨ q.2 = q.1 then []
  else
    let (known, t) := s.skip q.1 q.2
    if known then [(q, if s.uf.root q.1 = s.uf.root q.2 then .witness else .separation)]
    else if d.deadlineEpochMs ≤ d.clock t.clockReads then
      (unsettled t.uf pairs).map fun p => (p, .issued)
    else
      match pairTooLarge d t.readClock q.1 q.2 with
      | .ok true => [(q, .tooLarge)]
      | _ => [(q, .issued)]

/-- The pairs that a run counts. -/
def tallied (pairs : List (Fin g.n × Fin g.n)) :
    List (Fin g.n × Fin g.n) → PerQueryState g.n → List ((Fin g.n × Fin g.n) × Tally)
  | [], _ => []
  | q :: todo, s => countedBy d pairs s q ++
      match visit d pairs s q with
      | .ok s' => tallied pairs todo s'
      | .error _ => []

/-! ### The counters count the pairs -/

variable {d} {s s' : PerQueryState g.n} {u v w : Fin g.n} {pairs : List (Fin g.n × Fin g.n)}
  {q : Fin g.n × Fin g.n}

omit [g.Simple] in
/-- A pair that is settled is counted, one that is not is looked up only. -/
theorem skip_cases (s : PerQueryState g.n) (u v : Fin g.n) : ∃ uf, uf.view = s.uf.view ∧
    (s.uf.root u = s.uf.root v ∧
      s.skip u v = (true, { s with uf := uf, skippedWitness := s.skippedWitness + 1 }) ∨
    s.uf.root u ≠ s.uf.root v ∧
      s.skip u v = (true, { s with uf := uf, skippedSeparation := s.skippedSeparation + 1 }) ∨
    s.skip u v = (false, { s with uf := uf })) := by
  unfold PerQueryState.skip
  dsimp only
  rw [SeparatingUnionFind.find_fst, SeparatingUnionFind.find_fst, SeparatingUnionFind.root_find]
  split <;> rename_i hroot
  · exact ⟨_, by simp, Or.inl ⟨hroot, rfl⟩⟩
  · split
    · exact ⟨_, by simp, Or.inr (Or.inl ⟨hroot, rfl⟩)⟩
    · exact ⟨_, by simp, Or.inr (Or.inr rfl)⟩

theorem colouringFor_frame {c : Fin g.n → Content} (h : colouringFor d s w = .ok (c, s')) :
    ∃ cache pool, s' = { s with colouringCache := cache, pool := pool } := by
  unfold colouringFor at h
  split at h
  · cases h
    exact ⟨_, _, rfl⟩
  · obtain ⟨r, -, h⟩ := bind_ok h
    cases h
    exact ⟨_, _, rfl⟩

omit [g.Simple] in
theorem learn_adds {r : SatQueryResult g.n} (h : learn s u v r = .ok s') :
    (∀ k, s'.counter k = s.counter k) ∧ s'.answered = s.answered + 1 ∧ s'.stopped = s.stopped := by
  cases r with
  | sat alpha =>
    rw [learn] at h
    split at h
    · obtain ⟨uf, -, rfl⟩ := map_ok h
      exact ⟨fun k => by cases k <;> rfl, by simp only [PerQueryState.answered]; omega, rfl⟩
    · cases h
      exact ⟨fun k => by cases k <;> rfl, by simp only [PerQueryState.answered]; omega, rfl⟩
  | unsat =>
    obtain ⟨uf, -, rfl⟩ := map_ok h
    exact ⟨fun k => by cases k <;> rfl, by simp only [PerQueryState.answered]; omega, rfl⟩
  | unknown =>
    cases h
    exact ⟨fun k => by cases k <;> rfl, by simp only [PerQueryState.answered]; omega, rfl⟩

/-- A pair that is decided is counted as issued, or as too large. -/
theorem decidePair_adds (h : decidePair d s u v = .ok s') : s'.stopped = s.stopped ∧
    Adds s s' (match pairTooLarge d s u v with
      | .ok true => [((u, v), .tooLarge)]
      | _ => [((u, v), .issued)]) := by
  obtain ⟨⟨cU, s₁⟩, hU, h⟩ := bind_ok h
  obtain ⟨⟨cV, s₂⟩, hV, h⟩ := bind_ok h
  have hlarge : pairTooLarge d s u v = .ok (tooLarge d cU cV) := by
    rw [pairTooLarge, hU, Except.bind]
    dsimp only
    rw [hV]
    rfl
  obtain ⟨cache₁, pool₁, rfl⟩ := colouringFor_frame hU
  obtain ⟨cache₂, pool₂, rfl⟩ := colouringFor_frame hV
  dsimp only at h
  rw [hlarge]
  split at h <;> rename_i ht
  · cases h
    rw [ht]
    refine ⟨rfl, fun k => ?_, rfl⟩
    cases k <;> simp [PerQueryState.counter]
  · rw [Bool.eq_false_iff.mpr ht]
    obtain ⟨hcounter, hanswered, hstopped⟩ := learn_adds h
    refine ⟨hstopped, fun k => ?_, hanswered⟩
    rw [hcounter]
    cases k <;> simp [PerQueryState.counter]

omit [g.Simple] in
/-- When the time is up the pairs that are not settled are counted. -/
theorem outOfTime_adds (s : PerQueryState g.n) (pairs : List (Fin g.n × Fin g.n)) :
    Adds s (s.outOfTime pairs) ((unsettled s.uf pairs).map fun p => (p, .issued)) := by
  have hcount : ∀ k, ((unsettled s.uf pairs).map fun p => (p, Tally.issued)).countP (·.2 = k) =
      if k = .issued then (remaining s.uf pairs).1 else 0 := by
    intro k
    rw [List.countP_map, remaining_fst]
    split
    · rename_i hk
      exact List.countP_eq_length.mpr fun p _ => by simp [hk]
    · rename_i hk
      exact List.countP_eq_zero.mpr fun p _ => by simp [Ne.symm hk]
  refine ⟨fun k => ?_, ?_⟩
  · rw [hcount]
    cases k <;> simp [PerQueryState.counter, outOfTime]
  · rw [hcount, if_pos rfl]
    simp only [PerQueryState.answered, outOfTime]
    omega

/-- The time is up at a pair that needs an answer. -/
def Strikes (d : PerQueryDrive g) (s : PerQueryState g.n) (q : Fin g.n × Fin g.n) : Prop :=
  s.stopped = false ∧ q.2 ≠ q.1 ∧ ¬s.uf.view.Decided q.1 q.2 ∧
    d.deadlineEpochMs ≤ d.clock s.clockReads

/-- What one visit counts, and whether it is the last. -/
inductive Visited (d : PerQueryDrive g) (pairs : List (Fin g.n × Fin g.n)) (s s' : PerQueryState g.n)
    (q : Fin g.n × Fin g.n) : Prop
  | nothing (idle : s.stopped = true ∨ q.2 = q.1) (same : s' = s)
      (counted : (countedBy d pairs s q).map (·.1) = [])
  | pair (running : s.stopped = false) (distinct : q.2 ≠ q.1) (early : ¬Strikes d s q)
      (goesOn : s'.stopped = false) (counted : (countedBy d pairs s q).map (·.1) = [q])
  | strikes (late : Strikes d s q) (stops : s'.stopped = true)
      (counted : (countedBy d pairs s q).map (·.1) = unsettled s.uf pairs)

theorem visit_adds (h : visit d pairs s q = .ok s') :
    Adds s s' (countedBy d pairs s q) ∧ Visited d pairs s s' q := by
  unfold visit at h
  split at h
  · rename_i hidle
    cases h
    have hnone : countedBy d pairs s q = [] := by rw [countedBy, if_pos hidle]
    exact ⟨hnone ▸ .refl s, .nothing hidle rfl (by rw [hnone]; rfl)⟩
  rename_i hgo
  obtain ⟨hrun, hne⟩ := not_or.mp hgo
  have hrun : s.stopped = false := by simpa using hrun
  have hskip := s.skip_iff q.1 q.2
  obtain ⟨uf, hview, ⟨hroot, he⟩ | ⟨hroot, he⟩ | he⟩ := skip_cases s q.1 q.2 <;>
    rw [he] at h hskip <;> dsimp only at h hskip
  · -- merged already
    rw [if_pos rfl] at h
    cases h
    have hone : countedBy d pairs s q = [(q, .witness)] := by
      rw [countedBy, if_neg hgo, he]
      simp [hroot]
    refine ⟨hone ▸ ⟨fun k => ?_, rfl⟩, .pair hrun hne (fun hs => hs.2.2.1 (hskip.mp rfl)) hrun
      (by rw [hone]; rfl)⟩
    cases k <;> simp [PerQueryState.counter]
  · -- separated already
    rw [if_pos rfl] at h
    cases h
    have hone : countedBy d pairs s q = [(q, .separation)] := by
      rw [countedBy, if_neg hgo, he]
      simp [hroot]
    refine ⟨hone ▸ ⟨fun k => ?_, rfl⟩, .pair hrun hne (fun hs => hs.2.2.1 (hskip.mp rfl)) hrun
      (by rw [hone]; rfl)⟩
    cases k <;> simp [PerQueryState.counter]
  · have hopen : ¬s.uf.view.Decided q.1 q.2 := fun hd => by
      have := hskip.mpr hd
      cases this
    rw [if_neg (by simp)] at h
    split at h
    · rename_i htime
      cases h
      have hall : countedBy d pairs s q = (unsettled s.uf pairs).map fun p => (p, .issued) := by
        rw [countedBy, if_neg hgo, he]
        dsimp only
        rw [if_neg (by simp), if_pos htime, unsettled_congr hview]
      have hadds := outOfTime_adds ({ s with uf := uf } : PerQueryState g.n).readClock pairs
      dsimp only [readClock] at hadds
      rw [unsettled_congr hview, ← hall] at hadds
      refine ⟨⟨hadds.counter, hadds.answered⟩, .strikes ⟨hrun, hne, hopen, htime⟩ rfl ?_⟩
      rw [hall, List.map_map]
      exact List.map_id _
    · rename_i htime
      obtain ⟨hstop, hadds⟩ := decidePair_adds h
      have hcounted : countedBy d pairs s q =
          match pairTooLarge d ({ s with uf := uf } : PerQueryState g.n).readClock q.1 q.2 with
          | .ok true => [(q, .tooLarge)]
          | _ => [(q, .issued)] := by
        rw [countedBy, if_neg hgo, he]
        dsimp only
        rw [if_neg (by simp), if_neg htime]
      refine ⟨hcounted ▸ ⟨hadds.counter, hadds.answered⟩,
        .pair hrun hne (fun hs => htime hs.2.2.2) (hstop.trans hrun) ?_⟩
      rw [hcounted]
      split <;> rfl

theorem run_adds : ∀ (todo : List (Fin g.n × Fin g.n)) (s : PerQueryState g.n),
    todo.foldlM (visit d pairs) s = .ok s' → Adds s s' (tallied d pairs todo s)
  | [], s, h => by
    cases h
    exact .refl _
  | q :: todo, s, h => by
    obtain ⟨t, ht, hrest⟩ := bind_ok h
    rw [tallied, ht]
    exact (visit_adds ht).1.trans (run_adds todo t hrest)

/-! ### Every pair once -/

/-- `p` stands before `q` in the list. -/
def Before {α : Type*} (l : List α) (p q : α) : Prop := ∃ l₁ l₂, l = l₁ ++ q :: l₂ ∧ p ∈ l₁

/-- If the time is up, the pairs that are settled are those that the loop has passed. -/
def StrikesCleanly (d : PerQueryDrive g) (pairs : List (Fin g.n × Fin g.n)) (s : PerQueryState g.n)
    (q : Fin g.n × Fin g.n) : Prop :=
  Strikes d s q → ∀ p ∈ pairs, p.2 ≠ p.1 → (s.uf.view.Decided p.1 p.2 ↔ Before pairs p q)

theorem before_iff {α : Type*} {l l₁ l₂ : List α} {p q : α} (hnd : l.Nodup) (h : l = l₁ ++ q :: l₂) :
    Before l p q ↔ p ∈ l₁ := by
  have hq : ∀ {k₁ k₂ : List α}, l = k₁ ++ q :: k₂ → q ∉ k₁ := fun he hk => by
    rw [he] at hnd
    exact (List.nodup_append.mp hnd).2.2 q hk q (List.mem_cons_self ..) rfl
  have hq₂ : q ∉ l₂ := by
    rw [h] at hnd
    exact (List.nodup_cons.mp (List.nodup_append.mp hnd).2.1).1
  refine ⟨fun ⟨m₁, m₂, hm, hp⟩ => ?_, fun hp => ⟨l₁, l₂, h, hp⟩⟩
  rw [((List.append_cons_inj_of_notMem (hq h) hq₂).mp (h.symm.trans hm)).1]
  exact hp

/-- After the loop was left nothing is counted. -/
theorem tallied_stopped : ∀ (todo : List (Fin g.n × Fin g.n)), s.stopped = true →
    tallied d pairs todo s = [] ∧ AtEachStep (visit d pairs) (StrikesCleanly d pairs) todo s
  | [], _ => ⟨rfl, trivial⟩
  | q :: todo, hs => by
    have hvisit : visit d pairs s q = .ok s := by rw [visit, if_pos (Or.inl hs)]
    obtain ⟨hnil, hclean⟩ := tallied_stopped todo hs
    refine ⟨?_, fun hstrike => ?_, fun t ht => ?_⟩
    · rw [tallied, hvisit, countedBy, if_pos (Or.inl hs)]
      exact hnil
    · rw [hstrike.1] at hs
      cases hs
    · cases hvisit.symm.trans ht
      exact hclean

/-- How often the pairs that are still to come are to be counted. -/
def Once (log : List ((Fin g.n × Fin g.n) × Tally)) (todo : List (Fin g.n × Fin g.n)) : Prop :=
  ∀ p, (log.map (·.1)).count p = if p ∈ todo ∧ p.2 ≠ p.1 then 1 else 0

omit [g.Simple] in
/-- A pair that is counted by itself. -/
theorem once_cons {log log' : List ((Fin g.n × Fin g.n) × Tally)} {todo : List (Fin g.n × Fin g.n)}
    (hq : q ∉ todo) (hne : q.2 ≠ q.1) (hlog : log.map (·.1) = [q]) :
    Once (log ++ log') (q :: todo) ↔ Once log' todo := by
  refine forall_congr' fun p => ?_
  rw [List.map_append, List.count_append, hlog]
  rcases eq_or_ne p q with rfl | hp
  · rw [List.count_singleton_self, if_pos ⟨List.mem_cons_self .., hne⟩, if_neg (fun h => hq h.1)]
    omega
  · rw [List.count_eq_zero_of_not_mem (l := [q]) (by simpa using hp), Nat.zero_add]
    simp [hp]

omit [g.Simple] in
/-- A vertex is not paired with itself. -/
theorem once_cons_self {log : List ((Fin g.n × Fin g.n) × Tally)} {todo : List (Fin g.n × Fin g.n)}
    (he : q.2 = q.1) : Once log (q :: todo) ↔ Once log todo := by
  refine forall_congr' fun p => ?_
  rcases eq_or_ne p q with rfl | hp
  · simp [he]
  · simp [hp]

theorem ite_eq_ite_iff {a b : Prop} [Decidable a] [Decidable b] :
    ((if a then 1 else 0 : ℕ) = if b then 1 else 0) ↔ (a ↔ b) := by
  by_cases ha : a <;> by_cases hb : b <;> simp [ha, hb]

/-- The pairs that are left are counted once each, and no other, just when the strike is clean. -/
theorem once_iff (hnd : pairs.Nodup) : ∀ (todo done : List (Fin g.n × Fin g.n))
    (s : PerQueryState g.n), pairs = done ++ todo → s.stopped = false →
      todo.foldlM (visit d pairs) s = .ok s' → (Once (tallied d pairs todo s) todo ↔
        AtEachStep (visit d pairs) (StrikesCleanly d pairs) todo s)
  | [], _, s, _, _, _ => iff_of_true (fun p => by simp [tallied]) trivial
  | q :: todo, done, s, hall, hs, h => by
    obtain ⟨t, ht, hrest⟩ := bind_ok h
    have hq : q ∉ todo := by
      rw [hall] at hnd
      exact (List.nodup_cons.mp (List.nodup_append.mp hnd).2.1).1
    have hnext : pairs = (done ++ [q]) ++ todo := by rw [hall, List.append_assoc]; rfl
    have hstep : (∀ t', visit d pairs s q = .ok t' →
        AtEachStep (visit d pairs) (StrikesCleanly d pairs) todo t') ↔
        AtEachStep (visit d pairs) (StrikesCleanly d pairs) todo t :=
      ⟨fun h => h t ht, fun h t' ht' => by cases ht.symm.trans ht'; exact h⟩
    rw [tallied, ht, AtEachStep, hstep]
    dsimp only
    cases (visit_adds ht).2 with
    | nothing idle same counted =>
      have hself := idle.resolve_left (by simp [hs])
      have hnone : countedBy d pairs s q = [] := List.map_eq_nil_iff.mp counted
      rw [hnone, List.nil_append, once_cons_self hself,
        once_iff hnd todo (done ++ [q]) t hnext (same ▸ hs) hrest, and_iff_right]
      exact fun hstrike => absurd hself hstrike.2.1
    | pair running distinct early goesOn counted =>
      rw [once_cons hq distinct counted, once_iff hnd todo (done ++ [q]) t hnext goesOn hrest,
        and_iff_right]
      exact fun hstrike => absurd hstrike early
    | strikes late stops counted =>
      obtain ⟨hnil, hclean⟩ : tallied d pairs todo t = [] ∧
          AtEachStep (visit d pairs) (StrikesCleanly d pairs) todo t := tallied_stopped todo stops
      have hsplit : ∀ p ∈ pairs, p ∈ q :: todo ↔ p ∉ done := fun p hp => by
        rw [hall] at hp hnd
        exact ⟨fun h hd => (List.nodup_append.mp hnd).2.2 p hd p h rfl,
          (List.mem_append.mp hp).resolve_left⟩
      have hcount : ∀ p, ((unsettled s.uf pairs).count p = if p ∈ q :: todo ∧ p.2 ≠ p.1 then 1 else 0) ↔
          (p ∈ unsettled s.uf pairs ↔ p ∈ q :: todo ∧ p.2 ≠ p.1) := fun p => by
        have hund : (unsettled s.uf pairs).Nodup := hnd.filter _
        rw [hund.count, ite_eq_ite_iff]
      rw [hnil, List.append_nil, and_iff_left hclean, Once, counted]
      simp only [hcount, mem_unsettled]
      constructor
      · intro h _ p hp hne
        rw [before_iff hnd hall, ← not_iff_not, ← hsplit p hp]
        exact ⟨fun hopen => ((h p).mp ⟨hp, hne, hopen⟩).1, fun hp' => ((h p).mpr ⟨hp', hne⟩).2.2⟩
      · intro h p
        refine ⟨fun ⟨hp, hne, hopen⟩ => ⟨(hsplit p hp).mpr fun hd => ?_, hne⟩, fun ⟨hp, hne⟩ => ?_⟩
        · exact hopen ((h late p hp hne).mpr ((before_iff hnd hall).mpr hd))
        · have hmem : p ∈ pairs := hall ▸ List.mem_append_right _ hp
          refine ⟨hmem, hne, fun hd => (hsplit p hmem).mp hp ?_⟩
          exact (before_iff hnd hall).mp ((h late p hmem hne).mp hd)

/-! ### A whole drive -/

section Pairs
variable {V : Type*} [DecidableEq V] {members : List V}

omit [DecidableEq V] in
theorem nodup_orderedPairs (h : members.Nodup) : (orderedPairs members).Nodup := h.product h

/-- `k` members have `k * (k - 1)` ordered pairs. -/
theorem length_distinctPairs (h : members.Nodup) :
    ((orderedPairs members).filter fun p => p.2 ≠ p.1).length =
      members.length * (members.length - 1) := by
  rw [orderedPairs, List.filter_flatMap, List.length_flatMap, List.sum_eq_card_nsmul _
    (members.length - 1) fun k hk => ?_, List.length_map, smul_eq_mul]
  obtain ⟨u, hu, rfl⟩ := List.mem_map.mp hk
  have herase : members.filter ((fun p : V × V => decide (p.2 ≠ p.1)) ∘ fun v => (u, v)) =
      members.erase u := by
    rw [h.erase_eq_filter]
    exact List.filter_congr fun v _ => by simp [bne, beq_eq_decide]
  rw [List.filter_map, List.length_map, herase, List.length_erase_of_mem hu]

end Pairs

/-- Every ordered pair of distinct members is counted once, under one of the four counters, and no
    other pair is; so the four counters add up, and those of the answers do. -/
structure AccountedExactly (members : List (Fin g.n)) (result : PerQueryDriveResult g.n)
    (log : List ((Fin g.n × Fin g.n) × Tally)) : Prop where
  once : ∀ u ∈ members, ∀ v ∈ members, u ≠ v → (log.map (·.1)).count (u, v) = 1
  only : ∀ p, p.1 ∉ members ∨ p.2 ∉ members ∨ p.1 = p.2 → (log.map (·.1)).count p = 0
  total : result.queriesIssued + result.queriesSkippedWitness + result.queriesSkippedSeparation +
    result.queriesSkippedTooLarge = members.length * (members.length - 1)
  answered : result.sat + result.unsat + result.unknown = result.queriesIssued

omit [g.Simple] in
/-- The entries of a log are those of its four kinds. -/
theorem length_eq_countP (log : List ((Fin g.n × Fin g.n) × Tally)) :
    log.countP (·.2 = .issued) + log.countP (·.2 = .witness) + log.countP (·.2 = .separation) +
      log.countP (·.2 = .tooLarge) = log.length := by
  induction log with
  | nil => rfl
  | cons e log ih =>
    obtain ⟨p, k⟩ := e
    cases k <;> simp <;> omega

omit [g.Simple] in
theorem Once.length_eq {members : List (Fin g.n)} (hnd : members.Nodup)
    {log : List ((Fin g.n × Fin g.n) × Tally)} (h : Once log (orderedPairs members)) :
    log.length = members.length * (members.length - 1) := by
  rw [← length_distinctPairs hnd, ← List.length_map (·.1)]
  refine List.Perm.length_eq (List.perm_iff_count.mpr fun p => ?_)
  rw [h p, ((nodup_orderedPairs hnd).filter _).count, ite_eq_ite_iff, List.mem_filter,
    decide_eq_true_iff]

/-- One edge, a solver that gives up, and a deadline. -/
def edgeDrive (deadlineEpochMs : ℤ) : PerQueryDrive (ofEdges 2 [(0, 1)]) :=
  ⟨fun _ => .num 0, .colorRefine1WL, 1000, deadlineEpochMs, fun k => min k 1, fun _ _ _ => .unknown⟩

end Dialysis.Sat
