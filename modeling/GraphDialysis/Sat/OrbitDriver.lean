import GraphDialysis.Lib.Loop
import GraphDialysis.Sat.OrbitQuery

/-! The sequential drivers `driveToOrbitsCadical` and `driveToOrbitsCryptoMiniSat`. Both put every
    pair of distinct members of a class on a queue, ask about each pair that is not settled yet with
    a short time limit, and ask again about those that stayed unknown with the long one; a witness
    and a separation settle other pairs as well. They differ in the queue only: `driveQueue` is the
    common part, over the answers `ask` that the calls return one after another.

    `driveQueue_spec`: with answers that are correct about a group of automorphisms, no check ever
    fires, what is recorded is true of the orbits of the group, and a pair that was queued is
    settled unless some query stayed unknown. -/

namespace Dialysis.Sat
open Lib Dialysis.Graph

/-- A queued pair; `swapped` says which of the two encodings it is asked about. -/
structure PendingPair (n : ℕ) where
  u : Fin n
  v : Fin n
  swapped : Bool

/-- The outcome of driving an encoding's classes to orbits. -/
structure OrbitDriveResult (n : ℕ) where
  orbits : List (List (Fin n))
  queriesIssued : ℕ
  queriesSat : ℕ
  queriesUnsat : ℕ
  queriesUnknown : ℕ
  skippedAlreadyConnected : ℕ
  generatorsFound : ℕ
  witnessesVerified : ℕ
  witnessesRejected : ℕ

/-- The variables of a drive; `calls` counts the calls of the solver. -/
structure DriveState (n : ℕ) where
  uf : SeparatingUnionFind n
  queriesIssued : ℕ
  sat : ℕ
  unsat : ℕ
  unknown : ℕ
  skipped : ℕ
  generators : ℕ
  verified : ℕ
  survivors : List (PendingPair n)
  calls : ℕ

/-- `uf.find(u) == uf.find(v) || uf.separated(u, v)`. -/
def settled {n : ℕ} (uf : SeparatingUnionFind n) (u v : Fin n) : Bool × SeparatingUnionFind n :=
  let (ru, uf) := uf.find u
  let (rv, uf) := uf.find v
  if ru = rv then (true, uf) else uf.separated u v

theorem settled_iff {n : ℕ} (uf : SeparatingUnionFind n) (u v : Fin n) :
    (settled uf u v).1 = true ↔ uf.view.Decided u v := by
  unfold settled
  by_cases h : uf.root u = uf.root v
  · simp [h, Knowledge.Decided, SeparatingUnionFind.mates_view]
  · simp [h, Knowledge.Decided, SeparatingUnionFind.mates_view, SeparatingUnionFind.separated_iff]

@[simp] theorem view_settled {n : ℕ} (uf : SeparatingUnionFind n) (u v : Fin n) :
    (settled uf u v).2.view = uf.view := by
  unfold settled
  by_cases h : uf.root u = uf.root v <;> simp [h]

variable (g : Graph)

/-- Count an answered query and learn from the answer. -/
def recordFinal (s : DriveState g.n) (q : PendingPair g.n) (r : SatQueryResult g.n) :
    Except String (DriveState g.n) :=
  let s := { s with queriesIssued := s.queriesIssued + 1 }
  match r with
  | .sat alpha =>
    if verifyAutomorphism g alpha then
      (applyWitness s.uf alpha).map fun uf =>
        { s with uf := uf, sat := s.sat + 1, verified := s.verified + 1,
                 generators := s.generators + 1 }
    else .error s!"rejected witness for ({q.u},{q.v}) -- the encoding is wrong, not this query; stop and report"
  | .unsat => (s.uf.markSeparated q.u q.v).map fun uf => { s with uf := uf, unsat := s.unsat + 1 }
  | .unknown => .ok { s with unknown := s.unknown + 1 }

variable (ask : ℕ → PendingPair g.n → SatQueryResult g.n)

/-- First pass over one pair. -/
def shortPass (s : DriveState g.n) (q : PendingPair g.n) : Except String (DriveState g.n) :=
  let (known, uf) := settled s.uf q.u q.v
  let s := { s with uf := uf }
  if known then .ok { s with skipped := s.skipped + 1 }
  else
    let asked := { s with calls := s.calls + 1 }
    match ask s.calls q with
    | .unknown => .ok { asked with survivors := asked.survivors ++ [q] }
    | r => recordFinal g asked q r

/-- Second pass over one survivor. -/
def longPass (s : DriveState g.n) (q : PendingPair g.n) : Except String (DriveState g.n) :=
  let (known, uf) := settled s.uf q.u q.v
  let s := { s with uf := uf }
  if known then .ok { s with skipped := s.skipped + 1 }
  else recordFinal g { s with calls := s.calls + 1 } q (ask s.calls q)

/-- Both passes over a queue, and the classes that result. -/
def driveQueue (queue : List (PendingPair g.n)) : Except String (OrbitDriveResult g.n) := do
  let s ← queue.foldlM (shortPass g ask) ⟨SeparatingUnionFind.init g.n, 0, 0, 0, 0, 0, 0, 0, [], 0⟩
  let s ← s.survivors.foldlM (longPass g ask) s
  return ⟨Lib.groups (fun v => (s.uf.find v).1) (List.finRange g.n), s.queriesIssued, s.sat,
    s.unsat, s.unknown, s.skipped, s.generators, s.verified, 0⟩

variable {g}

/-- Every ordered pair of distinct members of a class, or only those with a variable. -/
def collect (encoding : CadicalEncoding g) (swapped : Bool) : List (PendingPair g.n) :=
  (encoding.groups.filter fun members => 1 < members.length).flatMap fun members =>
    members.flatMap fun u =>
      (members.filter fun v => v ≠ u ∧ ¬(swapped ∧ encoding.varOf u v < 0)).map fun v =>
        ⟨u, v, swapped⟩

/-- Drive the side-preserving encoding and, when there is one, the side-swapping one. -/
def driveToOrbitsCadical (preserve : CadicalEncoding g) (swapPair : Option (CadicalEncoding g))
    (ask : ℕ → PendingPair g.n → SatQueryResult g.n) : Except String (OrbitDriveResult g.n) :=
  driveQueue g ask (collect preserve false ++ swapPair.elim [] fun e => collect e true)

/-- Drive one encoding, the side-preserving one. -/
def driveToOrbitsCryptoMiniSat (encoding : CadicalEncoding g)
    (ask : ℕ → PendingPair g.n → SatQueryResult g.n) : Except String (OrbitDriveResult g.n) :=
  driveQueue g ask (collect encoding false)

theorem mem_collect {encoding : CadicalEncoding g} {swapped : Bool} {q : PendingPair g.n} :
    q ∈ collect encoding swapped ↔ q.swapped = swapped ∧ q.v ≠ q.u ∧
      (swapped = true → 0 ≤ encoding.varOf q.u q.v) ∧ SameClass encoding.groups q.u q.v := by
  have hlen : ∀ {l : List (Fin g.n)} {a b : Fin g.n}, a ∈ l → b ∈ l → b ≠ a → 1 < l.length := by
    intro l a b ha hb hne
    by_contra h
    have : l.length = 1 := by have := List.length_pos_of_mem ha; omega
    obtain ⟨x, rfl⟩ := List.length_eq_one_iff.mp this
    exact hne ((List.mem_singleton.mp hb).trans (List.mem_singleton.mp ha).symm)
  obtain ⟨u, v, sw⟩ := q
  simp only [collect, SameClass, List.mem_flatMap, List.mem_filter, List.mem_map,
    decide_eq_true_eq, PendingPair.mk.injEq, not_and, not_lt]
  constructor
  · rintro ⟨members, ⟨hm, -⟩, u, hu, v, ⟨hv, hne, hvar⟩, rfl, rfl, rfl⟩
    exact ⟨rfl, hne, hvar, members, hm, hu, hv⟩
  · rintro ⟨rfl, hne, hvar, members, hm, hu, hv⟩
    exact ⟨members, ⟨hm, hlen hu hv hne⟩, u, hu, v, ⟨hv, hne, hvar⟩, rfl, rfl, rfl⟩

/-! ### The invariant of a drive -/

/-- The counters add up, and what has been recorded is true of the orbits of `Γ`. -/
structure DriveInv (Γ : Subgroup (Equiv.Perm (Fin g.n))) (s : DriveState g.n) : Prop where
  sound : s.uf.view.Sound (OrbitMates Γ)
  counts : s.sat + s.unsat + s.unknown = s.queriesIssued

variable {Γ : Subgroup (Equiv.Perm (Fin g.n))} {s : DriveState g.n} {q : PendingPair g.n}

/-- Recording a correct answer never throws, keeps what is known and settles the pair, unless the
    answer is that it is unknown. -/
theorem recordFinal_ok (hΓ : Γ ≤ g.Aut) (hs : DriveInv Γ s) {r : SatQueryResult g.n}
    (hr : r.Answers (· ∈ Γ) q.u q.v) : ∃ s', recordFinal g s q r = .ok s' ∧ DriveInv Γ s' ∧
      s.uf.view.Le s'.uf.view ∧ s.unknown ≤ s'.unknown ∧ s'.survivors = s.survivors ∧
      (s'.uf.view.Decided q.u q.v ∨ 0 < s'.unknown) := by
  have horb := orbitMates_equivalence Γ
  cases r with
  | sat alpha =>
    obtain ⟨α, hα, huv, hdef⟩ := hr
    have hver : verifyAutomorphism g alpha = true :=
      verifyAutomorphism_iff.mpr ⟨α, hΓ hα, hdef⟩
    obtain ⟨uf', hok, hsound, hle, hall⟩ :=
      applyWitness_ok horb hs.sound hdef fun w => ⟨α, hα, rfl⟩
    refine ⟨{ s with uf := uf', queriesIssued := s.queriesIssued + 1, sat := s.sat + 1,
                     verified := s.verified + 1, generators := s.generators + 1 },
      by simp only [recordFinal, if_pos hver, hok]; rfl, ⟨hsound, ?_⟩, hle, le_refl _, rfl,
      Or.inl (Or.inl (huv ▸ hall q.u))⟩
    have := hs.counts; simp only; omega
  | unsat =>
    have hnot : ¬OrbitMates Γ q.u q.v := fun ⟨α, hα, he⟩ => hr α hα he
    obtain ⟨uf', hok, hsound, hle, hap⟩ := markSeparated_sound horb hs.sound hnot
    refine ⟨{ s with uf := uf', queriesIssued := s.queriesIssued + 1, unsat := s.unsat + 1 },
      by simp only [recordFinal, hok]; rfl, ⟨hsound, ?_⟩, hle, le_refl _, rfl, Or.inl (Or.inr hap)⟩
    have := hs.counts; simp only; omega
  | unknown =>
    refine ⟨_, rfl, ⟨hs.sound, ?_⟩, Knowledge.Le.refl _, Nat.le_succ _, rfl, Or.inr (Nat.succ_pos _)⟩
    have := hs.counts; simp only; omega

/-- After the first pass over `done`: every pair is settled or has survived. -/
structure ShortInv (Γ : Subgroup (Equiv.Perm (Fin g.n))) (done : List (PendingPair g.n))
    (s : DriveState g.n) : Prop extends DriveInv Γ s where
  cover : ∀ q ∈ done, s.uf.view.Decided q.u q.v ∨ q ∈ s.survivors ∨ 0 < s.unknown
  survivors_sub : ∀ q ∈ s.survivors, q ∈ done

/-- After the second pass over `done`: every pair is settled, or some query stayed unknown. -/
structure LongInv (Γ : Subgroup (Equiv.Perm (Fin g.n))) (queue done : List (PendingPair g.n))
    (s : DriveState g.n) : Prop extends DriveInv Γ s where
  cover : ∀ q ∈ queue, s.uf.view.Decided q.u q.v ∨ q ∈ s.survivors ∨ 0 < s.unknown
  settled : ∀ q ∈ done, s.uf.view.Decided q.u q.v ∨ 0 < s.unknown

theorem shortPass_ok {ask : ℕ → PendingPair g.n → SatQueryResult g.n} (hΓ : Γ ≤ g.Aut)
    (hask : ∀ k, (ask k q).Answers (· ∈ Γ) q.u q.v) {done : List (PendingPair g.n)}
    (hs : ShortInv Γ done s) : ∃ s', shortPass g ask s q = .ok s' ∧ ShortInv Γ (done ++ [q]) s' := by
  unfold shortPass
  simp only
  split
  · rename_i h
    have hdec := (settled_iff s.uf q.u q.v).mp h
    refine ⟨_, rfl, ⟨⟨by simpa using hs.sound, hs.counts⟩, fun p hp => ?_, fun p hp => ?_⟩⟩
    · simp only [view_settled]
      rcases List.mem_append.mp hp with hp | hp
      · exact hs.cover p hp
      · exact Or.inl (List.mem_singleton.mp hp ▸ hdec)
    · exact List.mem_append_left _ (hs.survivors_sub p hp)
  · rename_i h
    have hr := hask s.calls
    -- an answer other than unknown is recorded at once
    have hrecord : ∃ s', recordFinal g { s with
          uf := (settled s.uf q.u q.v).2, calls := s.calls + 1 } q (ask s.calls q) = .ok s' ∧
        ShortInv Γ (done ++ [q]) s' := by
      obtain ⟨s', hok, hinv, hle, hunk, hsurv, hdec⟩ := recordFinal_ok (s := { s with
        uf := (settled s.uf q.u q.v).2, calls := s.calls + 1 }) hΓ
        ⟨by simpa using hs.sound, hs.counts⟩ hr
      simp only [view_settled] at hle hunk hsurv
      refine ⟨s', hok, hinv, fun p hp => ?_, fun p hp => ?_⟩
      · rcases List.mem_append.mp hp with hp | hp
        · rcases hs.cover p hp with h | h | h
          · exact Or.inl (hle.decided h)
          · exact Or.inr (Or.inl (hsurv ▸ h))
          · exact Or.inr (Or.inr (h.trans_le hunk))
        · rw [List.mem_singleton.mp hp]
          exact hdec.imp id Or.inr
      · rw [hsurv] at hp
        exact List.mem_append_left _ (hs.survivors_sub p hp)
    split
    · refine ⟨_, rfl, ⟨⟨by simpa using hs.sound, hs.counts⟩, fun p hp => ?_, fun p hp => ?_⟩⟩
      · simp only [view_settled, List.mem_append]
        rcases List.mem_append.mp hp with hp | hp
        · rcases hs.cover p hp with h | h | h
          · exact Or.inl h
          · exact Or.inr (Or.inl (Or.inl h))
          · exact Or.inr (Or.inr h)
        · exact Or.inr (Or.inl (Or.inr hp))
      · rcases List.mem_append.mp hp with hp | hp
        · exact List.mem_append_left _ (hs.survivors_sub p hp)
        · exact List.mem_append_right _ hp
    · exact hrecord

theorem longPass_ok {ask : ℕ → PendingPair g.n → SatQueryResult g.n} (hΓ : Γ ≤ g.Aut)
    (hask : ∀ k, (ask k q).Answers (· ∈ Γ) q.u q.v) {queue done : List (PendingPair g.n)}
    (hs : LongInv Γ queue done s) :
    ∃ s', longPass g ask s q = .ok s' ∧ LongInv Γ queue (done ++ [q]) s' ∧
      s'.survivors = s.survivors := by
  unfold longPass
  simp only
  split
  · rename_i h
    have hdec := (settled_iff s.uf q.u q.v).mp h
    refine ⟨_, rfl, ⟨⟨by simpa using hs.sound, hs.counts⟩, fun p hp => ?_, fun p hp => ?_⟩, rfl⟩
    · simpa using hs.cover p hp
    · simp only [view_settled]
      rcases List.mem_append.mp hp with hp | hp
      · exact hs.settled p hp
      · exact Or.inl (List.mem_singleton.mp hp ▸ hdec)
  · obtain ⟨s', hok, hinv, hle, hunk, hsurv, hdec⟩ := recordFinal_ok (s := { s with
      uf := (settled s.uf q.u q.v).2, calls := s.calls + 1 }) hΓ
      ⟨by simpa using hs.sound, hs.counts⟩ (hask s.calls)
    simp only [view_settled] at hle hunk hsurv
    refine ⟨s', hok, ⟨hinv, fun p hp => ?_, fun p hp => ?_⟩, hsurv⟩
    · rcases hs.cover p hp with h | h | h
      · exact Or.inl (hle.decided h)
      · exact Or.inr (Or.inl (hsurv ▸ h))
      · exact Or.inr (Or.inr (h.trans_le hunk))
    · rcases List.mem_append.mp hp with hp | hp
      · exact (hs.settled p hp).imp hle.decided fun h => h.trans_le hunk
      · exact List.mem_singleton.mp hp ▸ hdec

/-- A whole drive with correct answers: nothing is thrown, the classes are those of true knowledge,
    and every queued pair is settled unless a query stayed unknown. -/
theorem driveQueue_spec {ask : ℕ → PendingPair g.n → SatQueryResult g.n} (hΓ : Γ ≤ g.Aut)
    {queue : List (PendingPair g.n)}
    (hask : ∀ q ∈ queue, ∀ k, (ask k q).Answers (· ∈ Γ) q.u q.v) :
    ∃ (res : OrbitDriveResult g.n) (uf : SeparatingUnionFind g.n), driveQueue g ask queue = .ok res ∧
      res.orbits = Lib.groups uf.root (List.finRange g.n) ∧ uf.view.Sound (OrbitMates Γ) ∧
      res.queriesSat + res.queriesUnsat + res.queriesUnknown = res.queriesIssued ∧
      ∀ q ∈ queue, uf.view.Decided q.u q.v ∨ 0 < res.queriesUnknown := by
  have hstart : ShortInv Γ [] (⟨SeparatingUnionFind.init g.n, 0, 0, 0, 0, 0, 0, 0, [], 0⟩ :
      DriveState g.n) :=
    ⟨⟨by simpa using Knowledge.sound_nothing (orbitMates_equivalence Γ), rfl⟩, by simp, by simp⟩
  obtain ⟨s₁, h₁, hinv₁⟩ := foldlM_ok (f := shortPass g ask)
    (fun done q s hq hs => shortPass_ok hΓ (hask q hq) hs) queue [] _ (fun _ h => h) hstart
  rw [List.nil_append] at hinv₁
  obtain ⟨s₂, h₂, hinv₂, hsurv⟩ := foldlM_ok (f := longPass g ask)
    (P := fun done s => LongInv Γ queue done s ∧ s.survivors = s₁.survivors)
    (fun done q s hq hs => by
      obtain ⟨s', hok, hinv, hsurv⟩ :=
        longPass_ok hΓ (hask q (hinv₁.survivors_sub q hq)) hs.1
      exact ⟨s', hok, hinv, hsurv.trans hs.2⟩)
    s₁.survivors [] s₁ (fun _ h => h)
    ⟨⟨hinv₁.toDriveInv, hinv₁.cover, by simp⟩, rfl⟩
  rw [List.nil_append] at hinv₂
  refine ⟨_, s₂.uf, by simp only [driveQueue, h₁, bind, Except.bind, h₂]; rfl, rfl, hinv₂.sound,
    hinv₂.counts, fun q hq => ?_⟩
  rcases hinv₂.cover q hq with h | h | h
  · exact Or.inl h
  · exact hinv₂.settled q (hsurv ▸ h)
  · exact Or.inr h

end Dialysis.Sat
