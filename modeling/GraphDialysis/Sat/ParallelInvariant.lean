import GraphDialysis.Sat.ParallelDriver

/-! What holds in every state that any interleaving of the parallel driver reaches, when the answers
    of the solvers are correct about a group of automorphisms. The knowledge in the shared
    union-find is true of the orbits of the group; a worker's share of the pairs is settled, still
    on its list, or was left unknown; every queue position below the shared index was drawn by
    exactly one worker. A step of one worker keeps what the others rely on because knowledge only
    grows. -/

namespace Dialysis.Sat
open Lib Dialysis.Graph

variable {g : Graph} {cfg : ParallelConfig g} {Γ : Subgroup (Equiv.Perm (Fin g.n))}

/-- The pairs of one pass still ahead; in the short pass the survivors come after them. -/
def ahead {n : ℕ} (pass : Pass) (rest survivors : List (PendingPair n)) : List (PendingPair n) :=
  match pass with
  | .short => rest ++ survivors
  | .long => rest

/-- Every pair a worker has drawn and has neither settled nor given up. -/
def Worker.todo {n : ℕ} (w : Worker n) : List (PendingPair n) :=
  match w.phase with
  | .claim => w.survivors
  | .checkMate pass rest => ahead pass rest w.survivors
  | .checkSeparated pass q rest => ahead pass (q :: rest) w.survivors
  | .query pass q rest => ahead pass (q :: rest) w.survivors
  | .apply pass q _ rest => ahead pass (q :: rest) w.survivors
  | .done => []

/-- Past the last draw from the queue. -/
def Phase.late {n : ℕ} : Phase n → Prop
  | .claim => False
  | .checkMate pass _ => pass = .long
  | .checkSeparated pass _ _ => pass = .long
  | .query pass _ _ => pass = .long
  | .apply pass _ _ _ => pass = .long
  | .done => True

/-- What a worker is about to apply is true of the orbits of `Γ`. -/
def Phase.true (Γ : Subgroup (Equiv.Perm (Fin g.n))) : Phase g.n → Prop
  | .apply _ q (.witness alpha) _ => ∃ α ∈ Γ, α q.u = q.v ∧ alpha = fun w => some (α w)
  | .apply _ q .separation _ => ¬OrbitMates Γ q.u q.v
  | _ => True

theorem mem_ahead {n : ℕ} {pass : Pass} {q p : PendingPair n} {rest survivors : List (PendingPair n)} :
    p ∈ ahead pass (q :: rest) survivors ↔ p = q ∨ p ∈ ahead pass rest survivors := by
  cases pass <;> simp [ahead]

theorem ahead_long_nil {n : ℕ} (survivors : List (PendingPair n)) : ahead .long [] survivors = [] := rfl

/-- What a worker relies on, with the shared index at `next` and the union-find at `uf`. -/
structure WorkerInv (cfg : ParallelConfig g) (Γ : Subgroup (Equiv.Perm (Fin g.n))) (next : ℕ)
    (uf : SeparatingUnionFind g.n) (w : Worker g.n) : Prop where
  counts : w.sat + w.unsat + w.unknown = w.issued
  update : w.phase.true Γ
  drawn : ∀ q ∈ w.todo, ∃ idx, q ∈ cfg.unitPairs idx
  cover : ∀ idx ∈ w.claimed, ∀ q ∈ cfg.unitPairs idx,
    uf.view.Decided q.u q.v ∨ q ∈ w.todo ∨ 0 < w.unknown
  touched : w.touchedClasses = w.claimed.map cfg.unitMembers
  claimed_lt : ∀ idx ∈ w.claimed, idx < next ∧ idx < cfg.queue.length
  claimed_nodup : w.claimed.Nodup
  late : w.phase.late → cfg.queue.length ≤ next

variable {next : ℕ} {uf uf' : SeparatingUnionFind g.n} {w w' : Worker g.n}

theorem workerInv_start : WorkerInv cfg Γ 0 uf (Worker.start g.n) :=
  ⟨rfl, trivial, by simp [Worker.todo, Worker.start], by simp [Worker.start], rfl,
    by simp [Worker.start], by simp [Worker.start], fun h => h.elim⟩

/-- Steps of others: the index moves on and knowledge grows. -/
theorem WorkerInv.mono (h : WorkerInv cfg Γ next uf w) {next' : ℕ} (hnext : next ≤ next')
    (hle : uf.view.Le uf'.view) : WorkerInv cfg Γ next' uf' w :=
  { h with
    cover := fun idx hidx q hq => (h.cover idx hidx q hq).imp hle.decided id
    claimed_lt := fun idx hidx => ⟨(h.claimed_lt idx hidx).1.trans_le hnext, (h.claimed_lt idx hidx).2⟩
    late := fun hl => (h.late hl).trans hnext }

/-- A step of the worker itself that draws nothing: what leaves the list has been settled or is
    counted as unknown. -/
theorem WorkerInv.move (h : WorkerInv cfg Γ next uf w) (hle : uf.view.Le uf'.view)
    (hclaimed : w'.claimed = w.claimed) (htouched : w'.touchedClasses = w.touchedClasses)
    (hcounts : w'.sat + w'.unsat + w'.unknown = w'.issued) (hupdate : w'.phase.true Γ)
    (hunknown : w.unknown ≤ w'.unknown) (hsub : ∀ q ∈ w'.todo, q ∈ w.todo)
    (hcover : ∀ q ∈ w.todo, uf'.view.Decided q.u q.v ∨ q ∈ w'.todo ∨ 0 < w'.unknown)
    (hlate : w'.phase.late → w.phase.late) : WorkerInv cfg Γ next uf' w' where
  counts := hcounts
  update := hupdate
  drawn := fun q hq => h.drawn q (hsub q hq)
  cover := by
    intro idx hidx q hq
    rcases h.cover idx (hclaimed ▸ hidx) q hq with hd | ht | hu
    · exact Or.inl (hle.decided hd)
    · exact hcover q ht
    · exact Or.inr (Or.inr (hu.trans_le hunknown))
  touched := by rw [htouched, hclaimed]; exact h.touched
  claimed_lt := fun idx hidx => h.claimed_lt idx (hclaimed ▸ hidx)
  claimed_nodup := hclaimed ▸ h.claimed_nodup
  late := fun hl => h.late (hlate hl)

/-- A step that only moves on. -/
theorem WorkerInv.same_todo (h : WorkerInv cfg Γ next uf w) (hle : uf.view.Le uf'.view)
    (hclaimed : w'.claimed = w.claimed) (htouched : w'.touchedClasses = w.touchedClasses)
    (hcounts : w'.sat + w'.unsat + w'.unknown = w'.issued) (hupdate : w'.phase.true Γ)
    (hunknown : w.unknown ≤ w'.unknown) (htodo : w'.todo = w.todo)
    (hlate : w'.phase.late → w.phase.late) : WorkerInv cfg Γ next uf' w' :=
  h.move hle hclaimed htouched hcounts hupdate hunknown (fun _ hq => htodo ▸ hq)
    (fun _ hq => Or.inr (Or.inl (htodo ▸ hq))) hlate

/-- The head of the list has been dealt with. -/
theorem WorkerInv.next_pair (h : WorkerInv cfg Γ next uf w) {pass : Pass} {q : PendingPair g.n}
    {rest : List (PendingPair g.n)} (htodo : w.todo = ahead pass (q :: rest) w.survivors)
    (hphase : w.phase.late ↔ pass = .long) (hle : uf.view.Le uf'.view)
    (hw' : w'.phase = .checkMate pass rest) (hsurvivors : w'.survivors = w.survivors)
    (hclaimed : w'.claimed = w.claimed) (htouched : w'.touchedClasses = w.touchedClasses)
    (hcounts : w'.sat + w'.unsat + w'.unknown = w'.issued) (hunknown : w.unknown ≤ w'.unknown)
    (hq : uf'.view.Decided q.u q.v ∨ 0 < w'.unknown) : WorkerInv cfg Γ next uf' w' := by
  have htodo' : w'.todo = ahead pass rest w.survivors := by simp only [Worker.todo, hw', hsurvivors]
  refine h.move hle hclaimed htouched hcounts (by rw [hw']; trivial) hunknown (fun p hp => ?_)
    (fun p hp => ?_) fun hl => hphase.mpr (by rwa [hw'] at hl)
  · rw [htodo, mem_ahead]; exact Or.inr (htodo' ▸ hp)
  · rw [htodo, mem_ahead] at hp
    rcases hp with rfl | hp
    · exact hq.imp id Or.inr
    · exact Or.inr (Or.inl (htodo' ▸ hp))

/-- What one step of a worker does to itself and to what is shared. -/
structure Moved (cfg : ParallelConfig g) (Γ : Subgroup (Equiv.Perm (Fin g.n))) (s s' : Shared g.n)
    (w w' : Worker g.n) : Prop where
  sound : s'.uf.view.Sound (OrbitMates Γ)
  le : s.uf.view.Le s'.uf.view
  inv : WorkerInv cfg Γ s'.nextIndex s'.uf w'
  index_le : s.nextIndex ≤ s'.nextIndex
  claimed : ∀ idx, idx ∈ w'.claimed ↔ idx ∈ w.claimed ∨
    (s.nextIndex ≤ idx ∧ idx < s'.nextIndex ∧ idx < cfg.queue.length)

variable {s : Shared g.n}

/-- Steps that leave the shared index alone. -/
theorem Moved.of_inv {s' : Shared g.n} (hsound : s'.uf.view.Sound (OrbitMates Γ))
    (hle : s.uf.view.Le s'.uf.view) (hidx : s'.nextIndex = s.nextIndex)
    (hclaimed : w'.claimed = w.claimed) (hinv : WorkerInv cfg Γ s.nextIndex s'.uf w') :
    Moved cfg Γ s s' w w' := by
  refine ⟨hsound, hle, hidx ▸ hinv, hidx.ge, fun idx => ?_⟩
  rw [hclaimed, hidx]
  refine ⟨Or.inl, ?_⟩
  rintro (h | ⟨h1, h2, -⟩)
  · exact h
  · omega

/-- Drawing from the queue. -/
theorem step_claim (hs : s.uf.view.Sound (OrbitMates Γ)) (h : WorkerInv cfg Γ s.nextIndex s.uf w)
    (hp : w.phase = .claim) (r : SatQueryResult g.n) :
    ∃ s' w', stepWorker cfg r s w = .ok (s', w') ∧ Moved cfg Γ s s' w w' := by
  have htodo : w.todo = w.survivors := by simp only [Worker.todo, hp]
  simp only [stepWorker, hp]
  cases hget : cfg.queue[s.nextIndex]? with
  | none =>
    have hend : cfg.queue.length ≤ s.nextIndex := List.getElem?_eq_none_iff.mp hget
    refine ⟨_, _, rfl, hs, Knowledge.Le.refl _, ?_, Nat.le_succ _, fun idx => ?_⟩
    · have h' := h.mono (Nat.le_succ _) (Knowledge.Le.refl _)
      exact { h' with
        update := trivial
        drawn := fun q hq => h.drawn q (htodo ▸ hq)
        cover := fun idx hidx q hq => (h.cover idx hidx q hq).imp id fun hq => htodo ▸ hq
        late := fun _ => hend.trans (Nat.le_succ _) }
    · constructor
      · exact Or.inl
      · rintro (h | ⟨h1, -, h3⟩)
        · exact h
        · omega
  | some unit =>
    obtain ⟨hlt, hunit⟩ := List.getElem?_eq_some_iff.mp hget
    obtain ⟨e, he⟩ := Option.ne_none_iff_exists'.mp
      (encodingOf_ne_none (hunit ▸ List.getElem_mem hlt))
    simp only [he]
    have hpairs : cfg.unitPairs s.nextIndex = collectClassQueue e unit := by
      simp [ParallelConfig.unitPairs, hget, he]
    have hmembers : cfg.unitMembers s.nextIndex = classMembers e unit := by
      simp [ParallelConfig.unitMembers, hget, he]
    have hnew : s.nextIndex ∉ w.claimed := fun hc => lt_irrefl _ (h.claimed_lt _ hc).1
    refine ⟨_, _, rfl, hs, Knowledge.Le.refl _, ?_, Nat.le_succ _, fun idx => ?_⟩
    · refine ⟨h.counts, trivial, fun q hq => ?_, fun idx hidx q hq => ?_, ?_, fun idx hidx => ?_, ?_,
        fun hl => by cases hl⟩
      · rcases List.mem_append.mp hq with hq | hq
        · exact ⟨s.nextIndex, hpairs ▸ hq⟩
        · exact h.drawn q (htodo ▸ hq)
      · rcases List.mem_append.mp hidx with hidx | hidx
        · refine (h.cover idx hidx q hq).imp id fun hq => hq.imp (fun hq => ?_) id
          exact List.mem_append_right _ (htodo ▸ hq)
        · rw [List.mem_singleton.mp hidx, hpairs] at hq
          exact Or.inr (Or.inl (List.mem_append_left _ hq))
      · simp only [h.touched, List.map_append, List.map_cons, List.map_nil, hmembers]
      · rcases List.mem_append.mp hidx with hidx | hidx
        · exact ⟨(h.claimed_lt idx hidx).1.trans (Nat.lt_succ_self _), (h.claimed_lt idx hidx).2⟩
        · rw [List.mem_singleton.mp hidx]; exact ⟨Nat.lt_succ_self _, hlt⟩
      · refine List.nodup_append.mpr ⟨h.claimed_nodup, by simp, ?_⟩
        rintro a ha b hb rfl
        exact hnew (List.mem_singleton.mp hb ▸ ha)
    · simp only [List.mem_append, List.mem_singleton]
      refine or_congr_right ⟨?_, ?_⟩
      · rintro rfl; exact ⟨le_refl _, Nat.lt_succ_self _, hlt⟩
      · rintro ⟨h1, h2, -⟩; omega

/-- Recording a correct answer. -/
theorem step_record (h : WorkerInv cfg Γ next uf w) (hΓ : Γ ≤ g.Aut) {pass : Pass}
    {q : PendingPair g.n} {rest : List (PendingPair g.n)} (hp : w.phase = .query pass q rest)
    {r : SatQueryResult g.n} (hr : r.Answers (· ∈ Γ) q.u q.v) :
    WorkerInv cfg Γ next uf ({ w with issued := w.issued + 1 }.record pass q rest r) ∧
      ({ w with issued := w.issued + 1 }.record pass q rest r).claimed = w.claimed := by
  have htodo : w.todo = ahead pass (q :: rest) w.survivors := by simp only [Worker.todo, hp]
  have hphase : w.phase.late ↔ pass = .long := by rw [hp]; rfl
  have hc := h.counts
  cases r with
  | sat alpha =>
    obtain ⟨α, hα, huv, hdef⟩ := hr
    have hver : verifyAutomorphism g alpha = true := verifyAutomorphism_iff.mpr ⟨α, hΓ hα, hdef⟩
    simp only [Worker.record, if_pos hver]
    exact ⟨h.same_todo (Knowledge.Le.refl _) rfl rfl (by simp only; omega) ⟨α, hα, huv, hdef⟩
      (le_refl _) htodo.symm hphase.mpr, trivial⟩
  | unsat =>
    have hnot : ¬OrbitMates Γ q.u q.v := fun ⟨α, hα, he⟩ => hr α hα he
    exact ⟨h.same_todo (Knowledge.Le.refl _) rfl rfl (by simp only [Worker.record]; omega) hnot
      (le_refl _) htodo.symm hphase.mpr, rfl⟩
  | unknown =>
    exact ⟨h.next_pair htodo hphase (Knowledge.Le.refl _) rfl rfl rfl rfl
      (by simp only [Worker.record]; omega) (Nat.le_succ _) (Or.inr (Nat.succ_pos _)), rfl⟩

/-- No step of a worker throws, and it keeps the invariant. -/
theorem stepWorker_ok (hΓ : Γ ≤ g.Aut) (hs : s.uf.view.Sound (OrbitMates Γ))
    (h : WorkerInv cfg Γ s.nextIndex s.uf w) {r : SatQueryResult g.n}
    (hr : ∀ pass q rest, w.phase = .query pass q rest → r.Answers (· ∈ Γ) q.u q.v) :
    ∃ s' w', stepWorker cfg r s w = .ok (s', w') ∧ Moved cfg Γ s s' w w' := by
  have horb := orbitMates_equivalence Γ
  have hc := h.counts
  cases hp : w.phase with
  | claim => exact step_claim hs h hp r
  | checkMate pass rest =>
    have htodo : w.todo = ahead pass rest w.survivors := by simp only [Worker.todo, hp]
    have hphase : w.phase.late ↔ pass = .long := by rw [hp]; rfl
    cases rest with
    | nil =>
      cases pass with
      | short =>
        simp only [stepWorker, hp]
        refine ⟨_, _, rfl, .of_inv hs (Knowledge.Le.refl _) rfl rfl ?_⟩
        exact h.same_todo (Knowledge.Le.refl _) rfl rfl hc trivial (le_refl _) htodo.symm
          fun hl => hl.elim
      | long =>
        simp only [stepWorker, hp]
        refine ⟨_, _, rfl, .of_inv hs (Knowledge.Le.refl _) rfl rfl ?_⟩
        refine h.move (Knowledge.Le.refl _) rfl rfl hc trivial (le_refl _) (fun p hp => ?_)
          (fun p hp => ?_) fun _ => hphase.mpr rfl
        · simp [Worker.todo] at hp
        · rw [htodo, ahead_long_nil] at hp
          simp at hp
    | cons q rest =>
      have hview : ((s.uf.find q.u).2.find q.v).2.view = s.uf.view := by simp
      have hle : s.uf.view.Le ((s.uf.find q.u).2.find q.v).2.view := hview ▸ Knowledge.Le.refl _
      have hstep : stepWorker cfg r s w = if s.uf.root q.u = s.uf.root q.v then
          .ok ({ s with uf := ((s.uf.find q.u).2.find q.v).2 }, { w with
            skippedWitness := w.skippedWitness + 1, phase := .checkMate pass rest })
          else .ok ({ s with uf := ((s.uf.find q.u).2.find q.v).2 }, { w with
            phase := .checkSeparated pass q rest }) := by
        cases pass <;> simp only [stepWorker, hp, SeparatingUnionFind.find_fst,
          SeparatingUnionFind.root_find]
      rw [hstep]
      split
      · rename_i hmate
        refine ⟨_, _, rfl, .of_inv (hview ▸ hs) hle rfl rfl ?_⟩
        exact h.next_pair htodo hphase hle rfl rfl rfl rfl hc (le_refl _)
          (Or.inl (Or.inl (hview ▸ hmate)))
      · refine ⟨_, _, rfl, .of_inv (hview ▸ hs) hle rfl rfl ?_⟩
        exact h.same_todo hle rfl rfl hc trivial (le_refl _) htodo.symm hphase.mpr
  | checkSeparated pass q rest =>
    have htodo : w.todo = ahead pass (q :: rest) w.survivors := by simp only [Worker.todo, hp]
    have hphase : w.phase.late ↔ pass = .long := by rw [hp]; rfl
    have hview : (s.uf.separated q.u q.v).2.view = s.uf.view := s.uf.view_separated q.u q.v
    have hle : s.uf.view.Le (s.uf.separated q.u q.v).2.view := hview ▸ Knowledge.Le.refl _
    simp only [stepWorker, hp]
    split
    · rename_i hsep
      refine ⟨_, _, rfl, .of_inv (hview ▸ hs) hle rfl rfl ?_⟩
      exact h.next_pair htodo hphase hle rfl rfl rfl rfl hc (le_refl _)
        (Or.inl (Or.inr (hview ▸ (s.uf.separated_iff q.u q.v).mp hsep)))
    · refine ⟨_, _, rfl, .of_inv (hview ▸ hs) hle rfl rfl ?_⟩
      exact h.same_todo hle rfl rfl hc trivial (le_refl _) htodo.symm hphase.mpr
  | query pass q rest =>
    have hrecord := step_record h hΓ hp (hr pass q rest hp)
    have hdone : ∃ s' w', (.ok (s, { w with issued := w.issued + 1 }.record pass q rest r) :
        Except String _) = .ok (s', w') ∧ Moved cfg Γ s s' w w' :=
      ⟨_, _, rfl, .of_inv hs (Knowledge.Le.refl _) rfl hrecord.2 hrecord.1⟩
    have htodo : w.todo = ahead pass (q :: rest) w.survivors := by simp only [Worker.todo, hp]
    cases pass with
    | long => simp only [stepWorker, hp]; exact hdone
    | short =>
      simp only [stepWorker, hp]
      split
      · -- the pair moves from the front of the list to the survivors at its end
        refine ⟨_, _, rfl, .of_inv hs (Knowledge.Le.refl _) rfl rfl ?_⟩
        have hmem : ∀ p, p ∈ ahead .short rest (w.survivors ++ [q]) ↔ p ∈ w.todo := by
          intro p
          rw [htodo]
          simp only [ahead, List.mem_append, List.mem_cons, List.not_mem_nil, or_false]
          tauto
        exact h.move (Knowledge.Le.refl _) rfl rfl hc trivial (le_refl _) (fun p hp => (hmem p).mp hp)
          (fun p hp => Or.inr (Or.inl ((hmem p).mpr hp))) fun hl => by cases hl
      · exact hdone
  | apply pass q update rest =>
    have htodo : w.todo = ahead pass (q :: rest) w.survivors := by simp only [Worker.todo, hp]
    have hphase : w.phase.late ↔ pass = .long := by rw [hp]; rfl
    have htrue := h.update
    rw [hp] at htrue
    cases update with
    | witness alpha =>
      obtain ⟨α, hα, huv, hdef⟩ := htrue
      obtain ⟨uf', hok, hsound, hle, hall⟩ := applyWitness_ok horb hs hdef fun w => ⟨α, hα, rfl⟩
      refine ⟨{ s with uf := uf' }, { w with phase := .checkMate pass rest },
        by simp only [stepWorker, hp, hok]; rfl, .of_inv hsound hle rfl rfl ?_⟩
      exact h.next_pair htodo hphase hle rfl rfl rfl rfl hc (le_refl _)
        (Or.inl (Or.inl (huv ▸ hall q.u)))
    | separation =>
      obtain ⟨uf', hok, hsound, hle, hap⟩ := markSeparated_sound horb hs htrue
      refine ⟨{ s with uf := uf' }, { w with phase := .checkMate pass rest },
        by simp only [stepWorker, hp, hok]; rfl, .of_inv hsound hle rfl rfl ?_⟩
      exact h.next_pair htodo hphase hle rfl rfl rfl rfl hc (le_refl _) (Or.inl (Or.inr hap))
  | done =>
    simp only [stepWorker, hp]
    exact ⟨_, _, rfl, .of_inv hs (Knowledge.Le.refl _) rfl rfl h⟩

/-! ### All workers together -/

/-- What holds in every reachable state. -/
structure SystemInv (cfg : ParallelConfig g) (Γ : Subgroup (Equiv.Perm (Fin g.n))) {k : ℕ}
    (s : System g.n k) : Prop where
  sound : s.shared.uf.view.Sound (OrbitMates Γ)
  worker : ∀ i, WorkerInv cfg Γ s.shared.nextIndex s.shared.uf (s.workers i)
  claimed : ∀ idx < s.shared.nextIndex, idx < cfg.queue.length → ∃ i, idx ∈ (s.workers i).claimed
  claimed_once : ∀ idx i j, idx ∈ (s.workers i).claimed → idx ∈ (s.workers j).claimed → i = j

theorem systemInv_start {k : ℕ} : SystemInv cfg Γ (System.start g.n k) where
  sound := by simpa [System.start] using Knowledge.sound_nothing (orbitMates_equivalence Γ)
  worker := fun _ => workerInv_start
  claimed := fun _ h => absurd h (Nat.not_lt_zero _)
  claimed_once := fun _ _ _ h => by simp [System.start, Worker.start] at h

/-- The answers that `Answer` allows for queued pairs are correct about `Γ`. -/
def CorrectAnswers (cfg : ParallelConfig g) (Γ : Subgroup (Equiv.Perm (Fin g.n)))
    (Answer : PendingPair g.n → SatQueryResult g.n → Prop) : Prop :=
  ∀ idx, ∀ q ∈ cfg.unitPairs idx, ∀ r, Answer q r → r.Answers (· ∈ Γ) q.u q.v

variable {Answer : PendingPair g.n → SatQueryResult g.n → Prop} {k : ℕ}

/-- In a state that satisfies the invariant, what a worker is allowed to do it can do. -/
theorem allowed_ok (hΓ : Γ ≤ g.Aut) (hA : CorrectAnswers cfg Γ Answer) {s : System g.n k}
    (hs : SystemInv cfg Γ s) {i : Fin k} {r : SatQueryResult g.n}
    (hr : Allowed Answer (s.workers i) r) :
    ∃ s' w', stepWorker cfg r s.shared (s.workers i) = .ok (s', w') ∧
      Moved cfg Γ s.shared s' (s.workers i) w' := by
  refine stepWorker_ok hΓ hs.sound (hs.worker i) fun pass q rest hp => ?_
  obtain ⟨idx, hq⟩ := (hs.worker i).drawn q (by
    simp only [Worker.todo, hp, mem_ahead, true_or])
  exact hA idx q hq r (hr pass q rest hp)

/-- A step of one worker keeps the invariant of all. -/
theorem system_step (hΓ : Γ ≤ g.Aut) (hA : CorrectAnswers cfg Γ Answer) {s s' : System g.n k}
    (hs : SystemInv cfg Γ s) (h : Step cfg Answer s s') : SystemInv cfg Γ s' := by
  cases h with | @mk i r shared w hr hok =>
  obtain ⟨shared', w', hok', hm⟩ := allowed_ok hΓ hA hs hr
  rw [hok] at hok'
  obtain ⟨rfl, rfl⟩ := Prod.mk.inj (Except.ok.inj hok')
  have hother : ∀ j, j ≠ i → Function.update s.workers i w j = s.workers j := fun j hj =>
    Function.update_of_ne hj _ _
  refine ⟨hm.sound, fun j => ?_, fun idx hidx hlen => ?_, fun idx j l hdj hdl => ?_⟩
  · simp only
    rcases eq_or_ne j i with rfl | hj
    · rw [Function.update_self]; exact hm.inv
    · rw [hother j hj]; exact (hs.worker j).mono hm.index_le hm.le
  · simp only
    rcases Nat.lt_or_ge idx s.shared.nextIndex with hlt | hge
    · obtain ⟨j, hj⟩ := hs.claimed idx hlt hlen
      refine ⟨j, ?_⟩
      rcases eq_or_ne j i with rfl | hne
      · rw [Function.update_self]; exact (hm.claimed idx).mpr (Or.inl hj)
      · rw [hother j hne]; exact hj
    · exact ⟨i, by rw [Function.update_self]; exact (hm.claimed idx).mpr (Or.inr ⟨hge, hidx, hlen⟩)⟩
  · -- a position drawn in this step is at or above the old index, one drawn before is below it
    have hnew : ∀ {j l}, j ≠ i → idx ∈ (s.workers j).claimed →
        idx ∈ (Function.update s.workers i w l).claimed → j = l := by
      intro j l hji hj hl
      rcases eq_or_ne l i with rfl | hli
      · rw [Function.update_self] at hl
        rcases (hm.claimed idx).mp hl with hl | ⟨hge, -, -⟩
        · exact hs.claimed_once idx j _ hj hl
        · have := ((hs.worker j).claimed_lt idx hj).1
          omega
      · rw [hother l hli] at hl
        exact hs.claimed_once idx j l hj hl
    rcases eq_or_ne j i with rfl | hji
    · rcases eq_or_ne l j with rfl | hlj
      · rfl
      · exact (hnew hlj (hother l hlj ▸ hdl) hdj).symm
    · exact hnew hji (hother j hji ▸ hdj) hdl

/-- The invariant holds in every state that some interleaving reaches. -/
theorem reachable_inv (hΓ : Γ ≤ g.Aut) (hA : CorrectAnswers cfg Γ Answer) {s : System g.n k}
    (h : Reachable cfg Answer s) : SystemInv cfg Γ s := by
  induction h with
  | refl => exact systemInv_start
  | tail _ hstep ih => exact system_step hΓ hA ih hstep

/-- No check ever fires, in any interleaving. -/
theorem reachable_not_throws (hΓ : Γ ≤ g.Aut) (hA : CorrectAnswers cfg Γ Answer)
    {s : System g.n k} (h : Reachable cfg Answer s) : ¬Throws cfg Answer s := by
  rintro ⟨i, r, msg, hr, herr⟩
  obtain ⟨s', w', hok, -⟩ := allowed_ok hΓ hA (reachable_inv hΓ hA h) hr
  rw [hok] at herr
  cases herr

/-! ### When all workers have returned -/

theorem sum_map_add {ι : Type*} (l : List ι) (a b : ι → ℕ) :
    (l.map a).sum + (l.map b).sum = (l.map fun i => a i + b i).sum := by
  induction l with
  | nil => rfl
  | cons i l ih => simp only [List.map_cons, List.sum_cons]; omega

/-- The joined counters add up. -/
theorem result_counts {s : System g.n k} (hs : SystemInv cfg Γ s) :
    s.result.sat + s.result.unsat + s.result.unknown = s.result.queriesIssued := by
  simp only [System.result, sum_map_add]
  exact congrArg List.sum (List.map_congr_left fun i _ => (hs.worker i).counts)

/-- Every queue position was drawn by exactly one worker, and once by that one. -/
theorem finished_claimed {s : System g.n k} (hs : SystemInv cfg Γ s) (hf : s.Finished) (hk : 0 < k)
    {idx : ℕ} (hidx : idx < cfg.queue.length) :
    ∃ i, (∀ j, idx ∈ (s.workers j).claimed ↔ j = i) ∧ (s.workers i).claimed.count idx = 1 := by
  have hlate := (hs.worker ⟨0, hk⟩).late (by rw [hf ⟨0, hk⟩]; trivial)
  obtain ⟨i, hi⟩ := hs.claimed idx (hidx.trans_le hlate) hidx
  refine ⟨i, fun j => ⟨fun hj => hs.claimed_once idx j i hj hi, fun hj => hj ▸ hi⟩, ?_⟩
  exact List.count_eq_one_of_mem (hs.worker i).claimed_nodup hi

/-- An orbit-mate that is an admissible pair has been touched, together with its mate. -/
theorem finished_touched {s : System g.n k} (hs : SystemInv cfg Γ s) (hf : s.Finished) (hk : 0 < k)
    {u v : Fin g.n} (hne : v ≠ u) (hadm : cfg.AdmissiblePair u v) :
    (∃ i, ∃ c ∈ (s.workers i).touchedClasses, u ∈ c ∧ v ∈ c) ∧
      (s.shared.uf.view.Decided u v ∨ 0 < s.result.unknown) := by
  obtain ⟨idx, hidx, hu, hv, q, hq, rfl, rfl⟩ := exists_unitPairs hne hadm
  obtain ⟨i, hi, -⟩ := finished_claimed hs hf hk hidx
  have hclaimed := (hi i).mpr rfl
  refine ⟨⟨i, cfg.unitMembers idx, ?_, hu, hv⟩, ?_⟩
  · rw [(hs.worker i).touched]; exact List.mem_map_of_mem hclaimed
  · rcases (hs.worker i).cover idx hclaimed q hq with h | h | h
    · exact Or.inl h
    · simp [Worker.todo, hf i] at h
    · refine Or.inr (h.trans_le ?_)
      exact List.single_le_sum (fun _ _ => Nat.zero_le _) _
        (List.mem_map.mpr ⟨i, List.mem_finRange i, rfl⟩)

/-- Whether the classes list two different vertices together. -/
theorem sameClass_result {s : System g.n k} (hs : SystemInv cfg Γ s) (hf : s.Finished) (hk : 0 < k)
    (hadm : ∀ u v, v ≠ u → OrbitMates Γ u v → cfg.AdmissiblePair u v) (a b : Fin g.n) :
    SameClass s.result.orbits a b ↔ s.shared.uf.view.mates a b := by
  have hsame : SameClass s.result.orbits a b ↔
      SameClass (Lib.groups s.shared.uf.root ((List.finRange g.n).filter fun v =>
        ∃ i, ∃ c ∈ (s.workers i).touchedClasses, v ∈ c)) a b ∨
      (a = b ∧ ¬∃ i, ∃ c ∈ (s.workers i).touchedClasses, a ∈ c) := by
    simp only [SameClass, System.result, List.mem_append, or_and_right, exists_or]
    refine or_congr Iff.rfl ?_
    simp only [List.mem_map, List.mem_filter, List.mem_finRange, true_and, decide_eq_true_eq]
    constructor
    · rintro ⟨_, ⟨v, hv, rfl⟩, ha, hb⟩
      rw [List.mem_singleton.mp ha, List.mem_singleton.mp hb]
      exact ⟨rfl, hv⟩
    · rintro ⟨rfl, hv⟩
      exact ⟨[a], ⟨a, hv, rfl⟩, by simp, by simp⟩
  rw [hsame, sameClass_groups]
  simp only [List.mem_filter, List.mem_finRange, true_and, decide_eq_true_eq]
  constructor
  · rintro (⟨-, -, h⟩ | ⟨rfl, -⟩)
    · exact h
    · exact s.shared.uf.view.equiv.refl a
  · intro h
    rcases eq_or_ne b a with rfl | hne
    · by_cases ht : ∃ i, ∃ c ∈ (s.workers i).touchedClasses, b ∈ c
      · exact Or.inl ⟨ht, ht, rfl⟩
      · exact Or.inr ⟨rfl, ht⟩
    · obtain ⟨⟨i, c, hc, ha, hb⟩, -⟩ :=
        finished_touched hs hf hk hne (hadm a b hne (hs.sound.mates h))
      exact Or.inl ⟨⟨i, c, hc, ha⟩, ⟨i, c, hc, hb⟩, h⟩

/-- The classes list every vertex exactly once. -/
theorem result_perm (s : System g.n k) : s.result.orbits.flatten.Perm (List.finRange g.n) := by
  simp only [System.result, List.flatten_append]
  have hnd := List.nodup_finRange g.n
  have hsingle : ∀ l : List (Fin g.n), (l.map fun v => [v]).flatten = l := by
    intro l
    induction l with
    | nil => rfl
    | cons v l ih => simp [ih]
  rw [hsingle]
  refine ((Lib.flatten_groups_perm _ (hnd.filter _)).append_right _).trans ?_
  have hrest : ((List.finRange g.n).filter fun v => decide (v ∉ (List.finRange g.n).filter fun v =>
      decide (∃ i, ∃ c ∈ (s.workers i).touchedClasses, v ∈ c))) =
      (List.finRange g.n).filter fun v =>
        !decide (∃ i, ∃ c ∈ (s.workers i).touchedClasses, v ∈ c) := by
    refine List.filter_congr fun v _ => ?_
    rw [← decide_not]
    simp
  rw [hrest]
  exact List.filter_append_perm _ _

/-- With no unknown answer left, the classes are exactly the orbits. -/
theorem result_exact {s : System g.n k} (hs : SystemInv cfg Γ s) (hf : s.Finished) (hk : 0 < k)
    (hadm : ∀ u v, v ≠ u → OrbitMates Γ u v → cfg.AdmissiblePair u v) (hunk : s.result.unknown = 0)
    (a b : Fin g.n) : SameClass s.result.orbits a b ↔ OrbitMates Γ a b := by
  rw [sameClass_result hs hf hk hadm]
  refine hs.sound.exact (fun a b hab => ?_) a b
  rcases eq_or_ne b a with rfl | hne
  · exact Or.inl (s.shared.uf.view.equiv.refl b)
  · exact (finished_touched hs hf hk hne (hadm a b hne hab)).2.resolve_right (by omega)

end Dialysis.Sat
