import GraphDialysis.Lib.Bfs

/-! Distances by breadth-first search. `Steps adj k u v` is a walk of length `k`; a search from
    `r` that labels with the successor and checks nothing ends with every label the length of a
    shortest walk (`search_iff`), unlabelled vertices being those no walk reaches. The queue holds
    one level followed by a part of the next (`Level`), so a neighbour that already has a label
    has one that is at most one larger. -/

namespace Lib.Bfs
variable {V : Type*} [DecidableEq V] {adj : V → List V} {r v w : V}

/-- A walk of length `k` from `u` to `v`. -/
def Steps (adj : V → List V) : ℕ → V → V → Prop
  | 0, u, v => u = v
  | k + 1, u, v => ∃ w, Steps adj k u w ∧ v ∈ adj w

/-- `d` is the length of a shortest walk from `r` to `v`. -/
def IsDist (adj : V → List V) (r v : V) (d : ℕ) : Prop :=
  Steps adj d r v ∧ ∀ k, Steps adj k r v → d ≤ k

/-- No check at all: plain breadth-first search. -/
abbrev anyLabel {β : Type*} : β → β → Bool := fun _ _ => true

/-- The check that plain search passes anyway: a neighbour is at most one level further. -/
abbrev nextLevel : ℕ → ℕ → Bool := fun a b => decide (b ≤ a + 1)

/-- The search from `r`, on a graph with `k` vertices at most. -/
def search (adj : V → List V) (k : ℕ) (r : V) : Option (State V ℕ) :=
  loop adj Nat.succ anyLabel k (start ⟨fun _ => none, [], []⟩ r 0)

/-- The queue holds vertices of level `d` and then of level `d + 1`; no label is larger. -/
def Level (d : ℕ) (s : State V ℕ) : Prop :=
  ∃ A B, s.queue = A ++ B ∧ (∀ x ∈ A, s.label x = some d) ∧ (∀ x ∈ B, s.label x = some (d + 1)) ∧
    ∀ x b, s.label x = some b → b ≤ d + 1

theorem visit_anyLabel {β : Type*} {next : β → β} (v : V) (s : State V β) (w : V) :
    (visit next anyLabel v s w).isSome := by
  unfold visit
  cases s.label w <;> cases s.label v <;> simp

theorem loop_anyLabel {β : Type*} {next : β → β} : ∀ (k : ℕ) (s : State V β),
    (loop adj next anyLabel k s).isSome
  | 0, s => rfl
  | k + 1, s => by
    have hfold : ∀ (ws : List V) (v : V) (t : State V β),
        (ws.foldlM (visit next anyLabel v) t).isSome := by
      intro ws v
      induction ws with
      | nil => intro t; rfl
      | cons w ws ih =>
        intro t
        obtain ⟨t', ht'⟩ := Option.isSome_iff_exists.mp (visit_anyLabel v t w)
        rw [List.foldlM_cons, ht']
        exact ih t'
    rw [loop]
    split
    · rfl
    · obtain ⟨t, ht⟩ : ∃ t, expand adj next anyLabel s = some t := by
        unfold expand
        split
        · exact ⟨_, rfl⟩
        · exact Option.isSome_iff_exists.mp (hfold _ _ _)
      rw [ht]
      exact loop_anyLabel k t

theorem level_visit {d : ℕ} {s s' : State V ℕ} (hs : Level d s) (hv : s.label v = some d)
    (h : visit Nat.succ anyLabel v s w = some s') :
    Level d s' ∧ visit Nat.succ nextLevel v s w = some s' := by
  obtain ⟨A, B, hq, hA, hB, hle⟩ := hs
  rcases visit_cases h with ⟨hw, rfl⟩ | ⟨b, hw, _, rfl⟩
  · have hne : ∀ {x c}, s.label x = some c → x ≠ w := by
      rintro x c hx rfl; rw [hw] at hx; simp at hx
    refine ⟨⟨A, B ++ [w], by rw [hq, List.append_assoc], ?_, ?_, ?_⟩, by simp [visit, hw]⟩
    · intro x hx; simp [Function.update_of_ne (hne (hA x hx)), hA x hx]
    · intro x hx
      rcases List.mem_append.mp hx with hx | hx
      · simp [Function.update_of_ne (hne (hB x hx)), hB x hx]
      · rw [List.mem_singleton.mp hx]; simp [hv]
    · intro x b hb
      rcases eq_or_ne x w with rfl | hxw
      · simp only [Function.update_self, hv, Option.map_some, Option.some.injEq] at hb
        omega
      · exact hle x b (by simpa [Function.update_of_ne hxw] using hb)
  · have hb : b ≤ d + 1 := hle w b hw
    exact ⟨⟨A, B, hq, hA, hB, hle⟩, by simp [visit, hw, hv, hb]⟩

theorem level_foldlM {d : ℕ} : ∀ {ws : List V} {s s' : State V ℕ}, Level d s → s.label v = some d →
    ws.foldlM (visit Nat.succ anyLabel v) s = some s' →
    Level d s' ∧ ws.foldlM (visit Nat.succ nextLevel v) s = some s'
  | [], s, s', hs, _, h => by
    rw [List.foldlM_nil] at h
    exact ⟨Option.some.inj h ▸ hs, h⟩
  | w :: ws, s, s', hs, hv, h => by
    rw [List.foldlM_cons] at h ⊢
    obtain ⟨t, ht, hrest⟩ := Option.bind_eq_some_iff.mp h
    obtain ⟨hst, ht'⟩ := level_visit hs hv ht
    obtain ⟨hs', hrest'⟩ := level_foldlM hst (visit_mono ht hv) hrest
    exact ⟨hs', by rw [ht']; exact hrest'⟩

/-- A pop moves to a level, and the check it does not make would pass. -/
theorem level_expand {d : ℕ} {s s' : State V ℕ} (hs : Level d s)
    (h : expand adj Nat.succ anyLabel s = some s') :
    (∃ d', Level d' s') ∧ expand adj Nat.succ nextLevel s = some s' := by
  unfold expand at h ⊢
  cases hq : s.queue with
  | nil => rw [hq] at h; exact ⟨⟨d, Option.some.inj h ▸ hs⟩, h⟩
  | cons v q =>
    rw [hq] at h
    obtain ⟨A, B, hAB, hA, hB, hle⟩ := hs
    cases A with
    | nil =>
      have hB' : B = v :: q := by rw [← hq, hAB]; rfl
      subst hB'
      have hlev : Level (d + 1) { s with queue := q } :=
        ⟨q, [], by simp, fun x hx => hB x (by simp [hx]), by simp,
          fun x b hb => (hle x b hb).trans (Nat.le_succ _)⟩
      obtain ⟨h1, h2⟩ := level_foldlM hlev (hB v (by simp)) h
      exact ⟨⟨_, h1⟩, h2⟩
    | cons a A =>
      rw [hq, List.cons_append, List.cons.injEq] at hAB
      obtain ⟨rfl, rfl⟩ := hAB
      have hlev : Level d { s with queue := A ++ B } :=
        ⟨A, B, rfl, fun x hx => hA x (by simp [hx]), hB, hle⟩
      obtain ⟨h1, h2⟩ := level_foldlM hlev (hA v (by simp)) h
      exact ⟨⟨_, h1⟩, h2⟩

theorem loop_nextLevel : ∀ (k d : ℕ) (s s' : State V ℕ), Level d s →
    loop adj Nat.succ anyLabel k s = some s' → loop adj Nat.succ nextLevel k s = some s'
  | 0, _, s, s', _, h => h
  | k + 1, d, s, s', hs, h => by
    rw [loop] at h ⊢
    split at h
    · rename_i hq; rw [if_pos hq]; exact h
    · rename_i hq
      obtain ⟨t, ht, hrest⟩ := Option.bind_eq_some_iff.mp h
      obtain ⟨⟨d', hd'⟩, ht'⟩ := level_expand hs ht
      rw [if_neg hq, ht']
      exact loop_nextLevel k d' t s' hd' hrest

/-- Every label is the length of a walk. -/
theorem steps_loop {k : ℕ} {s s' : State V ℕ} (hi : Inv adj nextLevel s)
    (hs : ∀ v d, s.label v = some d → Steps adj d r v)
    (h : loop adj Nat.succ nextLevel k s = some s') :
    ∀ v d, s'.label v = some d → Steps adj d r v := by
  have hvisit : ∀ (v : V) (ws : List V), (∀ w ∈ ws, w ∈ adj v) → ∀ t t' : State V ℕ,
      (t.label v).isSome → (∀ x d, t.label x = some d → Steps adj d r x) →
      ws.foldlM (visit Nat.succ nextLevel v) t = some t' →
      ∀ x d, t'.label x = some d → Steps adj d r x := by
    intro v ws
    induction ws with
    | nil =>
      intro _ t t' _ ht h
      rw [List.foldlM_nil] at h
      exact Option.some.inj h ▸ ht
    | cons w ws ih =>
      intro hadj t t' hv ht h
      rw [List.foldlM_cons] at h
      obtain ⟨u, hu, hrest⟩ := Option.bind_eq_some_iff.mp h
      obtain ⟨a, ha⟩ := Option.isSome_iff_exists.mp hv
      refine ih (fun x hx => hadj x (by simp [hx])) u t' (by rw [visit_mono hu ha]; rfl) ?_ hrest
      rcases visit_cases hu with ⟨-, rfl⟩ | ⟨_, _, _, rfl⟩
      · intro x d hx
        rcases eq_or_ne x w with rfl | hxw
        · simp only [Function.update_self, ha, Option.map_some, Option.some.injEq] at hx
          subst hx
          exact ⟨v, ht v a ha, hadj x (by simp)⟩
        · exact ht x d (by simpa [Function.update_of_ne hxw] using hx)
      · exact ht
  have hok : ∀ a, nextLevel a (Nat.succ a) = true := by simp
  refine (loop_inv (P := fun t => Inv adj nextLevel t ∧ ∀ v d, t.label v = some d → Steps adj d r v)
    (fun t t' ht he => ⟨inv_expand hok ht.1 he, ?_⟩) k s s' ⟨hi, hs⟩ h).2
  unfold expand at he
  cases hq : t.queue with
  | nil => rw [hq] at he; exact Option.some.inj he ▸ ht.2
  | cons v q =>
    rw [hq] at he
    exact hvisit v (adj v) (fun _ hw => hw) { t with queue := q } t'
      (ht.1.queue_sub v (by simp [hq])) ht.2 he

/-- Breadth-first search computes distances. -/
theorem search_iff [Fintype V] {k : ℕ} (hk : Fintype.card V ≤ k) {s : State V ℕ}
    (h : search adj k r = some s) (v : V) (d : ℕ) : s.label v = some d ↔ IsDist adj r v d := by
  have hok : ∀ a, nextLevel a (Nat.succ a) = true := by simp
  have hstart : Inv adj nextLevel (start ⟨fun _ => none, [], []⟩ r 0 : State V ℕ) :=
    inv_start inv_empty rfl rfl
  have hlev : Level 0 (start ⟨fun _ => none, [], []⟩ r 0 : State V ℕ) := by
    refine ⟨[r], [], rfl, by simp [start], by simp, fun x b hb => ?_⟩
    rcases eq_or_ne x r with rfl | hx
    · have : 0 = b := by simpa [start] using hb
      omega
    · simp [start, hx] at hb
  have hrun := loop_nextLevel k 0 _ s hlev h
  have hinv := inv_loop hok hstart hrun
  have hempty := loop_queue hok k _ s hstart
    ((remaining_le hstart.queue_nodup hstart.queue_sub).trans hk) hrun
  have hwalk : ∀ v d, s.label v = some d → Steps adj d r v := by
    refine steps_loop hstart (fun x d hx => ?_) hrun
    rcases eq_or_ne x r with rfl | hxr
    · have : 0 = d := by simpa [start] using hx
      subst this; rfl
    · simp [start, hxr] at hx
  -- a walk of length `k` reaches a label of at most `k`, by closure under neighbours
  have hreach : ∀ k v, Steps adj k r v → ∃ b, s.label v = some b ∧ b ≤ k := by
    intro k
    induction k with
    | zero =>
      rintro v rfl
      exact ⟨0, loop_mono hrun (by simp [start]), le_refl _⟩
    | succ k ih =>
      rintro v ⟨w, hw, hv⟩
      obtain ⟨b, hb, hbk⟩ := ih w hw
      obtain ⟨c, hc, hbc⟩ := hinv.closed w b hb (by simp [hempty]) v hv
      exact ⟨c, hc, by have := of_decide_eq_true hbc; omega⟩
  constructor
  · intro hd
    refine ⟨hwalk v d hd, fun k hk => ?_⟩
    obtain ⟨b, hb, hbk⟩ := hreach k v hk
    rw [hd] at hb
    exact Option.some.inj hb ▸ hbk
  · rintro ⟨hst, hmin⟩
    obtain ⟨b, hb, hbd⟩ := hreach d v hst
    rw [hb, le_antisymm hbd (hmin b (hwalk v b hb))]

omit [DecidableEq V] in
theorem isDist_unique {d d' : ℕ} (h : IsDist adj r v d) (h' : IsDist adj r v d') : d = d' :=
  le_antisymm (h.2 _ h'.1) (h'.2 _ h.1)

omit [DecidableEq V] in
/-- Where there is a walk there is a shortest one. -/
theorem exists_isDist {k : ℕ} (h : Steps adj k r v) : ∃ d, IsDist adj r v d := by
  classical
  have hex : ∃ k, Steps adj k r v := ⟨k, h⟩
  exact ⟨Nat.find hex, Nat.find_spec hex, fun j hj => Nat.find_min' hex hj⟩

omit [DecidableEq V] in
/-- Walks are carried along by maps that preserve the relation. -/
theorem steps_map {W : Type*} {adj' : W → List W} {f : V → W}
    (hf : ∀ v w, w ∈ adj v → f w ∈ adj' (f v)) : ∀ (k : ℕ) (u v : V), Steps adj k u v →
    Steps adj' k (f u) (f v)
  | 0, _, _, h => congrArg f h
  | k + 1, u, _, ⟨w, hw, hv⟩ => ⟨f w, steps_map hf k u w hw, hf w _ hv⟩

omit [DecidableEq V] in
/-- Isomorphisms preserve distances. -/
theorem isDist_map_iff {W : Type*} {adj' : W → List W} (e : V ≃ W)
    (he : ∀ v w, w ∈ adj v ↔ e w ∈ adj' (e v)) (r v : V) (d : ℕ) :
    IsDist adj' (e r) (e v) d ↔ IsDist adj r v d := by
  have hstep : ∀ k, Steps adj' k (e r) (e v) ↔ Steps adj k r v := by
    refine fun k => ⟨fun h => ?_, steps_map (fun v w => (he v w).mp) k r v⟩
    have := steps_map (f := e.symm)
      (fun v w h => (he _ _).mpr (by simpa using h)) k _ _ h
    simpa using this
  simp only [IsDist, hstep]

end Lib.Bfs
