import GraphDialysis.Lib.Distance
import Mathlib.Data.List.Pairwise

/-! Connected components by breadth-first search: one search from every start that no earlier search
    has reached. The relation is given by neighbour lists and must be symmetric where it is used;
    `components_spec` says that the lists found are the classes of the starts under reachability,
    each once. -/

namespace Lib.Bfs
variable {V : Type*} [DecidableEq V] {adj : V → List V}

/-- Some walk leads from `u` to `v`. -/
def Reach (adj : V → List V) (u v : V) : Prop := ∃ k, Steps adj k u v

/-- Search on from an unlabelled vertex. -/
def explore (adj : V → List V) (k : ℕ) (s : State V Unit) (v : V) : State V Unit :=
  (loop adj id anyLabel k (start s v ())).get (loop_anyLabel k _)

/-- A start that is not labelled opens a component: what its search finds. -/
def componentFrom (adj : V → List V) (k : ℕ) (p : State V Unit × List (List V)) (v : V) :
    State V Unit × List (List V) :=
  if p.1.label v ≠ none then p
  else (explore adj k p.1 v, p.2 ++ [(explore adj k p.1 v).order.drop p.1.order.length])

/-- The components of the starts, in order of their first starts. -/
def components (adj : V → List V) (k : ℕ) (starts : List V) : List (List V) :=
  (starts.foldl (componentFrom adj k) (⟨fun _ => none, [], []⟩, [])).2

/-- The classes of the starts under reachability, each once. -/
structure IsComponents (adj : V → List V) (starts : List V) (cs : List (List V)) : Prop where
  nodup : cs.flatten.Nodup
  isClass : ∀ c ∈ cs, ∀ v ∈ c, ∀ w, w ∈ c ↔ Reach adj v w
  meets : ∀ c ∈ cs, ∃ v ∈ starts, v ∈ c
  covered : ∀ v ∈ starts, ∃ c ∈ cs, v ∈ c

omit [DecidableEq V] in
theorem Reach.refl (v : V) : Reach adj v v := ⟨0, rfl⟩

omit [DecidableEq V] in
theorem Reach.tail {u v w : V} (h : Reach adj u v) (hw : w ∈ adj v) : Reach adj u w :=
  h.elim fun k hk => ⟨k + 1, v, hk, hw⟩

omit [DecidableEq V] in
theorem Reach.closed {P : V → Prop} (hP : ∀ v, P v → ∀ w ∈ adj v, P w) {u v : V} (hu : P u)
    (h : Reach adj u v) : P v := by
  obtain ⟨k, hk⟩ := h
  induction k generalizing v with
  | zero => exact hk ▸ hu
  | succ k ih =>
    obtain ⟨w, hw, hv⟩ := hk
    exact hP w (ih hw) v hv

omit [DecidableEq V] in
/-- Reachability is carried along by maps that preserve the relation. -/
theorem Reach.map {W : Type*} {adj' : W → List W} {f : V → W}
    (hf : ∀ v w, w ∈ adj v → f w ∈ adj' (f v)) {u v : V} (h : Reach adj u v) :
    Reach adj' (f u) (f v) :=
  h.elim fun k hk => ⟨k, steps_map hf k u v hk⟩

variable (adj) in
/-- A search only appends to the order of discovery, and only what is reachable from the queue. -/
structure Extends (r : V) (s s' : State V Unit) : Prop where
  order : ∃ t, s'.order = s.order ++ t ∧ ∀ w ∈ t, Reach adj r w
  queue : ∀ w ∈ s'.queue, Reach adj r w

theorem extends_visit {r v w : V} {s s₀ s' : State V Unit} (hr : Reach adj r v) (hw : w ∈ adj v)
    (h : Extends adj r s₀ s) (hs : visit id anyLabel v s w = some s') :
    Extends adj r s₀ s' := by
  rcases visit_cases hs with ⟨-, rfl⟩ | ⟨_, _, _, rfl⟩
  · obtain ⟨⟨t, ht, hreach⟩, hq⟩ := h
    refine ⟨⟨t ++ [w], by rw [ht, List.append_assoc], fun x hx => ?_⟩, fun x hx => ?_⟩
    · rcases List.mem_append.mp hx with hx | hx
      · exact hreach x hx
      · rw [List.mem_singleton.mp hx]; exact hr.tail hw
    · rcases List.mem_append.mp hx with hx | hx
      · exact hq x hx
      · rw [List.mem_singleton.mp hx]; exact hr.tail hw
  · exact h

theorem extends_foldlM {r v : V} {s₀ : State V Unit} (hr : Reach adj r v) : ∀ {ws : List V}
    {s s' : State V Unit}, (∀ w ∈ ws, w ∈ adj v) → Extends adj r s₀ s →
    ws.foldlM (visit id anyLabel v) s = some s' → Extends adj r s₀ s'
  | [], s, s', _, h, hs => by
    rw [List.foldlM_nil] at hs
    exact Option.some.inj hs ▸ h
  | w :: ws, s, s', hsub, h, hs => by
    rw [List.foldlM_cons] at hs
    obtain ⟨t, ht, hrest⟩ := Option.bind_eq_some_iff.mp hs
    exact extends_foldlM hr (fun x hx => hsub x (List.mem_cons_of_mem _ hx))
      (extends_visit hr (hsub w List.mem_cons_self) h ht) hrest

theorem extends_expand {r : V} {s₀ s s' : State V Unit} (h : Extends adj r s₀ s)
    (hs : expand adj id anyLabel s = some s') : Extends adj r s₀ s' := by
  unfold expand at hs
  cases hq : s.queue with
  | nil => rw [hq] at hs; exact Option.some.inj hs ▸ h
  | cons v q =>
    rw [hq] at hs
    have hpop : Extends adj r s₀ { s with queue := q } :=
      ⟨h.order, fun w hw => h.queue w (by rw [hq]; exact List.mem_cons_of_mem _ hw)⟩
    exact extends_foldlM (h.queue v (by rw [hq]; exact List.mem_cons_self)) (fun _ hw => hw) hpop hs

variable (adj) in
/-- Between two searches. -/
structure Found (done : List V) (p : State V Unit × List (List V)) : Prop where
  inv : Inv adj anyLabel p.1
  queue : p.1.queue = []
  flatten : p.2.flatten = p.1.order
  isClass : ∀ c ∈ p.2, ∃ v ∈ done, ∀ w, w ∈ c ↔ Reach adj v w
  covered : ∀ v ∈ done, (p.1.label v).isSome

/-- Adding a start; everything it reaches is new, for the relation is symmetric and what was found
    before is closed under it. -/
theorem found_componentFrom [Fintype V] {k : ℕ} (hk : Fintype.card V ≤ k) {done : List V}
    {p : State V Unit × List (List V)} {v : V}
    (hsymm : ∀ u w, Reach adj v u → w ∈ adj u → u ∈ adj w)
    (h : Found adj done p) : Found adj (done ++ [v]) (componentFrom adj k p v) := by
  rw [componentFrom]
  by_cases hv : p.1.label v = none
  · rw [if_neg (by simp [hv])]
    have hrun : loop adj id anyLabel k (start p.1 v ()) = some (explore adj k p.1 v) :=
      (Option.some_get _).symm
    have hok : ∀ a : Unit, anyLabel a (id a) = true := fun _ => rfl
    have hstart := inv_start (b := ()) h.inv h.queue hv
    have hinv := inv_loop hok hstart hrun
    have hqueue := loop_queue hok k _ _ hstart
      ((remaining_le hstart.queue_nodup hstart.queue_sub).trans hk) hrun
    have hext : Extends adj v p.1 (explore adj k p.1 v) :=
      loop_inv (P := Extends adj v p.1) (fun _ _ hs he => extends_expand hs he) k _ _
        ⟨⟨[v], rfl, fun w hw => by rw [List.mem_singleton.mp hw]; exact Reach.refl v⟩,
          fun w hw => by
            have : w = v := by simpa [start] using hw
            rw [this]; exact Reach.refl v⟩ hrun
    obtain ⟨t, ht, hreach⟩ := hext.order
    have hclosed : ∀ u, (explore adj k p.1 v).label u ≠ none → ∀ w ∈ adj u,
        (explore adj k p.1 v).label w ≠ none := by
      intro u hu w hw
      obtain ⟨a, ha⟩ := Option.ne_none_iff_exists'.mp hu
      obtain ⟨b, hb, -⟩ := hinv.closed u a ha (by simp [hqueue]) w hw
      simp [hb]
    have hlabelled : (explore adj k p.1 v).label v ≠ none := by
      rw [loop_mono hrun (u := v) (b := ()) (by simp [start])]; simp
    -- a vertex found earlier would pull the start into its closed set
    have hnew : ∀ w, Reach adj v w → p.1.label w = none := by
      intro w hw
      by_contra hne
      obtain ⟨n, hn⟩ := hw
      induction n generalizing w with
      | zero => exact hne (hn ▸ hv)
      | succ n ih =>
        obtain ⟨u, hu, hwu⟩ := hn
        obtain ⟨a, ha⟩ := Option.ne_none_iff_exists'.mp hne
        obtain ⟨b, hb, -⟩ := h.inv.closed w a ha (by simp [h.queue]) u (hsymm u w ⟨n, hu⟩ hwu)
        exact ih u (by simp [hb]) hu
    have hclass : ∀ w, w ∈ t ↔ Reach adj v w := by
      refine fun w => ⟨hreach w, fun hw => ?_⟩
      have hlw := Reach.closed (P := fun u => (explore adj k p.1 v).label u ≠ none) hclosed hlabelled hw
      have hmem := (hinv.mem_order w).mpr (Option.ne_none_iff_isSome.mp hlw)
      rw [ht, List.mem_append] at hmem
      refine hmem.resolve_left fun hold => ?_
      have := (h.inv.mem_order w).mp hold
      rw [hnew w hw] at this
      simp at this
    have hdrop : (explore adj k p.1 v).order.drop p.1.order.length = t := by
      rw [ht, List.drop_left]
    rw [hdrop]
    refine ⟨hinv, hqueue, by simp [h.flatten, ht], fun c hc => ?_, fun w hw => ?_⟩
    · rcases List.mem_append.mp hc with hc | hc
      · obtain ⟨u, hu, hcu⟩ := h.isClass c hc
        exact ⟨u, List.mem_append_left _ hu, hcu⟩
      · rw [List.mem_singleton.mp hc]
        exact ⟨v, by simp, hclass⟩
    · rcases List.mem_append.mp hw with hw | hw
      · obtain ⟨b, hb⟩ := Option.isSome_iff_exists.mp (h.covered w hw)
        have hne : w ≠ v := by rintro rfl; rw [hv] at hb; cases hb
        rw [loop_mono hrun (u := w) (b := b) (by simp [start, hne, hb])]
        rfl
      · rw [List.mem_singleton.mp hw]
        exact Option.ne_none_iff_isSome.mp hlabelled
  · rw [if_pos hv]
    refine ⟨h.inv, h.queue, h.flatten, fun c hc => ?_, fun w hw => ?_⟩
    · obtain ⟨u, hu, hcu⟩ := h.isClass c hc
      exact ⟨u, List.mem_append_left _ hu, hcu⟩
    · rcases List.mem_append.mp hw with hw | hw
      · exact h.covered w hw
      · rw [List.mem_singleton.mp hw]
        exact Option.ne_none_iff_isSome.mp hv

omit [DecidableEq V] in
theorem Reach.trans {u v w : V} (huv : Reach adj u v) (hvw : Reach adj v w) : Reach adj u w :=
  Reach.closed (P := fun x => Reach adj u x) (fun _ hx _ hy => hx.tail hy) huv hvw

omit [DecidableEq V] in
theorem Reach.symm {v u : V} (hsymm : ∀ u w, Reach adj v u → w ∈ adj u → u ∈ adj w)
    (h : Reach adj v u) : Reach adj u v := by
  obtain ⟨k, hk⟩ := h
  induction k generalizing u with
  | zero => exact hk ▸ Reach.refl _
  | succ k ih =>
    obtain ⟨w, hw, hu⟩ := hk
    exact ((Reach.refl u).tail (hsymm w u ⟨k, hw⟩ hu)).trans (ih hw)

theorem components_spec [Fintype V] {k : ℕ} (hk : Fintype.card V ≤ k) {starts : List V}
    (hsymm : ∀ v ∈ starts, ∀ u w, Reach adj v u → w ∈ adj u → u ∈ adj w) :
    IsComponents adj starts (components adj k starts) := by
  have hfold : ∀ (rest done : List V) (p : State V Unit × List (List V)),
      (∀ v ∈ rest, v ∈ starts) → Found adj done p →
        Found adj (done ++ rest) (rest.foldl (componentFrom adj k) p) := by
    intro rest
    induction rest with
    | nil => intro done p _ h; simpa using h
    | cons v rest ih =>
      intro done p hsub h
      have := ih (done ++ [v]) _ (fun w hw => hsub w (List.mem_cons_of_mem _ hw))
        (found_componentFrom hk (hsymm v (hsub v List.mem_cons_self)) h)
      simpa [List.append_assoc] using this
  have h := hfold starts [] (⟨fun _ => none, [], []⟩, []) (fun _ hv => hv)
    ⟨inv_empty, rfl, rfl, by simp, by simp⟩
  rw [List.nil_append] at h
  refine ⟨?_, fun c hc u hu w => ?_, fun c hc => ?_, fun v hv => ?_⟩
  · rw [components, h.flatten]; exact h.inv.order_nodup
  · obtain ⟨v, hv, hclass⟩ := h.isClass c hc
    have hvu := (hclass u).mp hu
    rw [hclass]
    exact ⟨fun hw => (Reach.symm (hsymm v hv) hvu).trans hw, fun hw => hvu.trans hw⟩
  · obtain ⟨v, hv, hclass⟩ := h.isClass c hc
    exact ⟨v, hv, (hclass v).mpr (Reach.refl v)⟩
  · have hmem := (h.inv.mem_order v).mpr (h.covered v hv)
    rw [← h.flatten, List.mem_flatten] at hmem
    exact hmem

omit [DecidableEq V] in
/-- When no start leads to anything else, the components put together are the starts. -/
theorem IsComponents.flatten_perm {starts : List V} {cs : List (List V)}
    (h : IsComponents adj starts cs) (hnd : starts.Nodup)
    (hclosed : ∀ v ∈ starts, ∀ w ∈ adj v, w ∈ starts) : cs.flatten.Perm starts := by
  refine (List.perm_ext_iff_of_nodup h.nodup hnd).mpr fun v => ?_
  rw [List.mem_flatten]
  constructor
  · rintro ⟨c, hc, hv⟩
    obtain ⟨u, hu, huc⟩ := h.meets c hc
    exact Reach.closed hclosed hu ((h.isClass c hc u huc v).mp hv)
  · intro hv
    exact h.covered v hv

/-! ### Isomorphic relations -/

/-- Non-empty lists without a common element are different. -/
theorem nodup_of_flatten {α : Type*} {l : List (List α)} (h : l.flatten.Nodup)
    (hne : ∀ c ∈ l, ∃ v, v ∈ c) : l.Nodup := by
  refine (List.nodup_flatten.mp h).2.imp_of_mem fun ha _ hd he => ?_
  subst he
  obtain ⟨v, hv⟩ := hne _ ha
  exact hd hv hv

section Map
variable {W : Type*} [DecidableEq W] {adj' : W → List W} {starts : List V} {cs : List (List V)}

omit [DecidableEq V] in
theorem IsComponents.eq_of_mem (h : IsComponents adj starts cs) {c c' : List V} (hc : c ∈ cs)
    (hc' : c' ∈ cs) {v : V} (hv : v ∈ c) (hv' : v ∈ c') : c = c' := by
  by_contra hne
  have hpair := (List.nodup_flatten.mp h.nodup).2
  have : Std.Symm (List.Disjoint (α := V)) := ⟨fun _ _ hd => hd.symm⟩
  exact hpair.forall hc hc' hne hv hv'

omit [DecidableEq V] in
theorem IsComponents.nonempty (h : IsComponents adj starts cs) : ∀ c ∈ cs, ∃ v, v ∈ c := fun c hc =>
  (h.meets c hc).elim fun v hv => ⟨v, hv.2⟩

theorem IsComponents.toFinset_nodup (h : IsComponents adj starts cs) :
    (cs.map List.toFinset).Nodup := by
  refine List.Nodup.map_on (fun c hc d hd he => ?_) (nodup_of_flatten h.nodup h.nonempty)
  obtain ⟨v, hv⟩ := h.nonempty c hc
  have hvd : v ∈ d.toFinset := he ▸ List.mem_toFinset.mpr hv
  exact h.eq_of_mem hc hd hv (List.mem_toFinset.mp hvd)

/-- The components of two isomorphic relations correspond, as sets. -/
theorem IsComponents.map (e : V ≃ W) {starts' : List W} {cs' : List (List W)}
    (h : IsComponents adj starts cs) (h' : IsComponents adj' starts' cs')
    (hstarts : ∀ v, e v ∈ starts' ↔ v ∈ starts)
    (hreach : ∀ v ∈ starts, ∀ w, Reach adj' (e v) (e w) ↔ Reach adj v w) :
    ((cs.map List.toFinset).map fun S => S.map e.toEmbedding).Perm (cs'.map List.toFinset) := by
  have hset : ∀ c ∈ cs, ∀ c' ∈ cs', ∀ v ∈ starts, v ∈ c → e v ∈ c' →
      c.toFinset.map e.toEmbedding = c'.toFinset := by
    intro c hc c' hc' v hv hvc hvc'
    ext w
    obtain ⟨w, rfl⟩ := e.surjective w
    simp only [Finset.mem_map_equiv, Equiv.symm_apply_apply, List.mem_toFinset]
    rw [h.isClass c hc v hvc, h'.isClass c' hc' (e v) hvc', hreach v hv]
  refine (List.perm_ext_iff_of_nodup (h.toFinset_nodup.map (Finset.map_injective _))
    h'.toFinset_nodup).mpr fun S => ?_
  simp only [List.mem_map, exists_exists_and_eq_and]
  constructor
  · rintro ⟨c, hc, rfl⟩
    obtain ⟨v, hv, hvc⟩ := h.meets c hc
    obtain ⟨c', hc', hvc'⟩ := h'.covered (e v) ((hstarts v).mpr hv)
    exact ⟨c', hc', (hset c hc c' hc' v hv hvc hvc').symm⟩
  · rintro ⟨c', hc', rfl⟩
    obtain ⟨v', hv', hvc'⟩ := h'.meets c' hc'
    obtain ⟨v, rfl⟩ := e.surjective v'
    obtain ⟨c, hc, hvc⟩ := h.covered v ((hstarts v).mp hv')
    exact ⟨c, hc, hset c hc c' hc' v ((hstarts v).mp hv') hvc hvc'⟩

end Map

end Lib.Bfs
