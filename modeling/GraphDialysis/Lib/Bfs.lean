import Mathlib.Data.Fintype.Card
import Mathlib.Data.List.Basic
import Mathlib.Data.List.Nodup
import Mathlib.Logic.Relation

/-! Breadth-first labelling with a queue. A popped vertex `v` labels each neighbour that has no
    label yet with `next` of its own label and appends it to the queue; a neighbour that has one is
    checked against it (`ok`), and a failed check aborts the search. With a trivial check this is
    plain breadth-first search, with `next` the successor it computes distances.

    `loop_inv` is the induction rule: what popping and labelling preserve holds of the result. From
    it: with enough fuel the queue runs empty (`loop_queue`), the result is closed under
    neighbours (`loop_closed`), and labels are only ever added (`loop_mono`). -/

namespace Lib.Bfs
variable {V β : Type*} [DecidableEq V]

/-- Labels so far, vertices still to expand, and all labelled vertices in order of discovery. -/
structure State (V β : Type*) where
  label : V → Option β
  queue : List V
  order : List V

variable (adj : V → List V) (next : β → β) (ok : β → β → Bool)

/-- Look at neighbour `w` of the popped vertex `v`. -/
def visit (v : V) (s : State V β) (w : V) : Option (State V β) :=
  match s.label w with
  | none => some ⟨Function.update s.label w ((s.label v).map next), s.queue ++ [w], s.order ++ [w]⟩
  | some b => if (s.label v).all (fun a => ok a b) then some s else none

/-- Pop the front vertex and look at all its neighbours. -/
def expand (s : State V β) : Option (State V β) :=
  match s.queue with
  | [] => some s
  | v :: q => (adj v).foldlM (visit next ok v) { s with queue := q }

/-- Expand until the queue is empty (or the fuel is used up). -/
def loop : ℕ → State V β → Option (State V β)
  | 0, s => some s
  | k + 1, s => if s.queue = [] then some s else (expand adj next ok s).bind (loop k)

/-- Start a search at an unlabelled vertex. -/
def start (s : State V β) (v : V) (b : β) : State V β :=
  ⟨Function.update s.label v (some b), [v], s.order ++ [v]⟩

/-- What a search state satisfies at every pop: the labelled vertices are those discovered, none
    twice; the queue holds some of them; all others have been expanded. -/
structure Inv (s : State V β) : Prop where
  order_nodup : s.order.Nodup
  mem_order : ∀ v, v ∈ s.order ↔ (s.label v).isSome
  queue_nodup : s.queue.Nodup
  queue_sub : ∀ v ∈ s.queue, (s.label v).isSome
  closed : ∀ v a, s.label v = some a → v ∉ s.queue →
    ∀ w ∈ adj v, ∃ b, s.label w = some b ∧ ok a b = true

/-- Inside the expansion of `v` (labelled `a`): `v` has left the queue and the neighbours `done`
    have been dealt with. -/
structure Inner (v : V) (a : β) (done : List V) (s : State V β) : Prop where
  order_nodup : s.order.Nodup
  mem_order : ∀ v, v ∈ s.order ↔ (s.label v).isSome
  queue_nodup : s.queue.Nodup
  queue_sub : ∀ v ∈ s.queue, (s.label v).isSome
  label_v : s.label v = some a
  v_notMem : v ∉ s.queue
  closed : ∀ u b, s.label u = some b → u ∉ s.queue → u ≠ v →
    ∀ w ∈ adj u, ∃ c, s.label w = some c ∧ ok b c = true
  done_ok : ∀ w ∈ done, ∃ c, s.label w = some c ∧ ok a c = true

variable {adj next ok} {v w : V} {a : β} {done : List V} {s s' : State V β}

/-- Looking at one neighbour either labels it or leaves the state alone. -/
theorem visit_cases (h : visit next ok v s w = some s') :
    (s.label w = none ∧
      s' = ⟨Function.update s.label w ((s.label v).map next), s.queue ++ [w], s.order ++ [w]⟩) ∨
    (∃ b, s.label w = some b ∧ (s.label v).all (fun a => ok a b) = true ∧ s' = s) := by
  unfold visit at h
  cases hw : s.label w with
  | none => rw [hw] at h; exact Or.inl ⟨rfl, (Option.some.inj h).symm⟩
  | some b =>
    rw [hw] at h
    by_cases hok : (s.label v).all (fun a => ok a b) = true
    · simp only [hok, if_true] at h
      exact Or.inr ⟨b, rfl, hok, (Option.some.inj h).symm⟩
    · simp [hok] at h

theorem inner_visit (hok : ∀ a, ok a (next a) = true) (hi : Inner adj ok v a done s)
    (h : visit next ok v s w = some s') : Inner adj ok v a (done ++ [w]) s' := by
  rcases visit_cases h with ⟨hw, rfl⟩ | ⟨b, hw, hb, rfl⟩
  · have hwv : v ≠ w := by rintro rfl; rw [hi.label_v] at hw; simp at hw
    have hwo : w ∉ s.order := by rw [hi.mem_order, hw]; simp
    have hwq : w ∉ s.queue := fun hq => by have := hi.queue_sub w hq; rw [hw] at this; simp at this
    have hne : ∀ {u c}, s.label u = some c → u ≠ w := by
      rintro u c hu rfl; rw [hw] at hu; simp at hu
    have hupd : ∀ {u}, u ≠ w → Function.update s.label w ((s.label v).map next) u = s.label u :=
      fun hu => Function.update_of_ne hu _ _
    have hself : Function.update s.label w ((s.label v).map next) w = some (next a) := by
      rw [Function.update_self, hi.label_v]; rfl
    have keep : ∀ {u c}, s.label u = some c →
        Function.update s.label w ((s.label v).map next) u = some c :=
      fun hu => (hupd (hne hu)).trans hu
    refine ⟨?_, ?_, ?_, ?_, keep hi.label_v, ?_, ?_, ?_⟩
    · exact List.nodup_append.mpr ⟨hi.order_nodup, by simp, by
        rintro x hx y hy rfl; exact hwo (List.mem_singleton.mp hy ▸ hx)⟩
    · intro u
      rw [List.mem_append, List.mem_singleton]
      rcases eq_or_ne u w with rfl | hu
      · simp only [hself, or_true, Option.isSome_some]
      · simp only [hupd hu, hu, or_false, hi.mem_order]
    · exact List.nodup_append.mpr ⟨hi.queue_nodup, by simp, by
        rintro x hx y hy rfl; exact hwq (List.mem_singleton.mp hy ▸ hx)⟩
    · intro u hu
      rcases eq_or_ne u w with rfl | hne'
      · simp only [hself, Option.isSome_some]
      · rw [List.mem_append, List.mem_singleton, or_iff_left hne'] at hu
        simp only [hupd hne']; exact hi.queue_sub u hu
    · simp [hi.v_notMem, hwv]
    · intro u c hu huq huv x hx
      rw [List.mem_append, List.mem_singleton, not_or] at huq
      obtain ⟨d, hd, hcd⟩ := hi.closed u c ((hupd huq.2).symm.trans hu) huq.1 huv x hx
      exact ⟨d, keep hd, hcd⟩
    · intro x hx
      rcases List.mem_append.mp hx with hx | hx
      · obtain ⟨c, hc, hac⟩ := hi.done_ok x hx
        exact ⟨c, keep hc, hac⟩
      · rw [List.mem_singleton.mp hx]; exact ⟨next a, hself, hok a⟩
  · rw [hi.label_v] at hb
    refine { hi with done_ok := ?_ }
    intro x hx
    rcases List.mem_append.mp hx with hx | hx
    · exact hi.done_ok x hx
    · rw [List.mem_singleton.mp hx]; exact ⟨b, hw, by simpa using hb⟩

theorem inner_foldlM (hok : ∀ a, ok a (next a) = true) : ∀ {ws : List V} {done : List V}
    {s : State V β}, Inner adj ok v a done s → ws.foldlM (visit next ok v) s = some s' →
    Inner adj ok v a (done ++ ws) s'
  | [], done, s, hi, h => by
    rw [List.foldlM_nil] at h
    rw [List.append_nil, ← Option.some.inj h]; exact hi
  | w :: ws, done, s, hi, h => by
    rw [List.foldlM_cons] at h
    obtain ⟨t, ht, hrest⟩ := Option.bind_eq_some_iff.mp h
    have := inner_foldlM hok (inner_visit hok hi ht) hrest
    rwa [List.append_assoc, List.singleton_append] at this

/-- Popping keeps the invariant. -/
theorem inv_expand (hok : ∀ a, ok a (next a) = true) (hi : Inv adj ok s)
    (h : expand adj next ok s = some s') : Inv adj ok s' := by
  unfold expand at h
  cases hq : s.queue with
  | nil => rw [hq] at h; rw [← Option.some.inj h]; exact hi
  | cons v q =>
    rw [hq] at h
    simp only at h
    have hnd : v ∉ q ∧ q.Nodup := by simpa [hq] using hi.queue_nodup
    obtain ⟨a, ha⟩ := Option.isSome_iff_exists.mp (hi.queue_sub v (by simp [hq]))
    have hinner : Inner adj ok v a [] { s with queue := q } := by
      refine ⟨hi.order_nodup, hi.mem_order, hnd.2, fun u hu => hi.queue_sub u (by simp [hq, hu]),
        ha, hnd.1, fun u b hu huq huv => hi.closed u b hu (by simp [hq, huq, huv]), by simp⟩
    have hfin := inner_foldlM hok hinner h
    rw [List.nil_append] at hfin
    refine ⟨hfin.order_nodup, hfin.mem_order, hfin.queue_nodup, hfin.queue_sub, ?_⟩
    intro u b hu huq x hx
    rcases eq_or_ne u v with rfl | huv
    · rw [hfin.label_v] at hu
      obtain rfl := Option.some.inj hu
      exact hfin.done_ok x hx
    · exact hfin.closed u b hu huq huv x hx

/-- Induction rule: what expansion preserves holds of the result of the search. -/
theorem loop_inv {P : State V β → Prop} (hP : ∀ s s', P s → expand adj next ok s = some s' → P s') :
    ∀ (k : ℕ) (s s' : State V β), P s → loop adj next ok k s = some s' → P s'
  | 0, s, s', hs, h => by rw [loop] at h; exact Option.some.inj h ▸ hs
  | k + 1, s, s', hs, h => by
    rw [loop] at h
    split at h
    · exact Option.some.inj h ▸ hs
    · obtain ⟨t, ht, hrest⟩ := Option.bind_eq_some_iff.mp h
      exact loop_inv hP k t s' (hP s t hs ht) hrest

theorem inv_loop (hok : ∀ a, ok a (next a) = true) {k : ℕ} (hi : Inv adj ok s)
    (h : loop adj next ok k s = some s') : Inv adj ok s' :=
  loop_inv (fun _ _ hs he => inv_expand hok hs he) k s s' hi h

/-- Starting at an unlabelled vertex from a finished search gives a search state. -/
theorem inv_start {b : β} (hi : Inv adj ok s) (hq : s.queue = []) (hv : s.label v = none) :
    Inv adj ok (start s v b) := by
  have hvo : v ∉ s.order := by rw [hi.mem_order, hv]; simp
  have hne : ∀ {u c}, s.label u = some c → u ≠ v := by
    rintro u c hu rfl; rw [hv] at hu; simp at hu
  refine ⟨?_, ?_, by simp [start], ?_, ?_⟩
  · exact List.nodup_append.mpr ⟨hi.order_nodup, by simp, by
      rintro x hx y hy rfl; exact hvo (List.mem_singleton.mp hy ▸ hx)⟩
  · intro u
    rcases eq_or_ne u v with rfl | hu
    · simp [start]
    · simp [start, hu, hi.mem_order]
  · intro u hu
    rw [List.mem_singleton.mp hu]; simp [start]
  · intro u c hu huq x hx
    have huv : u ≠ v := by simpa [start] using huq
    have hu' : s.label u = some c := by simpa [start, huv] using hu
    obtain ⟨d, hd, hcd⟩ := hi.closed u c hu' (by simp [hq]) x hx
    exact ⟨d, by simp [start, hne hd, hd], hcd⟩

omit [DecidableEq V] in
theorem inv_empty : Inv adj ok (⟨fun _ => none, [], []⟩ : State V β) :=
  ⟨by simp, by simp, by simp, by simp, by simp⟩

/-! ### Labels are only added -/

theorem visit_mono (h : visit next ok v s w = some s') {u : V} {b : β} (hu : s.label u = some b) :
    s'.label u = some b := by
  rcases visit_cases h with ⟨hw, rfl⟩ | ⟨_, _, _, rfl⟩
  · have : u ≠ w := by rintro rfl; rw [hw] at hu; simp at hu
    simp [Function.update_of_ne this, hu]
  · exact hu

theorem foldlM_visit_mono {u : V} {b : β} : ∀ {ws : List V} {s : State V β},
    ws.foldlM (visit next ok v) s = some s' → s.label u = some b → s'.label u = some b
  | [], s, h, hu => by rw [List.foldlM_nil] at h; exact Option.some.inj h ▸ hu
  | w :: ws, s, h, hu => by
    rw [List.foldlM_cons] at h
    obtain ⟨t, ht, hrest⟩ := Option.bind_eq_some_iff.mp h
    exact foldlM_visit_mono hrest (visit_mono ht hu)

theorem expand_mono (h : expand adj next ok s = some s') {u : V} {b : β} (hu : s.label u = some b) :
    s'.label u = some b := by
  unfold expand at h
  split at h
  · exact Option.some.inj h ▸ hu
  · exact foldlM_visit_mono h hu

theorem loop_mono {k : ℕ} (h : loop adj next ok k s = some s') {u : V} {b : β}
    (hu : s.label u = some b) : s'.label u = some b :=
  loop_inv (P := fun t => t.label u = some b) (fun _ _ hs he => expand_mono he hs) k s s' hu h

/-! ### The queue runs empty -/

section Fuel
variable [Fintype V]

/-- Vertices without a label plus vertices still to expand: one less after every pop. -/
def remaining (s : State V β) : ℕ :=
  (Finset.univ.filter fun v => s.label v = none).card + s.queue.length

theorem remaining_visit (hv : (s.label v).isSome) (h : visit next ok v s w = some s') :
    remaining s' = remaining s := by
  obtain ⟨a, ha⟩ := Option.isSome_iff_exists.mp hv
  rcases visit_cases h with ⟨hw, rfl⟩ | ⟨_, _, _, rfl⟩
  · have hset : (Finset.univ.filter fun u =>
        Function.update s.label w ((s.label v).map next) u = none) =
        (Finset.univ.filter fun u => s.label u = none).erase w := by
      ext u
      rcases eq_or_ne u w with rfl | hu
      · simp [ha]
      · simp [hu]
    have hmem : w ∈ Finset.univ.filter fun u => s.label u = none := by simp [hw]
    have hpos := Finset.card_pos.mpr ⟨w, hmem⟩
    simp only [remaining, hset, Finset.card_erase_of_mem hmem, List.length_append,
      List.length_singleton]
    omega
  · rfl

theorem remaining_foldlM : ∀ {ws : List V} {s : State V β}, (s.label v).isSome →
    ws.foldlM (visit next ok v) s = some s' → remaining s' = remaining s
  | [], s, _, h => by rw [List.foldlM_nil] at h; rw [Option.some.inj h]
  | w :: ws, s, hv, h => by
    rw [List.foldlM_cons] at h
    obtain ⟨t, ht, hrest⟩ := Option.bind_eq_some_iff.mp h
    obtain ⟨a, ha⟩ := Option.isSome_iff_exists.mp hv
    rw [remaining_foldlM (by rw [visit_mono ht ha]; rfl) hrest, remaining_visit hv ht]

theorem remaining_expand (hi : Inv adj ok s) (hq : s.queue ≠ [])
    (h : expand adj next ok s = some s') : remaining s' + 1 = remaining s := by
  unfold expand at h
  cases hs : s.queue with
  | nil => exact absurd hs hq
  | cons v q =>
    rw [hs] at h
    have hv : (s.label v).isSome := hi.queue_sub v (by simp [hs])
    have := remaining_foldlM (s := { s with queue := q }) hv h
    simp only [remaining, hs, List.length_cons] at this ⊢
    omega

/-- With fuel for every vertex still to come, the search stops with an empty queue. -/
theorem loop_queue (hok : ∀ a, ok a (next a) = true) : ∀ (k : ℕ) (s s' : State V β), Inv adj ok s →
    remaining s ≤ k → loop adj next ok k s = some s' → s'.queue = []
  | 0, s, s', _, hk, h => by
    rw [loop] at h
    obtain rfl := Option.some.inj h
    have : s.queue.length = 0 := by unfold remaining at hk; omega
    exact List.length_eq_zero_iff.mp this
  | k + 1, s, s', hi, hk, h => by
    rw [loop] at h
    split at h
    · rename_i hq; exact Option.some.inj h ▸ hq
    · rename_i hq
      obtain ⟨t, ht, hrest⟩ := Option.bind_eq_some_iff.mp h
      have := remaining_expand hi hq ht
      exact loop_queue hok k t s' (inv_expand hok hi ht) (by omega) hrest

omit [DecidableEq V] in
theorem remaining_le (hi : s.queue.Nodup) (hsub : ∀ v ∈ s.queue, (s.label v).isSome) :
    remaining s ≤ Fintype.card V := by
  classical
  have hdisj : Disjoint (Finset.univ.filter fun v => s.label v = none) s.queue.toFinset := by
    rw [Finset.disjoint_left]
    intro v hv hq
    have := hsub v (List.mem_toFinset.mp hq)
    rw [(Finset.mem_filter.mp hv).2] at this
    simp at this
  rw [remaining, ← List.toFinset_card_of_nodup hi, ← Finset.card_union_of_disjoint hdisj]
  exact Finset.card_le_univ _

end Fuel

end Lib.Bfs
