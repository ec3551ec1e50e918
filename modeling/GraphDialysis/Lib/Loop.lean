import Mathlib.Data.List.Basic

/-! Loops over a list whose body may throw. `foldlM_ok` is the total-correctness rule: a body that
    never throws from an invariant over the elements already handled makes a loop that never
    throws (`foldlM_ok_of_split` tells it the rest of the list). `foldlM_inv` is the partial one: what a successful body preserves holds after a
    successful loop. `AtEachStep` is a condition on the steps of a run, in the states they start
    from, and `foldlM_inv_of` the partial rule for the runs that meet it. -/

universe u

namespace Lib
variable {α σ ε : Type*} {f : σ → α → Except ε σ}

theorem bind_ok {α β : Type u} {x : Except ε α} {k : α → Except ε β} {b : β} (h : x >>= k = .ok b) :
    ∃ a, x = .ok a ∧ k a = .ok b := by
  cases x with
  | error e => cases h
  | ok a => exact ⟨a, rfl, h⟩

theorem map_ok {α β : Type u} {x : Except ε α} {k : α → β} {b : β} (h : x.map k = .ok b) :
    ∃ a, x = .ok a ∧ k a = b := by
  cases x with
  | error e => cases h
  | ok a => exact ⟨a, rfl, Except.ok.inj h⟩

theorem foldlM_ok {P : List α → σ → Prop} {all : List α}
    (step : ∀ done x s, x ∈ all → P done s → ∃ s', f s x = .ok s' ∧ P (done ++ [x]) s') :
    ∀ (xs done : List α) (s : σ), (∀ x ∈ xs, x ∈ all) → P done s →
      ∃ s', xs.foldlM f s = .ok s' ∧ P (done ++ xs) s'
  | [], done, s, _, h => ⟨s, rfl, by rwa [List.append_nil]⟩
  | x :: xs, done, s, hall, h => by
    obtain ⟨t, ht, hP⟩ := step done x s (hall x (by simp)) h
    obtain ⟨s', hs', hP'⟩ := foldlM_ok step xs (done ++ [x]) t
      (fun y hy => hall y (List.mem_cons_of_mem _ hy)) hP
    refine ⟨s', ?_, by rwa [List.append_assoc, List.singleton_append] at hP'⟩
    rw [List.foldlM_cons, ht]
    exact hs'

/-- `foldlM_ok` for a body that has to know where in the list it stands. -/
theorem foldlM_ok_of_split {P : List α → σ → Prop} {all : List α}
    (step : ∀ done x rest s, done ++ x :: rest = all → P done s →
      ∃ s', f s x = .ok s' ∧ P (done ++ [x]) s') :
    ∀ (xs done : List α) (s : σ), done ++ xs = all → P done s →
      ∃ s', xs.foldlM f s = .ok s' ∧ P all s'
  | [], done, s, hall, h => ⟨s, rfl, by rwa [← hall, List.append_nil]⟩
  | x :: xs, done, s, hall, h => by
    obtain ⟨t, ht, hP⟩ := step done x xs s hall h
    obtain ⟨s', hs', hP'⟩ := foldlM_ok_of_split step xs (done ++ [x]) t
      (by rwa [List.append_assoc, List.singleton_append]) hP
    refine ⟨s', ?_, hP'⟩
    rw [List.foldlM_cons, ht]
    exact hs'

theorem foldlM_inv {P : List α → σ → Prop}
    (step : ∀ done x s s', P done s → f s x = .ok s' → P (done ++ [x]) s') :
    ∀ (xs done : List α) (s s' : σ), P done s → xs.foldlM f s = .ok s' → P (done ++ xs) s'
  | [], done, s, s', h, he => by
    rw [List.foldlM_nil] at he
    cases he
    rwa [List.append_nil]
  | x :: xs, done, s, s', h, he => by
    rw [List.foldlM_cons] at he
    obtain ⟨t, ht, hrest⟩ := bind_ok he
    have := foldlM_inv step xs (done ++ [x]) t s' (step done x s t h ht) hrest
    rwa [List.append_assoc, List.singleton_append] at this

/-- Every step of the loop starts in a state that meets the condition. -/
def AtEachStep (f : σ → α → Except ε σ) (Q : σ → α → Prop) : List α → σ → Prop
  | [], _ => True
  | x :: xs, s => Q s x ∧ ∀ t, f s x = .ok t → AtEachStep f Q xs t

theorem atEachStep_of_forall {Q : σ → α → Prop} : ∀ {xs : List α} {s : σ},
    (∀ x ∈ xs, ∀ s, Q s x) → AtEachStep f Q xs s
  | [], _, _ => trivial
  | _ :: _, s, h => ⟨h _ (by simp) s, fun _ _ =>
      atEachStep_of_forall fun y hy => h y (List.mem_cons_of_mem _ hy)⟩

theorem AtEachStep.with_mem {Q : σ → α → Prop} {all : List α} : ∀ {xs : List α} {s : σ},
    (∀ x ∈ xs, x ∈ all) → AtEachStep f Q xs s → AtEachStep f (fun s x => x ∈ all ∧ Q s x) xs s
  | [], _, _, _ => trivial
  | x :: _, _, hall, h => ⟨⟨hall x (by simp), h.1⟩, fun t ht =>
      (h.2 t ht).with_mem fun y hy => hall y (List.mem_cons_of_mem _ hy)⟩

theorem foldlM_inv_of {P : List α → σ → Prop} {Q : σ → α → Prop}
    (step : ∀ done x s s', P done s → Q s x → f s x = .ok s' → P (done ++ [x]) s') :
    ∀ (xs done : List α) (s s' : σ), P done s → AtEachStep f Q xs s → xs.foldlM f s = .ok s' →
      P (done ++ xs) s'
  | [], done, s, s', h, _, he => by
    rw [List.foldlM_nil] at he
    cases he
    rwa [List.append_nil]
  | x :: xs, done, s, s', h, hQ, he => by
    rw [List.foldlM_cons] at he
    obtain ⟨t, ht, hrest⟩ := bind_ok he
    have := foldlM_inv_of step xs (done ++ [x]) t s' (step done x s t h hQ.1 ht) (hQ.2 t ht) hrest
    rwa [List.append_assoc, List.singleton_append] at this

end Lib
