import Mathlib.Data.List.Basic
import Mathlib.Logic.Function.Basic

/-! What a computation that may throw comes to: a value with one property or an error with another. The
    rules follow the computation, so a caller states once which errors its callees have. -/

universe u

namespace Lib
variable {ε : Type*} {α β σ : Type u} {P : α → Prop} {E : ε → Prop}

/-- A value with `P`, or an error with `E`. -/
def Outcome (P : α → Prop) (E : ε → Prop) : Except ε α → Prop
  | .ok a => P a
  | .error e => E e

theorem Outcome.mono {Q : α → Prop} {F : ε → Prop} {x : Except ε α} (h : Outcome P E x)
    (hPQ : ∀ a, P a → Q a) (hEF : ∀ e, E e → F e) : Outcome Q F x := by
  cases x with
  | ok a => exact hPQ a h
  | error e => exact hEF e h

theorem Outcome.imp {Q : α → Prop} {x : Except ε α} (h : Outcome P E x) (hPQ : ∀ a, P a → Q a) :
    Outcome Q E x := h.mono hPQ fun _ he => he

theorem Outcome.bind {Q : β → Prop} {x : Except ε α} {k : α → Except ε β} (h : Outcome P E x)
    (hk : ∀ a, P a → Outcome Q E (k a)) : Outcome Q E (x.bind k) := by
  cases x with
  | ok a => exact hk a h
  | error e => exact h

/-- A loop keeps what its body keeps of the elements already handled. -/
theorem Outcome.foldlM {γ : Type*} {f : σ → γ → Except ε σ} {I : List γ → σ → Prop} {all : List γ}
    (step : ∀ done x s, x ∈ all → I done s → Outcome (I (done ++ [x])) E (f s x)) :
    ∀ (l done : List γ) (s : σ), (∀ x ∈ l, x ∈ all) → I done s →
      Outcome (I (done ++ l)) E (l.foldlM f s)
  | [], done, s, _, h => by
    rw [List.append_nil]
    exact h
  | x :: l, done, s, hall, h => by
    have hrest := fun t (ht : I (done ++ [x]) t) =>
      Outcome.foldlM step l (done ++ [x]) t (fun y hy => hall y (List.mem_cons_of_mem _ hy)) ht
    rw [List.append_assoc, List.singleton_append] at hrest
    exact (step done x s (hall x List.mem_cons_self) h).bind hrest

/-! ### Maps that a loop fills -/

section
variable {κ ν γ : Type*} {m m' m'' : κ → Option ν}

/-- Whoever has an entry keeps one. -/
def Keeps (m m' : κ → Option ν) : Prop := ∀ k, (m k).isSome → (m' k).isSome

theorem Keeps.refl (m : κ → Option ν) : Keeps m m := fun _ h => h

theorem Keeps.trans (h : Keeps m m') (h' : Keeps m' m'') : Keeps m m'' := fun k hk => h' k (h k hk)

theorem keeps_update [DecidableEq κ] {k : κ} {b : ν} : Keeps m (Function.update m k (some b)) := by
  intro k' hk'
  rw [Function.update_apply]
  split
  · rfl
  · exact hk'

/-- A loop whose every round makes an entry makes them all. -/
theorem foldlM_fills [DecidableEq κ] {f : (κ → Option ν) → γ → Except ε (κ → Option ν)} {k : γ → κ} :
    ∀ {l : List γ}, (∀ m, ∀ x ∈ l, ∃ b, f m x = .ok (Function.update m (k x) (some b))) →
    ∀ m, ∃ m', l.foldlM f m = .ok m' ∧ Keeps m m' ∧ ∀ x ∈ l, (m' (k x)).isSome
  | [], _, m => ⟨m, rfl, Keeps.refl m, by simp⟩
  | x :: l, step, m => by
    obtain ⟨b, hb⟩ := step m x List.mem_cons_self
    obtain ⟨m', hrun, hkeeps, hfilled⟩ := foldlM_fills (fun m y hy => step m y (List.mem_cons_of_mem _ hy))
      (Function.update m (k x) (some b))
    refine ⟨m', ?_, keeps_update.trans hkeeps, List.forall_mem_cons.mpr ⟨hkeeps _ ?_, hfilled⟩⟩
    · rw [List.foldlM_cons, hb]
      exact hrun
    · rw [Function.update_self]
      rfl

theorem mapM_ok {α β : Type u} {f : α → Except ε β} : ∀ {l : List α},
    (∀ x ∈ l, ∃ y, f x = .ok y) → ∃ ys, l.mapM f = .ok ys
  | [], _ => ⟨[], rfl⟩
  | x :: l, h => by
    obtain ⟨y, hy⟩ := h x List.mem_cons_self
    obtain ⟨ys, hys⟩ := mapM_ok fun z hz => h z (List.mem_cons_of_mem _ hz)
    refine ⟨y :: ys, ?_⟩
    rw [List.mapM_cons, hy, hys]
    rfl

end

end Lib
