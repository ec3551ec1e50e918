import Mathlib.Data.List.Basic
import Mathlib.Logic.Function.Basic

/-! Threads that work on memory of their own. The steps of all threads come in one list, in the order
    in which they happen; each changes the memory of its thread only. Whatever the order, a thread's
    memory is that of its own steps alone (`runAll_apply`). -/

namespace Lib
variable {T L E : Type*} [DecidableEq T] (exec : L → E → L)

/-- All steps, in the order in which they happen. -/
def runAll (s : T → L) (events : List (T × E)) : T → L :=
  events.foldl (fun s e => Function.update s e.1 (exec (s e.1) e.2)) s

/-- The steps of one thread. -/
def eventsOf (t : T) (events : List (T × E)) : List E :=
  (events.filter fun e => e.1 = t).map (·.2)

variable {exec}

theorem runAll_apply (t : T) : ∀ (events : List (T × E)) (s : T → L),
    runAll exec s events t = (eventsOf t events).foldl exec (s t)
  | [], _ => rfl
  | (t', e) :: events, s => by
    rw [runAll, List.foldl_cons, ← runAll, runAll_apply t events]
    by_cases h : t' = t
    · subst h
      simp [eventsOf]
    · simp [eventsOf, h, Function.update_of_ne (Ne.symm h)]

end Lib
