import GraphDialysis.Sat.UnionFind

/-! Any sequence of calls on a `SeparatingUnionFind`. A refused call throws, and all that is left of it
    are the chains its two lookups have compressed; the other unions and separations make the
    `History`. After any number of calls the structure knows exactly what follows from its history
    (`recorded_run`), and a call is refused exactly when it contradicts that. -/

namespace Dialysis.Sat
open Lib
variable {n : ℕ}

/-- The public methods. -/
inductive UnionFindCall (n : ℕ)
  | find (x : Fin n)
  | separated (a b : Fin n)
  | markSeparated (a b : Fin n)
  | union (a b : Fin n)

/-- The unions and the separations accepted so far. -/
structure History (n : ℕ) where
  unions : List (Fin n × Fin n)
  separations : List (Fin n × Fin n)

/-- What a call leaves when it throws. -/
def SeparatingUnionFind.lookedUp (uf : SeparatingUnionFind n) (a b : Fin n) : SeparatingUnionFind n :=
  ((uf.find a).2.find b).2

/-- Does the call throw? -/
def SeparatingUnionFind.refuses (uf : SeparatingUnionFind n) : UnionFindCall n → Bool
  | .find _ => false
  | .separated _ _ => false
  | .markSeparated a b => !(uf.markSeparated a b).isOk
  | .union a b => !(uf.union a b).isOk

/-- One call, and the history after it. -/
def callStep (s : SeparatingUnionFind n × History n) :
    UnionFindCall n → SeparatingUnionFind n × History n
  | .find x => ((s.1.find x).2, s.2)
  | .separated a b => ((s.1.separated a b).2, s.2)
  | .markSeparated a b =>
    match s.1.markSeparated a b with
    | .ok uf => (uf, { s.2 with separations := s.2.separations ++ [(a, b)] })
    | .error _ => (s.1.lookedUp a b, s.2)
  | .union a b =>
    match s.1.union a b with
    | .ok uf => (uf, { s.2 with unions := s.2.unions ++ [(a, b)] })
    | .error _ => (s.1.lookedUp a b, s.2)

/-- A sequence of calls on a new structure. -/
def runCalls (calls : List (UnionFindCall n)) : SeparatingUnionFind n × History n :=
  calls.foldl callStep (.init n, ⟨[], []⟩)

/-- The equivalence closure of the accepted unions. -/
def History.Related (h : History n) : Fin n → Fin n → Prop :=
  Relation.EqvGen fun x y => (x, y) ∈ h.unions

/-- Some accepted separation has one end in each of the two classes. -/
def History.Separated (h : History n) : Fin n → Fin n → Prop :=
  Knowledge.Divides h.Related h.separations

/-- A call contradicts what was accepted before it. -/
def History.Contradicts (h : History n) : UnionFindCall n → Prop
  | .find _ => False
  | .separated _ _ => False
  | .markSeparated a b => h.Related a b
  | .union a b => h.Separated a b

variable {uf : SeparatingUnionFind n} {a b : Fin n}

@[simp] theorem view_lookedUp : (uf.lookedUp a b).view = uf.view := by
  rw [SeparatingUnionFind.lookedUp, SeparatingUnionFind.view_find, SeparatingUnionFind.view_find]

theorem markSeparated_isOk_iff : (uf.markSeparated a b).isOk = true ↔ ¬uf.view.mates a b := by
  constructor
  · intro h hmates
    rw [SeparatingUnionFind.markSeparated] at h
    simp only [dif_neg (not_not.mpr (show uf.root a = uf.root b from hmates))] at h
    cases h
  · intro h
    obtain ⟨uf', hok, -⟩ := uf.markSeparated_ok h
    rw [hok]
    rfl

theorem union_isOk_iff : (uf.union a b).isOk = true ↔ ¬uf.view.apart a b := by
  constructor
  · intro h hapart
    have hne : ¬uf.root a = uf.root b := fun he => uf.view.not_apart_of_mates he hapart
    have hsep : (((uf.find a).2.find b).2.separatedWith (uf.root a)).any
        (fun s => uf.root b ∈ s) = true := by
      simpa [SeparatingUnionFind.apart_view, Listed, Option.any_eq_true] using hapart
    rw [SeparatingUnionFind.union] at h
    simp only [dif_neg hne, dif_pos hsep] at h
    cases h
  · intro h
    obtain ⟨uf', hok, -⟩ := uf.union_ok h
    rw [hok]
    rfl

/-- One call keeps knowledge and history in step. -/
theorem recorded_callStep {s : SeparatingUnionFind n × History n}
    (hs : s.1.view.Recorded s.2.unions s.2.separations) (call : UnionFindCall n) :
    (callStep s call).1.view.Recorded (callStep s call).2.unions (callStep s call).2.separations := by
  cases call with
  | find x => simpa [callStep] using hs
  | separated a b => simpa [callStep] using hs
  | markSeparated a b =>
    by_cases h : s.1.view.mates a b
    · have herr := markSeparated_isOk_iff.not.mpr (not_not.mpr h)
      rw [callStep]
      split
      · rename_i hok; simp [hok, Except.isOk, Except.toBool] at herr
      · simpa using hs
    · obtain ⟨uf, hok, hview⟩ := s.1.markSeparated_ok h
      simp only [callStep, hok, hview]
      exact hs.separate h
  | union a b =>
    by_cases h : s.1.view.apart a b
    · have herr := union_isOk_iff.not.mpr (not_not.mpr h)
      rw [callStep]
      split
      · rename_i hok; simp [hok, Except.isOk, Except.toBool] at herr
      · simpa using hs
    · obtain ⟨uf, hok, hview⟩ := s.1.union_ok h
      simp only [callStep, hok, hview]
      exact hs.join h

theorem recorded_foldl : ∀ (calls : List (UnionFindCall n)) (s : SeparatingUnionFind n × History n),
    s.1.view.Recorded s.2.unions s.2.separations →
    (calls.foldl callStep s).1.view.Recorded (calls.foldl callStep s).2.unions
      (calls.foldl callStep s).2.separations
  | [], _, hs => hs
  | call :: calls, s, hs => recorded_foldl calls (callStep s call) (recorded_callStep hs call)

/-- After any calls, what is known is what follows from the history. -/
theorem recorded_run (calls : List (UnionFindCall n)) :
    (runCalls calls).1.view.Recorded (runCalls calls).2.unions (runCalls calls).2.separations :=
  recorded_foldl calls _ (by simpa using Knowledge.recorded_nothing)

/-- A refused call leaves behind its two lookups only. -/
theorem callStep_of_refuses {s : SeparatingUnionFind n × History n} {call : UnionFindCall n}
    (h : s.1.refuses call = true) : (callStep s call).2 = s.2 ∧ (callStep s call).1.view = s.1.view := by
  cases call with
  | find x => cases h
  | separated a b => cases h
  | markSeparated a b =>
    rw [callStep]
    split
    · rename_i hok; simp [SeparatingUnionFind.refuses, hok, Except.isOk, Except.toBool] at h
    · exact ⟨rfl, view_lookedUp⟩
  | union a b =>
    rw [callStep]
    split
    · rename_i hok; simp [SeparatingUnionFind.refuses, hok, Except.isOk, Except.toBool] at h
    · exact ⟨rfl, view_lookedUp⟩

theorem separated_eq {uf uf' : SeparatingUnionFind n} (h : uf'.view = uf.view) (a b : Fin n) :
    (uf'.separated a b).1 = (uf.separated a b).1 := by
  rw [Bool.eq_iff_iff, SeparatingUnionFind.separated_iff, SeparatingUnionFind.separated_iff, h]

/-- After any sequence of calls: `find` is the equivalence closure of the accepted unions,
    `separated` is what the accepted separations say about its classes, and is symmetric; a call is
    refused exactly when it contradicts the two, and then changes neither. -/
theorem separatingUnionFind_refines (calls : List (UnionFindCall n)) :
    (∀ x y, ((runCalls calls).1.find x).1 = ((runCalls calls).1.find y).1 ↔
      (runCalls calls).2.Related x y) ∧
    (∀ a b, ((runCalls calls).1.separated a b).1 = true ↔ (runCalls calls).2.Separated a b) ∧
    (∀ a b, ((runCalls calls).1.separated a b).1 = ((runCalls calls).1.separated b a).1) ∧
    (∀ call, (runCalls calls).1.refuses call = true ↔ (runCalls calls).2.Contradicts call) ∧
    ∀ call, (runCalls calls).1.refuses call = true →
      (runCalls (calls ++ [call])).2 = (runCalls calls).2 ∧
      (∀ x y, ((runCalls (calls ++ [call])).1.find x).1 = ((runCalls (calls ++ [call])).1.find y).1 ↔
        ((runCalls calls).1.find x).1 = ((runCalls calls).1.find y).1) ∧
      ∀ a b, ((runCalls (calls ++ [call])).1.separated a b).1 =
        ((runCalls calls).1.separated a b).1 := by
  have hrec := recorded_run calls
  have hnext : ∀ call, runCalls (calls ++ [call]) = callStep (runCalls calls) call := fun call => by
    rw [runCalls, List.foldl_append]
    rfl
  generalize runCalls calls = s at hrec hnext ⊢
  have hrelated : s.1.view.mates = s.2.Related := funext fun x => funext fun y =>
    propext (hrec.mates x y)
  have hseparated : ∀ a b, s.1.view.apart a b ↔ s.2.Separated a b := fun a b => by
    rw [hrec.apart, hrelated]
    rfl
  refine ⟨hrec.mates, fun a b => ?_, fun a b => ?_, fun call => ?_, fun call hcall => ?_⟩
  · rw [SeparatingUnionFind.separated_iff, hseparated]
  · rw [Bool.eq_iff_iff, SeparatingUnionFind.separated_iff, SeparatingUnionFind.separated_iff]
    exact ⟨s.1.view.apart_symm, s.1.view.apart_symm⟩
  · cases call with
    | find x => exact iff_of_false Bool.false_ne_true id
    | separated a b => exact iff_of_false Bool.false_ne_true id
    | markSeparated a b =>
      rw [SeparatingUnionFind.refuses, History.Contradicts, Bool.not_eq_true', ← Bool.not_eq_true,
        markSeparated_isOk_iff, not_not, hrelated]
    | union a b =>
      rw [SeparatingUnionFind.refuses, History.Contradicts, Bool.not_eq_true', ← Bool.not_eq_true,
        union_isOk_iff, not_not, hseparated]
  · obtain ⟨hhistory, hview⟩ := callStep_of_refuses hcall
    rw [hnext]
    refine ⟨hhistory, fun x y => ?_, separated_eq hview⟩
    change (callStep s call).1.view.mates x y ↔ s.1.view.mates x y
    rw [hview]

/-- After 0 joins 1 and 1 is put apart from 2, joining 0 and 2 is refused. -/
theorem separatingUnionFind_refines_refusal :
    (runCalls (n := 3) [.union 0 1, .markSeparated 1 2]).2.Contradicts (.union 0 2) ∧
      (runCalls (n := 3) [.union 0 1, .markSeparated 1 2, .union 0 2]).2 =
        (runCalls (n := 3) [.union 0 1, .markSeparated 1 2]).2 := by
  have h := separatingUnionFind_refines (n := 3) [.union 0 1, .markSeparated 1 2]
  have hrefused : (runCalls (n := 3) [.union 0 1, .markSeparated 1 2]).1.refuses (.union 0 2) = true := by
    decide +kernel
  exact ⟨(h.2.2.2.1 _).mp hrefused, (h.2.2.2.2 _ hrefused).1⟩

end Dialysis.Sat
