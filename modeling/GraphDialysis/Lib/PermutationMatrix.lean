import Mathlib.Data.Fintype.EquivFin
import Mathlib.Data.List.Induction
import GraphDialysis.Lib.Cnf
import Mathlib.Algebra.Ring.Nat

/-! Permutation matrices over a restricted set of entries, as propositional formulas.

    Variables are created one after another for the admissible entries (`Vars.createAll`). An
    assignment `Represents` a permutation when the created entries that are true are exactly those
    of the permutation. Rows that hold one true entry each and columns that hold at most one give
    such a permutation (`exists_represents`); every permutation inside the admissible entries has
    a representing assignment (`exists_assignment`); and for an edge `(i, k)` of a relation, the
    conflict form and the support form both say that the images of `i` and `k` are related. -/

namespace Lib.Matrix
open Lib.Cnf
variable {V : Type*} [DecidableEq V]

/-- The entries that have a variable (`-1` where there is none), and the last variable created. -/
structure Vars (V : Type*) where
  varOf : V → V → ℤ
  nextVar : ℕ

def Vars.empty : Vars V := ⟨fun _ _ => -1, 0⟩

/-- Give entry `p` the next free variable. -/
def Vars.create (s : Vars V) (p : V × V) : Vars V where
  nextVar := s.nextVar + 1
  varOf := fun i j => if (i, j) = p then (s.nextVar + 1 : ℤ) else s.varOf i j

def Vars.createAll (L : List (V × V)) : Vars V := L.foldl Vars.create Vars.empty

theorem createAll_concat (L : List (V × V)) (p : V × V) :
    Vars.createAll (L ++ [p]) = (Vars.createAll L).create p := by
  simp [Vars.createAll]

@[simp] theorem nextVar_createAll (L : List (V × V)) :
    (Vars.createAll L).nextVar = L.length := by
  induction L using List.reverseRecOn with
  | nil => rfl
  | append_singleton L p ih => simp [createAll_concat, Vars.create, ih]

theorem varOf_concat (L : List (V × V)) (p : V × V) (i j : V) :
    (Vars.createAll (L ++ [p])).varOf i j =
      if (i, j) = p then (L.length + 1 : ℤ) else (Vars.createAll L).varOf i j := by
  simp [createAll_concat, Vars.create]

theorem varOf_of_notMem {L : List (V × V)} {i j : V} (h : (i, j) ∉ L) :
    (Vars.createAll L).varOf i j = -1 := by
  induction L using List.reverseRecOn with
  | nil => rfl
  | append_singleton L p ih =>
    rw [List.mem_append, List.mem_singleton, not_or] at h
    rw [varOf_concat, if_neg h.2, ih h.1]

theorem varOf_bounds {L : List (V × V)} {i j : V} (h : (i, j) ∈ L) :
    0 < (Vars.createAll L).varOf i j ∧ (Vars.createAll L).varOf i j ≤ L.length := by
  induction L using List.reverseRecOn with
  | nil => simp at h
  | append_singleton L p ih =>
    rw [varOf_concat, List.length_append, List.length_singleton]
    by_cases hp : (i, j) = p
    · rw [if_pos hp]; omega
    · rw [List.mem_append, List.mem_singleton, or_iff_left hp] at h
      rw [if_neg hp]
      have := ih h
      omega

theorem varOf_pos_iff {L : List (V × V)} {i j : V} :
    0 < (Vars.createAll L).varOf i j ↔ (i, j) ∈ L := by
  refine ⟨fun h => ?_, fun h => (varOf_bounds h).1⟩
  by_contra hn
  rw [varOf_of_notMem hn] at h
  omega

theorem varOf_nonneg_iff {L : List (V × V)} {i j : V} :
    0 ≤ (Vars.createAll L).varOf i j ↔ (i, j) ∈ L := by
  refine ⟨fun h => ?_, fun h => (varOf_bounds h).1.le⟩
  by_contra hn
  rw [varOf_of_notMem hn] at h
  omega

/-- Distinct entries have distinct variables. -/
theorem varOf_inj {L : List (V × V)} {p q : V × V} (hp : p ∈ L) (hq : q ∈ L)
    (h : (Vars.createAll L).varOf p.1 p.2 = (Vars.createAll L).varOf q.1 q.2) : p = q := by
  induction L using List.reverseRecOn with
  | nil => simp at hp
  | append_singleton L r ih =>
    rw [varOf_concat, varOf_concat] at h
    rw [List.mem_append, List.mem_singleton] at hp hq
    by_cases hpr : p = r <;> by_cases hqr : q = r
    · rw [hpr, hqr]
    · rw [if_pos hpr, if_neg hqr] at h
      have := (varOf_bounds (hq.resolve_right hqr)).2
      omega
    · rw [if_neg hpr, if_pos hqr] at h
      have := (varOf_bounds (hp.resolve_right hpr)).2
      omega
    · rw [if_neg hpr, if_neg hqr] at h
      exact ih (hp.resolve_right hpr) (hq.resolve_right hqr) h

/-- Every variable created belongs to an entry. -/
theorem exists_varOf_eq {L : List (V × V)} (hL : L.Nodup) {v : ℕ} (h0 : 0 < v) (hv : v ≤ L.length) :
    ∃ p ∈ L, (Vars.createAll L).varOf p.1 p.2 = v := by
  induction L using List.reverseRecOn with
  | nil => simp at hv; omega
  | append_singleton L r ih =>
    have hr : r ∉ L := by
      intro hr
      exact (List.nodup_append.mp hL).2.2 r hr r (List.mem_singleton_self r) rfl
    rw [List.length_append, List.length_singleton] at hv
    rcases Nat.lt_or_ge L.length v with hlt | hle
    · exact ⟨r, by simp, by rw [varOf_concat, if_pos rfl]; omega⟩
    · obtain ⟨p, hp, he⟩ := ih (List.nodup_append.mp hL).1 hle
      refine ⟨p, List.mem_append_left _ hp, ?_⟩
      rw [varOf_concat, if_neg (fun e : p = r => hr (e ▸ hp)), he]

/-- The true entries, among those that have a variable, are those of `α`. -/
def Represents (var : V → V → ℤ) (τ : ℕ → Bool) (α : Equiv.Perm V) : Prop :=
  ∀ i j, 0 < var i j → (holds τ (var i j) ↔ α i = j)

/-- `α` uses only entries that have a variable. -/
def Inside (var : V → V → ℤ) (α : Equiv.Perm V) : Prop := ∀ i, 0 < var i (α i)

omit [DecidableEq V] in
/-- One true entry in every row and at most one in every column make a permutation. -/
theorem exists_represents [Finite V] {var : V → V → ℤ} {τ : ℕ → Bool}
    (hrow : ∀ i, ∃ j, 0 < var i j ∧ holds τ (var i j) ∧
      ∀ j', 0 < var i j' → holds τ (var i j') → j' = j)
    (hcol : ∀ i i' j, 0 < var i j → 0 < var i' j → holds τ (var i j) → holds τ (var i' j) → i = i') :
    ∃ α : Equiv.Perm V, Represents var τ α ∧ Inside var α := by
  choose f hf using hrow
  have hinj : Function.Injective f := by
    intro i i' h
    exact hcol i i' (f i) (hf i).1 (h ▸ (hf i').1) (hf i).2.1 (h ▸ (hf i').2.1)
  refine ⟨Equiv.ofBijective f (Finite.injective_iff_bijective.mp hinj), fun i j hp => ?_,
    fun i => (hf i).1⟩
  constructor
  · intro ht; exact ((hf i).2.2 j hp ht).symm
  · rintro rfl; exact (hf i).2.1

omit [DecidableEq V] in
/-- Two permutations inside the entries that one assignment represents are equal. -/
theorem represents_unique {var : V → V → ℤ} {τ : ℕ → Bool} {α β : Equiv.Perm V}
    (hα : Represents var τ α) (hβ : Represents var τ β) (hin : Inside var α) : α = β := by
  ext i
  exact ((hβ i (α i) (hin i)).mp ((hα i (α i) (hin i)).mpr rfl)).symm

/-- Every permutation is represented by the assignment that makes its own entries true. -/
theorem exists_assignment [Fintype V] (L : List (V × V)) (α : Equiv.Perm V) :
    ∃ τ, Represents (Vars.createAll L).varOf τ α := by
  refine ⟨fun v => decide (∃ i, (i, α i) ∈ L ∧ (Vars.createAll L).varOf i (α i) = v),
    fun i j hp => ?_⟩
  rw [holds_pos hp, decide_eq_true_iff]
  have hmem := varOf_pos_iff.mp hp
  constructor
  · rintro ⟨i', hi', he⟩
    have he' : (Vars.createAll L).varOf i' (α i') = (Vars.createAll L).varOf i j := by omega
    have := varOf_inj (p := (i', α i')) (q := (i, j)) hi' hmem he'
    exact (Prod.mk.inj this).1 ▸ (Prod.mk.inj this).2
  · rintro rfl
    exact ⟨i, hmem, by omega⟩

omit [DecidableEq V] in
/-- "Exactly one" for every row, over its images, and for every column that has candidates, over its
    preimages, says that the assignment represents a permutation. A column without candidates asks
    for nothing: the rows alone fill all columns. -/
theorem models_images_preimages [Finite V] {var : V → V → ℤ} {τ : ℕ → Bool}
    (images preimages : V → List V) (hnd : ∀ i, (images i).Nodup) (hnd' : ∀ j, (preimages j).Nodup)
    (hpos : ∀ i j, 0 < var i j ↔ j ∈ images i) (hpos' : ∀ i j, 0 < var i j ↔ i ∈ preimages j) :
    ((∀ i, Models τ (exactlyOne ((images i).map fun j => var i j))) ∧
      ∀ j, preimages j ≠ [] → Models τ (exactlyOne ((preimages j).map fun i => var i j))) ↔
      ∃ α : Equiv.Perm V, Represents var τ α ∧ Inside var α := by
  have hrow : ∀ i, Models τ (exactlyOne ((images i).map fun j => var i j)) ↔ _ := fun i =>
    models_exactlyOne (hnd i) fun j hj => (hpos i j).mpr hj
  have hcol : ∀ j, Models τ (exactlyOne ((preimages j).map fun i => var i j)) ↔ _ := fun j =>
    models_exactlyOne (hnd' j) fun i hi => (hpos' i j).mpr hi
  simp only [hrow, hcol]
  constructor
  · rintro ⟨hr, hc⟩
    refine exists_represents (fun i => ?_) fun i i' j hi hi' ht ht' => ?_
    · obtain ⟨⟨j, hj, ht⟩, huniq⟩ := hr i
      exact ⟨j, (hpos i j).mpr hj, ht, fun j' hj' ht' => huniq j' ((hpos i j').mp hj') j hj ht' ht⟩
    · have hmem := (hpos' i j).mp hi
      exact (hc j (List.ne_nil_of_mem hmem)).2 i hmem i' ((hpos' i' j).mp hi') ht ht'
  · rintro ⟨α, hα, hin⟩
    refine ⟨fun i => ⟨⟨α i, (hpos _ _).mp (hin i), (hα _ _ (hin i)).mpr rfl⟩, ?_⟩,
      fun j _ => ⟨⟨α.symm j, ?_, ?_⟩, ?_⟩⟩
    · intro j hj j' hj' ht ht'
      rw [← (hα i j ((hpos i j).mpr hj)).mp ht, (hα i j' ((hpos i j').mpr hj')).mp ht']
    · have := hin (α.symm j)
      rwa [α.apply_symm_apply, hpos'] at this
    · have := hin (α.symm j)
      rw [α.apply_symm_apply] at this
      exact (hα _ _ this).mpr (α.apply_symm_apply j)
    · intro i hi i' hi' ht ht'
      have h1 := (hα i j ((hpos' i j).mpr hi)).mp ht
      have h2 := (hα i' j ((hpos' i' j).mpr hi')).mp ht'
      exact α.injective (h1.trans h2.symm)

omit [DecidableEq V] in
/-- With the same candidates for an entry seen from its row and from its column, "exactly one" for
    every row and every column says that the assignment represents a permutation. -/
theorem models_rows_columns [Finite V] {var : V → V → ℤ} {τ : ℕ → Bool} (images : V → List V)
    (hnd : ∀ i, (images i).Nodup) (hpos : ∀ i j, 0 < var i j ↔ j ∈ images i)
    (hsymm : ∀ i j, j ∈ images i ↔ i ∈ images j) :
    ((∀ i, Models τ (exactlyOne ((images i).map fun j => var i j))) ∧
      ∀ j, Models τ (exactlyOne ((images j).map fun i => var i j))) ↔
      ∃ α : Equiv.Perm V, Represents var τ α ∧ Inside var α := by
  rw [← models_images_preimages images images hnd hnd hpos fun i j => (hpos i j).trans (hsymm i j)]
  refine and_congr_right fun hr => ⟨fun hc j _ => hc j, fun hc j => hc j fun hnil => ?_⟩
  -- a vertex without candidates already contradicts its own row
  have := hr j
  rw [hnil, List.map_nil, exactlyOne, models_cons] at this
  exact satisfied_nil τ this.1

/-- Read a row-to-column map off an assignment, scanning the given entries in order. -/
def decode (var : V → V → ℤ) (τ : ℕ → Bool) (scan : List (V × V)) : V → Option V :=
  scan.foldl
    (fun alpha p => if 0 < var p.1 p.2 ∧ holds τ (var p.1 p.2) then
      Function.update alpha p.1 (some p.2) else alpha)
    (fun _ => none)

/-- Scanning entries that cover a represented permutation reads back that permutation. -/
theorem decode_eq {var : V → V → ℤ} {τ : ℕ → Bool} {α : Equiv.Perm V} {scan : List (V × V)}
    (hα : Represents var τ α) (hin : Inside var α) (hscan : ∀ i, (i, α i) ∈ scan) :
    decode var τ scan = fun i => some (α i) := by
  have key : ∀ (l : List (V × V)) (i : V), decode var τ l i =
      if (i, α i) ∈ l then some (α i) else none := by
    intro l
    induction l using List.reverseRecOn with
    | nil => intro i; rfl
    | append_singleton l p ih =>
      intro i
      obtain ⟨a, b⟩ := p
      have hstep : decode var τ (l ++ [(a, b)]) = if 0 < var a b ∧ holds τ (var a b) then
          Function.update (decode var τ l) a (some b) else decode var τ l := by simp [decode]
      have hcond : (0 < var a b ∧ holds τ (var a b)) ↔ α a = b :=
        ⟨fun h => (hα a b h.1).mp h.2, fun h => h ▸ ⟨hin a, (hα a (α a) (hin a)).mpr rfl⟩⟩
      rw [hstep]
      simp only [hcond, List.mem_append, List.mem_singleton, Prod.mk.injEq]
      by_cases hab : α a = b
      · subst hab
        rw [if_pos rfl]
        rcases eq_or_ne i a with rfl | hne
        · simp
        · rw [Function.update_of_ne hne, ih]; simp [hne]
      · rw [if_neg hab, ih]
        have : ¬(i = a ∧ α i = b) := by rintro ⟨rfl, h⟩; exact hab h
        simp [this]
  funext i
  rw [key, if_pos (hscan i)]

/-! ### Edges of a relation given by neighbour lists -/

variable (adj : V → List V) (var : V → V → ℤ)

/-- Conflict form for `(i, k)`: no two candidate images that are not related. -/
def conflictClauses (i k : V) (imagesI imagesK : List V) : Formula :=
  imagesI.flatMap fun j => (imagesK.filter fun l => l ∉ adj j).map fun l => [-var i j, -var k l]

/-- Support form for `(i, k)`: an image `j` of `i` asks for an image of `k` related to `j`. -/
def supportClauses (i k : V) (imagesI imagesK : List V) : Formula :=
  imagesI.map fun j =>
    let support := (adj j).filter fun l => l ∈ imagesK
    if support = [] then [-var i j] else -var i j :: support.map fun l => var k l

variable {adj var} {τ : ℕ → Bool} {α : Equiv.Perm V} {i k : V} {imagesI imagesK : List V}

theorem models_conflictClauses (hα : Represents var τ α) (hI : ∀ j ∈ imagesI, 0 < var i j)
    (hK : ∀ l ∈ imagesK, 0 < var k l) (hi : α i ∈ imagesI) (hk : α k ∈ imagesK) :
    Models τ (conflictClauses adj var i k imagesI imagesK) ↔ α k ∈ adj (α i) := by
  simp only [conflictClauses, models_flatMap, models_map, List.mem_filter, decide_eq_true_eq]
  have hclause : ∀ j ∈ imagesI, ∀ l ∈ imagesK,
      (Clause.Satisfied τ [-var i j, -var k l] ↔ ¬(α i = j ∧ α k = l)) := by
    intro j hj l hl
    rw [satisfied_cons, satisfied_cons, holds_neg (hI j hj), holds_neg (hK l hl),
      hα i j (hI j hj), hα k l (hK l hl)]
    simp [imp_iff_not_or]
  constructor
  · intro h
    by_contra hn
    exact (hclause _ hi _ hk).mp (h _ hi _ ⟨hk, hn⟩) ⟨rfl, rfl⟩
  · rintro h j hj l ⟨hl, hn⟩
    refine (hclause j hj l hl).mpr ?_
    rintro ⟨rfl, rfl⟩
    exact hn h

theorem models_supportClauses (hα : Represents var τ α) (hI : ∀ j ∈ imagesI, 0 < var i j)
    (hK : ∀ l ∈ imagesK, 0 < var k l) (hi : α i ∈ imagesI) (hk : α k ∈ imagesK) :
    Models τ (supportClauses adj var i k imagesI imagesK) ↔ α k ∈ adj (α i) := by
  simp only [supportClauses, models_map]
  have hclause : ∀ j ∈ imagesI, (Clause.Satisfied τ
      (if (adj j).filter (fun l => decide (l ∈ imagesK)) = [] then [-var i j] else
        -var i j :: ((adj j).filter fun l => decide (l ∈ imagesK)).map fun l => var k l) ↔
      (α i = j → α k ∈ adj j)) := by
    intro j hj
    have hgen : Clause.Satisfied τ
        (-var i j :: ((adj j).filter fun l => decide (l ∈ imagesK)).map fun l => var k l) ↔
        (α i = j → α k ∈ adj j) := by
      rw [satisfied_cons, holds_neg (hI j hj), hα i j (hI j hj), imp_iff_not_or]
      refine or_congr_right ?_
      simp only [Clause.Satisfied, List.mem_map, List.mem_filter, decide_eq_true_eq]
      constructor
      · rintro ⟨_, ⟨l, ⟨hl, hlK⟩, rfl⟩, ht⟩
        rw [(hα k l (hK l hlK)).mp ht]; exact hl
      · intro h
        exact ⟨_, ⟨α k, ⟨h, hk⟩, rfl⟩, (hα k _ (hK _ hk)).mpr rfl⟩
    split
    · rename_i hnil
      rw [hnil, List.map_nil] at hgen
      exact hgen
    · exact hgen
  constructor
  · intro h; exact (hclause _ hi).mp (h _ hi) rfl
  · intro h j hj
    refine (hclause j hj).mpr ?_
    rintro rfl; exact h

/-! ### Size -/

theorem length_conflictClauses (i k : V) (imagesI imagesK : List V) :
    (conflictClauses adj var i k imagesI imagesK).length =
      (imagesI.map fun j => (imagesK.filter fun l => l ∉ adj j).length).sum := by
  simp only [conflictClauses, List.length_flatMap, List.length_map]

theorem length_supportClauses (i k : V) (imagesI imagesK : List V) :
    (supportClauses adj var i k imagesI imagesK).length = imagesI.length := List.length_map _

/-- Both forms speak of the images of the two ends only. -/
theorem occurs_conflictClauses {x : ℕ} (h : Occurs x (conflictClauses adj var i k imagesI imagesK)) :
    (∃ j ∈ imagesI, (var i j).natAbs = x) ∨ ∃ l ∈ imagesK, (var k l).natAbs = x := by
  obtain ⟨j, hj, c, hc, lit, hlit, hx⟩ := occurs_flatMap.mp h
  obtain ⟨l, hl, rfl⟩ := List.mem_map.mp hc
  simp only [List.mem_cons, List.not_mem_nil, or_false] at hlit
  rcases hlit with rfl | rfl <;> rw [Int.natAbs_neg] at hx
  · exact Or.inl ⟨j, hj, hx⟩
  · exact Or.inr ⟨l, (List.mem_filter.mp hl).1, hx⟩

theorem occurs_supportClauses {x : ℕ} (h : Occurs x (supportClauses adj var i k imagesI imagesK)) :
    (∃ j ∈ imagesI, (var i j).natAbs = x) ∨ ∃ l ∈ imagesK, (var k l).natAbs = x := by
  obtain ⟨c, hc, lit, hlit, hx⟩ := h
  obtain ⟨j, hj, rfl⟩ := List.mem_map.mp hc
  have hcase : lit = -var i j ∨ ∃ l ∈ (adj j).filter fun l => l ∈ imagesK, lit = var k l := by
    dsimp only at hlit
    split at hlit
    · exact Or.inl (List.mem_singleton.mp hlit)
    · rcases List.mem_cons.mp hlit with hlit | hlit
      · exact Or.inl hlit
      · obtain ⟨l, hl, rfl⟩ := List.mem_map.mp hlit
        exact Or.inr ⟨l, hl, rfl⟩
  rcases hcase with rfl | ⟨l, hl, rfl⟩
  · exact Or.inl ⟨j, hj, by rwa [Int.natAbs_neg] at hx⟩
  · exact Or.inr ⟨l, of_decide_eq_true (List.mem_filter.mp hl).2, hx⟩

end Lib.Matrix
