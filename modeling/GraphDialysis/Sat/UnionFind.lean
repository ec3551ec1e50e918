import Mathlib.Data.Fintype.Card
import Mathlib.Data.Finset.Card
import Mathlib.Logic.Function.Basic
import GraphDialysis.Lib.Knowledge

/-! `SeparatingUnionFind` of `dialysis.sat.OrbitDriver`: a union-find with path compression,
    extended by the roots whose components were proved separate. `Forest` and the table invariant
    are fields, so every value that can be built has chains that end in roots and a separation
    table that is symmetric and mentions roots only. Checks that fail throw their message.

    `view` is what the structure knows, as abstract `Knowledge`: `find` and `separated` read it and
    leave it alone, `union` is `Knowledge.join` and `markSeparated` is `Knowledge.separate`. -/

namespace Dialysis.Sat
variable {n : ℕ}

/-! ### Parent chains -/

/-- Following parents descends, so every chain ends in a root. -/
def Forest (parent : Fin n → Fin n) : Prop :=
  ∃ level : Fin n → ℕ, ∀ x, parent x ≠ x → level (parent x) < level x

/-- `while (parent[r] != r) r = parent[r]`. -/
def climb (parent : Fin n → Fin n) : ℕ → Fin n → Fin n
  | 0, r => r
  | k + 1, r => if parent r ≠ r then climb parent k (parent r) else r

/-- The root above `x`; a chain has at most `n` vertices. -/
def rootOf (parent : Fin n → Fin n) (x : Fin n) : Fin n := climb parent n x

/-- `while (parent[c] != r) { next = parent[c]; parent[c] = r; c = next }`. -/
def compress (r : Fin n) : ℕ → (Fin n → Fin n) → Fin n → Fin n → Fin n
  | 0, parent, _ => parent
  | k + 1, parent, c =>
    if parent c ≠ r then compress r k (Function.update parent c r) (parent c) else parent

variable {parent : Fin n → Fin n}

theorem climb_isRoot {level : Fin n → ℕ} (h : ∀ x, parent x ≠ x → level (parent x) < level x) :
    ∀ (k : ℕ) (x : Fin n), (Finset.univ.filter fun y => level y < level x).card ≤ k →
      parent (climb parent k x) = climb parent k x
  | 0, x, hk => by
    rw [climb]
    by_contra hx
    have : parent x ∈ Finset.univ.filter fun y => level y < level x := by simpa using h x hx
    exact absurd (Finset.card_pos.mpr ⟨_, this⟩) (by omega)
  | k + 1, x, hk => by
    rw [climb]
    split
    · rename_i hx
      refine climb_isRoot h k (parent x) ?_
      have hss : (Finset.univ.filter fun y => level y < level (parent x)) ⊂
          Finset.univ.filter fun y => level y < level x := by
        rw [Finset.ssubset_iff_of_subset]
        · exact ⟨parent x, by simpa using h x hx, by simp⟩
        · intro y hy
          simp only [Finset.mem_filter, Finset.mem_univ, true_and] at hy ⊢
          exact hy.trans (h x hx)
      have := Finset.card_lt_card hss
      omega
    · rename_i hx; exact not_not.mp hx

theorem rootOf_isRoot (h : Forest parent) (x : Fin n) : parent (rootOf parent x) = rootOf parent x := by
  obtain ⟨level, hl⟩ := h
  refine climb_isRoot hl n x ?_
  exact (Finset.card_le_univ _).trans_eq (Fintype.card_fin n)

theorem climb_of_isRoot {r : Fin n} (h : parent r = r) (k : ℕ) : climb parent k r = r := by
  cases k <;> simp [climb, h]

theorem rootOf_of_isRoot {r : Fin n} (h : parent r = r) : rootOf parent r = r := climb_of_isRoot h n

/-- Once a root is reached, more fuel changes nothing. -/
theorem climb_succ : ∀ (k : ℕ) (x : Fin n), parent (climb parent k x) = climb parent k x →
    climb parent (k + 1) x = climb parent k x
  | 0, x, h => by
    have h : parent x = x := h
    simp [climb, h]
  | k + 1, x, h => by
    rw [climb] at h ⊢
    split
    · rename_i hx
      rw [if_pos hx] at h
      rw [climb_succ k (parent x) h, climb, if_pos hx]
    · rename_i hx
      rw [climb, if_neg hx]

theorem rootOf_parent (h : Forest parent) (x : Fin n) : rootOf parent (parent x) = rootOf parent x := by
  by_cases hx : parent x = x
  · rw [hx]
  · have := climb_succ n x (rootOf_isRoot h x)
    rw [climb, if_pos hx] at this
    exact this

/-- The root above a vertex is the only value that is constant along parents and fixed by roots. -/
theorem rootOf_unique (h : Forest parent) {f : Fin n → Fin n} (hf : ∀ x, f (parent x) = f x)
    (hr : ∀ r, parent r = r → f r = r) (x : Fin n) : rootOf parent x = f x := by
  have key : ∀ k x, f (climb parent k x) = f x := by
    intro k
    induction k with
    | zero => intro x; rfl
    | succ k ih =>
      intro x
      rw [climb]
      split
      · rw [ih, hf]
      · rfl
  rw [← key n x]
  exact (hr _ (rootOf_isRoot h x)).symm

/-- Pointing a vertex at its own root changes no root. -/
theorem update_root (h : Forest parent) {c r : Fin n} (hc : rootOf parent c = r) :
    Forest (Function.update parent c r) ∧
      ∀ x, rootOf (Function.update parent c r) x = rootOf parent x := by
  have hr : parent r = r := hc ▸ rootOf_isRoot h c
  obtain ⟨level, hl⟩ := id h
  have hle : ∀ x, level (rootOf parent x) ≤ level x := by
    have key : ∀ k x, level (climb parent k x) ≤ level x := by
      intro k
      induction k with
      | zero => intro x; exact le_refl _
      | succ k ih =>
        intro x
        rw [climb]
        split
        · rename_i hx; exact (ih _).trans (hl x hx).le
        · exact le_refl _
    exact key n
  -- levels still descend: the new edge skips the old path, and a root keeps its level
  have hforest : Forest (Function.update parent c r) := by
    refine ⟨fun x => if parent x = x then 0 else level x + 1, fun x hx => ?_⟩
    simp only
    rcases eq_or_ne x c with rfl | hxc
    · rw [Function.update_self] at hx ⊢
      have hpx : parent x ≠ x := by
        intro e; rw [rootOf_of_isRoot e] at hc; exact hx hc.symm
      rw [if_pos hr, if_neg hpx]; omega
    · rw [Function.update_of_ne hxc] at hx ⊢
      rw [if_neg hx]
      have := hl x hx
      split <;> omega
  refine ⟨hforest, fun x => rootOf_unique hforest (fun y => ?_) (fun y hy => ?_) x⟩
  · rcases eq_or_ne y c with rfl | hyc
    · rw [Function.update_self, hc, rootOf_of_isRoot hr]
    · rw [Function.update_of_ne hyc, rootOf_parent h]
  · rcases eq_or_ne y c with rfl | hyc
    · rw [Function.update_self] at hy
      rw [hc, hy]
    · rw [Function.update_of_ne hyc] at hy
      exact rootOf_of_isRoot hy

/-- Hanging one root under another. -/
theorem link_root (h : Forest parent) {ra rb : Fin n} (ha : parent ra = ra) (hb : parent rb = rb)
    (hne : ra ≠ rb) : Forest (Function.update parent rb ra) ∧
      ∀ x, rootOf (Function.update parent rb ra) x =
        if rootOf parent x = rb then ra else rootOf parent x := by
  obtain ⟨level, hl⟩ := id h
  -- lift the absorbed component above the other root
  have hforest : Forest (Function.update parent rb ra) := by
    refine ⟨fun x => if rootOf parent x = rb then level x + level ra + 1 else level x, fun x hx => ?_⟩
    simp only
    rcases eq_or_ne x rb with rfl | hxb
    · rw [Function.update_self, rootOf_of_isRoot ha, if_neg hne, if_pos (rootOf_of_isRoot hb)]
      omega
    · rw [Function.update_of_ne hxb] at hx ⊢
      rw [rootOf_parent h]
      have := hl x hx
      split <;> omega
  refine ⟨hforest, fun x => rootOf_unique
    (f := fun x => if rootOf parent x = rb then ra else rootOf parent x) hforest (fun y => ?_)
    (fun y hy => ?_) x⟩
  · rcases eq_or_ne y rb with rfl | hyb
    · rw [Function.update_self, rootOf_of_isRoot ha, if_neg hne, rootOf_of_isRoot hb, if_pos rfl]
    · rw [Function.update_of_ne hyb, rootOf_parent h]
  · rcases eq_or_ne y rb with rfl | hyb
    · rw [Function.update_self] at hy
      exact absurd hy hne
    · rw [Function.update_of_ne hyb] at hy
      rw [rootOf_of_isRoot hy, if_neg hyb]

theorem compress_spec {r : Fin n} : ∀ (k : ℕ) (parent : Fin n → Fin n) (c : Fin n), Forest parent →
    rootOf parent c = r → Forest (compress r k parent c) ∧
      ∀ x, rootOf (compress r k parent c) x = rootOf parent x
  | 0, parent, c, h, _ => ⟨h, fun _ => rfl⟩
  | k + 1, parent, c, h, hc => by
    rw [compress]
    split
    · obtain ⟨h', hroot⟩ := update_root h hc
      have := compress_spec k (Function.update parent c r) (parent c) h'
        (by rw [hroot, rootOf_parent h, hc])
      exact ⟨this.1, fun x => (this.2 x).trans (hroot x)⟩
    · exact ⟨h, fun _ => rfl⟩

/-! ### The structure -/

/-- `b` is listed in the separation table under `a`. -/
def Listed (separatedWith : Fin n → Option (Finset (Fin n))) (a b : Fin n) : Prop :=
  ∃ s, separatedWith a = some s ∧ b ∈ s

/-- The separation table is symmetric, irreflexive and about roots only. -/
structure TableInv (parent : Fin n → Fin n) (separatedWith : Fin n → Option (Finset (Fin n))) :
    Prop where
  symm : ∀ {a b}, Listed separatedWith a b → Listed separatedWith b a
  root : ∀ {a b}, Listed separatedWith a b → rootOf parent a = a
  irrefl : ∀ a, ¬Listed separatedWith a a

/-- `getOrPut(a) { mutableSetOf() }.add(b)`. -/
def addTo (separatedWith : Fin n → Option (Finset (Fin n))) (a b : Fin n) :
    Fin n → Option (Finset (Fin n)) :=
  Function.update separatedWith a (some (insert b ((separatedWith a).getD ∅)))

theorem listed_addTo {separatedWith : Fin n → Option (Finset (Fin n))} {a b x y : Fin n} :
    Listed (addTo separatedWith a b) x y ↔ Listed separatedWith x y ∨ (x = a ∧ y = b) := by
  rcases eq_or_ne x a with rfl | hx
  · cases h : separatedWith x <;> simp [Listed, addTo, h, or_comm]
  · simp [Listed, addTo, hx]

/-- Remove the entry of `rb`, re-point whoever was separated from it at `ra`, and add them to the
    entry of `ra`. -/
def absorb (separatedWith : Fin n → Option (Finset (Fin n))) (ra rb : Fin n) :
    Fin n → Option (Finset (Fin n)) :=
  match separatedWith rb with
  | none => separatedWith
  | some rbSeparated =>
    let removed := Function.update separatedWith rb none
    let repointed := fun x =>
      if x ∈ rbSeparated then (removed x).map fun s => insert ra (s.erase rb) else removed x
    Function.update repointed ra (some ((repointed ra).getD ∅ ∪ rbSeparated))

theorem listed_absorb {separatedWith : Fin n → Option (Finset (Fin n))} {ra rb : Fin n}
    (hsymm : ∀ {a b}, Listed separatedWith a b → Listed separatedWith b a)
    (hirrefl : ∀ a, ¬Listed separatedWith a a) (hne : ra ≠ rb) (hsep : ¬Listed separatedWith ra rb)
    {x y : Fin n} : Listed (absorb separatedWith ra rb) x y ↔
      x ≠ rb ∧ y ≠ rb ∧ (Listed separatedWith x y ∨ (x = ra ∧ Listed separatedWith rb y) ∨
        (y = ra ∧ Listed separatedWith rb x)) := by
  cases h : separatedWith rb with
  | none =>
    have hrb : ∀ z, ¬Listed separatedWith rb z := fun z ⟨s, hs, _⟩ => by rw [h] at hs; simp at hs
    simp only [absorb, h, hrb, and_false, or_false]
    refine ⟨fun hxy => ⟨?_, ?_, hxy⟩, fun hxy => hxy.2.2⟩
    · rintro rfl; exact hrb _ hxy
    · rintro rfl; exact hrb _ (hsymm hxy)
  | some S =>
    have hS : ∀ z, Listed separatedWith rb z ↔ z ∈ S := fun z =>
      ⟨fun ⟨s, hs, hz⟩ => by rw [h] at hs; exact Option.some.inj hs ▸ hz, fun hz => ⟨S, h, hz⟩⟩
    have hra : ra ∉ S := fun hr => hsep (hsymm ((hS ra).mpr hr))
    have hrb : rb ∉ S := fun hr => hirrefl rb ((hS rb).mpr hr)
    simp only [hS]
    by_cases hx : x = ra
    · subst hx
      have hval : absorb separatedWith x rb x = some ((separatedWith x).getD ∅ ∪ S) := by
        simp [absorb, h, hra, hne]
      have hy : y = rb → ¬Listed separatedWith x y := by rintro rfl; exact hsep
      have hget : y ∈ (separatedWith x).getD ∅ ↔ Listed separatedWith x y := by
        cases h' : separatedWith x <;> simp [Listed, h']
      simp only [Listed] at hget hy ⊢
      simp only [hval, Option.some.injEq, exists_eq_left', Finset.mem_union, hget, hne, hra,
        ne_eq, not_false_eq_true, true_and, and_false, or_false]
      refine ⟨fun hxy => ⟨?_, hxy⟩, fun hxy => hxy.2⟩
      rintro rfl
      exact hxy.elim (hy rfl) hrb
    · by_cases hxb : x = rb
      · subst hxb
        simp only [ne_eq, not_true_eq_false, false_and, iff_false]
        rintro ⟨s, hs, -⟩
        simp [absorb, h, Function.update_of_ne hx, hrb] at hs
      · have hval : absorb separatedWith ra rb x =
            if x ∈ S then (separatedWith x).map fun s => insert ra (s.erase rb)
            else separatedWith x := by
          simp [absorb, h, Function.update_of_ne hx, Function.update_of_ne hxb]
        by_cases hxS : x ∈ S
        · obtain ⟨s, hs, -⟩ := hsymm ((hS x).mpr hxS)
          simp only [Listed, hval, hxS, if_true, hs, Option.map_some, Option.some.injEq,
            exists_eq_left', Finset.mem_insert, Finset.mem_erase, hx, hxb, ne_eq,
            not_false_eq_true, true_and, false_and, false_or, and_true]
          constructor
          · rintro (rfl | ⟨h1, h2⟩)
            · exact ⟨hne, Or.inr rfl⟩
            · exact ⟨h1, Or.inl h2⟩
          · rintro ⟨h1, h2 | h2⟩
            · exact Or.inr ⟨h1, h2⟩
            · exact Or.inl h2
        · simp only [Listed, hval, hxS, if_false, hx, hxb, ne_eq, not_false_eq_true, true_and,
            false_and, and_false, or_false]
          refine ⟨fun hxy => ⟨?_, hxy⟩, fun hxy => hxy.2⟩
          rintro rfl
          exact hxS ((hS x).mp (hsymm hxy))

/-- Union-find over "orbit-mates" with the roots proved to be in different orbits. -/
structure SeparatingUnionFind (n : ℕ) where
  parent : Fin n → Fin n
  separatedWith : Fin n → Option (Finset (Fin n))
  forest : Forest parent
  table : TableInv parent separatedWith

namespace SeparatingUnionFind

/-- Every vertex alone, nothing separated. -/
def init (n : ℕ) : SeparatingUnionFind n where
  parent := id
  separatedWith := fun _ => none
  forest := ⟨fun _ => 0, fun _ h => absurd rfl h⟩
  table := ⟨fun ⟨_, h, _⟩ => by simp at h, fun ⟨_, h, _⟩ => by simp at h, fun _ ⟨_, h, _⟩ => by simp at h⟩

variable (uf : SeparatingUnionFind n)

/-- The representative of `x`'s component. -/
def root (x : Fin n) : Fin n := rootOf uf.parent x

/-- The representative of `x`'s component, with the chain of `x` compressed. -/
def find (x : Fin n) : Fin n × SeparatingUnionFind n :=
  (uf.root x, {
    parent := compress (uf.root x) n uf.parent x
    separatedWith := uf.separatedWith
    forest := (compress_spec n uf.parent x uf.forest rfl).1
    table := ⟨uf.table.symm,
      fun h => ((compress_spec n uf.parent x uf.forest rfl).2 _).trans (uf.table.root h),
      uf.table.irrefl⟩ })

/-- True iff the components of `a` and `b` were already proven to be different orbits. -/
def separated (a b : Fin n) : Bool × SeparatingUnionFind n :=
  let (ra, uf) := uf.find a
  let (rb, uf) := uf.find b
  ((uf.separatedWith ra).any fun s => rb ∈ s, uf)

@[simp] theorem find_fst (x : Fin n) : (uf.find x).1 = uf.root x := rfl

@[simp] theorem root_find (x y : Fin n) : (uf.find x).2.root y = uf.root y :=
  (compress_spec n uf.parent x uf.forest rfl).2 y

@[simp] theorem separatedWith_find (x : Fin n) : (uf.find x).2.separatedWith = uf.separatedWith := rfl

theorem root_root (x : Fin n) : uf.root (uf.root x) = uf.root x :=
  rootOf_of_isRoot (rootOf_isRoot uf.forest x)

/-- What the structure knows about orbits. -/
def view : Lib.Knowledge (Fin n) where
  mates := fun a b => uf.root a = uf.root b
  apart := fun a b => Listed uf.separatedWith (uf.root a) (uf.root b)
  equiv := ⟨fun _ => rfl, Eq.symm, Eq.trans⟩
  apart_symm := uf.table.symm
  apart_congr := fun h hab => by rwa [← h]
  apart_irrefl := fun _ => uf.table.irrefl _

theorem mates_view {a b : Fin n} : uf.view.mates a b ↔ uf.root a = uf.root b := Iff.rfl

theorem apart_view {a b : Fin n} :
    uf.view.apart a b ↔ Listed uf.separatedWith (uf.root a) (uf.root b) := Iff.rfl

/-- Path compression is invisible. -/
@[simp] theorem view_find (x : Fin n) : (uf.find x).2.view = uf.view :=
  Lib.Knowledge.ext (fun a b => by simp [mates_view]) fun a b => by simp [apart_view]

@[simp] theorem view_separated (a b : Fin n) : (uf.separated a b).2.view = uf.view := by
  simp [separated]

theorem separated_iff (a b : Fin n) : (uf.separated a b).1 = true ↔ uf.view.apart a b := by
  simp [separated, apart_view, Listed, Option.any_eq_true]

/-! ### Learning -/

theorem listed_root_left {a b : Fin n} (h : Listed uf.separatedWith a b) : uf.root a = a :=
  uf.table.root h

theorem listed_root_right {a b : Fin n} (h : Listed uf.separatedWith a b) : uf.root b = b :=
  uf.table.root (uf.table.symm h)

/-- The table after two different roots were put apart. -/
theorem table_separate {ra rb : Fin n} (ha : uf.root ra = ra) (hb : uf.root rb = rb) (hne : ra ≠ rb) :
    TableInv uf.parent (addTo (addTo uf.separatedWith ra rb) rb ra) where
  symm := by
    intro x y h
    simp only [listed_addTo] at h ⊢
    rcases h with (h | ⟨rfl, rfl⟩) | ⟨rfl, rfl⟩
    · exact Or.inl (Or.inl (uf.table.symm h))
    · exact Or.inr ⟨rfl, rfl⟩
    · exact Or.inl (Or.inr ⟨rfl, rfl⟩)
  root := by
    intro x y h
    simp only [listed_addTo] at h
    rcases h with (h | ⟨rfl, rfl⟩) | ⟨rfl, rfl⟩
    · exact uf.table.root h
    · exact ha
    · exact hb
  irrefl := by
    intro x h
    simp only [listed_addTo] at h
    rcases h with (h | ⟨rfl, h⟩) | ⟨rfl, h⟩
    · exact uf.table.irrefl x h
    · exact hne h
    · exact hne h.symm

/-- The table after one root was absorbed by another. -/
theorem table_absorb {ra rb : Fin n} (ha : uf.root ra = ra) (hb : uf.root rb = rb) (hne : ra ≠ rb)
    (hsep : ¬Listed uf.separatedWith ra rb) :
    TableInv (Function.update uf.parent rb ra) (absorb uf.separatedWith ra rb) := by
  have hlisted : ∀ {x y}, Listed (absorb uf.separatedWith ra rb) x y ↔ _ := fun {x y} =>
    listed_absorb uf.table.symm uf.table.irrefl hne hsep (x := x) (y := y)
  have hpa : uf.parent ra = ra := ha ▸ rootOf_isRoot uf.forest ra
  have hpb : uf.parent rb = rb := hb ▸ rootOf_isRoot uf.forest rb
  have hroot : ∀ x, x ≠ rb → uf.root x = x → rootOf (Function.update uf.parent rb ra) x = x := by
    intro x hx hr
    rw [(link_root uf.forest hpa hpb hne).2, show rootOf uf.parent x = x from hr, if_neg hx]
  refine ⟨fun {x y} h => ?_, fun {x y} h => ?_, fun x h => ?_⟩
  · obtain ⟨hx, hy, h⟩ := hlisted.mp h
    refine hlisted.mpr ⟨hy, hx, ?_⟩
    rcases h with h | h | h
    · exact Or.inl (uf.table.symm h)
    · exact Or.inr (Or.inr h)
    · exact Or.inr (Or.inl h)
  · obtain ⟨hx, -, h⟩ := hlisted.mp h
    refine hroot x hx ?_
    rcases h with h | ⟨rfl, -⟩ | ⟨-, h⟩
    · exact uf.listed_root_left h
    · exact ha
    · exact uf.listed_root_right h
  · obtain ⟨-, -, hx | ⟨rfl, hx⟩ | ⟨rfl, hx⟩⟩ := hlisted.mp h
    · exact uf.table.irrefl x hx
    · exact hsep (uf.table.symm hx)
    · exact hsep (uf.table.symm hx)

/-- Record a verified UNSAT. -/
def markSeparated (a b : Fin n) : Except String (SeparatingUnionFind n) :=
  let ra := uf.root a
  let rb := uf.root b
  let found := ((uf.find a).2.find b).2
  if hne : ra ≠ rb then
    .ok {
      parent := found.parent
      separatedWith := addTo (addTo found.separatedWith ra rb) rb ra
      forest := found.forest
      table := found.table_separate (by simp [found, ra, root_root]) (by simp [found, rb, root_root])
        hne }
  else .error s!"attempted to mark ({a},{b}) separated but they are already in the same component -- contradiction in the driver, not this class"

/-- Record a verified SAT: the root of `b` is absorbed into the root of `a`. -/
def union (a b : Fin n) : Except String (SeparatingUnionFind n) :=
  let ra := uf.root a
  let rb := uf.root b
  let found := ((uf.find a).2.find b).2
  have hra : found.root ra = ra := by simp [found, ra, root_root]
  have hrb : found.root rb = rb := by simp [found, rb, root_root]
  if hne : ra = rb then .ok found
  else if hsep : (found.separatedWith ra).any fun s => rb ∈ s then
    .error s!"attempted to union components {ra} and {rb} that were already proven separated -- contradiction in the driver, not this class"
  else
    .ok {
      parent := Function.update found.parent rb ra
      separatedWith := absorb found.separatedWith ra rb
      forest := (link_root found.forest (hra ▸ rootOf_isRoot found.forest ra)
        (hrb ▸ rootOf_isRoot found.forest rb) hne).1
      table := found.table_absorb hra hrb hne (by
        simpa [Listed, Option.any_eq_true] using hsep) }

/-- Marking succeeds unless the two are known to be mates, and records that they are apart. -/
theorem markSeparated_ok {a b : Fin n} (h : ¬uf.view.mates a b) :
    ∃ uf', uf.markSeparated a b = .ok uf' ∧ uf'.view = uf.view.separate a b h := by
  rw [markSeparated]
  simp only [dif_pos (show uf.root a ≠ uf.root b from h)]
  refine ⟨_, rfl, Lib.Knowledge.ext (fun x y => ?_) fun x y => ?_⟩
  · change ((uf.find a).2.find b).2.root x = ((uf.find a).2.find b).2.root y ↔ _
    rw [root_find, root_find, root_find, root_find]
    rfl
  · change Listed (addTo (addTo uf.separatedWith _ _) _ _) (((uf.find a).2.find b).2.root x)
      (((uf.find a).2.find b).2.root y) ↔ _
    rw [root_find, root_find, root_find, root_find, listed_addTo, listed_addTo, or_assoc]
    rfl

/-- The table after absorption, read at the new roots. -/
theorem listed_absorb_root {ra rb X Y : Fin n} (hne : ra ≠ rb)
    (hsep : ¬Listed uf.separatedWith ra rb) :
    Listed (absorb uf.separatedWith ra rb) (if X = rb then ra else X) (if Y = rb then ra else Y) ↔
      Listed uf.separatedWith X Y ∨
        ((X = ra ∨ X = rb) ∧ (Listed uf.separatedWith ra Y ∨ Listed uf.separatedWith rb Y)) ∨
        ((Y = ra ∨ Y = rb) ∧ (Listed uf.separatedWith ra X ∨ Listed uf.separatedWith rb X)) := by
  have hsymm : ∀ {x y}, Listed uf.separatedWith x y ↔ Listed uf.separatedWith y x :=
    ⟨uf.table.symm, uf.table.symm⟩
  have hirr := uf.table.irrefl
  have hsep' : ¬Listed uf.separatedWith rb ra := fun h => hsep (hsymm.mp h)
  rw [listed_absorb uf.table.symm hirr hne hsep]
  by_cases hX : X = rb <;> by_cases hY : Y = rb
  · subst hX; subst hY
    simp [hne, hirr, hsep, hsep']
  · subst hX
    rw [if_pos rfl, if_neg hY]
    simp only [hne, hY, ne_eq, not_false_eq_true, true_and, hsep, hsep', hirr, or_true, or_false,
      and_false]
    tauto
  · subst hY
    rw [if_pos rfl, if_neg hX]
    simp only [hne, hX, ne_eq, not_false_eq_true, true_and, hsep, hsep', hirr, or_true, or_false,
      and_false, false_or, hsymm (x := X)]
    tauto
  · rw [if_neg hX, if_neg hY]
    simp only [hX, hY, ne_eq, not_false_eq_true, true_and, or_false]
    constructor
    · rintro (h | ⟨h, h'⟩ | ⟨h, h'⟩)
      · exact Or.inl h
      · exact Or.inr (Or.inl ⟨h, Or.inr h'⟩)
      · exact Or.inr (Or.inr ⟨h, Or.inr h'⟩)
    · rintro (h | ⟨rfl, h | h⟩ | ⟨rfl, h | h⟩)
      · exact Or.inl h
      · exact Or.inl h
      · exact Or.inr (Or.inl ⟨rfl, h⟩)
      · exact Or.inl (hsymm.mp h)
      · exact Or.inr (Or.inr ⟨rfl, h⟩)

/-- Joining succeeds unless the two are known to be apart, and records that they are mates. -/
theorem union_ok {a b : Fin n} (h : ¬uf.view.apart a b) :
    ∃ uf', uf.union a b = .ok uf' ∧ uf'.view = uf.view.join a b h := by
  rw [union]
  by_cases hab : uf.root a = uf.root b
  · simp only [dif_pos hab]
    refine ⟨_, rfl, ?_⟩
    rw [view_find, view_find, Lib.Knowledge.join_of_mates h hab]
  · have hsep : ¬(((uf.find a).2.find b).2.separatedWith (uf.root a)).any
        (fun s => uf.root b ∈ s) = true := by
      simpa [apart_view, Listed, Option.any_eq_true] using h
    simp only [dif_neg hab, dif_neg hsep]
    refine ⟨_, rfl, ?_⟩
    set found := ((uf.find a).2.find b).2 with hfound
    have hroot : ∀ x, found.root x = uf.root x := fun x => by rw [hfound, root_find, root_find]
    have hisRoot : ∀ x, found.parent (uf.root x) = uf.root x := by
      intro x; rw [← hroot x]; exact rootOf_isRoot found.forest x
    have hlink : ∀ x, rootOf (Function.update found.parent (uf.root b) (uf.root a)) x =
        if uf.root x = uf.root b then uf.root a else uf.root x := fun x => by
      rw [(link_root found.forest (hisRoot a) (hisRoot b) hab).2]
      simp only [show rootOf found.parent x = uf.root x from hroot x]
    refine Lib.Knowledge.ext (fun x y => ?_) fun x y => ?_
    · change rootOf _ x = rootOf _ y ↔ uf.root x = uf.root y ∨
        ((uf.root x = uf.root a ∨ uf.root x = uf.root b) ∧
          (uf.root y = uf.root a ∨ uf.root y = uf.root b))
      rw [hlink, hlink]
      by_cases hx : uf.root x = uf.root b <;> by_cases hy : uf.root y = uf.root b
      · simp [hx, hy]
      · rw [if_pos hx, if_neg hy, hx]
        simp only [hy, or_true, or_false, true_and]
        exact ⟨fun h => Or.inr h.symm, fun h => h.elim (fun h => absurd h.symm hy) Eq.symm⟩
      · simp [hx, hy]
      · rw [if_neg hx, if_neg hy]
        simp only [hx, hy, or_false]
        exact ⟨Or.inl, fun h => h.elim id fun h => h.1.trans h.2.symm⟩
    · change Listed _ (rootOf _ x) (rootOf _ y) ↔ _
      rw [hlink, hlink]
      exact found.listed_absorb_root hab (by simpa [Listed, Option.any_eq_true] using hsep)

@[simp] theorem view_init (n : ℕ) : (init n).view = Lib.Knowledge.nothing (Fin n) := by
  refine Lib.Knowledge.ext (fun a b => ?_) fun a b => ?_
  · simp [mates_view, root, init, rootOf_of_isRoot, Lib.Knowledge.nothing]
  · simp [apart_view, Listed, init, Lib.Knowledge.nothing]

end SeparatingUnionFind

end Dialysis.Sat
