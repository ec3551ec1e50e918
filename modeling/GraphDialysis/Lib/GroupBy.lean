import Mathlib.Data.List.Basic
import Mathlib.Data.List.Induction
import Mathlib.Data.List.Nodup

/-! Grouping a list by a key, as a linked hash map does it: one group per key, the groups in the
    order in which their keys first occur, each group in list order. The whole behaviour is the
    pair `mem_groupBy` (a group is the filter of the list by its key) and `keys_nodup` (no key has
    two groups); everything a caller needs about the partition follows from these two. -/

namespace Lib
variable {α κ : Type*} [DecidableEq κ]

/-- Append `x` to the group of `k`, opening that group at the end if there is none yet. -/
def addToGroup (k : κ) (x : α) : List (κ × List α) → List (κ × List α)
  | [] => [(k, [x])]
  | (k', xs) :: t => if k' = k then (k', xs ++ [x]) :: t else (k', xs) :: addToGroup k x t

/-- The groups of `l` by `key`, with their keys. -/
def groupBy (key : α → κ) (l : List α) : List (κ × List α) :=
  l.foldl (fun acc x => addToGroup (key x) x acc) []

/-- The groups alone, without their keys. -/
def groups (key : α → κ) (l : List α) : List (List α) := (groupBy key l).map (·.2)

theorem groupBy_concat (key : α → κ) (l : List α) (x : α) :
    groupBy key (l ++ [x]) = addToGroup (key x) x (groupBy key l) := by
  simp [groupBy]

theorem keys_addToGroup (k : κ) (x : α) (acc : List (κ × List α)) :
    (addToGroup k x acc).map (·.1) =
      if k ∈ acc.map (·.1) then acc.map (·.1) else acc.map (·.1) ++ [k] := by
  induction acc with
  | nil => simp [addToGroup]
  | cons p t ih =>
    obtain ⟨k', xs⟩ := p
    by_cases h : k' = k
    · simp [addToGroup, h]
    · have h' : k ≠ k' := fun e => h e.symm
      simp only [addToGroup, if_neg h, List.map_cons, ih, List.mem_cons, h', false_or]
      split <;> rfl

/-- No key has two groups. -/
theorem keys_nodup (key : α → κ) (l : List α) : ((groupBy key l).map (·.1)).Nodup := by
  induction l using List.reverseRecOn with
  | nil => simp [groupBy]
  | append_singleton l x ih =>
    rw [groupBy_concat, keys_addToGroup]
    split
    · exact ih
    · rename_i h
      exact List.nodup_append.mpr ⟨ih, by simp, by
        rintro a ha b hb rfl
        exact h (List.mem_singleton.mp hb ▸ ha)⟩

theorem mem_addToGroup {k : κ} {x : α} {acc : List (κ × List α)} (hnd : (acc.map (·.1)).Nodup)
    {p : κ × List α} :
    p ∈ addToGroup k x acc ↔
      (p ∈ acc ∧ p.1 ≠ k) ∨ (∃ xs, (k, xs) ∈ acc ∧ p = (k, xs ++ [x])) ∨
        (k ∉ acc.map (·.1) ∧ p = (k, [x])) := by
  induction acc with
  | nil => simp [addToGroup]
  | cons q t ih =>
    obtain ⟨k', xs⟩ := q
    rw [List.map_cons, List.nodup_cons] at hnd
    by_cases h : k' = k
    · subst h
      have hk : ∀ ys, (k', ys) ∉ t := fun ys hy =>
        hnd.1 (List.mem_map.mpr ⟨(k', ys), hy, rfl⟩)
      have hp : p ∈ t → p.1 ≠ k' := fun hp e => hk p.2 (e ▸ hp)
      simp only [addToGroup, if_true, List.mem_cons, List.map_cons]
      constructor
      · rintro (rfl | hp')
        · exact Or.inr (Or.inl ⟨xs, Or.inl rfl, rfl⟩)
        · exact Or.inl ⟨Or.inr hp', hp hp'⟩
      · rintro (⟨rfl | hp', hne⟩ | ⟨ys, hys | hys, rfl⟩ | ⟨hn, rfl⟩)
        · exact absurd rfl hne
        · exact Or.inr hp'
        · exact Or.inl (by rw [(Prod.mk.inj hys).2])
        · exact absurd hys (hk ys)
        · exact absurd (Or.inl trivial) hn
    · have h' : k ≠ k' := fun e => h e.symm
      simp only [addToGroup, if_neg h, List.mem_cons, ih hnd.2, List.map_cons, h', false_or,
        Prod.mk.injEq, false_and]
      constructor
      · rintro (rfl | ⟨hp, hne⟩ | hp | hp)
        · exact Or.inl ⟨Or.inl rfl, h⟩
        · exact Or.inl ⟨Or.inr hp, hne⟩
        · exact Or.inr (Or.inl hp)
        · exact Or.inr (Or.inr hp)
      · rintro (⟨rfl | hp, hne⟩ | hp | hp)
        · exact Or.inl rfl
        · exact Or.inr (Or.inl ⟨hp, hne⟩)
        · exact Or.inr (Or.inr (Or.inl hp))
        · exact Or.inr (Or.inr (Or.inr hp))

/-- A keyed group is exactly the nonempty filter of the list by its key. -/
theorem mem_groupBy {key : α → κ} {l : List α} {p : κ × List α} :
    p ∈ groupBy key l ↔ p.1 ∈ l.map key ∧ p.2 = l.filter (fun x => key x = p.1) := by
  induction l using List.reverseRecOn generalizing p with
  | nil => simp [groupBy]
  | append_singleton l x ih =>
    obtain ⟨k, ys⟩ := p
    rw [groupBy_concat, mem_addToGroup (keys_nodup key l)]
    have hkeys : key x ∈ (groupBy key l).map (·.1) ↔ key x ∈ l.map key := by
      simp only [List.mem_map (l := groupBy key l)]
      constructor
      · rintro ⟨q, hq, he⟩; exact he ▸ (ih.mp hq).1
      · intro hx; exact ⟨(key x, l.filter fun y => key y = key x), ih.mpr ⟨hx, rfl⟩, rfl⟩
    rw [hkeys, ih]
    simp only [List.map_append, List.map_cons, List.map_nil, List.mem_append, List.mem_singleton,
      List.filter_append, Prod.mk.injEq]
    by_cases hk : k = key x
    · subst hk
      simp only [ne_eq, not_true_eq_false, and_false, true_and, false_or, or_true, decide_true,
        List.filter_cons_of_pos, List.filter_nil]
      constructor
      · rintro (⟨xs, hxs, rfl⟩ | ⟨hn, rfl⟩)
        · exact congrArg (· ++ [x]) (ih.mp hxs).2
        · have hnil : l.filter (fun y => decide (key y = key x)) = [] := by
            rw [List.filter_eq_nil_iff]
            intro y hy
            simpa using fun e : key y = key x => hn (e ▸ List.mem_map_of_mem hy)
          rw [hnil]; rfl
      · intro h
        by_cases hn : key x ∈ l.map key
        · exact Or.inl ⟨_, ih.mpr ⟨hn, rfl⟩, h⟩
        · have hnil : l.filter (fun y => decide (key y = key x)) = [] := by
            rw [List.filter_eq_nil_iff]
            intro y hy
            simpa using fun e : key y = key x => hn (e ▸ List.mem_map_of_mem hy)
          exact Or.inr ⟨hn, by rw [h, hnil]; rfl⟩
    · have hk' : ¬key x = k := fun e => hk e.symm
      simp [hk, hk']

/-- A group is the filter of the list by the key of one of its elements. -/
theorem mem_groups {key : α → κ} {l : List α} {xs : List α} :
    xs ∈ groups key l ↔ ∃ x ∈ l, xs = l.filter (fun y => key y = key x) := by
  simp only [groups, List.mem_map, mem_groupBy]
  constructor
  · rintro ⟨p, ⟨⟨x, hx, he⟩, hp⟩, rfl⟩
    exact ⟨x, hx, by rw [hp, he]⟩
  · rintro ⟨x, hx, rfl⟩
    exact ⟨(key x, l.filter fun y => key y = key x), ⟨⟨x, hx, rfl⟩, rfl⟩, rfl⟩

theorem mem_of_mem_groups {key : α → κ} {l xs : List α} (h : xs ∈ groups key l) {x : α}
    (hx : x ∈ xs) : x ∈ l := by
  obtain ⟨y, -, rfl⟩ := mem_groups.mp h
  exact (List.mem_filter.mp hx).1

/-- Inside a group, membership is agreement of keys. -/
theorem mem_group_iff {key : α → κ} {l xs : List α} (h : xs ∈ groups key l) {x y : α} (hx : x ∈ xs) :
    y ∈ xs ↔ y ∈ l ∧ key y = key x := by
  obtain ⟨z, -, rfl⟩ := mem_groups.mp h
  have hxz : key x = key z := by simpa using (List.mem_filter.mp hx).2
  simp [List.mem_filter, hxz]

/-- Every element has its group. -/
theorem exists_group (key : α → κ) {l : List α} {x : α} (hx : x ∈ l) :
    ∃ xs ∈ groups key l, x ∈ xs :=
  ⟨_, mem_groups.mpr ⟨x, hx, rfl⟩, by simp [List.mem_filter, hx]⟩

/-- Two groups that share an element are the same group. -/
theorem group_unique {key : α → κ} {l xs ys : List α} (hxs : xs ∈ groups key l)
    (hys : ys ∈ groups key l) {x : α} (hx : x ∈ xs) (hy : x ∈ ys) : xs = ys := by
  obtain ⟨a, -, rfl⟩ := mem_groups.mp hxs
  obtain ⟨b, -, rfl⟩ := mem_groups.mp hys
  have ha : key x = key a := by simpa using (List.mem_filter.mp hx).2
  have hb : key x = key b := by simpa using (List.mem_filter.mp hy).2
  rw [← ha, ← hb]

theorem group_ne_nil {key : α → κ} {l xs : List α} (h : xs ∈ groups key l) : xs ≠ [] := by
  obtain ⟨x, hx, rfl⟩ := mem_groups.mp h
  intro hnil
  have : x ∈ l.filter (fun y => decide (key y = key x)) := by simp [List.mem_filter, hx]
  rw [hnil] at this
  simp at this

theorem group_nodup {key : α → κ} {l xs : List α} (hl : l.Nodup) (h : xs ∈ groups key l) :
    xs.Nodup := by
  obtain ⟨x, -, rfl⟩ := mem_groups.mp h
  exact hl.filter _

/-- A statement about every element and its group, without mentioning the groups. -/
theorem forall_groups (key : α → κ) {l : List α} {P : List α → α → Prop} :
    (∀ xs ∈ groups key l, ∀ x ∈ xs, P xs x) ↔
      ∀ x ∈ l, P (l.filter fun y => key y = key x) x := by
  constructor
  · intro h x hx
    exact h _ (mem_groups.mpr ⟨x, hx, rfl⟩) x (by simp [List.mem_filter, hx])
  · intro h xs hxs x hx
    obtain ⟨y, -, rfl⟩ := mem_groups.mp hxs
    obtain ⟨hxl, hxy⟩ := List.mem_filter.mp hx
    have := h x hxl
    rwa [show key x = key y from of_decide_eq_true hxy] at this

/-- The group an element is found in. -/
def groupOf [DecidableEq α] (gs : List (List α)) (x : α) : List α :=
  (gs.find? fun xs => x ∈ xs).getD []

theorem groupOf_groups [DecidableEq α] {key : α → κ} {l : List α} {x : α} (hx : x ∈ l) :
    groupOf (groups key l) x = l.filter fun y => key y = key x := by
  obtain ⟨xs, hxs, hmem⟩ := exists_group key hx
  obtain ⟨ys, hys⟩ := Option.isSome_iff_exists.mp
    (List.find?_isSome (p := fun zs : List α => decide (x ∈ zs)).mpr ⟨xs, hxs, by simpa using hmem⟩)
  rw [groupOf, hys, Option.getD_some]
  have hy : x ∈ ys := by simpa using List.find?_some hys
  exact group_unique (List.mem_of_find?_eq_some hys) (mem_groups.mpr ⟨x, hx, rfl⟩) hy
    (by simp [List.mem_filter, hx])

/-- Distinct positions hold disjoint groups. -/
theorem groups_pairwise_disjoint (key : α → κ) (l : List α) :
    (groups key l).Pairwise List.Disjoint := by
  have hnd := keys_nodup key l
  rw [groups, List.pairwise_map]
  rw [List.Nodup, List.pairwise_map] at hnd
  refine hnd.imp_of_mem fun {p q} hp hq hne => ?_
  intro x hxp hxq
  rw [(mem_groupBy.mp hp).2, List.mem_filter] at hxp
  rw [(mem_groupBy.mp hq).2, List.mem_filter] at hxq
  have h1 : key x = p.1 := by simpa using hxp.2
  have h2 : key x = q.1 := by simpa using hxq.2
  exact hne (h1.symm.trans h2)

/-- Two elements are listed in one class. -/
def SameClass {α : Type*} (classes : List (List α)) (a b : α) : Prop :=
  ∃ c ∈ classes, a ∈ c ∧ b ∈ c

instance {α : Type*} [DecidableEq α] (classes : List (List α)) (a b : α) :
    Decidable (SameClass classes a b) := by unfold SameClass; infer_instance

theorem sameClass_groups {key : α → κ} {l : List α} {a b : α} :
    SameClass (groups key l) a b ↔ a ∈ l ∧ b ∈ l ∧ key a = key b := by
  constructor
  · rintro ⟨c, hc, ha, hb⟩
    have := (mem_group_iff hc ha).mp hb
    exact ⟨mem_of_mem_groups hc ha, this.1, this.2.symm⟩
  · rintro ⟨ha, hb, he⟩
    obtain ⟨c, hc, hac⟩ := exists_group key ha
    exact ⟨c, hc, hac, (mem_group_iff hc hac).mpr ⟨hb, he.symm⟩⟩

/-- Put one after another, the groups are a rearrangement of the list. -/
theorem flatten_groups_perm [DecidableEq α] (key : α → κ) {l : List α} (hl : l.Nodup) :
    (groups key l).flatten.Perm l := by
  refine (List.perm_ext_iff_of_nodup ?_ hl).mpr fun x => ?_
  · rw [List.nodup_flatten]
    exact ⟨fun xs hxs => group_nodup hl hxs, groups_pairwise_disjoint key l⟩
  · rw [List.mem_flatten]
    constructor
    · rintro ⟨xs, hxs, hx⟩; exact mem_of_mem_groups hxs hx
    · intro hx; exact exists_group key hx

/-- In a map with distinct keys, a key is looked up to its entry. -/
theorem lookup_of_mem {β : Type*} {k : κ} {b : β} : ∀ {m : List (κ × β)}, (m.map (·.1)).Nodup →
    (k, b) ∈ m → m.lookup k = some b
  | (k', b') :: m, hnd, h => by
    rw [List.map_cons, List.nodup_cons] at hnd
    rw [List.lookup_cons]
    rcases List.mem_cons.mp h with he | h
    · rw [Prod.mk.injEq] at he
      simp [he.1, he.2]
    · have hne : k ≠ k' := fun hk => hnd.1 (List.mem_map.mpr ⟨(k, b), h, hk⟩)
      rw [beq_eq_false_iff_ne.mpr hne]
      exact lookup_of_mem hnd.2 h

theorem lookup_of_notMem {β : Type*} {k : κ} : ∀ {m : List (κ × β)}, k ∉ m.map (·.1) →
    m.lookup k = none
  | [], _ => rfl
  | (k', b') :: m, h => by
    rw [List.map_cons, List.mem_cons, not_or] at h
    rw [List.lookup_cons, beq_eq_false_iff_ne.mpr h.1]
    exact lookup_of_notMem h.2

/-- The group of a key, empty where no element has it. -/
theorem lookup_groupBy (key : α → κ) (l : List α) (k : κ) :
    ((groupBy key l).lookup k).getD [] = l.filter fun x => key x = k := by
  by_cases hk : k ∈ l.map key
  · have hmem : (k, l.filter fun x => key x = k) ∈ groupBy key l := mem_groupBy.mpr ⟨hk, rfl⟩
    rw [lookup_of_mem (keys_nodup key l) hmem, Option.getD_some]
  · rw [lookup_of_notMem fun hk' => ?_, Option.getD_none]
    · refine (List.filter_eq_nil_iff.mpr fun x hx => ?_).symm
      rw [decide_eq_true_eq]
      rintro rfl
      exact hk (List.mem_map_of_mem hx)
    · obtain ⟨p, hp, rfl⟩ := List.mem_map.mp hk'
      exact hk (mem_groupBy.mp hp).1

end Lib
