import Mathlib.Data.List.Basic
import Mathlib.Data.List.Perm.Basic

/-! Exact covers whose blocks have to get on with each other. A search may fix any element of the target
    and try the blocks that contain it: `hasCover_iff` says that nothing is missed, when the target
    loses the elements of the block and the blocks that do not get on with it are given up. -/

namespace Lib
variable {α β : Type*} [DecidableEq α] (members : β → List α) (compat : β → β → Prop)

/-- The blocks contain every element of the target exactly once and no other. -/
structure Covers (allowed : β → Prop) (target : List α) (sol : List β) : Prop where
  allowed : ∀ b ∈ sol, allowed b
  apart : sol.Pairwise fun b b' => (∀ a ∈ members b, a ∉ members b') ∧ compat b b'
  mem_iff : ∀ a, a ∈ target ↔ ∃ b ∈ sol, a ∈ members b

def HasCover (allowed : β → Prop) (target : List α) : Prop := ∃ sol, Covers members compat allowed target sol

variable {members compat} {allowed : β → Prop} {target : List α} {sol : List β}

omit [DecidableEq α] in
theorem covers_nil : Covers members compat allowed [] [] := ⟨by simp, List.Pairwise.nil, by simp⟩

/-- What is left of the target beside a block. -/
theorem mem_rest {b : β} {a : α} :
    a ∈ target.filter (· ∉ members b) ↔ a ∈ target ∧ a ∉ members b := by
  rw [List.mem_filter, decide_eq_true_eq]

theorem Covers.cons {b : β} (hb : allowed b) (hsub : ∀ a ∈ members b, a ∈ target)
    (h : Covers members compat (fun b' => allowed b' ∧ compat b b')
      (target.filter (· ∉ members b)) sol) : Covers members compat allowed target (b :: sol) where
  allowed := List.forall_mem_cons.mpr ⟨hb, fun b' hb' => (h.allowed b' hb').1⟩
  apart := by
    refine List.pairwise_cons.mpr ⟨fun b' hb' => ⟨fun a ha ha' => ?_, (h.allowed b' hb').2⟩, h.apart⟩
    exact (mem_rest.mp ((h.mem_iff a).mpr ⟨b', hb', ha'⟩)).2 ha
  mem_iff := by
    intro a
    rw [List.exists_mem_cons_iff, ← h.mem_iff, mem_rest]
    by_cases ha : a ∈ members b
    · exact iff_of_true (hsub a ha) (Or.inl ha)
    · rw [or_iff_right ha, and_iff_left ha]

/-- The block that contains an element of the target can be taken first. -/
theorem Covers.exists_cons (hsymm : ∀ b b', compat b b' → compat b' b)
    (h : Covers members compat allowed target sol) {e : α} (he : e ∈ target) :
    ∃ b sol', allowed b ∧ e ∈ members b ∧ (∀ a ∈ members b, a ∈ target) ∧
      Covers members compat (fun b' => allowed b' ∧ compat b b') (target.filter (· ∉ members b)) sol' := by
  obtain ⟨b, hb, heb⟩ := (h.mem_iff e).mp he
  obtain ⟨sol', hperm⟩ : ∃ sol', sol.Perm (b :: sol') := by
    obtain ⟨before, after, rfl⟩ := List.append_of_mem hb
    exact ⟨before ++ after, List.perm_middle⟩
  have hapart := (hperm.pairwise_iff fun {b b'} hbb => ⟨fun a ha ha' => hbb.1 a ha' ha,
    hsymm _ _ hbb.2⟩).mp h.apart
  rw [List.pairwise_cons] at hapart
  have hmem : ∀ a, a ∈ target ↔ a ∈ members b ∨ ∃ b' ∈ sol', a ∈ members b' := fun a => by
    refine (h.mem_iff a).trans (Iff.trans ?_ (List.exists_mem_cons_iff (fun b' => a ∈ members b') b sol'))
    exact exists_congr fun b' => and_congr_left fun _ => hperm.mem_iff
  refine ⟨b, sol', h.allowed b hb, heb, fun a ha => (hmem a).mpr (Or.inl ha), ?_, hapart.2, fun a => ?_⟩
  · exact fun b' hb' => ⟨h.allowed b' (hperm.mem_iff.mpr (List.mem_cons_of_mem _ hb')), (hapart.1 b' hb').2⟩
  · rw [mem_rest, hmem]
    constructor
    · rintro ⟨ha | ha, hnot⟩
      · exact absurd ha hnot
      · exact ha
    · rintro ⟨b', hb', ha⟩
      exact ⟨Or.inr ⟨b', hb', ha⟩, fun hab => (hapart.1 b' hb').1 a hab ha⟩

/-- Every cover has a block for each element, so the search may fix the element. -/
theorem hasCover_iff (hsymm : ∀ b b', compat b b' → compat b' b) {e : α} (he : e ∈ target) :
    HasCover members compat allowed target ↔ ∃ b, allowed b ∧ e ∈ members b ∧
      (∀ a ∈ members b, a ∈ target) ∧
        HasCover members compat (fun b' => allowed b' ∧ compat b b') (target.filter (· ∉ members b)) := by
  constructor
  · rintro ⟨sol, h⟩
    obtain ⟨b, sol', hb, heb, hsub, h'⟩ := h.exists_cons hsymm he
    exact ⟨b, hb, heb, hsub, sol', h'⟩
  · rintro ⟨b, hb, -, hsub, sol, h⟩
    exact ⟨b :: sol, h.cons hb hsub⟩

omit [DecidableEq α] in
theorem HasCover.congr {allowed' : β → Prop} (h : ∀ b, allowed b ↔ allowed' b) :
    HasCover members compat allowed target ↔ HasCover members compat allowed' target := by
  rw [show allowed = allowed' from funext fun b => propext (h b)]

/-! ### Parts of the target -/

omit [DecidableEq α] in
/-- Covers of targets without common elements, put together. -/
theorem Covers.append {target' : List α} {sol' : List β} (h : Covers members compat allowed target sol)
    (h' : Covers members compat allowed target' sol') (hapart : ∀ a ∈ target, a ∉ target')
    (hcompat : ∀ b ∈ sol, ∀ b' ∈ sol', compat b b') :
    Covers members compat allowed (target ++ target') (sol ++ sol') where
  allowed := fun b hb => (List.mem_append.mp hb).elim (h.allowed b) (h'.allowed b)
  apart := by
    refine List.pairwise_append.mpr ⟨h.apart, h'.apart, fun b hb b' hb' => ⟨fun a ha ha' => ?_, hcompat b hb b' hb'⟩⟩
    exact hapart a ((h.mem_iff a).mpr ⟨b, hb, ha⟩) ((h'.mem_iff a).mpr ⟨b', hb', ha'⟩)
  mem_iff := by
    intro a
    rw [List.mem_append, h.mem_iff, h'.mem_iff]
    simp only [List.mem_append, or_and_right, exists_or]

omit [DecidableEq α] in
/-- The blocks of a cover that meet a part cover it, if they do not leave it. -/
theorem Covers.restrict (h : Covers members compat allowed target sol) {part : List α}
    (hsub : ∀ a ∈ part, a ∈ target)
    (hwhole : ∀ b ∈ sol, ∀ a ∈ members b, a ∈ part → ∀ a' ∈ members b, a' ∈ part) :
    HasCover members compat (fun b => allowed b ∧ ∀ a ∈ members b, a ∈ part) part := by
  classical
  refine ⟨sol.filter fun b => ∃ a ∈ members b, a ∈ part, fun b hb => ?_, h.apart.filter _, fun a => ?_⟩
  · obtain ⟨hb, hmeets⟩ := List.mem_filter.mp hb
    obtain ⟨a, ha, hpart⟩ := of_decide_eq_true hmeets
    exact ⟨h.allowed b hb, hwhole b hb a ha hpart⟩
  · constructor
    · intro ha
      obtain ⟨b, hb, hab⟩ := (h.mem_iff a).mp (hsub a ha)
      exact ⟨b, List.mem_filter.mpr ⟨hb, decide_eq_true ⟨a, hab, ha⟩⟩, hab⟩
    · rintro ⟨b, hb, hab⟩
      obtain ⟨hb, hmeets⟩ := List.mem_filter.mp hb
      obtain ⟨a', ha', hpart⟩ := of_decide_eq_true hmeets
      exact hwhole b hb a' ha' hpart a hab

end Lib
