import GraphDialysis.Ahu.ColoredAHU
import GraphDialysis.Lib.Outcome

/-! Reading the canonical strings of a result back from the pool, and what can go wrong before: on a
    tree `compute` fails only when the pool refuses a string for its size (`compute_outcome`), and
    otherwise every vertex of the tree has its string (`HasStrings`). A pool that was empty once only
    ever holds strings that fit, so a result bounds the number of children (`length_children_le`). -/

namespace Dialysis.Ahu
open Lib

/-- `canonicalFormOf`, from the pool as it is when it is called. -/
def canonicalFormOf (pool : InternPool) (id : ℕ) : Except String KString :=
  match pool.strings[id]? with
  | some s => .ok s
  | none => .error ("Index " ++ toString id ++ " out of bounds for length " ++ toString pool.strings.length)

def ColoredAHUResult.subtreeCanonicalString {n : ℕ} (ahu : ColoredAHUResult n) (pool : InternPool)
    (v : Fin n) : Except String KString :=
  match ahu.vertexIds v with
  | none => .error ("vertex " ++ toString v ++ " was not reachable from root " ++ toString ahu.root)
  | some id => canonicalFormOf pool id

/-- The pool refuses a string that does not fit into a segment. -/
def SizeError (e : String) : Prop := ∃ s, ¬Fits s ∧ e = "single interned string (" ++
  toString (utf8Size s) ++ " bytes) exceeds SEGMENT_SIZE -- unexpectedly large AHU canonical string"

theorem intern_outcome (pool : InternPool) (s : KString) :
    Outcome (fun r => r.2.Has r.1 s ∧ pool.Adds (fun x => x = s) r.2) SizeError (pool.intern s) := by
  cases h : pool.intern s with
  | ok r => exact InternPool.intern_spec h
  | error e =>
    refine ⟨s, fun hfits => ?_, ?_⟩
    · obtain ⟨r, hr⟩ := InternPool.intern_ok hfits
      rw [h] at hr
      cases hr
    · rw [InternPool.intern] at h
      split at h
      · cases h
      · split at h
        · cases h
        · cases h
          rfl

theorem assignId_outcome {n : ℕ} {keys : List Key} {labels : Fin n → ℤ} {pool : InternPool}
    {done : List (Fin n)} {v : Fin n} {s : Ids n} (h : Assigned keys labels pool done s) :
    Outcome (Assigned keys labels pool (done ++ [v])) SizeError (assignId keys labels s v) := by
  cases hs : assignId keys labels s v with
  | ok s' => exact assigned_step h hs
  | error e =>
    rw [assignId] at hs
    split at hs
    · cases hs
    · split at hs
      · cases hs
      · have hintern := intern_outcome s.pool (canonicalString keys (labels v))
        cases hr : s.pool.intern (canonicalString keys (labels v)) with
        | ok r =>
          rw [hr] at hs
          cases hs
        | error e' =>
          rw [hr] at hs hintern
          cases hs
          exact hintern

variable {g : Graph} {root : Fin g.n} {d : Fin g.n → ℕ} {colors : Fin g.n → Option KString}

/-- Every vertex of the tree has an id, and the pool its string. -/
def HasStrings (g : Graph) (d : Fin g.n → ℕ) (colors : Fin g.n → Option KString) (root : Fin g.n)
    (r : ColoredAHUResult g.n × InternPool) : Prop :=
  ∀ v, Descends g d root v → ∃ id, r.1.vertexIds v = some id ∧ r.2.Has id (subtreeString g d colors v)

theorem compute_outcome [g.Simple] (h : RootedTree g root d) (pool : InternPool) :
    Outcome (HasStrings g d colors root) SizeError (compute g colors root pool) := by
  cases hr : compute g colors root pool with
  | ok r => exact fun v hv => compute_vertex h hr hv
  | error e =>
    obtain ⟨s, hs, hlabelled, -⟩ := computeLabels_spec h
    have hloop := Outcome.foldlM (f := assignId s.keys s.labels) (E := SizeError)
      (I := fun done t => Assigned s.keys s.labels pool done t)
      (fun _ _ _ _ ht => assignId_outcome ht) (List.finRange g.n) [] ⟨[], fun _ => none, pool⟩
      (fun _ hv => hv) assigned_nil
    rw [List.nil_append] at hloop
    rw [compute, hs] at hr
    dsimp only at hr
    cases hids : (List.finRange g.n).foldlM (assignId s.keys s.labels) ⟨[], fun _ => none, pool⟩ with
    | error e' =>
      rw [hids] at hr hloop
      cases hr
      exact hloop
    | ok ids =>
      -- the root is labelled, so it has an id
      rw [hids] at hr hloop
      obtain ⟨id, hid, -⟩ := hloop.vertex root (List.mem_finRange root) ((hlabelled root).mpr .refl)
      simp only [Except.bind, hid] at hr
      cases hr

theorem HasStrings.subtreeCanonicalString {r : ColoredAHUResult g.n × InternPool}
    (h : HasStrings g d colors root r) {v : Fin g.n} (hv : Descends g d root v) :
    r.1.subtreeCanonicalString r.2 v = .ok (subtreeString g d colors v) := by
  obtain ⟨id, hid, hhas⟩ := h v hv
  rw [ColoredAHUResult.subtreeCanonicalString, hid]
  dsimp only
  rw [canonicalFormOf, hhas]

/-! ### Pools whose strings all fit -/

/-- No string of the pool is too long for a segment. -/
def InternPool.AllFit (pool : InternPool) : Prop := ∀ s ∈ pool.strings, Fits s

theorem allFit_empty : InternPool.empty.AllFit := by simp [InternPool.AllFit, InternPool.empty]

theorem intern_allFit {pool : InternPool} {s : KString} {r : ℕ × InternPool} (h : pool.AllFit)
    (hr : pool.intern s = .ok r) : r.2.AllFit := by
  rw [InternPool.intern] at hr
  split at hr
  · cases hr
    exact h
  · split at hr
    · rename_i hs
      cases hr
      intro x hx
      rcases List.mem_append.mp hx with hx | hx
      · exact h x hx
      · rw [List.mem_singleton.mp hx]
        exact hs
    · cases hr

theorem assignId_allFit {n : ℕ} {keys : List Key} {labels : Fin n → ℤ} {v : Fin n} {s s' : Ids n}
    (h : s.pool.AllFit) (hs : assignId keys labels s v = .ok s') : s'.pool.AllFit := by
  rw [assignId] at hs
  split at hs
  · cases hs
    exact h
  · split at hs
    · cases hs
      exact h
    · obtain ⟨r, hr, hs⟩ := bind_ok hs
      cases hs
      exact intern_allFit h hr

theorem compute_allFit {pool : InternPool} {r : ColoredAHUResult g.n × InternPool} (h : pool.AllFit)
    (hr : compute g colors root pool = .ok r) : r.2.AllFit := by
  unfold compute at hr
  split at hr
  · cases hr
  · obtain ⟨ids, hids, hr⟩ := bind_ok hr
    have hfit : ids.pool.AllFit := foldlM_inv (P := fun _ s => s.pool.AllFit)
      (fun _ _ _ _ => assignId_allFit) _ [] _ _ h hids
    split at hr
    · cases hr
    · cases hr
      exact hfit

theorem length_le_utf8Size (s : KString) : s.length ≤ utf8Size s := by
  rw [utf8Size, ← List.length_map (f := fun c : Char => c.utf8Size)]
  refine List.length_le_sum_of_one_le _ fun k hk => ?_
  obtain ⟨c, -, rfl⟩ := List.mem_map.mp hk
  exact Char.utf8Size_pos c

/-- A vertex has fewer children than its string has characters. -/
theorem length_children_le (v : Fin g.n) :
    (children g d v).length ≤ (subtreeString g d colors v).length := by
  have hflat : (children g d v).length ≤
      (sortNative ((children g d v).map (subtreeString g d colors))).flatten.length := by
    rw [List.length_flatten, ← List.length_map (f := subtreeString g d colors),
      ← (sortOn_perm modifiedUtf8 _).length_eq, ← List.length_map (f := List.length)]
    refine List.length_le_sum_of_one_le _ fun k hk => ?_
    obtain ⟨s, hs, rfl⟩ := List.mem_map.mp hk
    obtain ⟨w, -, rfl⟩ := List.mem_map.mp ((sortOn_perm modifiedUtf8 _).mem_iff.mp hs)
    rw [subtreeString_eq]
    exact Nat.le_add_left _ _
  rw [subtreeString_eq, List.length_append, List.length_append]
  omega

end Dialysis.Ahu
