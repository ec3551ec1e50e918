import GraphDialysis.Ahu.EncodeTree
import GraphDialysis.Lib.Loop

/-! `ColoredAHU.compute`: the session labels of the native encoder are turned into ids of the thread's
    intern pool, an append-only list of strings in which the id is the position. The pool lives on
    between calls, so ids depend on what was interned before; strings do not. `compute_spec` says
    that the id of the root is the position of its canonical string, and that the pool has grown by
    the strings of the tree and nothing else. -/

namespace Dialysis.Ahu
open Lib

/-- Bytes of a string in the pool's file. -/
def utf8Size (s : KString) : ℕ := (s.map fun c => c.utf8Size).sum

/-- A record, with its length, has to fit into a segment of 64 MiB. -/
def Fits (s : KString) : Prop := 4 + utf8Size s ≤ 2 ^ 26

instance (s : KString) : Decidable (Fits s) := inferInstanceAs (Decidable (_ ≤ _))

/-- The interned strings of a thread; an id is a position. -/
structure InternPool where
  strings : List KString
  nodup : strings.Nodup

namespace InternPool

/-- A new thread's pool. -/
def empty : InternPool := ⟨[], List.nodup_nil⟩

/-- The id of a string, appending it when it is new. -/
def intern (pool : InternPool) (s : KString) : Except String (ℕ × InternPool) :=
  if hs : s ∈ pool.strings then .ok (pool.strings.idxOf s, pool)
  else if Fits s then
    .ok (pool.strings.length, ⟨pool.strings ++ [s], List.nodup_append.mpr ⟨pool.nodup,
      List.nodup_singleton s, fun a ha b hb he => hs (by rw [List.mem_singleton] at hb; rw [← hb, ← he]; exact ha)⟩⟩)
  else .error ("single interned string (" ++ toString (utf8Size s) ++
    " bytes) exceeds SEGMENT_SIZE -- unexpectedly large AHU canonical string")

/-- `s` has the id `id`. -/
def Has (pool : InternPool) (id : ℕ) (s : KString) : Prop := pool.strings[id]? = some s

/-- `pool'` is `pool` with the new strings among `S` appended. -/
structure Adds (pool : InternPool) (S : KString → Prop) (pool' : InternPool) : Prop where
  le : pool.strings <+: pool'.strings
  mem : ∀ s, s ∈ pool'.strings ↔ s ∈ pool.strings ∨ S s

variable {pool pool' pool'' : InternPool} {S T : KString → Prop} {i j : ℕ} {s : KString}

theorem Has.inj (hi : pool.Has i s) (hj : pool.Has j s) : i = j := by
  obtain ⟨hi, hei⟩ := List.getElem?_eq_some_iff.mp hi
  obtain ⟨hj, hej⟩ := List.getElem?_eq_some_iff.mp hj
  exact (pool.nodup.getElem_inj_iff).mp (hei.trans hej.symm)

theorem Has.mono (h : pool.Has i s) (hle : pool.strings <+: pool'.strings) : pool'.Has i s := by
  obtain ⟨t, ht⟩ := hle
  rw [Has, ← ht, List.getElem?_append_left (List.getElem?_eq_some_iff.mp h).1]
  exact h

theorem Has.mem (h : pool.Has i s) : s ∈ pool.strings := List.mem_of_getElem? h

theorem Adds.refl (pool : InternPool) : pool.Adds (fun _ => False) pool :=
  ⟨List.prefix_rfl, by simp⟩

theorem Adds.trans (h : pool.Adds S pool') (h' : pool'.Adds T pool'') :
    pool.Adds (fun s => S s ∨ T s) pool'' :=
  ⟨h.le.trans h'.le, fun s => by rw [h'.mem, h.mem, or_assoc]⟩

theorem Adds.congr (h : pool.Adds S pool') (hST : ∀ s, S s ↔ T s) : pool.Adds T pool' :=
  ⟨h.le, fun s => by rw [h.mem, hST]⟩

/-- Nothing is appended when all strings are there. -/
theorem Adds.eq_of_mem (h : pool.Adds S pool') (hS : ∀ s, S s → s ∈ pool.strings) : pool' = pool := by
  obtain ⟨t, ht⟩ := h.le
  have hnil : t = [] := by
    refine List.eq_nil_iff_forall_not_mem.mpr fun x hx => ?_
    have hmem : x ∈ pool'.strings := by rw [← ht]; exact List.mem_append_right _ hx
    have hold : x ∈ pool.strings := ((h.mem x).mp hmem).elim id (hS x)
    have hnd := pool'.nodup
    rw [← ht] at hnd
    exact List.disjoint_of_nodup_append hnd hold hx
  rw [hnil, List.append_nil] at ht
  cases pool; cases pool'; simp_all

theorem intern_spec {r : ℕ × InternPool} (h : pool.intern s = .ok r) :
    r.2.Has r.1 s ∧ pool.Adds (fun x => x = s) r.2 := by
  rw [intern] at h
  split at h
  · rename_i hs
    cases h
    have hlt := List.idxOf_lt_length_of_mem hs
    exact ⟨List.getElem?_eq_some_iff.mpr ⟨hlt, List.getElem_idxOf hlt⟩, List.prefix_rfl, fun x =>
      ⟨Or.inl, fun hor => hor.elim id fun he => he ▸ hs⟩⟩
  · split at h
    · cases h
      exact ⟨by simp [Has], List.prefix_append _ _, fun x => by simp⟩
    · cases h

theorem intern_ok (hs : Fits s) : ∃ r, pool.intern s = .ok r := by
  rw [intern]
  split
  · exact ⟨_, rfl⟩
  · exact ⟨_, rfl⟩

end InternPool

/-- Ids of the pool for a whole tree. -/
structure ColoredAHUResult (n : ℕ) where
  root : Fin n
  rootId : ℕ
  vertexIds : Fin n → Option ℕ

/-- The variables of the loop over the vertices. -/
structure Ids (n : ℕ) where
  sessionToGlobal : List (ℤ × ℕ)
  vertexIds : Fin n → Option ℕ
  pool : InternPool

/-- The id of a labelled vertex; the string of a label is built and interned on its first use. -/
def assignId {n : ℕ} (keys : List Key) (labels : Fin n → ℤ) (s : Ids n) (v : Fin n) :
    Except String (Ids n) :=
  if labels v < 0 then .ok s
  else
    match s.sessionToGlobal.lookup (labels v) with
    | some id => .ok { s with vertexIds := Function.update s.vertexIds v (some id) }
    | none =>
      (s.pool.intern (canonicalString keys (labels v))).bind fun r => .ok
        { sessionToGlobal := (labels v, r.1) :: s.sessionToGlobal
          vertexIds := Function.update s.vertexIds v (some r.1)
          pool := r.2 }

/-- Colored AHU on `g` rooted at `root`; the encoder runs forever where `g` has a cycle. -/
def compute (g : Graph) (initialColors : Fin g.n → Option KString) (root : Fin g.n)
    (pool : InternPool) : Except String (ColoredAHUResult g.n × InternPool) :=
  match computeLabels g.toCsr initialColors root with
  | none => .error "no result"
  | some s =>
    ((List.finRange g.n).foldlM (assignId s.keys s.labels) ⟨[], fun _ => none, pool⟩).bind fun ids =>
      match ids.vertexIds root with
      | none => .error ("root " ++ toString root ++ " not reachable in tree")
      | some rootId => .ok (⟨root, rootId, ids.vertexIds⟩, ids.pool)

/-! ### Ids and strings -/

section
variable {n : ℕ} {keys : List Key} {labels : Fin n → ℤ} {pool : InternPool}

/-- After the vertices `done`: ids are those of the labels' strings, and only these are new. -/
structure Assigned (keys : List Key) (labels : Fin n → ℤ) (pool : InternPool) (done : List (Fin n))
    (s : Ids n) : Prop where
  session : ∀ p ∈ s.sessionToGlobal, s.pool.Has p.2 (canonicalString keys p.1)
  vertex : ∀ v ∈ done, 0 ≤ labels v →
    ∃ id, s.vertexIds v = some id ∧ s.pool.Has id (canonicalString keys (labels v))
  adds : pool.Adds (fun x => ∃ v ∈ done, 0 ≤ labels v ∧ x = canonicalString keys (labels v)) s.pool

theorem assigned_nil : Assigned keys labels pool [] ⟨[], fun _ => none, pool⟩ :=
  ⟨by simp, by simp, (InternPool.Adds.refl pool).congr (by simp)⟩

theorem lookup_mem {l : ℤ} {id : ℕ} : ∀ {t : List (ℤ × ℕ)}, t.lookup l = some id → (l, id) ∈ t
  | (l', id') :: t, h => by
    rw [List.lookup_cons] at h
    split at h
    · rename_i he
      rw [beq_iff_eq] at he
      rw [he, ← Option.some.inj h]; exact List.mem_cons_self
    · exact List.mem_cons_of_mem _ (lookup_mem h)

theorem assigned_step {done : List (Fin n)} {v : Fin n} {s s' : Ids n}
    (h : Assigned keys labels pool done s) (hs : assignId keys labels s v = .ok s') :
    Assigned keys labels pool (done ++ [v]) s' := by
  -- what the step does to a vertex with a label, given its id and the pool afterwards
  have hlabelled : ∀ (id : ℕ) (pool' : InternPool), ¬labels v < 0 →
      s.pool.Adds (fun x => x = canonicalString keys (labels v)) pool' →
      pool'.Has id (canonicalString keys (labels v)) → s'.pool = pool' →
      s'.vertexIds = Function.update s.vertexIds v (some id) →
      (∀ p ∈ s'.sessionToGlobal, p = (labels v, id) ∨ p ∈ s.sessionToGlobal) →
      Assigned keys labels pool (done ++ [v]) s' := by
    intro id pool' hv hadds hhas hpool hids hsession
    refine ⟨fun p hp => ?_, fun w hw h0 => ?_, ?_⟩
    · rw [hpool]
      rcases hsession p hp with rfl | hp
      · exact hhas
      · exact (h.session p hp).mono hadds.le
    · rw [hpool, hids]
      by_cases hwv : w = v
      · subst hwv; exact ⟨id, Function.update_self .., hhas⟩
      · have hw' : w ∈ done := (List.mem_append.mp hw).resolve_right (by simpa using hwv)
        obtain ⟨id', hid', hhas'⟩ := h.vertex w hw' h0
        exact ⟨id', by rw [Function.update_of_ne hwv]; exact hid', hhas'.mono hadds.le⟩
    · rw [hpool]
      refine (h.adds.trans hadds).congr fun x => ?_
      constructor
      · rintro (⟨w, hw, h0, rfl⟩ | rfl)
        · exact ⟨w, List.mem_append_left _ hw, h0, rfl⟩
        · exact ⟨v, by simp, not_lt.mp hv, rfl⟩
      · rintro ⟨w, hw, h0, rfl⟩
        rcases List.mem_append.mp hw with hw | hw
        · exact Or.inl ⟨w, hw, h0, rfl⟩
        · rw [List.mem_singleton.mp hw]; exact Or.inr rfl
  unfold assignId at hs
  split at hs
  · rename_i hneg
    cases hs
    refine ⟨h.session, fun w hw h0 => ?_, h.adds.congr fun x => ?_⟩
    · rcases List.mem_append.mp hw with hw | hw
      · exact h.vertex w hw h0
      · rw [List.mem_singleton.mp hw] at h0; omega
    · refine ⟨fun ⟨w, hw, hx⟩ => ⟨w, List.mem_append_left _ hw, hx⟩, fun ⟨w, hw, h0, hx⟩ => ?_⟩
      rcases List.mem_append.mp hw with hw | hw
      · exact ⟨w, hw, h0, hx⟩
      · rw [List.mem_singleton.mp hw] at h0; omega
  · rename_i hneg
    split at hs
    · rename_i id hlook
      cases hs
      have hhas := h.session _ (lookup_mem hlook)
      exact hlabelled id s.pool hneg ⟨List.prefix_rfl, fun x =>
        ⟨Or.inl, fun hor => hor.elim (fun h => h) fun he => he ▸ hhas.mem⟩⟩ hhas rfl rfl fun p hp => Or.inr hp
    · obtain ⟨r, hr, hs⟩ := bind_ok hs
      cases hs
      obtain ⟨hhas, hadds⟩ := InternPool.intern_spec hr
      exact hlabelled r.1 r.2 hneg hadds hhas rfl rfl fun p hp => List.mem_cons.mp hp

end

variable {g : Graph} {root : Fin g.n} {d : Fin g.n → ℕ} {colors : Fin g.n → Option KString}
  {pool : InternPool}

/-- The strings of the subtree of the root. -/
def TreeStrings (g : Graph) (d : Fin g.n → ℕ) (colors : Fin g.n → Option KString) (root : Fin g.n)
    (s : KString) : Prop := ∃ v, Descends g d root v ∧ s = subtreeString g d colors v

/-- What a result is made of. -/
theorem compute_assigned {r : ColoredAHUResult g.n × InternPool}
    (hr : compute g colors root pool = .ok r) : ∃ s session,
      computeLabels g.toCsr colors root = some s ∧ r.1.vertexIds root = some r.1.rootId ∧
      Assigned s.keys s.labels pool (List.finRange g.n) ⟨session, r.1.vertexIds, r.2⟩ := by
  unfold compute at hr
  split at hr
  · cases hr
  · rename_i s hs
    obtain ⟨ids, hids, hr⟩ := bind_ok hr
    have hinv := foldlM_inv (P := fun done s' => Assigned s.keys s.labels pool done s')
      (fun done v s₁ s₂ h₁ h₂ => assigned_step h₁ h₂) _ [] _ _ assigned_nil hids
    rw [List.nil_append] at hinv
    split at hr
    · cases hr
    · rename_i rootId hroot
      cases hr
      exact ⟨s, _, hs, hroot, hinv⟩

/-- Every vertex of the tree has the id of its canonical string. -/
theorem compute_vertex [g.Simple] (h : RootedTree g root d) {r : ColoredAHUResult g.n × InternPool}
    (hr : compute g colors root pool = .ok r) {v : Fin g.n} (hv : Descends g d root v) :
    ∃ id, r.1.vertexIds v = some id ∧ r.2.Has id (subtreeString g d colors v) := by
  obtain ⟨s, _, hs, -, hinv⟩ := compute_assigned hr
  obtain ⟨s', hs', hlabelled, hstring⟩ := computeLabels_spec h
  cases hs.symm.trans hs'
  have h0 := (hlabelled v).mpr hv
  obtain ⟨id, hid, hhas⟩ := hinv.vertex v (List.mem_finRange v) h0
  rw [canonicalString_eq h0 (hstring v h0).1, (hstring v h0).2] at hhas
  exact ⟨id, hid, hhas⟩

/-- The id of the root is that of its canonical string, and the pool has grown by the strings of
    the tree. -/
theorem compute_spec [g.Simple] (h : RootedTree g root d) {r : ColoredAHUResult g.n × InternPool}
    (hr : compute g colors root pool = .ok r) :
    r.2.Has r.1.rootId (subtreeString g d colors root) ∧
      pool.Adds (TreeStrings g d colors root) r.2 := by
  obtain ⟨s, _, hs, hroot, hinv⟩ := compute_assigned hr
  obtain ⟨s', hs', hlabelled, hstring⟩ := computeLabels_spec h
  cases hs.symm.trans hs'
  have hcanon : ∀ v, 0 ≤ s.labels v → canonicalString s.keys (s.labels v) =
      subtreeString g d colors v := fun v hv => by
    rw [canonicalString_eq hv (hstring v hv).1, (hstring v hv).2]
  obtain ⟨id, hid, hhas⟩ := compute_vertex h hr .refl
  rw [hroot] at hid
  cases hid
  refine ⟨hhas, hinv.adds.congr fun x => ?_⟩
  constructor
  · rintro ⟨v, -, hv, rfl⟩
    exact ⟨v, (hlabelled v).mp hv, hcanon v hv⟩
  · rintro ⟨v, hv, rfl⟩
    have h0 := (hlabelled v).mpr hv
    exact ⟨v, List.mem_finRange v, h0, (hcanon v h0).symm⟩

/-- On a tree all of whose strings fit there is a result. -/
theorem compute_ok [g.Simple] (h : RootedTree g root d)
    (hfits : ∀ s, TreeStrings g d colors root s → Fits s) : ∃ r, compute g colors root pool = .ok r := by
  obtain ⟨s, hs, hlabelled, hstring⟩ := computeLabels_spec h
  obtain ⟨ids, hids, hinv⟩ := foldlM_ok (f := assignId s.keys s.labels)
    (P := fun done s' => Assigned s.keys s.labels pool done s')
    (fun done v s₁ _ h₁ => by
      have hex : ∃ s₂, assignId s.keys s.labels s₁ v = .ok s₂ := by
        unfold assignId
        split
        · exact ⟨_, rfl⟩
        · rename_i hneg
          split
          · exact ⟨_, rfl⟩
          · have h0 := not_lt.mp hneg
            obtain ⟨r, hr⟩ := InternPool.intern_ok
              (s := canonicalString s.keys (s.labels v)) (hfits _ ⟨v, (hlabelled v).mp h0, by
                rw [canonicalString_eq h0 (hstring v h0).1, (hstring v h0).2]⟩)
            rw [hr]
            exact ⟨_, rfl⟩
      exact hex.imp fun s₂ h₂ => ⟨h₂, assigned_step h₁ h₂⟩)
    (List.finRange g.n) [] ⟨[], fun _ => none, pool⟩ (fun _ hv => hv) assigned_nil
  rw [List.nil_append] at hinv
  have hroot : 0 ≤ s.labels root := (hlabelled root).mpr .refl
  obtain ⟨id, hid, -⟩ := hinv.vertex root (List.mem_finRange root) hroot
  rw [compute, hs]
  dsimp only
  rw [hids]
  simp only [Except.bind, hid]
  exact ⟨_, rfl⟩

/-- Isomorphic trees have the same strings. -/
theorem treeStrings_iso {h : Graph} [g.Simple] [h.Simple] {e : Fin g.n ≃ Fin h.n}
    {d' : Fin h.n → ℕ} (he : Graph.IsIso g h e) (hd : ∀ v, d' (e v) = d v)
    {colors' : Fin h.n → Option KString} (hcolors : ∀ v, colors' (e v) = colors v) (s : KString) :
    TreeStrings h d' colors' (e root) s ↔ TreeStrings g d colors root s := by
  constructor
  · rintro ⟨w, hw, rfl⟩
    obtain ⟨v, rfl⟩ := e.surjective w
    exact ⟨v, (descends_iso he hd root v).mp hw, subtreeString_iso he hd hcolors v⟩
  · rintro ⟨v, hv, rfl⟩
    exact ⟨e v, (descends_iso he hd root v).mpr hv, (subtreeString_iso he hd hcolors v).symm⟩

end Dialysis.Ahu
