import GraphDialysis.Gadgetxor.RealFileGadgetReconstruction

/-! The search of `RealFileGadgetReconstruction`. A failed branch leaves the state as it was
    (`backtrack_restores`), and the search as a whole finds a cover by blocks that agree on their
    ports exactly when there is one (`backtrack_spec`). -/

namespace Dialysis.RealFileGadgetReconstruction
open Lib
variable {n : ℕ}

/-! ### The partner map -/

/-- The ports pair `p` with `q`. -/
def Linked (ports : List (Fin n × Fin n)) (p q : Fin n) : Prop := (p, q) ∈ ports ∨ (q, p) ∈ ports

theorem Linked.symm {ports : List (Fin n × Fin n)} {p q : Fin n} (h : Linked ports p q) :
    Linked ports q p := Or.symm h

/-- The blocks pair no vertex with different partners. -/
def Compatible (b b' : CandidateBlock n) : Prop := ∀ p q q', Linked b.ports p q → Linked b'.ports p q' → q = q'

theorem Compatible.symm {b b' : CandidateBlock n} (h : Compatible b b') : Compatible b' b :=
  fun p q q' hq hq' => (h p q' q hq' hq).symm

/-- The block pairs no vertex with another partner than the map has. -/
def Agrees (partnerOf : Fin n → Option (Fin n)) (b : CandidateBlock n) : Prop :=
  ∀ p q y, Linked b.ports p q → partnerOf p = some y → y = q

theorem eq_none_or_iff {o : Option (Fin n)} {q : Fin n} : o = none ∨ o = some q ↔ ∀ y, o = some y → y = q := by
  cases o with
  | none => simp
  | some x => simp

theorem agrees_iff {partnerOf : Fin n → Option (Fin n)} {b : CandidateBlock n} :
    (∀ port ∈ b.ports, portOk partnerOf port) ↔ Agrees partnerOf b := by
  simp only [portOk, eq_none_or_iff]
  constructor
  · rintro h p q y (hport | hport) hy
    · exact (h _ hport).1 y hy
    · exact (h _ hport).2 y hy
  · intro h port hport
    exact ⟨fun y => h _ _ y (Or.inl hport), fun y => h _ _ y (Or.inr hport)⟩

/-- Both directions of the ports. -/
def keys (b : CandidateBlock n) : List (Fin n × Fin n) := b.ports.flatMap fun port => [port, port.swap]

theorem mem_keys {b : CandidateBlock n} {p q : Fin n} : (p, q) ∈ keys b ↔ Linked b.ports p q := by
  simp only [keys, List.mem_flatMap, List.mem_cons, List.not_mem_nil, or_false, Linked]
  constructor
  · rintro ⟨port, hport, rfl | heq⟩
    · exact Or.inl hport
    · refine Or.inr ?_
      rw [← Prod.swap_swap port, ← heq] at hport
      exact hport
  · rintro (h | h)
    · exact ⟨_, h, Or.inl rfl⟩
    · exact ⟨_, h, Or.inr rfl⟩

theorem foldl_keys (b : CandidateBlock n) (s : List (Fin n × Fin n) × (Fin n → Option (Fin n))) :
    b.ports.foldl (fun s port => addKey (addKey s port.1 port.2) port.2 port.1) s =
      (keys b).foldl (fun s kv => addKey s kv.1 kv.2) s := by
  rw [keys, List.foldl_flatMap]
  rfl

/-- The map with more keys. -/
theorem foldl_addKey_eq_some : ∀ {l : List (Fin n × Fin n)}
    {s : List (Fin n × Fin n) × (Fin n → Option (Fin n))},
    (∀ p q q', (p, q) ∈ l → (p, q') ∈ l → q = q') → (∀ p q y, (p, q) ∈ l → s.2 p = some y → y = q) →
    ∀ x y, (l.foldl (fun s kv => addKey s kv.1 kv.2) s).2 x = some y ↔ s.2 x = some y ∨ (x, y) ∈ l
  | [], s, _, _, x, y => by simp
  | (p, q) :: l, s, hfun, hagree, x, y => by
    have hstep : ∀ x y, (addKey s p q).2 x = some y ↔ s.2 x = some y ∨ x = p ∧ y = q := by
      intro x y
      rw [addKey]
      split
      · rename_i hnone
        by_cases hx : x = p
        · subst hx
          simp [hnone, eq_comm]
        · simp [hx]
      · rename_i hsome
        refine (or_iff_left_of_imp ?_).symm
        rintro ⟨rfl, rfl⟩
        obtain ⟨z, hz⟩ := Option.ne_none_iff_exists'.mp hsome
        rw [hz, hagree _ _ z List.mem_cons_self hz]
    rw [List.foldl_cons, foldl_addKey_eq_some, hstep, List.mem_cons, Prod.mk.injEq, or_assoc]
    · exact fun p q q' h h' => hfun p q q' (List.mem_cons_of_mem _ h) (List.mem_cons_of_mem _ h')
    · intro p' q' y' hmem hy'
      rcases (hstep p' y').mp hy' with hy' | ⟨rfl, rfl⟩
      · exact hagree p' q' y' (List.mem_cons_of_mem _ hmem) hy'
      · exact hfun _ _ _ List.mem_cons_self (List.mem_cons_of_mem _ hmem)

/-- What has been entered had no partner before, and nothing else has changed. -/
theorem foldl_addKey_added {partnerOf : Fin n → Option (Fin n)} : ∀ {l : List (Fin n × Fin n)}
    {s : List (Fin n × Fin n) × (Fin n → Option (Fin n))},
    (∀ x, x ∉ s.1.map Prod.fst → s.2 x = partnerOf x) ∧ (∀ kv ∈ s.1, partnerOf kv.1 = none) →
    (∀ x, x ∉ (l.foldl (fun s kv => addKey s kv.1 kv.2) s).1.map Prod.fst →
      (l.foldl (fun s kv => addKey s kv.1 kv.2) s).2 x = partnerOf x) ∧
    ∀ kv ∈ (l.foldl (fun s kv => addKey s kv.1 kv.2) s).1, partnerOf kv.1 = none
  | [], _, h => h
  | (p, q) :: l, s, h => by
    rw [List.foldl_cons]
    refine foldl_addKey_added (l := l) ?_
    rw [addKey]
    split
    · rename_i hnone
      constructor
      · intro x hx
        simp only [List.map_append, List.map_cons, List.map_nil, List.mem_append, List.mem_singleton,
          not_or] at hx
        change Function.update s.2 p (some q) x = _
        rw [Function.update_of_ne hx.2]
        exact h.1 x hx.1
      · intro kv hkv
        rcases List.mem_append.mp hkv with hkv | hkv
        · exact h.2 kv hkv
        · rw [List.mem_singleton.mp hkv]
          change partnerOf p = none
          by_cases hp : p ∈ s.1.map Prod.fst
          · obtain ⟨kv', hkv', hfst⟩ := List.mem_map.mp hp
            rw [← hfst]
            exact h.2 kv' hkv'
          · rw [← h.1 p hp, hnone]
    · exact h

theorem undoAdd_eq (added : List (Fin n × Fin n)) : ∀ (partnerOf : Fin n → Option (Fin n)) (x : Fin n),
    undoAdd partnerOf added x = if x ∈ added.map Prod.fst then none else partnerOf x := by
  induction added with
  | nil => intro partnerOf x; simp [undoAdd]
  | cons kv added ih =>
    intro partnerOf x
    rw [undoAdd, List.foldl_cons, ← undoAdd, ih, List.map_cons]
    by_cases hx : x ∈ added.map Prod.fst
    · rw [if_pos hx, if_pos (List.mem_cons_of_mem _ hx)]
    · by_cases heq : x = kv.1
      · rw [if_neg hx, if_pos (heq ▸ List.mem_cons_self), heq, Function.update_self]
      · rw [if_neg hx, if_neg (by simpa [heq] using hx), Function.update_of_ne heq]

/-- Undoing what was added gives back the map. -/
theorem undoAdd_tryAdd {partnerOf partnerOf' : Fin n → Option (Fin n)} {b : CandidateBlock n}
    {added : List (Fin n × Fin n)} (h : tryAdd partnerOf b = some (added, partnerOf')) :
    undoAdd partnerOf' added = partnerOf := by
  rw [tryAdd, foldl_keys] at h
  split at h
  · have hadded := foldl_addKey_added (l := keys b) (s := ([], partnerOf))
      ⟨fun _ _ => rfl, by simp⟩
    rw [Option.some.inj h] at hadded
    funext x
    rw [undoAdd_eq]
    split
    · rename_i hx
      obtain ⟨kv, hkv, rfl⟩ := List.mem_map.mp hx
      exact (hadded.2 kv hkv).symm
    · rename_i hx
      exact hadded.1 x hx
  · cases h

/-- A block is entered exactly when it agrees with the map. -/
theorem tryAdd_spec {partnerOf : Fin n → Option (Fin n)} {b : CandidateBlock n} (hb : Compatible b b) :
    (¬Agrees partnerOf b ∧ tryAdd partnerOf b = none) ∨
      Agrees partnerOf b ∧ ∃ added partnerOf', tryAdd partnerOf b = some (added, partnerOf') ∧
        ∀ b', Agrees partnerOf' b' ↔ Agrees partnerOf b' ∧ Compatible b b' := by
  rw [tryAdd, foldl_keys]
  by_cases h : Agrees partnerOf b
  · refine Or.inr ⟨h, _, _, if_pos (agrees_iff.mpr h), fun b' => ?_⟩
    have heq := foldl_addKey_eq_some (l := keys b) (s := ([], partnerOf))
      (fun p q q' hq hq' => hb p q q' (mem_keys.mp hq) (mem_keys.mp hq'))
      fun p q y hq hy => h p q y (mem_keys.mp hq) hy
    simp only [mem_keys] at heq
    constructor
    · intro hb'
      exact ⟨fun p q y hq hy => hb' p q y hq ((heq p y).mpr (Or.inl hy)),
        fun p q q' hq hq' => hb' p q' q hq' ((heq p q).mpr (Or.inr hq))⟩
    · rintro ⟨hold, hnew⟩ p q y hq hy
      rcases (heq p y).mp hy with hy | hy
      · exact hold p q y hq hy
      · exact hnew p y q hy hq
  · exact Or.inl ⟨h, if_neg fun hports => h (agrees_iff.mp hports)⟩

/-! ### Dead ends -/

theorem tryBlocks_restores {search : List (Fin n) → SearchState n → Option (Bool × SearchState n)}
    (hsearch : ∀ {remaining s s'}, search remaining s = some (false, s') → s' = s)
    {remaining : List (Fin n)} : ∀ {blocks : List (CandidateBlock n)} {s s' : SearchState n},
      tryBlocks search remaining blocks s = some (false, s') → s' = s
  | [], s, s', h => by
    cases h
    rfl
  | block :: blocks, s, s', h => by
    rw [tryBlocks] at h
    split at h
    · cases hadd : tryAdd s.partnerOf block with
      | none =>
        rw [hadd] at h
        exact tryBlocks_restores hsearch h
      | some r =>
        obtain ⟨added, partnerOf⟩ := r
        rw [hadd] at h
        dsimp only at h
        cases hrec : search (remaining.filter (· ∉ block.members)) ⟨partnerOf, s.solution ++ [block]⟩ with
        | none => rw [hrec] at h; cases h
        | some r =>
          obtain ⟨found, s₁⟩ := r
          cases found with
          | true => rw [hrec] at h; cases h
          | false =>
            rw [hrec, hsearch hrec] at h
            have hback : (⟨undoAdd partnerOf added, (s.solution ++ [block]).dropLast⟩ : SearchState n) = s := by
              rw [undoAdd_tryAdd hadd, List.dropLast_concat]
            have := tryBlocks_restores hsearch h
            rwa [hback] at this
    · exact tryBlocks_restores hsearch h

/-- A failing branch leaves the partner map and the solution as it found them. -/
theorem backtrack_restores {blockOfElem : Fin n → List (CandidateBlock n)} :
    ∀ {fuel : ℕ} {remaining : List (Fin n)} {s s' : SearchState n},
      backtrack blockOfElem fuel remaining s = some (false, s') → s' = s
  | 0, _, _, _, h => by cases h
  | fuel + 1, remaining, s, s', h => by
    rw [backtrack] at h
    split at h
    · cases h
    · split at h
      · cases h
        rfl
      · exact tryBlocks_restores backtrack_restores h

/-! ### Completeness -/

section
variable (blocks : CandidateBlock n → Prop)

/-- The search that starts in the state `s` may take the block. -/
def Feasible (s : SearchState n) (b : CandidateBlock n) : Prop := blocks b ∧ Agrees s.partnerOf b

/-- What the search adds to the solution is a cover, and without a cover it fails. -/
inductive Answer (target : List (Fin n)) (s : SearchState n) : Option (Bool × SearchState n) → Prop
  | found {s' : SearchState n} {sol : List (CandidateBlock n)} (hsol : s'.solution = s.solution ++ sol)
      (hcover : Covers CandidateBlock.members Compatible (Feasible blocks s) target sol) :
      Answer target s (some (true, s'))
  | deadEnd {s' : SearchState n}
      (hnone : ¬HasCover CandidateBlock.members Compatible (Feasible blocks s) target) :
      Answer target s (some (false, s'))

/-- No cover starts with the block. -/
def Hopeless (target : List (Fin n)) (s : SearchState n) (b : CandidateBlock n) : Prop :=
  Feasible blocks s b → (∀ m ∈ b.members, m ∈ target) →
    ¬HasCover CandidateBlock.members Compatible (fun b' => Feasible blocks s b' ∧ Compatible b b')
      (target.filter (· ∉ b.members))

/-- The same of the loop over the blocks `l`, which only knows about covers that start with one of them. -/
inductive Tried (target : List (Fin n)) (l : List (CandidateBlock n)) (s : SearchState n) :
    Option (Bool × SearchState n) → Prop
  | found {s' : SearchState n} {sol : List (CandidateBlock n)} (hsol : s'.solution = s.solution ++ sol)
      (hcover : Covers CandidateBlock.members Compatible (Feasible blocks s) target sol) :
      Tried target l s (some (true, s'))
  | deadEnd {s' : SearchState n} (hnone : ∀ b ∈ l, Hopeless blocks target s b) :
      Tried target l s (some (false, s'))

variable {blocks}

/-- After a block was entered, what may be taken are the blocks that are compatible with it. -/
theorem feasible_tryAdd {s s₁ : SearchState n} {b : CandidateBlock n}
    (h : ∀ b', Agrees s₁.partnerOf b' ↔ Agrees s.partnerOf b' ∧ Compatible b b') :
    Feasible blocks s₁ = fun b' => Feasible blocks s b' ∧ Compatible b b' := by
  funext b'
  rw [Feasible, Feasible, h, and_assoc]

theorem Tried.skip {target : List (Fin n)} {b : CandidateBlock n} {l : List (CandidateBlock n)}
    {s : SearchState n} {r : Option (Bool × SearchState n)} (hb : Hopeless blocks target s b)
    (h : Tried blocks target l s r) : Tried blocks target (b :: l) s r := by
  cases h with
  | found hsol hcover => exact Tried.found hsol hcover
  | deadEnd hnone => exact Tried.deadEnd (List.forall_mem_cons.mpr ⟨hb, hnone⟩)

/-- One element: the loop finds a cover, or no block of the list is the start of one. -/
theorem tryBlocks_spec (hself : ∀ b, blocks b → Compatible b b)
    (search : List (Fin n) → SearchState n → Option (Bool × SearchState n))
    (hrestores : ∀ remaining s s', search remaining s = some (false, s') → s' = s)
    (remaining : List (Fin n)) : ∀ {l : List (CandidateBlock n)} (s : SearchState n),
    (∀ b ∈ l, blocks b) →
    (∀ b ∈ l, ∀ s, Answer blocks (remaining.filter (· ∉ b.members)) s
      (search (remaining.filter (· ∉ b.members)) s)) →
    Tried blocks remaining l s (tryBlocks search remaining l s)
  | [], s, _, _ => Tried.deadEnd (by simp)
  | block :: l, s, hl, hsearch => by
    have hrec := tryBlocks_spec hself search hrestores remaining s
      (fun b hb => hl b (List.mem_cons_of_mem _ hb)) fun b hb => hsearch b (List.mem_cons_of_mem _ hb)
    rw [tryBlocks]
    split
    · rename_i hsub
      rcases tryAdd_spec (hself block (hl block List.mem_cons_self)) with
        ⟨hnot, hadd⟩ | ⟨hagrees, added, partnerOf, hadd, hafter⟩
      · rw [hadd]
        exact hrec.skip fun hfeas => absurd hfeas.2 hnot
      · have hfeas : Feasible blocks s block := ⟨hl block List.mem_cons_self, hagrees⟩
        have hanswer := hsearch block List.mem_cons_self ⟨partnerOf, s.solution ++ [block]⟩
        have heq : Feasible blocks ⟨partnerOf, s.solution ++ [block]⟩ = _ := feasible_tryAdd (s := s) hafter
        rw [hadd]
        dsimp only
        cases hr : search (remaining.filter (· ∉ block.members)) ⟨partnerOf, s.solution ++ [block]⟩ with
        | none =>
          rw [hr] at hanswer
          cases hanswer
        | some r =>
          rw [hr] at hanswer
          cases hanswer with
          | found hsol hcover =>
            rw [heq] at hcover
            refine Tried.found ?_ (Covers.cons hfeas hsub hcover)
            rw [hsol, List.append_assoc, List.singleton_append]
          | deadEnd hnone =>
            rw [heq] at hnone
            have hback : (⟨undoAdd partnerOf added, (s.solution ++ [block]).dropLast⟩ : SearchState n) = s := by
              rw [undoAdd_tryAdd hadd, List.dropLast_concat]
            rw [hrestores _ _ _ hr]
            dsimp only
            rw [hback]
            exact hrec.skip fun _ _ => hnone
    · rename_i hsub
      exact hrec.skip fun _ h => absurd h hsub

/-- The search answers rightly. -/
theorem backtrack_spec {blockOfElem : Fin n → List (CandidateBlock n)}
    (hblocks : ∀ e b, b ∈ blockOfElem e ↔ blocks b ∧ e ∈ b.members)
    (hself : ∀ b, blocks b → Compatible b b) : ∀ {fuel : ℕ} {remaining : List (Fin n)}
    {s : SearchState n}, remaining.length < fuel →
      Answer blocks remaining s (backtrack blockOfElem fuel remaining s)
  | 0, _, _, h => absurd h (Nat.not_lt_zero _)
  | fuel + 1, remaining, s, hfuel => by
    rw [backtrack]
    split
    · rename_i hnil
      subst hnil
      exact Answer.found (List.append_nil _).symm covers_nil
    · rename_i hne
      cases hmin : remaining.argmin fun e => (blockOfElem e).length with
      | none => exact absurd (List.argmin_eq_none.mp hmin) hne
      | some e =>
        have he : e ∈ remaining := List.argmin_mem hmin
        have hmem : ∀ b ∈ blockOfElem e, blocks b ∧ e ∈ b.members := fun b => (hblocks e b).mp
        have htried := tryBlocks_spec hself (backtrack blockOfElem fuel)
          (fun _ _ _ => backtrack_restores) remaining s (fun b hb => (hmem b hb).1) fun b hb s => by
            refine backtrack_spec hblocks hself (Nat.lt_of_lt_of_le ?_ (Nat.le_of_lt_succ hfuel))
            exact List.length_filter_lt_length_iff_exists.mpr ⟨e, he, by simpa using (hmem b hb).2⟩
        dsimp only
        generalize tryBlocks (backtrack blockOfElem fuel) remaining (blockOfElem e) s = r at htried
        cases htried with
        | found hsol hcover => exact Answer.found hsol hcover
        | deadEnd hnone =>
          refine Answer.deadEnd fun hcover => ?_
          obtain ⟨b, hb, heb, hsub, hrest⟩ := (hasCover_iff (fun _ _ => Compatible.symm) he).mp hcover
          exact hnone b ((hblocks e b).mpr ⟨hb.1, heb⟩) hb hsub hrest

end

end Dialysis.RealFileGadgetReconstruction
