import GraphDialysis.Gadgetxor.Candidates
import GraphDialysis.Gadgetxor.RealFileGadgetXor

/-! What `reconstruct` is for: the vertices of degree 3 put into gadgets that agree on the partners of
    their neighbours. The search finds such a partition when there is one (`reconstruct_spec`), and
    then `RealFileGadgetXor.prepare` has nothing to complain about. -/

namespace Dialysis.RealFileGadgetReconstruction
open Lib
open RealFileGadgetXor (allPorts prepare prepare_ok)

/-- The vertices of degree 3 in groups of four. -/
structure GadgetPartition (g : Graph) (groups : Finset (Finset (Fin g.n))) : Prop where
  four : ∀ S ∈ groups, S.card = 4
  share : ∀ S ∈ groups, ∀ x ∈ S, ∀ y ∈ S, x ≠ y → (adjSet g x ∩ adjSet g y).card = 1
  six : ∀ S ∈ groups, (S.biUnion (adjSet g)).card = 6
  apart : ∀ S ∈ groups, ∀ S' ∈ groups, S ≠ S' → Disjoint S S'
  cover : ∀ v, (∃ S ∈ groups, v ∈ S) ↔ (g.adj v).length = 3
  consistent : ∀ S ∈ groups, ∀ S' ∈ groups, ∀ p q q', ComplementPair g S p q →
    ComplementPair g S' p q' → q = q'

variable {g : Graph} {hashOrder : SetOrder g.n}

theorem GadgetPartition.quad [g.Simple] {groups : Finset (Finset (Fin g.n))} (h : GadgetPartition g groups)
    {S : Finset (Fin g.n)} (hS : S ∈ groups) : IsQuad (adjSet g) S where
  card := h.four S hS
  three := fun v hv => by rw [card_adjSet, (h.cover v).mp ⟨S, hS, hv⟩]
  share := h.share S hS
  six := h.six S hS

/-! ### Blocks and groups -/

theorem candidateBlock_spec [g.Simple] {b : CandidateBlock g.n} (hb : b ∈ candidateBlocks g hashOrder) :
    b.members.Nodup ∧ IsQuad (adjSet g) b.members.toFinset ∧ b.ports.length = 3 ∧
      ∀ p q, Linked b.ports p q ↔ ComplementPair g b.members.toFinset p q := by
  obtain ⟨members, hmem, hports⟩ := List.mem_filterMap.mp hb
  obtain ⟨ports, hcompute, rfl⟩ := Option.map_eq_some_iff.mp hports
  obtain ⟨hnodup, hquad⟩ := quad_of_mem_allCandidates hmem
  obtain ⟨ports', hcompute', hlen, hlinked⟩ := computePorts_spec hquad
  rw [hcompute, Option.some.injEq] at hcompute'
  subst hcompute'
  exact ⟨hnodup, hquad, hlen, hlinked⟩

theorem exists_candidateBlock [g.Simple] {S : Finset (Fin g.n)} (hS : IsQuad (adjSet g) S) :
    ∃ b ∈ candidateBlocks g hashOrder, b.members.toFinset = S := by
  obtain ⟨members, hmem, rfl⟩ := exists_mem_allCandidates hS
  obtain ⟨ports, hports, -⟩ := computePorts_spec hS
  exact ⟨⟨members, ports⟩, List.mem_filterMap.mpr ⟨members, hmem, by rw [hports, Option.map_some]⟩, rfl⟩

theorem candidateBlock_self [g.Simple] (b : CandidateBlock g.n) (hb : b ∈ candidateBlocks g hashOrder) :
    Compatible b b := by
  obtain ⟨-, hquad, -, hlinked⟩ := candidateBlock_spec hb
  exact fun p q q' hq hq' => ((hlinked p q).mp hq).unique hquad ((hlinked p q').mp hq')

/-- The search for a partition, as a search for a cover. -/
def Cover (g : Graph) (hashOrder : SetOrder g.n) (sol : List (CandidateBlock g.n)) : Prop :=
  Covers CandidateBlock.members Compatible
    (Feasible (· ∈ candidateBlocks g hashOrder) ⟨fun _ => none, []⟩) (hashOrder.order (inner g)) sol

theorem Cover.mem {sol : List (CandidateBlock g.n)} (h : Cover g hashOrder sol) {b : CandidateBlock g.n}
    (hb : b ∈ sol) : b ∈ candidateBlocks g hashOrder := (h.allowed b hb).1

def groupsOf (sol : List (List (Fin g.n))) : Finset (Finset (Fin g.n)) := (sol.map List.toFinset).toFinset

theorem mem_groupsOf {sol : List (List (Fin g.n))} {S : Finset (Fin g.n)} :
    S ∈ groupsOf sol ↔ ∃ members ∈ sol, members.toFinset = S := by
  rw [groupsOf, List.mem_toFinset, List.mem_map]

/-- Two blocks of a cover are the same or apart, and compatible either way. -/
theorem Cover.eq_or_apart [g.Simple] {sol : List (CandidateBlock g.n)} (h : Cover g hashOrder sol)
    {b b' : CandidateBlock g.n} (hb : b ∈ sol) (hb' : b' ∈ sol) :
    (b = b' ∨ ∀ a ∈ b.members, a ∉ b'.members) ∧ Compatible b b' := by
  by_cases heq : b = b'
  · subst heq
    exact ⟨Or.inl rfl, candidateBlock_self b (h.mem hb)⟩
  · have hsymm : Std.Symm fun b b' : CandidateBlock g.n =>
        (∀ a ∈ b.members, a ∉ b'.members) ∧ Compatible b b' :=
      ⟨fun b b' h => ⟨fun a ha ha' => h.1 a ha' ha, h.2.symm⟩⟩
    have hapart := h.apart.forall hb hb' heq
    exact ⟨Or.inr hapart.1, hapart.2⟩

/-- A cover is a partition. -/
theorem Cover.partition [g.Simple] {sol : List (CandidateBlock g.n)} (h : Cover g hashOrder sol) :
    GadgetPartition g (groupsOf (sol.map (·.members))) := by
  have hmem : ∀ {S}, S ∈ groupsOf (sol.map (·.members)) → ∃ b ∈ sol, b.members.toFinset = S := by
    intro S hS
    obtain ⟨members, hmembers, rfl⟩ := mem_groupsOf.mp hS
    obtain ⟨b, hb, rfl⟩ := List.mem_map.mp hmembers
    exact ⟨b, hb, rfl⟩
  have hquad : ∀ {S}, S ∈ groupsOf (sol.map (·.members)) → IsQuad (adjSet g) S := by
    intro S hS
    obtain ⟨b, hb, rfl⟩ := hmem hS
    exact (candidateBlock_spec (h.mem hb)).2.1
  refine ⟨fun S hS => (hquad hS).card, fun S hS => (hquad hS).share, fun S hS => (hquad hS).six,
    ?_, ?_, ?_⟩
  · intro S hS S' hS' hne
    obtain ⟨b, hb, rfl⟩ := hmem hS
    obtain ⟨b', hb', rfl⟩ := hmem hS'
    rw [Finset.disjoint_left]
    intro a ha ha'
    rcases (h.eq_or_apart hb hb').1 with rfl | hapart
    · exact hne rfl
    · exact hapart a (List.mem_toFinset.mp ha) (List.mem_toFinset.mp ha')
  · intro v
    rw [← mem_inner, ← hashOrder.mem_iff, h.mem_iff]
    constructor
    · rintro ⟨S, hS, hv⟩
      obtain ⟨b, hb, rfl⟩ := hmem hS
      exact ⟨b, hb, List.mem_toFinset.mp hv⟩
    · rintro ⟨b, hb, hv⟩
      exact ⟨b.members.toFinset, mem_groupsOf.mpr ⟨b.members, List.mem_map_of_mem hb, rfl⟩,
        List.mem_toFinset.mpr hv⟩
  · intro S hS S' hS' p q q' hq hq'
    obtain ⟨b, hb, rfl⟩ := hmem hS
    obtain ⟨b', hb', rfl⟩ := hmem hS'
    exact (h.eq_or_apart hb hb').2 p q q' (((candidateBlock_spec (h.mem hb)).2.2.2 p q).mpr hq)
      (((candidateBlock_spec (h.mem hb')).2.2.2 p q').mpr hq')

/-- A partition is a cover. -/
theorem GadgetPartition.exists_cover [g.Simple] {groups : Finset (Finset (Fin g.n))}
    (h : GadgetPartition g groups) : ∃ sol, Cover g hashOrder sol := by
  have hblock : ∀ S : groups, ∃ b ∈ candidateBlocks g hashOrder, b.members.toFinset = S.1 :=
    fun S => exists_candidateBlock (h.quad S.2)
  choose block hcand hset using hblock
  have hmem : ∀ (S : groups) v, v ∈ (block S).members ↔ v ∈ S.1 := fun S v => by
    rw [← hset S, List.mem_toFinset]
  refine ⟨groups.attach.toList.map block, ⟨?_, ?_, ?_⟩⟩
  · intro b hb
    obtain ⟨S, -, rfl⟩ := List.mem_map.mp hb
    exact ⟨hcand S, fun p q y _ hy => by cases hy⟩
  · refine List.pairwise_map.mpr ((Finset.nodup_toList _).imp fun {S S'} hne => ⟨?_, ?_⟩)
    · intro a ha ha'
      have hdisj := h.apart S.1 S.2 S'.1 S'.2 fun heq => hne (Subtype.ext heq)
      exact Finset.disjoint_left.mp hdisj ((hmem S a).mp ha) ((hmem S' a).mp ha')
    · intro p q q' hq hq'
      have hq := ((candidateBlock_spec (hcand S)).2.2.2 p q).mp hq
      have hq' := ((candidateBlock_spec (hcand S')).2.2.2 p q').mp hq'
      rw [hset] at hq hq'
      exact h.consistent S.1 S.2 S'.1 S'.2 p q q' hq hq'
  · intro v
    rw [hashOrder.mem_iff, mem_inner, ← h.cover]
    constructor
    · rintro ⟨S, hS, hv⟩
      refine ⟨block ⟨S, hS⟩, List.mem_map_of_mem ?_, (hmem ⟨S, hS⟩ v).mpr hv⟩
      exact Finset.mem_toList.mpr (Finset.mem_attach _ _)
    · rintro ⟨b, hb, hv⟩
      obtain ⟨S, -, rfl⟩ := List.mem_map.mp hb
      exact ⟨S.1, S.2, (hmem S v).mp hv⟩

/-! ### The reconstruction -/

/-- The gadgets are a partition and their ports are its complement pairs, so each vertex has one partner. -/
structure Reconstructs (g : Graph) (recon : Reconstruction g.n) : Prop where
  partition : GadgetPartition g (groupsOf (recon.gadgets.map (·.inner)))
  nodup : ∀ gadget ∈ recon.gadgets, gadget.inner.Nodup
  apart : recon.gadgets.Pairwise fun gadget gadget' => ∀ v ∈ gadget.inner, v ∉ gadget'.inner
  three : ∀ gadget ∈ recon.gadgets, gadget.ports.length = 3
  ports : ∀ gadget ∈ recon.gadgets, ∀ p q,
    Linked gadget.ports p q ↔ ComplementPair g gadget.inner.toFinset p q
  partner : ∀ p q q', Linked (allPorts recon) p q → Linked (allPorts recon) p q' → q = q'
  involution : ∀ p q, Linked (allPorts recon) p q → Linked (allPorts recon) q p ∧ p ≠ q

theorem linked_allPorts {n : ℕ} {recon : Reconstruction n} {p q : Fin n} :
    Linked (allPorts recon) p q ↔ ∃ gadget ∈ recon.gadgets, Linked gadget.ports p q := by
  simp only [Linked, allPorts, List.mem_flatMap]
  constructor
  · rintro (⟨gadget, hgadget, h⟩ | ⟨gadget, hgadget, h⟩)
    · exact ⟨gadget, hgadget, Or.inl h⟩
    · exact ⟨gadget, hgadget, Or.inr h⟩
  · rintro ⟨gadget, hgadget, h | h⟩
    · exact Or.inl ⟨gadget, hgadget, h⟩
    · exact Or.inr ⟨gadget, hgadget, h⟩

/-- The gadgets of a cover. -/
def ofCover (g : Graph) (sol : List (CandidateBlock g.n)) : Reconstruction g.n where
  gadgets := sol.map fun it => ⟨it.members, it.ports⟩
  numInner := (inner g).length
  numOuter := g.n - (inner g).length

theorem Cover.reconstructs [g.Simple] {sol : List (CandidateBlock g.n)} (h : Cover g hashOrder sol) :
    Reconstructs g (ofCover g sol) := by
  have hgadget : ∀ {gadget}, gadget ∈ (ofCover g sol).gadgets → ∃ b ∈ sol, gadget = ⟨b.members, b.ports⟩ := by
    intro gadget hgadget
    obtain ⟨b, hb, heq⟩ := List.mem_map.mp hgadget
    exact ⟨b, hb, heq.symm⟩
  refine ⟨?_, ?_, ?_, ?_, ?_, ?_, ?_⟩
  · have hmap : (ofCover g sol).gadgets.map (·.inner) = sol.map (·.members) := by
      rw [ofCover, List.map_map]
      rfl
    rw [hmap]
    exact h.partition
  · intro gadget hg
    obtain ⟨b, hb, rfl⟩ := hgadget hg
    exact (candidateBlock_spec (h.mem hb)).1
  · exact List.pairwise_map.mpr (h.apart.imp fun hbb => hbb.1)
  · intro gadget hg
    obtain ⟨b, hb, rfl⟩ := hgadget hg
    exact (candidateBlock_spec (h.mem hb)).2.2.1
  · intro gadget hg
    obtain ⟨b, hb, rfl⟩ := hgadget hg
    exact (candidateBlock_spec (h.mem hb)).2.2.2
  · intro p q q' hq hq'
    obtain ⟨gadget, hg, hq⟩ := linked_allPorts.mp hq
    obtain ⟨gadget', hg', hq'⟩ := linked_allPorts.mp hq'
    obtain ⟨b, hb, rfl⟩ := hgadget hg
    obtain ⟨b', hb', rfl⟩ := hgadget hg'
    exact (h.eq_or_apart hb hb').2 p q q' hq hq'
  · intro p q hpq
    obtain ⟨gadget, hg, hpq'⟩ := linked_allPorts.mp hpq
    obtain ⟨b, hb, rfl⟩ := hgadget hg
    exact ⟨hpq.symm, (((candidateBlock_spec (h.mem hb)).2.2.2 p q).mp hpq').ne⟩

/-- The search of `reconstruct`. -/
def search (g : Graph) (hashOrder : SetOrder g.n) : Option (Bool × SearchState g.n) :=
  backtrack (blockOfElem g hashOrder) ((inner g).length + 1) (hashOrder.order (inner g))
    ⟨fun _ => none, []⟩

theorem search_answer [g.Simple] :
    Answer (· ∈ candidateBlocks g hashOrder) (hashOrder.order (inner g)) ⟨fun _ => none, []⟩
      (search g hashOrder) := by
  refine backtrack_spec (fun e b => ?_) candidateBlock_self (Nat.lt_succ_of_le ?_)
  · rw [blockOfElem, List.mem_filter, decide_eq_true_eq]
  · exact (List.subperm_of_subset (hashOrder.nodup _) fun v => hashOrder.mem_iff.mp).length_le

/-- The search ends; it gives the gadgets of a cover, and fails when there is none. -/
theorem reconstruct_cases [g.Simple] (path : String) :
    (∃ sol, reconstruct g hashOrder path = .ok (ofCover g sol) ∧ Cover g hashOrder sol) ∨
      (∃ e s, reconstruct g hashOrder path = .error e ∧ search g hashOrder = some (false, s)) ∧
        ¬∃ sol, Cover g hashOrder sol := by
  have hanswer := @search_answer g hashOrder _
  rw [reconstruct, ← search]
  generalize search g hashOrder = r at hanswer
  cases hanswer with
  | @found s' sol hsol hcover =>
    refine Or.inl ⟨sol, ?_, hcover⟩
    rw [List.nil_append] at hsol
    dsimp only
    rw [hsol, ofCover]
  | @deadEnd s' hnone => exact Or.inr ⟨⟨_, s', rfl, rfl⟩, hnone⟩

/-- `reconstruct` succeeds exactly when there is a partition, and then returns one which `prepare` accepts
    and turns into an involution without fixed points. The search never runs out of levels, and a
    branch that fails leaves the partner map as it was. -/
theorem reconstruct_spec (g : Graph) [g.Simple] (hashOrder : SetOrder g.n) (path : String) :
    ((∃ recon, reconstruct g hashOrder path = .ok recon) ↔ ∃ groups, GadgetPartition g groups) ∧
    (∀ recon, reconstruct g hashOrder path = .ok recon → Reconstructs g recon ∧
      ∃ sided, prepare recon = .ok sided ∧ sided.recon = recon ∧
        (∀ p q, sided.partnerOf p = some q ↔ Linked (allPorts recon) p q) ∧
        ∀ p q, sided.partnerOf p = some q → sided.partnerOf q = some p ∧ p ≠ q) ∧
    search g hashOrder ≠ none ∧
    (∀ fuel remaining s s',
      backtrack (blockOfElem g hashOrder) fuel remaining s = some (false, s') → s' = s) ∧
    ∀ fuel remaining (s s' : SearchState g.n) block added partnerOf, tryAdd s.partnerOf block = some (added, partnerOf) →
      backtrack (blockOfElem g hashOrder) fuel remaining ⟨partnerOf, s.solution ++ [block]⟩ =
        some (false, s') →
      undoAdd s'.partnerOf added = s.partnerOf ∧ s'.solution.dropLast = s.solution := by
  have hcases := @reconstruct_cases g hashOrder _ path
  refine ⟨⟨?_, ?_⟩, ?_, ?_, fun _ _ _ _ => backtrack_restores, ?_⟩
  · rintro ⟨recon, hrecon⟩
    rcases hcases with ⟨sol, -, hcover⟩ | ⟨⟨e, s, he, -⟩, -⟩
    · exact ⟨_, hcover.partition⟩
    · rw [he] at hrecon
      cases hrecon
  · rintro ⟨groups, hgroups⟩
    rcases hcases with ⟨sol, hok, -⟩ | ⟨-, hnone⟩
    · exact ⟨_, hok⟩
    · exact absurd hgroups.exists_cover hnone
  · intro recon hrecon
    rcases hcases with ⟨sol, hok, hcover⟩ | ⟨⟨e, s, he, -⟩, -⟩
    · rw [hok, Except.ok.injEq] at hrecon
      subst hrecon
      have hspec := hcover.reconstructs
      obtain ⟨sided, hprepare, hrecon, hpartner⟩ := prepare_ok hspec.partner
      refine ⟨hspec, sided, hprepare, hrecon, hpartner, fun p q hpq => ?_⟩
      rw [hpartner] at hpq ⊢
      exact hspec.involution p q hpq
    · rw [he] at hrecon
      cases hrecon
  · intro hnone
    have hanswer := @search_answer g hashOrder _
    rw [hnone] at hanswer
    cases hanswer
  · intro fuel remaining s s' block added partnerOf hadd hfail
    rw [backtrack_restores hfail]
    exact ⟨undoAdd_tryAdd hadd, List.dropLast_concat⟩

/-- One gadget, `0` to `3`, with the ports `4`-`5`, `6`-`7` and `8`-`9`. -/
def oneGadget : Graph := .ofEdges 10
  [(0, 4), (0, 6), (0, 8), (1, 4), (1, 7), (1, 9), (2, 5), (2, 6), (2, 9), (3, 5), (3, 7), (3, 8)]

instance : oneGadget.Simple := by decide +kernel

/-- A hash set that is run through from the last use of an element to the next. -/
def lastUse (n : ℕ) : SetOrder n where
  order := List.dedup
  nodup := List.nodup_dedup
  mem_iff := List.mem_dedup

def firstFour : Finset (Fin oneGadget.n) := ({0, 1, 2, 3} : Finset (Fin 10))

/-- The first two ports of the gadget flip, the third does not. -/
def turnTwo : Equiv.Perm (Fin oneGadget.n) :=
  (Equiv.swap 0 3 * Equiv.swap 1 2 * Equiv.swap 4 5 * Equiv.swap 6 7 : Equiv.Perm (Fin 10))

theorem quad_oneGadget : IsQuad (adjSet oneGadget) firstFour := by
  refine ⟨?_, ?_, ?_, ?_⟩ <;> decide +kernel

theorem partition_oneGadget : GadgetPartition oneGadget {firstFour} where
  four := by simpa using quad_oneGadget.card
  share := by simpa using quad_oneGadget.share
  six := by simpa using quad_oneGadget.six
  apart := by simp
  cover := by decide +kernel
  consistent := by
    intro S hS S' hS' p q q' hq hq'
    rw [Finset.mem_singleton.mp hS] at hq
    rw [Finset.mem_singleton.mp hS'] at hq'
    exact hq.unique quad_oneGadget hq'

theorem reconstruct_oneGadget : ∃ recon, reconstruct oneGadget (lastUse 10) "one" = .ok recon :=
  (reconstruct_spec oneGadget (lastUse 10) "one").1.mpr ⟨_, partition_oneGadget⟩

end Dialysis.RealFileGadgetReconstruction
