import GraphDialysis.Gadgetxor.RealFileGadgetReconstruction

/-! The candidate blocks. Four vertices of degree 3 are one exactly when their neighbourhoods form a
    quadruple (`exists_mem_allCandidates`): each of the four meets the three others in its three
    neighbours, one each, so the loops over its neighbours come to them. The ports are then the pairs
    of opposite neighbours (`computePorts_spec`). -/

namespace Dialysis.RealFileGadgetReconstruction
open Lib
variable {g : Graph}

theorem mem_adjSet {v w : Fin g.n} : w ∈ adjSet g v ↔ w ∈ g.adj v := List.mem_toFinset

theorem mem_inner {v : Fin g.n} : v ∈ inner g ↔ (g.adj v).length = 3 := by
  rw [inner, List.mem_filter, and_iff_right (List.mem_finRange v), decide_eq_true_eq]

theorem mem_membersOf {members : List (Fin g.n)} {o v : Fin g.n} :
    v ∈ membersOf g members o ↔ v ∈ members ∧ o ∈ adjSet g v := by
  rw [membersOf, Finset.mem_filter, List.mem_toFinset]

instance : Std.Symm (shareExactlyOne g) := ⟨fun a b h => by rwa [shareExactlyOne, Finset.inter_comm]⟩

theorem card_adjSet [g.Simple] (v : Fin g.n) : (adjSet g v).card = (g.adj v).length :=
  List.toFinset_card_of_nodup ((Graph.Simple.sorted v).imp fun h => ne_of_lt h)

/-! ### Groups -/

/-- What the candidates are filtered by. -/
theorem groupOk_iff [g.Simple] {group : List (Fin g.n)} (hlen : group.length = 4)
    (hinner : ∀ v ∈ group, v ∈ inner g) :
    groupOk g group ↔ group.Nodup ∧ IsQuad (adjSet g) group.toFinset := by
  have hthree : ∀ v ∈ group, (adjSet g v).card = 3 := fun v hv => by
    rw [card_adjSet, mem_inner.mp (hinner v hv)]
  constructor
  · rintro ⟨hpairs, hsix⟩
    have hnodup : group.Nodup := by
      refine List.Pairwise.imp_of_mem (fun {x y} hx _ hshare heq => ?_) hpairs
      rw [← heq, shareExactlyOne, Finset.inter_self, hthree x hx] at hshare
      cases hshare
    refine ⟨hnodup, ⟨?_, ?_, ?_, hsix⟩⟩
    · rw [List.toFinset_card_of_nodup hnodup, hlen]
    · exact fun v hv => hthree v (List.mem_toFinset.mp hv)
    · intro x hx y hy hne
      exact hpairs.forall (List.mem_toFinset.mp hx) (List.mem_toFinset.mp hy) hne
  · rintro ⟨hnodup, hquad⟩
    refine ⟨hnodup.pairwise_of_forall_ne fun x hx y hy hne => ?_, hquad.six⟩
    exact hquad.share x (List.mem_toFinset.mpr hx) y (List.mem_toFinset.mpr hy) hne

theorem mem_inner_of_quad [g.Simple] {S : Finset (Fin g.n)} (hS : IsQuad (adjSet g) S) {v : Fin g.n}
    (hv : v ∈ S) : v ∈ inner g := by
  rw [mem_inner, ← card_adjSet, hS.three v hv]

/-- A group that was found passed the filter. -/
theorem group_of_mem_candidatesFor {m : Fin g.n} {pool members : List (Fin g.n)}
    (h : members ∈ candidatesFor g m pool) : ∃ group : List (Fin g.n), group.length = 4 ∧
      (∀ v ∈ group, v = m ∨ v ∈ pool) ∧ groupOk g group ∧ members = group.insertionSort (· ≤ ·) := by
  rw [candidatesFor] at h
  split at h
  · rw [List.mem_eraseDups, List.mem_flatMap] at h
    obtain ⟨m1, hm1, h⟩ := h
    obtain ⟨m2, hm2, h⟩ := List.mem_flatMap.mp h
    split at h
    · cases h
    · obtain ⟨m3, hm3, h⟩ := List.mem_flatMap.mp h
      split at h
      · cases h
      · split at h
        · rename_i hok
          refine ⟨[m, m1, m2, m3], rfl, ?_, hok, List.mem_singleton.mp h⟩
          have hpool : ∀ {nk v}, v ∈ sharing g m pool nk → v ∈ pool := fun hv => List.mem_of_mem_filter hv
          simp only [List.mem_cons, List.not_mem_nil, or_false]
          rintro v (rfl | rfl | rfl | rfl)
          · exact Or.inl rfl
          · exact Or.inr (hpool hm1)
          · exact Or.inr (hpool hm2)
          · exact Or.inr (hpool hm3)
        · cases h
  · cases h

/-- Each member of a quadruple finds it. -/
theorem exists_mem_candidatesFor [g.Simple] {S : Finset (Fin g.n)} (hS : IsQuad (adjSet g) S)
    {m : Fin g.n} (hm : m ∈ S) {pool : List (Fin g.n)} (hpool : ∀ v ∈ S, v ∈ pool) :
    ∃ members ∈ candidatesFor g m pool, members.toFinset = S := by
  obtain ⟨n1, n2, n3, hsort⟩ : ∃ n1 n2 n3, (adjSet g m).sort (· ≤ ·) = [n1, n2, n3] := by
    refine List.length_eq_three.mp ?_
    rw [Finset.length_sort, hS.three m hm]
  have hnodup : [n1, n2, n3].Nodup := by
    rw [← hsort]
    exact Finset.sort_nodup _ _
  have hmem : ∀ nk ∈ [n1, n2, n3], nk ∈ adjSet g m := fun nk hnk => by
    rwa [← hsort, Finset.mem_sort] at hnk
  -- each neighbour leads to another member
  have hother : ∀ nk ∈ [n1, n2, n3], ∃ v ∈ S, v ≠ m ∧ nk ∈ adjSet g v ∧ v ∈ sharing g m pool nk := by
    intro nk hnk
    obtain ⟨v, hv, hne, hadj, -⟩ := hS.exists_other hm (hmem nk hnk)
    refine ⟨v, hv, hne, hadj, List.mem_filter.mpr ⟨hpool v hv, ?_⟩⟩
    rw [decide_eq_true_eq]
    exact ⟨hne, hadj, hS.share m hm v hv hne.symm⟩
  obtain ⟨m1, hm1, hne1, hadj1, hs1⟩ := hother n1 (by simp)
  obtain ⟨m2, hm2, hne2, hadj2, hs2⟩ := hother n2 (by simp)
  obtain ⟨m3, hm3, hne3, hadj3, hs3⟩ := hother n3 (by simp)
  -- and two neighbours to different ones, since two members share just one neighbour
  have hapart : ∀ {nk nk' v v'}, nk ∈ [n1, n2, n3] → nk' ∈ [n1, n2, n3] → nk ≠ nk' → v ∈ S → v ≠ m →
      nk ∈ adjSet g v → nk' ∈ adjSet g v' → v' ≠ v := by
    rintro nk nk' v v' hnk hnk' hne hv hvm hadj hadj' rfl
    obtain ⟨x, hx⟩ := Finset.card_eq_one.mp (hS.share m hm v' hv hvm.symm)
    have honly : ∀ y, y ∈ adjSet g m → y ∈ adjSet g v' → y = x := fun y hy hy' =>
      Finset.mem_singleton.mp (hx ▸ Finset.mem_inter.mpr ⟨hy, hy'⟩)
    exact hne ((honly nk (hmem nk hnk) hadj).trans (honly nk' (hmem nk' hnk') hadj').symm)
  simp only [List.nodup_cons, List.mem_cons, List.not_mem_nil, or_false, not_or, not_false_eq_true,
    List.nodup_nil, and_true] at hnodup
  have h21 : m2 ≠ m1 := hapart (by simp) (by simp) hnodup.1.1 hm1 hne1 hadj1 hadj2
  have h31 : m3 ≠ m1 := hapart (by simp) (by simp) hnodup.1.2 hm1 hne1 hadj1 hadj3
  have h32 : m3 ≠ m2 := hapart (by simp) (by simp) hnodup.2 hm2 hne2 hadj2 hadj3
  have hgroup : [m, m1, m2, m3].Nodup := by
    simp [hne1.symm, hne2.symm, hne3.symm, h21.symm, h31.symm, h32.symm]
  have heq : [m, m1, m2, m3].toFinset = S := by
    refine Finset.eq_of_subset_of_card_le (fun v hv => ?_) ?_
    · simp only [List.mem_toFinset, List.mem_cons, List.not_mem_nil, or_false] at hv
      rcases hv with rfl | rfl | rfl | rfl <;> assumption
    · rw [List.toFinset_card_of_nodup hgroup, hS.card]
      exact le_rfl
  have hok : groupOk g [m, m1, m2, m3] := by
    refine (groupOk_iff rfl fun v hv => mem_inner_of_quad hS ?_).mpr ⟨hgroup, heq ▸ hS⟩
    rw [← heq]
    exact List.mem_toFinset.mpr hv
  refine ⟨[m, m1, m2, m3].insertionSort (· ≤ ·), ?_, ?_⟩
  · rw [candidatesFor, hsort]
    dsimp only
    rw [List.mem_eraseDups, List.mem_flatMap]
    refine ⟨m1, hs1, List.mem_flatMap.mpr ⟨m2, hs2, ?_⟩⟩
    rw [if_neg h21]
    refine List.mem_flatMap.mpr ⟨m3, hs3, ?_⟩
    rw [if_neg (not_or.mpr ⟨h31, h32⟩), if_pos hok]
    exact List.mem_singleton_self _
  · rw [← heq, List.toFinset_eq_of_perm _ _ (List.perm_insertionSort _ _)]

variable {hashOrder : SetOrder g.n}

theorem quad_of_mem_allCandidates [g.Simple] {members : List (Fin g.n)}
    (h : members ∈ allCandidates g hashOrder) :
    members.Nodup ∧ IsQuad (adjSet g) members.toFinset := by
  rw [allCandidates, List.mem_eraseDups, List.mem_flatMap] at h
  obtain ⟨m, hm, h⟩ := h
  obtain ⟨group, hlen, hpool, hok, rfl⟩ := group_of_mem_candidatesFor h
  have hinner : ∀ v ∈ group, v ∈ inner g := by
    intro v hv
    rcases hpool v hv with rfl | hv
    · exact hm
    · exact hashOrder.mem_iff.mp hv
  have hperm := List.perm_insertionSort (· ≤ ·) group
  rw [hperm.nodup_iff, List.toFinset_eq_of_perm _ _ hperm]
  exact (groupOk_iff hlen hinner).mp hok

theorem exists_mem_allCandidates [g.Simple] {S : Finset (Fin g.n)} (hS : IsQuad (adjSet g) S) :
    ∃ members ∈ allCandidates g hashOrder, members.toFinset = S := by
  obtain ⟨m, hm⟩ : S.Nonempty := Finset.card_pos.mp (by rw [hS.card]; decide)
  obtain ⟨members, hmem, heq⟩ := exists_mem_candidatesFor hS hm
    fun v hv => hashOrder.mem_iff.mpr (mem_inner_of_quad hS hv)
  refine ⟨members, ?_, heq⟩
  rw [allCandidates, List.mem_eraseDups, List.mem_flatMap]
  exact ⟨m, mem_inner_of_quad hS hm, hmem⟩

/-! ### Ports -/

/-- `p` and `q` are two of the group's neighbours, and each member has one of them. -/
def ComplementPair (g : Graph) (S : Finset (Fin g.n)) (p q : Fin g.n) : Prop :=
  p ∈ S.biUnion (adjSet g) ∧ Opposite (adjSet g) S p q

theorem ComplementPair.symm {S : Finset (Fin g.n)} {p q : Fin g.n} (h : ComplementPair g S p q) :
    ComplementPair g S q p := ⟨h.2.1, (h.2.symm h.1).1⟩

theorem ComplementPair.ne {S : Finset (Fin g.n)} {p q : Fin g.n} (h : ComplementPair g S p q) : p ≠ q :=
  (h.2.symm h.1).2.symm

theorem ComplementPair.unique {S : Finset (Fin g.n)} (hS : IsQuad (adjSet g) S) {p q q' : Fin g.n}
    (h : ComplementPair g S p q) (h' : ComplementPair g S p q') : q = q' := by
  obtain ⟨x, -, hx⟩ := hS.exists_opposite h.1
  rw [hx q h.2, hx q' h'.2]

/-- The comparison in the loop. -/
theorem complementPair_iff {members : List (Fin g.n)} {p q : Fin g.n}
    (hp : p ∈ members.toFinset.biUnion (adjSet g)) (hq : q ∈ members.toFinset.biUnion (adjSet g)) :
    ComplementPair g members.toFinset p q ↔
      membersOf g members q = members.toFinset \ membersOf g members p := by
  rw [ComplementPair, and_iff_right hp, Lib.Opposite, and_iff_right hq, Finset.ext_iff]
  refine forall_congr' fun v => ?_
  rw [Finset.mem_sdiff, mem_membersOf, mem_membersOf, List.mem_toFinset]
  constructor
  · intro h
    rw [not_and]
    exact ⟨fun hv => ⟨hv.1, fun _ => (h hv.1).mp hv.2⟩, fun hv => ⟨hv.1, (h hv.1).mpr (hv.2 hv.1)⟩⟩
  · intro h hv
    rw [and_iff_right hv, and_iff_right hv, and_iff_right hv] at h
    exact h

/-- The neighbours that still have to be paired. -/
def unpaired (l used : List (Fin g.n)) : Finset (Fin g.n) := l.toFinset \ used.toFinset

theorem mem_unpaired {l used : List (Fin g.n)} {p : Fin g.n} : p ∈ unpaired l used ↔ p ∈ l ∧ p ∉ used := by
  rw [unpaired, Finset.mem_sdiff, List.mem_toFinset, List.mem_toFinset]

theorem unpaired_cons_used {oi : Fin g.n} {l used : List (Fin g.n)} (h : oi ∈ used) :
    unpaired (oi :: l) used = unpaired l used := by
  ext p
  rw [mem_unpaired, mem_unpaired, List.mem_cons]
  refine and_congr_left fun hp => or_iff_right ?_
  rintro rfl
  exact hp h

theorem unpaired_cons {oi oj : Fin g.n} {l used : List (Fin g.n)} (hoi : oi ∉ used) (hoj : oj ∈ l)
    (hoj' : oj ∉ used) :
    unpaired (oi :: l) used = insert oi (insert oj (unpaired l (oi :: oj :: used))) := by
  ext p
  simp only [mem_unpaired, Finset.mem_insert, List.mem_cons, not_or]
  constructor
  · rintro ⟨rfl | hp, hused⟩
    · exact Or.inl rfl
    · by_cases h : p = oi
      · exact Or.inl h
      · by_cases h' : p = oj
        · exact Or.inr (Or.inl h')
        · exact Or.inr (Or.inr ⟨hp, h, h', hused⟩)
  · rintro (rfl | rfl | ⟨hp, -, -, hused⟩)
    · exact ⟨Or.inl rfl, hoi⟩
    · exact ⟨Or.inr hoj, hoj'⟩
    · exact ⟨Or.inr hp, hused⟩

variable {members : List (Fin g.n)}

/-- The inner loop finds the partner. -/
theorem find_partner (hS : IsQuad (adjSet g) members.toFinset) {oi oj : Fin g.n} {rest used : List (Fin g.n)}
    (hrest : ∀ p ∈ rest, p ∈ members.toFinset.biUnion (adjSet g)) (hmem : oj ∈ rest) (hused : oj ∉ used)
    (hpair : ComplementPair g members.toFinset oi oj) :
    rest.find? (fun oj => oj ∉ used ∧
      membersOf g members oj = members.toFinset \ membersOf g members oi) = some oj := by
  cases hfind : rest.find? (fun oj => oj ∉ used ∧
      membersOf g members oj = members.toFinset \ membersOf g members oi) with
  | none =>
    have := List.find?_eq_none.mp hfind oj hmem
    rw [decide_eq_true_eq] at this
    exact absurd ⟨hused, (complementPair_iff hpair.1 (hrest oj hmem)).mp hpair⟩ this
  | some q =>
    have hq := List.find?_some hfind
    rw [decide_eq_true_eq] at hq
    have hpair' := (complementPair_iff hpair.1 (hrest q (List.mem_of_find?_eq_some hfind))).mpr hq.2
    rw [hpair.unique hS hpair']

/-- No neighbour is left behind by its partner, so each finds it later in the list. -/
theorem portLoop_spec (hS : IsQuad (adjSet g) members.toFinset) :
    ∀ {l used : List (Fin g.n)} {ports : List (Fin g.n × Fin g.n)}, l.Nodup →
    (∀ p ∈ l, p ∈ members.toFinset.biUnion (adjSet g)) →
    (∀ p ∈ unpaired l used, ∃ q ∈ unpaired l used, ComplementPair g members.toFinset p q) →
    ∃ new, portLoop g members l used ports = some (ports ++ new) ∧
      2 * new.length = (unpaired l used).card ∧ ∀ p q, (p, q) ∈ new ∨ (q, p) ∈ new ↔
        p ∈ unpaired l used ∧ ComplementPair g members.toFinset p q
  | [], used, ports, _, _, _ => ⟨[], by simp [portLoop], by simp [unpaired], by simp [unpaired]⟩
  | oi :: rest, used, ports, hnodup, hunion, hpartner => by
    obtain ⟨hoi, hrest⟩ := List.nodup_cons.mp hnodup
    have hunion' := fun p hp => hunion p (List.mem_cons_of_mem oi hp)
    rw [portLoop]
    split
    · rename_i hused
      rw [unpaired_cons_used hused] at hpartner ⊢
      exact portLoop_spec hS hrest hunion' hpartner
    · rename_i hused
      obtain ⟨oj, hoj, hpair⟩ := hpartner oi (mem_unpaired.mpr ⟨List.mem_cons_self, hused⟩)
      obtain ⟨hmem, hojused⟩ := mem_unpaired.mp hoj
      have hojrest : oj ∈ rest := (List.mem_cons.mp hmem).resolve_left hpair.ne.symm
      have hstep := unpaired_cons hused hojrest hojused
      have hnotj : oj ∉ unpaired rest (oi :: oj :: used) := fun h => by simp [mem_unpaired] at h
      have hnoti : oi ∉ insert oj (unpaired rest (oi :: oj :: used)) := by
        simp [mem_unpaired, hpair.ne]
      obtain ⟨new, hnew, hlen, hports⟩ := portLoop_spec hS (l := rest)
        hrest hunion' (by
          intro p hp
          obtain ⟨q, hq, hpq⟩ := hpartner p (by
            rw [hstep]
            exact Finset.mem_insert_of_mem (Finset.mem_insert_of_mem hp))
          refine ⟨q, ?_, hpq⟩
          rw [hstep, Finset.mem_insert, Finset.mem_insert] at hq
          rcases hq with rfl | rfl | hq
          · rw [hpq.symm.unique hS hpair] at hp
            exact absurd hp hnotj
          · rw [hpq.symm.unique hS hpair.symm] at hp
            exact absurd (Finset.mem_insert_of_mem hp) hnoti
          · exact hq)
      refine ⟨(oi, oj) :: new, ?_, ?_, fun p q => ?_⟩
      · dsimp only
        rw [find_partner hS hunion' hojrest hojused hpair]
        dsimp only
        rw [hnew, List.append_assoc, List.singleton_append]
      · rw [hstep, Finset.card_insert_of_notMem hnoti, Finset.card_insert_of_notMem hnotj, ← hlen,
          List.length_cons]
        ring
      · have hsplit : (p, q) ∈ (oi, oj) :: new ∨ (q, p) ∈ (oi, oj) :: new ↔
            (p = oi ∧ q = oj ∨ p = oj ∧ q = oi) ∨ (p, q) ∈ new ∨ (q, p) ∈ new := by
          simp only [List.mem_cons, Prod.mk.injEq]
          tauto
        rw [hsplit, hports, hstep, Finset.mem_insert, Finset.mem_insert]
        constructor
        · rintro ((⟨rfl, rfl⟩ | ⟨rfl, rfl⟩) | ⟨hp, hpq⟩)
          · exact ⟨Or.inl rfl, hpair⟩
          · exact ⟨Or.inr (Or.inl rfl), hpair.symm⟩
          · exact ⟨Or.inr (Or.inr hp), hpq⟩
        · rintro ⟨rfl | rfl | hp, hpq⟩
          · exact Or.inl (Or.inl ⟨rfl, hpq.unique hS hpair⟩)
          · exact Or.inl (Or.inr ⟨rfl, hpq.unique hS hpair.symm⟩)
          · exact Or.inr ⟨hp, hpq⟩

/-- A quadruple has its three ports, and they are its complement pairs. -/
theorem computePorts_spec (hS : IsQuad (adjSet g) members.toFinset) :
    ∃ ports, computePorts g hashOrder members = some ports ∧ ports.length = 3 ∧
      ∀ p q, (p, q) ∈ ports ∨ (q, p) ∈ ports ↔ ComplementPair g members.toFinset p q := by
  have hmem : ∀ p, p ∈ hashOrder.order (members.flatMap g.adj) ↔
      p ∈ members.toFinset.biUnion (adjSet g) := by
    intro p
    simp only [hashOrder.mem_iff, List.mem_flatMap, Finset.mem_biUnion, List.mem_toFinset, mem_adjSet]
  have hset : unpaired (hashOrder.order (members.flatMap g.adj)) [] =
      members.toFinset.biUnion (adjSet g) := by
    ext p
    rw [mem_unpaired, hmem, and_iff_left List.not_mem_nil]
  have hlength : (hashOrder.order (members.flatMap g.adj)).length = 6 := by
    rw [← List.toFinset_card_of_nodup (hashOrder.nodup _), ← hS.six, ← hset, unpaired,
      List.toFinset_nil, Finset.sdiff_empty]
  obtain ⟨ports, hports, hlen, hmemPorts⟩ := portLoop_spec hS
    (hashOrder.nodup (members.flatMap g.adj)) (fun p => (hmem p).mp) (by
      rw [hset]
      intro p hp
      obtain ⟨q, hq, -⟩ := hS.exists_opposite hp
      exact ⟨q, hq.1, hp, hq⟩)
  rw [hset, hS.six] at hlen
  have hthree : ports.length = 3 := by omega
  refine ⟨ports, ?_, hthree, fun p q => ?_⟩
  · rw [computePorts, hlength, if_neg (by decide), hports]
    dsimp only
    rw [List.nil_append, if_neg (not_not.mpr hthree)]
  · rw [hmemPorts, hset, ComplementPair, ← and_assoc, and_self]

end Dialysis.RealFileGadgetReconstruction
