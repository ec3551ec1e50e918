import GraphDialysis.Gadgetxor.GadgetPartition
import GraphDialysis.Gadgetxor.Clusters
import GraphDialysis.Gadgetxor.ParityXors
import Mathlib.Algebra.BigOperators.Group.List.Basic

/-! Why an even number of ports flips. Each vertex of a gadget is adjacent to one vertex of every port, and
    the sides of these add up to one parity for the whole gadget (`even_uppers`). An automorphism that
    keeps every port changes it by the number of ports that flip (`even_uppers_image`), and permutes
    the inner vertices of a cluster, so that over the cluster the changes cancel (`evenFlips_of_keepsPorts`).
    Ports in an even number of gadgets cancel anyway. -/

namespace Dialysis.RealFileGadgetXor
open RealFileGadgetReconstruction Lib Lib.Parity Dialysis.Graph
variable {g : Graph} {recon : Reconstruction g.n} {sided : SidedReconstruction g.n}

/-- The vertex is the second of its port. -/
def upper {n : ℕ} (sided : SidedReconstruction n) (v : Fin n) : Bool := sided.sideOf v == some 1

/-- The end of the port that lies in `N`, if one does. -/
def pick {n : ℕ} (N : Finset (Fin n)) (port : Fin n × Fin n) : Fin n := if port.1 ∈ N then port.1 else port.2

/-- How many neighbours are second. -/
def uppers (sided : SidedReconstruction g.n) (x : Fin g.n) : ℕ := (g.adj x).countP (upper sided)

theorem pick_cases (x : Fin g.n) (port : Fin g.n × Fin g.n) :
    pick (adjSet g x) port = port.1 ∨ pick (adjSet g x) port = port.2 := by
  rw [pick]
  split_ifs
  · exact Or.inl rfl
  · exact Or.inr rfl

/-! ### The two ends of a port -/

section
variable (hpartner : ∀ p q, sided.partnerOf p = some q ↔ Linked (allPorts recon) p q)
include hpartner

theorem sideOf_of_linked {p q : Fin g.n} (h : Linked (allPorts recon) p q) :
    sided.sideOf p = some (if p < q then 0 else 1) := by
  rw [SidedReconstruction.sideOf, (hpartner p q).mpr h, Option.map_some]

/-- Exactly one end is the second. -/
theorem upper_ne (hrecon : Reconstructs g recon) {p q : Fin g.n} (h : Linked (allPorts recon) p q) :
    (upper sided p != upper sided q) = true ∧ sided.sideOf p ≠ sided.sideOf q := by
  rw [upper, upper, sideOf_of_linked hpartner h, sideOf_of_linked hpartner h.symm]
  rcases lt_or_gt_of_ne (hrecon.involution p q h).2 with hlt | hlt
  · simp [hlt, hlt.not_gt]
  · simp [hlt, hlt.not_gt]

variable {α : Equiv.Perm (Fin g.n)} (hkeep : ∀ p q, sided.partnerOf p = some q → α p = p ∨ α p = q)
include hkeep

/-- Both ends of a port flip or none. -/
theorem fixes_iff (hrecon : Reconstructs g recon) {p q : Fin g.n} (h : Linked (allPorts recon) p q) :
    α p = p ↔ α q = q := by
  have hne := (hrecon.involution p q h).2
  have hp := hkeep p q ((hpartner p q).mpr h)
  have hq := hkeep q p ((hpartner q p).mpr h.symm)
  constructor
  · intro hfix
    exact hq.resolve_right fun hqp => hne (α.injective (hfix.trans hqp.symm))
  · intro hfix
    exact hp.resolve_right fun hpq => hne (α.injective (hpq.trans hfix.symm))

/-- To flip is to be moved. -/
theorem flips_iff (hrecon : Reconstructs g recon) {p q : Fin g.n} (h : Linked (allPorts recon) p q) :
    Flips sided α p ↔ α p ≠ p := by
  rw [Flips]
  rcases hkeep p q ((hpartner p q).mpr h) with hp | hp
  · rw [hp]
    exact iff_of_false (not_not_intro rfl) (not_not_intro rfl)
  · rw [hp]
    exact iff_of_true (upper_ne hpartner hrecon h).2.symm (hrecon.involution p q h).2.symm

theorem flips_key (hrecon : Reconstructs g recon) {port : Fin g.n × Fin g.n}
    (h : Linked (allPorts recon) port.1 port.2) : Flips sided α port.1 ↔ α (portKey port) ≠ portKey port := by
  rw [flips_iff hpartner hkeep hrecon h, portKey]
  rcases min_choice port.1 port.2 with hm | hm <;> rw [hm]
  exact (fixes_iff hpartner hkeep hrecon h).not

theorem upper_image (hrecon : Reconstructs g recon) {p q : Fin g.n} (h : Linked (allPorts recon) p q) :
    (upper sided (α p) != upper sided p) = decide (α p ≠ p) := by
  rcases hkeep p q ((hpartner p q).mpr h) with hp | hp
  · rw [hp]
    simp
  · rw [hp, (upper_ne hpartner hrecon h.symm).1]
    simp [(hrecon.involution p q h).2.symm]

end

/-! ### One gadget -/

theorem linked_of_mem {gadget : Gadget g.n} (hgadget : gadget ∈ recon.gadgets) {port : Fin g.n × Fin g.n}
    (hport : port ∈ gadget.ports) : Linked (allPorts recon) port.1 port.2 :=
  linked_allPorts.mpr ⟨gadget, hgadget, Or.inl hport⟩

section
variable [g.Simple] (hrecon : Reconstructs g recon) {gadget : Gadget g.n} (hgadget : gadget ∈ recon.gadgets)
include hrecon hgadget

theorem quad_gadget : IsQuad (adjSet g) gadget.inner.toFinset :=
  hrecon.partition.quad (mem_groupsOf.mpr ⟨_, List.mem_map_of_mem hgadget, rfl⟩)

theorem length_inner : gadget.inner.length = 4 := by
  rw [← List.toFinset_card_of_nodup (hrecon.nodup gadget hgadget), (quad_gadget hrecon hgadget).card]

omit [g.Simple] in
/-- An inner vertex is adjacent to one end of every port. -/
theorem mem_adj_port {port : Fin g.n × Fin g.n} (hport : port ∈ gadget.ports) {x : Fin g.n}
    (hx : x ∈ gadget.inner) : port.2 ∈ adjSet g x ↔ port.1 ∉ adjSet g x :=
  ((hrecon.ports gadget hgadget _ _).mp (Or.inl hport)).2.2 x (List.mem_toFinset.mpr hx)

/-- Its neighbours are one end of each port. -/
theorem perm_pick {x : Fin g.n} (hx : x ∈ gadget.inner) :
    (g.adj x).Perm (gadget.ports.map (pick (adjSet g x))) := by
  have hquad := quad_gadget hrecon hgadget
  have hsub : g.adj x ⊆ gadget.ports.map (pick (adjSet g x)) := by
    intro v hv
    have hpoint : v ∈ gadget.inner.toFinset.biUnion (adjSet g) :=
      Finset.mem_biUnion.mpr ⟨x, List.mem_toFinset.mpr hx, mem_adjSet.mpr hv⟩
    obtain ⟨q, hq, -⟩ := hquad.exists_opposite hpoint
    rcases (hrecon.ports gadget hgadget v q).mpr ⟨hpoint, hq⟩ with hport | hport
    · exact List.mem_map.mpr ⟨_, hport, if_pos (mem_adjSet.mpr hv)⟩
    · refine List.mem_map.mpr ⟨_, hport, if_neg ?_⟩
      exact (mem_adj_port hrecon hgadget hport hx).mp (mem_adjSet.mpr hv)
  refine (List.subperm_of_subset (g.adj_nodup x) hsub).perm_of_length_le ?_
  rw [List.length_map, hrecon.three gadget hgadget, ← card_adjSet, hquad.three x (List.mem_toFinset.mpr hx)]

omit [g.Simple] in
/-- Of the two ends the one that is picked is a neighbour. -/
theorem mem_pick_iff {port : Fin g.n × Fin g.n} (hport : port ∈ gadget.ports) {x y : Fin g.n}
    (hx : x ∈ gadget.inner) (hy : y ∈ gadget.inner) :
    pick (adjSet g x) port ∈ adjSet g y ↔ pick (adjSet g x) port = pick (adjSet g y) port := by
  have hne := (hrecon.involution _ _ (linked_of_mem hgadget hport)).2
  have hpx := mem_adj_port hrecon hgadget hport hx
  have hpy := mem_adj_port hrecon hgadget hport hy
  by_cases h1 : port.1 ∈ adjSet g x <;> by_cases h2 : port.1 ∈ adjSet g y <;>
    simp [pick, h1, h2, hpy, hne, hne.symm]

/-- The inner vertices of a gadget have equally many second neighbours, modulo two. -/
theorem even_uppers (hpartner : ∀ p q, sided.partnerOf p = some q ↔ Linked (allPorts recon) p q)
    {x y : Fin g.n} (hx : x ∈ gadget.inner) (hy : y ∈ gadget.inner) :
    Even (uppers sided x + uppers sided y) := by
  by_cases hxy : x = y
  · exact hxy ▸ ⟨_, rfl⟩
  have hsum := even_countP_bne (fun port => upper sided (pick (adjSet g x) port))
    (fun port => upper sided (pick (adjSet g y) port)) gadget.ports
  -- they differ where they pick different ends, which is at two of the three ports
  have hdiffer : gadget.ports.countP (fun port =>
      upper sided (pick (adjSet g x) port) != upper sided (pick (adjSet g y) port)) =
      gadget.ports.countP fun port => !decide (pick (adjSet g x) port ∈ adjSet g y) := by
    refine List.countP_congr fun port hport => ?_
    have hne := (upper_ne hpartner hrecon (linked_of_mem hgadget hport)).1
    have hne' := (upper_ne hpartner hrecon (linked_of_mem hgadget hport).symm).1
    rw [Bool.not_eq_true', decide_eq_false_iff_not, mem_pick_iff hrecon hgadget hport hx hy]
    by_cases h1 : port.1 ∈ adjSet g x <;> by_cases h2 : port.1 ∈ adjSet g y <;>
      simp [pick, h1, h2, hne, hne', (hrecon.involution _ _ (linked_of_mem hgadget hport)).2,
        (hrecon.involution _ _ (linked_of_mem hgadget hport)).2.symm]
  have hone : gadget.ports.countP (fun port => decide (pick (adjSet g x) port ∈ adjSet g y)) = 1 := by
    have hperm := (perm_pick hrecon hgadget hx).countP_eq fun v => decide (v ∈ adjSet g y)
    rw [List.countP_map] at hperm
    refine hperm.symm.trans ?_
    rw [← (quad_gadget hrecon hgadget).share x (List.mem_toFinset.mpr hx) y (List.mem_toFinset.mpr hy) hxy,
      List.countP_eq_length_filter, ← List.toFinset_card_of_nodup ((g.adj_nodup x).filter _)]
    congr 1
    ext v
    simp [mem_adjSet]
  have hthree := List.length_eq_countP_add_countP
    (fun port => decide (pick (adjSet g x) port ∈ adjSet g y)) (l := gadget.ports)
  rw [hrecon.three gadget hgadget, hone] at hthree
  have hcountx := (perm_pick hrecon hgadget hx).countP_eq (upper sided)
  have hcounty := (perm_pick hrecon hgadget hy).countP_eq (upper sided)
  rw [List.countP_map] at hcountx hcounty
  rw [uppers, uppers, hcountx, hcounty]
  rw [hdiffer] at hsum
  have htwo : gadget.ports.countP (fun port => !decide (pick (adjSet g x) port ∈ adjSet g y)) = 2 := by
    have : gadget.ports.countP (fun port => !decide (pick (adjSet g x) port ∈ adjSet g y)) =
        gadget.ports.countP fun a => ¬decide (pick (adjSet g x) a ∈ adjSet g y) = true := by
      refine List.countP_congr fun port _ => ?_
      simp
    omega
  rw [htwo] at hsum
  exact (Nat.even_add.mp hsum).mpr even_two

/-- An automorphism that keeps the ports changes the number by that of the ports that flip. -/
theorem even_uppers_image (hpartner : ∀ p q, sided.partnerOf p = some q ↔ Linked (allPorts recon) p q)
    {α : Equiv.Perm (Fin g.n)} (hkeep : ∀ p q, sided.partnerOf p = some q → α p = p ∨ α p = q)
    (haut : IsAut g α) {x : Fin g.n} (hx : x ∈ gadget.inner) :
    Even (uppers sided (α x) + uppers sided x + gadget.ports.countP fun port => decide (α port.1 ≠ port.1)) := by
  have hpick := perm_pick hrecon hgadget hx
  have himage : uppers sided (α x) =
      gadget.ports.countP fun port => upper sided (α (pick (adjSet g x) port)) := by
    rw [uppers, ← (haut.adj_perm x).countP_eq, List.countP_map, hpick.countP_eq, List.countP_map]
    rfl
  have hself : uppers sided x = gadget.ports.countP fun port => upper sided (pick (adjSet g x) port) := by
    rw [uppers, hpick.countP_eq, List.countP_map]
    rfl
  have hflips : gadget.ports.countP (fun port =>
      upper sided (α (pick (adjSet g x) port)) != upper sided (pick (adjSet g x) port)) =
      gadget.ports.countP fun port => decide (α port.1 ≠ port.1) := by
    refine List.countP_congr fun port hport => ?_
    have hlinked := linked_of_mem hgadget hport
    rcases pick_cases x port with hp | hp
    · rw [hp, upper_image hpartner hkeep hrecon hlinked]
    · rw [hp, upper_image hpartner hkeep hrecon hlinked.symm, decide_eq_true_eq, decide_eq_true_eq,
        not_iff_not]
      exact (fixes_iff hpartner hkeep hrecon hlinked).symm
  rw [himage, hself, ← hflips]
  exact even_countP_bne _ _ _

/-- A neighbour's partner is not a neighbour. -/
theorem exists_partner {x : Fin g.n} (hx : x ∈ gadget.inner) {v : Fin g.n} (hv : v ∈ g.adj x) :
    ∃ q, Linked gadget.ports v q ∧ q ∉ g.adj x := by
  have hpoint : v ∈ gadget.inner.toFinset.biUnion (adjSet g) :=
    Finset.mem_biUnion.mpr ⟨x, List.mem_toFinset.mpr hx, mem_adjSet.mpr hv⟩
  obtain ⟨q, hq, -⟩ := (quad_gadget hrecon hgadget).exists_opposite hpoint
  refine ⟨q, (hrecon.ports gadget hgadget v q).mpr ⟨hpoint, hq⟩, fun hqx => ?_⟩
  exact (hq.2 x (List.mem_toFinset.mpr hx)).mp (mem_adjSet.mpr hqx) (mem_adjSet.mpr hv)

theorem degree_inner {x : Fin g.n} (hx : x ∈ gadget.inner) : (g.adj x).length = 3 := by
  rw [← card_adjSet, (quad_gadget hrecon hgadget).three x (List.mem_toFinset.mpr hx)]

end

/-! ### A cluster -/

section
variable [g.Simple] (hrecon : Reconstructs g recon)
  (hpartner : ∀ p q, sided.partnerOf p = some q ↔ Linked (allPorts recon) p q)
  {α : Equiv.Perm (Fin g.n)} (hkeep : ∀ p q, sided.partnerOf p = some q → α p = p ∨ α p = q)
  (haut : IsAut g α)

omit [g.Simple] in
theorem hasKey_of_linked {gi : Fin recon.gadgets.length} {p q : Fin g.n}
    (h : Linked (recon.gadgets.get gi).ports p q) : HasKey recon gi (min p q) := by
  rcases h with h | h
  · exact ⟨_, h, rfl⟩
  · exact ⟨_, h, min_comm _ _⟩

omit [g.Simple] in
include hrecon in
/-- The inner vertices of a cluster, each once. -/
theorem nodup_inner {cluster : Fin recon.gadgets.length × List (Fin recon.gadgets.length)}
    (hcluster : cluster ∈ clusters recon) :
    (cluster.2.flatMap fun gi => (recon.gadgets.get gi).inner).Nodup := by
  refine List.nodup_flatMap.mpr ⟨fun gi _ => hrecon.nodup _ (List.get_mem _ gi), ?_⟩
  refine (cluster_nodup hcluster).imp fun {gi gj} hne v hi hj => ?_
  rcases lt_or_gt_of_ne hne with hlt | hlt
  · exact (List.pairwise_iff_get.mp hrecon.apart gi gj hlt) v hi hj
  · exact (List.pairwise_iff_get.mp hrecon.apart gj gi hlt) v hj hi

include hrecon hpartner hkeep haut

/-- The image of a gadget's vertex is in a gadget with the same ports. -/
theorem linked_image {gi gj : Fin recon.gadgets.length} {x : Fin g.n}
    (himage : α x ∈ (recon.gadgets.get gj).inner) {v q : Fin g.n} (hv : v ∈ g.adj x)
    (h : Linked (recon.gadgets.get gi).ports v q) : Linked (recon.gadgets.get gj).ports v q := by
  have hall : Linked (allPorts recon) v q := linked_allPorts.mpr ⟨_, List.get_mem _ gi, h⟩
  obtain ⟨r, hr, -⟩ := exists_partner hrecon (List.get_mem _ gj) himage ((haut x v).mp hv)
  have hallr : Linked (allPorts recon) (α v) r := linked_allPorts.mpr ⟨_, List.get_mem _ gj, hr⟩
  rcases hkeep v q ((hpartner v q).mpr hall) with hα | hα
  · rw [hα] at hr hallr
    rwa [hrecon.partner v q r hall hallr]
  · rw [hα] at hr hallr
    rw [hrecon.partner q v r hall.symm hallr]
    exact hr.symm

theorem exists_image {cluster : Fin recon.gadgets.length × List (Fin recon.gadgets.length)}
    (hcluster : cluster ∈ clusters recon) {gi : Fin recon.gadgets.length} (hgi : gi ∈ cluster.2)
    {x : Fin g.n} (hx : x ∈ (recon.gadgets.get gi).inner) :
    ∃ gj ∈ cluster.2, α x ∈ (recon.gadgets.get gj).inner := by
  have hdegree := degree_inner hrecon (List.get_mem _ gi) hx
  obtain ⟨S, hS, himage⟩ := (hrecon.partition.cover (α x)).mpr ((haut.degree x).trans hdegree)
  obtain ⟨inner, hinner, rfl⟩ := mem_groupsOf.mp hS
  obtain ⟨gadget, hgadget, rfl⟩ := List.mem_map.mp hinner
  obtain ⟨gj, rfl⟩ := List.mem_iff_get.mp hgadget
  rw [List.mem_toFinset] at himage
  refine ⟨gj, ?_, himage⟩
  -- two neighbours of `x` have different ports, which both gadgets have
  obtain ⟨v, w, u, hadj⟩ := List.length_eq_three.mp hdegree
  have hv : v ∈ g.adj x := by rw [hadj]; exact List.mem_cons_self
  have hw : w ∈ g.adj x := by rw [hadj]; exact List.mem_cons_of_mem _ List.mem_cons_self
  have hvw : v ≠ w := by
    have hnodup := g.adj_nodup x
    rw [hadj] at hnodup
    rintro rfl
    exact (List.nodup_cons.mp hnodup).1 List.mem_cons_self
  obtain ⟨q, hq, hqx⟩ := exists_partner hrecon (List.get_mem _ gi) hx hv
  obtain ⟨r, hr, hrx⟩ := exists_partner hrecon (List.get_mem _ gi) hx hw
  have hkeys : min v q ≠ min w r := by
    intro hmin
    rcases min_choice v q with hm | hm <;> rcases min_choice w r with hm' | hm' <;> rw [hm, hm'] at hmin
    · exact hvw hmin
    · exact hrx (hmin ▸ hv)
    · exact hqx (hmin ▸ hw)
    · subst hmin
      exact hvw (hrecon.partner q v w (linked_allPorts.mpr ⟨_, List.get_mem _ gi, hq.symm⟩)
        (linked_allPorts.mpr ⟨_, List.get_mem _ gi, hr.symm⟩))
  exact mem_cluster_of_shared hcluster hgi hkeys (hasKey_of_linked hq) (hasKey_of_linked hr)
    (hasKey_of_linked (linked_image hrecon hpartner hkeep haut himage hv hq))
    (hasKey_of_linked (linked_image hrecon hpartner hkeep haut himage hw hr))

/-- Over the gadgets of a cluster an even number of ports flips. -/
theorem even_flips {cluster : Fin recon.gadgets.length × List (Fin recon.gadgets.length)}
    (hcluster : cluster ∈ clusters recon) :
    Even ((cluster.2.flatMap fun gi => (recon.gadgets.get gi).ports).countP fun port =>
      decide (α port.1 ≠ port.1)) := by
  let odd (x : Fin g.n) : Bool := uppers sided x % 2 = 1
  -- all vertices of a gadget have the parity of one of them, and so have their images
  have hgadget : ∀ gi : Fin recon.gadgets.length, ∃ before after,
      (recon.gadgets.get gi).inner.countP odd = 4 * before ∧
      (recon.gadgets.get gi).inner.countP (odd ∘ α) = 4 * after ∧
      Even (before + after + (recon.gadgets.get gi).ports.countP fun port => decide (α port.1 ≠ port.1)) := by
    intro gi
    have hmem := List.get_mem recon.gadgets gi
    have hlength := length_inner hrecon hmem
    obtain ⟨x, hx⟩ : ∃ x, x ∈ (recon.gadgets.get gi).inner :=
      List.exists_mem_of_length_pos (by omega)
    have hsame : ∀ y ∈ (recon.gadgets.get gi).inner, uppers sided y % 2 = uppers sided x % 2 := fun y hy => by
      have := Nat.even_iff.mp (even_uppers hrecon hmem hpartner hx hy)
      omega
    have hsame' : ∀ y ∈ (recon.gadgets.get gi).inner, uppers sided (α y) % 2 = uppers sided (α x) % 2 :=
      fun y hy => by
        have hxα := Nat.even_iff.mp (even_uppers_image hrecon hmem hpartner hkeep haut hx)
        have hyα := Nat.even_iff.mp (even_uppers_image hrecon hmem hpartner hkeep haut hy)
        have := hsame y hy
        omega
    have hcount : ∀ {f : Fin g.n → Bool} {b : ℕ}, b < 2 →
        (∀ y ∈ (recon.gadgets.get gi).inner, f y = decide (b = 1)) →
        (recon.gadgets.get gi).inner.countP f = 4 * b := by
      intro f b hb hf
      rcases (by omega : b = 0 ∨ b = 1) with rfl | rfl
      · exact List.countP_eq_zero.mpr fun y hy => by simp [hf y hy]
      · exact (List.countP_eq_length.mpr fun y hy => by simp [hf y hy]).trans hlength
    refine ⟨uppers sided x % 2, uppers sided (α x) % 2, hcount (Nat.mod_lt _ two_pos) fun y hy => ?_,
      hcount (Nat.mod_lt _ two_pos) fun y hy => ?_, ?_⟩
    · exact decide_eq_decide.mpr (by rw [hsame y hy])
    · exact decide_eq_decide.mpr (by rw [hsame' y hy])
    · have := Nat.even_iff.mp (even_uppers_image hrecon hmem hpartner hkeep haut hx)
      rw [Nat.even_iff]
      omega
  choose before after hbefore hafter heven using hgadget
  -- the automorphism permutes the inner vertices of the cluster
  let inner := cluster.2.flatMap fun gi => (recon.gadgets.get gi).inner
  have hnodup : inner.Nodup := nodup_inner hrecon hcluster
  have hsub : inner.map α ⊆ inner := by
    intro y hy
    obtain ⟨x, hx, rfl⟩ := List.mem_map.mp hy
    obtain ⟨gi, hgi, hx⟩ := List.mem_flatMap.mp hx
    obtain ⟨gj, hgj, himage⟩ := exists_image hrecon hpartner hkeep haut hcluster hgi hx
    exact List.mem_flatMap.mpr ⟨gj, hgj, himage⟩
  have hperm : (inner.map α).Perm inner :=
    (List.subperm_of_subset (hnodup.map α.injective) hsub).perm_of_length_le (by rw [List.length_map])
  have hsum : inner.countP (odd ∘ α) = inner.countP odd := by
    rw [← List.countP_map, hperm.countP_eq]
  rw [List.countP_flatMap, List.countP_flatMap] at hsum
  rw [List.countP_flatMap]
  refine even_sum_of_balanced (by decide : 0 < 4) heven ?_
  simp only [Function.comp_def] at hsum hafter
  simpa only [Function.comp_def, hbefore, hafter] using hsum

end

/-- The automorphisms that map every port to itself satisfy all constraints that `addClusterParityXors` adds
    for the reconstructed gadgets, whatever clusters these form. -/
theorem evenFlips_of_keepsPorts (g : Graph) [g.Simple] (hashOrder : SetOrder g.n) (path : String)
    (recon : Reconstruction g.n) (hrecon : reconstruct g hashOrder path = .ok recon)
    (sided : SidedReconstruction g.n) (hsided : prepare recon = .ok sided) (α : Equiv.Perm (Fin g.n))
    (haut : IsAut g α) (hkeep : ∀ p q, sided.partnerOf p = some q → α p = p ∨ α p = q) :
    EvenFlips sided α := by
  obtain ⟨sol, hsol, hcover⟩ | ⟨⟨e, s, he, -⟩, -⟩ := @reconstruct_cases g hashOrder _ path
  swap
  · cases he.symm.trans hrecon
  obtain rfl := Except.ok.inj (hsol.symm.trans hrecon)
  have hspec := hcover.reconstructs
  obtain ⟨sided', hsided', -, hpartner⟩ := prepare_ok hspec.partner
  obtain rfl := Except.ok.inj (hsided'.symm.trans hsided)
  have hclusters : sided'.clusterOddPorts.map (·.2) =
      (clusters (ofCover g sol)).map fun cluster => oddPorts (ofCover g sol) cluster.2 := by
    rw [prepare] at hsided'
    cases hfold : (allPorts (ofCover g sol)).foldlM pairPort fun _ => none with
    | error e => rw [hfold] at hsided'; cases hsided'
    | ok partnerOf =>
      rw [hfold] at hsided'
      obtain rfl := Except.ok.inj hsided'
      exact List.map_map
  intro odd hodd
  obtain ⟨cluster, hcluster, hports⟩ := List.mem_map.mp (hclusters ▸ List.mem_map_of_mem hodd)
  rw [← hports]
  have hlinked : ∀ port ∈ cluster.2.flatMap fun gi => ((ofCover g sol).gadgets.get gi).ports,
      Linked (allPorts (ofCover g sol)) port.1 port.2 := by
    intro port hport
    obtain ⟨gi, -, hport⟩ := List.mem_flatMap.mp hport
    exact linked_of_mem (List.get_mem _ gi) hport
  refine (even_countP_oddHeads (fun port => decide (Flips sided' α port.1)) portKey ?_).mpr ?_
  · intro a ha b hb hkey
    refine decide_eq_decide.mpr ?_
    rw [flips_key hpartner hkeep hspec (hlinked a ha), flips_key hpartner hkeep hspec (hlinked b hb), hkey]
  · refine (Iff.of_eq (congrArg Even (List.countP_congr fun port hport => ?_))).mpr
      (even_flips hspec hpartner hkeep haut hcluster)
    rw [decide_eq_true_eq, decide_eq_true_eq]
    exact flips_iff hpartner hkeep hspec (hlinked port hport)

theorem evenFlips_of_keepsPorts_oneGadget : ∃ recon sided,
    reconstruct oneGadget (lastUse 10) "one" = .ok recon ∧ prepare recon = .ok sided ∧
      EvenFlips sided turnTwo := by
  obtain ⟨sol, hsol, hcover⟩ | ⟨-, hnone⟩ := @reconstruct_cases oneGadget (lastUse 10) _ "one"
  swap
  · exact absurd partition_oneGadget.exists_cover hnone
  have hspec := hcover.reconstructs
  obtain ⟨sided, hsided, -, hpartner⟩ := prepare_ok hspec.partner
  refine ⟨_, sided, hsol, hsided, evenFlips_of_keepsPorts oneGadget (lastUse 10) "one" _ hsol sided hsided
    turnTwo (show IsAut _ turnTwo by decide +kernel) fun p q hpq => ?_⟩
  obtain ⟨gadget, hgadget, hlinked⟩ := linked_allPorts.mp ((hpartner p q).mp hpq)
  -- the only four vertices of degree 3
  have hthree : ∀ v : Fin oneGadget.n, (oneGadget.adj v).length = 3 → v ∈ firstFour := by decide +kernel
  have hfour : gadget.inner.toFinset = firstFour := by
    refine Finset.eq_of_subset_of_card_le (fun v hv => ?_) ?_
    · exact hthree v (degree_inner hspec hgadget (List.mem_toFinset.mp hv))
    · rw [(quad_gadget hspec hgadget).card, quad_oneGadget.card]
  have hmove : ∀ p q : Fin oneGadget.n, (p ∈ firstFour.biUnion (adjSet oneGadget) ∧
      q ∈ firstFour.biUnion (adjSet oneGadget) ∧
        ∀ x ∈ firstFour, q ∈ adjSet oneGadget x ↔ p ∉ adjSet oneGadget x) →
      turnTwo p = p ∨ turnTwo p = q := by decide +kernel
  have hpair := (hspec.ports gadget hgadget p q).mp hlinked
  rw [hfour] at hpair
  exact hmove p q hpair

def twoGadgets : Graph := ofEdges 20
  [(0, 8), (0, 10), (0, 12), (1, 8), (1, 11), (1, 13), (2, 9), (2, 10), (2, 13), (3, 9), (3, 11), (3, 12),
    (4, 14), (4, 16), (4, 19), (5, 14), (5, 17), (5, 18), (6, 15), (6, 16), (6, 18), (7, 15), (7, 17), (7, 19)]

def bothGadgets : Reconstruction twoGadgets.n :=
  (⟨[⟨[0, 1, 2, 3], [(8, 9), (10, 11), (12, 13)]⟩, ⟨[4, 5, 6, 7], [(14, 15), (16, 17), (18, 19)]⟩], 8, 12⟩ :
    Reconstruction 20)

def exchangeGadgets : Equiv.Perm (Fin twoGadgets.n) :=
  (Equiv.swap 0 4 * Equiv.swap 1 5 * Equiv.swap 2 6 * Equiv.swap 3 7 * Equiv.swap 8 14 * Equiv.swap 9 15 *
    Equiv.swap 10 16 * Equiv.swap 11 17 * Equiv.swap 12 19 * Equiv.swap 13 18 : Equiv.Perm (Fin 20))

/-- An automorphism that exchanges two gadgets can flip one port, since sides are labels. -/
theorem exchange_flips : IsAut twoGadgets exchangeGadgets ∧
    ∃ sided, prepare bothGadgets = .ok sided ∧ ¬EvenFlips sided exchangeGadgets := by
  refine ⟨by decide +kernel, _, rfl, fun heven => ?_⟩
  have hfirst := heven _ List.mem_cons_self
  revert hfirst
  decide +kernel

end Dialysis.RealFileGadgetXor
