import GraphDialysis.Gadgetxor.Backtrack
import GraphDialysis.Lib.GroupBy
import GraphDialysis.Sat.UnionFind

/-! `RealFileGadgetXor.prepare`: the partner map and its sides, and the gadgets put into clusters, two of
    them into one when they share two ports or more. Of a cluster only the ports matter that occur in
    an odd number of its gadgets. The hash maps are lists here, in the order in which they were filled.

    The checks pass when the ports pair no vertex with two others (`prepare_ok`). -/

namespace Dialysis.RealFileGadgetXor
open RealFileGadgetReconstruction
variable {n : ℕ}

/-- `sideOf` is read off the partner map. -/
structure SidedReconstruction (n : ℕ) where
  recon : Reconstruction n
  partnerOf : Fin n → Option (Fin n)
  clusters : List (Fin recon.gadgets.length × List (Fin recon.gadgets.length))
  clusterOddPorts : List (Fin recon.gadgets.length × List (Fin n × Fin n))

/-- `sideOf`, without a value where `getValue` fails. -/
def SidedReconstruction.sideOf (sided : SidedReconstruction n) (v : Fin n) : Option ℕ :=
  (sided.partnerOf v).map fun q => if v < q then 0 else 1

/-! ### The partner map -/

def checkPartner (partnerOf : Fin n → Option (Fin n)) (p q : Fin n) : Except String Unit :=
  match partnerOf p with
  | none => .ok ()
  | some existing =>
    if existing = q then .ok ()
    else .error ("vertex " ++ toString p ++ " paired with both " ++ toString existing ++ " and " ++
      toString q ++ " in different gadgets")

def pairPort (partnerOf : Fin n → Option (Fin n)) (port : Fin n × Fin n) :
    Except String (Fin n → Option (Fin n)) := do
  checkPartner partnerOf port.1 port.2
  checkPartner partnerOf port.2 port.1
  return Function.update (Function.update partnerOf port.1 (some port.2)) port.2 (some port.1)

/-- The ports of all gadgets. -/
def allPorts (recon : Reconstruction n) : List (Fin n × Fin n) := recon.gadgets.flatMap (·.ports)

/-! ### Clusters -/

def portKey (port : Fin n × Fin n) : Fin n := min port.1 port.2

section
variable (recon : Reconstruction n)

def gadgetsByPort : List (List (Fin recon.gadgets.length)) :=
  let entries := (List.finRange recon.gadgets.length).flatMap fun gi =>
    (recon.gadgets.get gi).ports.map fun port => (portKey port, gi)
  (Lib.groups (·.1) entries).map fun owners => owners.map (·.2)

/-- Every two of the owners, in the order of the two loops. -/
def pairsOf {α : Type*} : List α → List (α × α)
  | [] => []
  | a :: l => l.map (fun b => (a, b)) ++ pairsOf l

def packPair {k : ℕ} (p : Fin k × Fin k) : Fin k × Fin k := (min p.1 p.2, max p.1 p.2)

/-- `sharedPortCount`. -/
def sharedPortCount : List ((Fin recon.gadgets.length × Fin recon.gadgets.length) × ℕ) :=
  (Lib.groupBy id ((gadgetsByPort recon).flatMap fun owners => (pairsOf owners).map packPair)).map
    fun group => (group.1, group.2.length)

/-- `find` ends with `parent[x] = r`. -/
def find {k : ℕ} (parent : Fin k → Fin k) (x : Fin k) : Fin k × (Fin k → Fin k) :=
  let r := Sat.rootOf parent x
  (r, Function.update parent x r)

def union {k : ℕ} (parent : Fin k → Fin k) (a b : Fin k) : Fin k → Fin k :=
  let ra := find parent a
  let rb := find ra.2 b
  if ra.1 ≠ rb.1 then Function.update rb.2 ra.1 rb.1 else rb.2

def parentOf : Fin recon.gadgets.length → Fin recon.gadgets.length :=
  (sharedPortCount recon).foldl (fun parent e => if 2 ≤ e.2 then union parent e.1.1 e.1.2 else parent) id

/-- Each gadget with the root that `find` gives for it. -/
def roots {k : ℕ} : List (Fin k) → (Fin k → Fin k) → List (Fin k × Fin k)
  | [], _ => []
  | x :: l, parent => ((find parent x).1, x) :: roots l (find parent x).2

def clusters : List (Fin recon.gadgets.length × List (Fin recon.gadgets.length)) :=
  (Lib.groupBy (·.1) (roots (List.finRange recon.gadgets.length) (parentOf recon))).map
    fun group => (group.1, group.2.map (·.2))

/-- The first port of every key that occurs an odd number of times. -/
def oddPorts (members : List (Fin recon.gadgets.length)) : List (Fin n × Fin n) :=
  let groups := Lib.groups portKey (members.flatMap fun gi => (recon.gadgets.get gi).ports)
  (groups.filter fun ports => ports.length % 2 = 1).filterMap List.head?

def prepare : Except String (SidedReconstruction n) := do
  let partnerOf ← (allPorts recon).foldlM pairPort fun _ => none
  return {
    recon := recon
    partnerOf := partnerOf
    clusters := clusters recon
    clusterOddPorts := (clusters recon).map fun cluster => (cluster.1, oddPorts recon cluster.2) }

end

/-! ### The checks -/

theorem checkPartner_ok {partnerOf : Fin n → Option (Fin n)} {p q : Fin n}
    (h : ∀ y, partnerOf p = some y → y = q) : checkPartner partnerOf p q = .ok () := by
  rw [checkPartner]
  cases hp : partnerOf p with
  | none => rfl
  | some y =>
    dsimp only
    rw [if_pos (h y hp)]

/-- A port that agrees with the map is entered in both directions. -/
theorem pairPort_ok {partnerOf : Fin n → Option (Fin n)} {port : Fin n × Fin n}
    (h : ∀ p q y, Linked [port] p q → partnerOf p = some y → y = q) :
    ∃ partnerOf', pairPort partnerOf port = .ok partnerOf' ∧
      ∀ x y, partnerOf' x = some y ↔ partnerOf x = some y ∨ Linked [port] x y := by
  obtain ⟨p, q⟩ := port
  have hp := h p q
  have hq := h q p
  simp only [Linked, List.mem_singleton, Prod.mk.injEq, true_or, or_true, forall_const] at hp hq
  refine ⟨Function.update (Function.update partnerOf p (some q)) q (some p), ?_, fun x y => ?_⟩
  · rw [pairPort, checkPartner_ok hp, checkPartner_ok hq]
    rfl
  · simp only [Linked, List.mem_singleton, Prod.mk.injEq]
    by_cases hxq : x = q
    · subst hxq
      rw [Function.update_self, Option.some.injEq]
      constructor
      · rintro rfl
        exact Or.inr (Or.inr ⟨rfl, rfl⟩)
      · rintro (hy | ⟨rfl, rfl⟩ | ⟨rfl, -⟩)
        · exact (hq y hy).symm
        · rfl
        · rfl
    · rw [Function.update_of_ne hxq]
      by_cases hxp : x = p
      · subst hxp
        rw [Function.update_self, Option.some.injEq]
        constructor
        · rintro rfl
          exact Or.inr (Or.inl ⟨rfl, rfl⟩)
        · rintro (hy | ⟨-, rfl⟩ | ⟨-, rfl⟩)
          · exact (hp y hy).symm
          · rfl
          · exact absurd rfl hxq
      · rw [Function.update_of_ne hxp]
        exact (or_iff_left (by rintro (⟨rfl, -⟩ | ⟨-, rfl⟩) <;> contradiction)).symm

/-- The loop over the ports, when they agree with each other and with what is in the map. -/
theorem foldlM_pairPort : ∀ {ports : List (Fin n × Fin n)} {partnerOf : Fin n → Option (Fin n)},
    (∀ p q q', Linked ports p q → Linked ports p q' → q = q') →
    (∀ p q y, Linked ports p q → partnerOf p = some y → y = q) →
    ∃ partnerOf', ports.foldlM pairPort partnerOf = .ok partnerOf' ∧
      ∀ x y, partnerOf' x = some y ↔ partnerOf x = some y ∨ Linked ports x y
  | [], partnerOf, _, _ => ⟨partnerOf, rfl, by simp [Linked]⟩
  | port :: ports, partnerOf, hfun, hagree => by
    have hlinked : ∀ p q, Linked (port :: ports) p q ↔ Linked [port] p q ∨ Linked ports p q := by
      intro p q
      simp only [Linked, List.mem_cons, List.not_mem_nil, or_false]
      tauto
    obtain ⟨partnerOf₁, hrun₁, hmap₁⟩ := pairPort_ok fun p q y hpq hy =>
      hagree p q y ((hlinked p q).mpr (Or.inl hpq)) hy
    obtain ⟨partnerOf', hrun, hmap⟩ := foldlM_pairPort
      (fun p q q' h h' => hfun p q q' ((hlinked p q).mpr (Or.inr h)) ((hlinked p q').mpr (Or.inr h')))
      (by
        intro p q y hpq hy
        rcases (hmap₁ p y).mp hy with hy | hy
        · exact hagree p q y ((hlinked p q).mpr (Or.inr hpq)) hy
        · exact hfun p y q ((hlinked p y).mpr (Or.inl hy)) ((hlinked p q).mpr (Or.inr hpq)))
    refine ⟨partnerOf', ?_, fun x y => ?_⟩
    · rw [List.foldlM_cons, hrun₁]
      exact hrun
    · rw [hmap, hmap₁, hlinked, or_assoc]

/-- The checks pass, and the map holds the ports. -/
theorem prepare_ok {recon : Reconstruction n}
    (h : ∀ p q q', Linked (allPorts recon) p q → Linked (allPorts recon) p q' → q = q') :
    ∃ sided, prepare recon = .ok sided ∧ sided.recon = recon ∧
      ∀ p q, sided.partnerOf p = some q ↔ Linked (allPorts recon) p q := by
  obtain ⟨partnerOf, hrun, hmap⟩ := foldlM_pairPort h fun p q y _ (hy : (none : Option (Fin n)) = some y) => by
    cases hy
  refine ⟨⟨recon, partnerOf, clusters recon, (clusters recon).map fun cluster =>
    (cluster.1, oddPorts recon cluster.2)⟩, ?_, rfl, fun p q => ?_⟩
  · rw [prepare, hrun]
    rfl
  · change partnerOf p = some q ↔ _
    rw [hmap]
    simp

end Dialysis.RealFileGadgetXor
