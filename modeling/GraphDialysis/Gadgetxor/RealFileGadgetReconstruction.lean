import GraphDialysis.Graph.Basic
import GraphDialysis.Lib.ExactCover
import GraphDialysis.Lib.Quadruple
import Mathlib.Data.Finset.Sort
import Mathlib.Data.List.MinMax

/-! `RealFileGadgetReconstruction`: the vertices of degree 3 are put into gadgets of four by a search over
    all candidate blocks, and the six neighbours of a gadget are paired into its ports. A vertex may
    belong to several gadgets and has to have the same partner in all of them; the search shares one
    partner map, and takes back what a failed branch has put into it. Hash sets are finite sets, and
    where one of them is run through, its order is a parameter. -/

namespace Dialysis.RealFileGadgetReconstruction
open Lib
variable {n : ℕ}

/-- The order in which a hash set of these elements is run through. -/
structure SetOrder (n : ℕ) where
  order : List (Fin n) → List (Fin n)
  nodup : ∀ l, (order l).Nodup
  mem_iff : ∀ {l v}, v ∈ order l ↔ v ∈ l

structure Gadget (n : ℕ) where
  inner : List (Fin n)
  ports : List (Fin n × Fin n)

structure Reconstruction (n : ℕ) where
  gadgets : List (Gadget n)
  numInner : ℕ
  numOuter : ℕ

structure CandidateBlock (n : ℕ) where
  members : List (Fin n)
  ports : List (Fin n × Fin n)

/-! ### Candidates -/

section
variable (g : Graph)

/-- `adjSets`. -/
def adjSet (v : Fin g.n) : Finset (Fin g.n) := (g.adj v).toFinset

def shareExactlyOne (a b : Fin g.n) : Prop := (adjSet g a ∩ adjSet g b).card = 1

instance (a b : Fin g.n) : Decidable (shareExactlyOne g a b) := inferInstanceAs (Decidable (_ = _))

/-- The members of the block that are adjacent to `o`. -/
def membersOf (members : List (Fin g.n)) (o : Fin g.n) : Finset (Fin g.n) :=
  members.toFinset.filter fun it => o ∈ adjSet g it

/-- The loop over the outer neighbours; those in `used` have their port. -/
def portLoop (members : List (Fin g.n)) : List (Fin g.n) → List (Fin g.n) → List (Fin g.n × Fin g.n) →
    Option (List (Fin g.n × Fin g.n))
  | [], _, ports => some ports
  | oi :: rest, used, ports =>
    if oi ∈ used then portLoop members rest used ports
    else
      let mi := membersOf g members oi
      match rest.find? fun oj => oj ∉ used ∧ membersOf g members oj = members.toFinset \ mi with
      | none => none
      | some oj => portLoop members rest (oi :: oj :: used) (ports ++ [(oi, oj)])

variable (hashOrder : SetOrder g.n)

/-- The 3 port pairs of a candidate block, if it has them. -/
def computePorts (members : List (Fin g.n)) : Option (List (Fin g.n × Fin g.n)) :=
  let outerNeighbours := hashOrder.order (members.flatMap g.adj)
  if outerNeighbours.length ≠ 6 then none
  else
    match portLoop g members outerNeighbours [] [] with
    | none => none
    | some ports => if ports.length ≠ 3 then none else some ports

/-- The vertices of degree 3. -/
def inner : List (Fin g.n) := (List.finRange g.n).filter fun v => (g.adj v).length = 3

/-- `pairsOk` and the size of the union. -/
def groupOk (group : List (Fin g.n)) : Prop :=
  group.Pairwise (shareExactlyOne g) ∧ (group.toFinset.biUnion (adjSet g)).card = 6

instance (group : List (Fin g.n)) : Decidable (groupOk g group) := inferInstanceAs (Decidable (_ ∧ _))

/-- The members of the pool that share exactly `nk` with `m`. -/
def sharing (m : Fin g.n) (pool : List (Fin g.n)) (nk : Fin g.n) : List (Fin g.n) :=
  pool.filter fun it => it ≠ m ∧ nk ∈ adjSet g it ∧ shareExactlyOne g m it

def candidatesFor (m : Fin g.n) (pool : List (Fin g.n)) : List (List (Fin g.n)) :=
  match (adjSet g m).sort (· ≤ ·) with
  | n1 :: n2 :: n3 :: _ =>
    ((sharing g m pool n1).flatMap fun m1 =>
      (sharing g m pool n2).flatMap fun m2 =>
        if m2 = m1 then []
        else
          (sharing g m pool n3).flatMap fun m3 =>
            if m3 = m1 ∨ m3 = m2 then []
            else if groupOk g [m, m1, m2, m3] then [[m, m1, m2, m3].insertionSort (· ≤ ·)]
            else []).eraseDups
  | _ => []

def allCandidates : List (List (Fin g.n)) :=
  ((inner g).flatMap fun m => candidatesFor g m (hashOrder.order (inner g))).eraseDups

def candidateBlocks : List (CandidateBlock g.n) :=
  (allCandidates g hashOrder).filterMap fun members =>
    (computePorts g hashOrder members).map fun ports => ⟨members, ports⟩

/-- The blocks with the element. -/
def blockOfElem (e : Fin g.n) : List (CandidateBlock g.n) :=
  (candidateBlocks g hashOrder).filter fun b => e ∈ b.members

end

/-! ### The search -/

/-- `partnerOf` and `solution`. -/
structure SearchState (n : ℕ) where
  partnerOf : Fin n → Option (Fin n)
  solution : List (CandidateBlock n)

/-- Both directions of a port may be entered. -/
def portOk (partnerOf : Fin n → Option (Fin n)) (port : Fin n × Fin n) : Prop :=
  (partnerOf port.1 = none ∨ partnerOf port.1 = some port.2) ∧
    (partnerOf port.2 = none ∨ partnerOf port.2 = some port.1)

instance (partnerOf : Fin n → Option (Fin n)) (port : Fin n × Fin n) : Decidable (portOk partnerOf port) :=
  inferInstanceAs (Decidable (_ ∧ _))

/-- Enters `p` unless it is there. -/
def addKey (s : List (Fin n × Fin n) × (Fin n → Option (Fin n))) (p q : Fin n) :
    List (Fin n × Fin n) × (Fin n → Option (Fin n)) :=
  if s.2 p = none then (s.1 ++ [(p, q)], Function.update s.2 p (some q)) else s

/-- What has been entered and the partner map with it. -/
def tryAdd (partnerOf : Fin n → Option (Fin n)) (block : CandidateBlock n) :
    Option (List (Fin n × Fin n) × (Fin n → Option (Fin n))) :=
  if ∀ port ∈ block.ports, portOk partnerOf port then
    some (block.ports.foldl (fun s port => addKey (addKey s port.1 port.2) port.2 port.1) ([], partnerOf))
  else none

def undoAdd (partnerOf : Fin n → Option (Fin n)) (added : List (Fin n × Fin n)) :
    Fin n → Option (Fin n) :=
  added.foldl (fun partnerOf kv => Function.update partnerOf kv.1 none) partnerOf

/-- The loop over the blocks of an element; `search` goes on with the elements that are left. -/
def tryBlocks (search : List (Fin n) → SearchState n → Option (Bool × SearchState n))
    (remaining : List (Fin n)) : List (CandidateBlock n) → SearchState n → Option (Bool × SearchState n)
  | [], s => some (false, s)
  | block :: blocks, s =>
    if ∀ m ∈ block.members, m ∈ remaining then
      match tryAdd s.partnerOf block with
      | none => tryBlocks search remaining blocks s
      | some (added, partnerOf) =>
        match search (remaining.filter (· ∉ block.members)) ⟨partnerOf, s.solution ++ [block]⟩ with
        | none => none
        | some (true, s') => some (true, s')
        | some (false, s') =>
          tryBlocks search remaining blocks ⟨undoAdd s'.partnerOf added, s'.solution.dropLast⟩
    else tryBlocks search remaining blocks s

/-- The search, to at most so many levels; `none` when there are more. -/
def backtrack (blockOfElem : Fin n → List (CandidateBlock n)) :
    ℕ → List (Fin n) → SearchState n → Option (Bool × SearchState n)
  | 0, _, _ => none
  | fuel + 1, remaining, s =>
    if remaining = [] then some (true, s)
    else
      match remaining.argmin fun e => (blockOfElem e).length with
      | none => some (false, s)
      | some e => tryBlocks (backtrack blockOfElem fuel) remaining (blockOfElem e) s

/-- `reconstruct`. -/
def reconstruct (g : Graph) (hashOrder : SetOrder g.n) (path : String) :
    Except String (Reconstruction g.n) :=
  match backtrack (blockOfElem g hashOrder) ((inner g).length + 1) (hashOrder.order (inner g))
      ⟨fun _ => none, []⟩ with
  | some (true, s) =>
    .ok
      { gadgets := s.solution.map fun it => ⟨it.members, it.ports⟩
        numInner := (inner g).length
        numOuter := g.n - (inner g).length }
  | _ => .error ("exact cover (with partner-consistency) failed to partition " ++ path ++ "'s " ++
      toString (inner g).length ++ " inner vertices into gadgets of 4 -- reconstruction algorithm does " ++
      "not apply to this file (bypassed family? different reduction?)")

end Dialysis.RealFileGadgetReconstruction
