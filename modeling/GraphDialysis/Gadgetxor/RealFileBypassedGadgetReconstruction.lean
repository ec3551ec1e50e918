import GraphDialysis.Gadgetxor.RealFileGadgetXor
import GraphDialysis.Lib.Dfs
import GraphDialysis.Lib.FirstUse
import GraphDialysis.Lib.MaxClique
import GraphDialysis.Lib.SortOn
import Mathlib.Logic.Equiv.Fin.Basic

/-! `RealFileBypassedGadgetReconstruction`: where there are no outer vertices, every vertex is in a gadget, and
    a gadget is a K4 whose three perfect matchings are its ports. A first pass takes the K4s that
    account for the whole degree of their vertices; what they do not cover without overlap is split
    into components, and each of these is searched for a partition into K4s.

    The sides of the ports are found by a union-find over pairs of a vertex and a port. What it cannot
    explain makes a gadget unreliable. -/

namespace Dialysis.RealFileBypassedGadgetReconstruction
open Lib Lib.Bfs
open RealFileGadgetReconstruction (SetOrder)
open RealFileGadgetXor (pairsOf union roots)
variable {n : ℕ}

/-- The orders in which hash sets of vertices and of blocks are run through. -/
structure HashOrder (n : ℕ) extends SetOrder n where
  blocks : List (List (Fin n)) → List (List (Fin n))
  blocks_nodup : ∀ l, (blocks l).Nodup
  mem_blocks : ∀ {l b}, b ∈ blocks l ↔ b ∈ l

structure Gadget (n : ℕ) where
  members : List (Fin n)

structure Reconstruction (n : ℕ) where
  gadgets : List (Gadget n)
  cliqueOf : Fin n → Fin 3 → Option ℕ
  unreliableGadgetIndex : List (Fin gadgets.length)

def oppositePairs : List (Fin n) → List (Fin n × Fin n)
  | _ :: x :: y :: z :: _ => [(y, z), (x, z), (x, y)]
  | _ => []

def ports : List (Fin n) → List (Fin n × Fin n)
  | m :: x :: y :: z :: _ => [(m, x), (m, y), (m, z)]
  | _ => []

/-- Every three of the elements, in the order of the three loops. -/
def triplesOf {α : Type*} : List α → List (α × α × α)
  | [] => []
  | a :: l => (pairsOf l).map (fun p => (a, p)) ++ triplesOf l

/-! ### Pass 1 -/

section
variable (g : Graph) (hashOrder : HashOrder g.n)

def adjSets (v : Fin g.n) : List (Fin g.n) := hashOrder.order (g.adj v)

/-- `it in adjSets[v]`. -/
def isAdjacent (v it : Fin g.n) : Bool := decide (it ∈ g.adj v)

def exactMaxCliqueContaining (pool : List (Fin g.n)) : List (Fin g.n) := maxClique (isAdjacent g) pool

def greedyCliqueContaining (pool : List (Fin g.n)) : List (Fin g.n) :=
  if pool.length ≤ 24 then exactMaxCliqueContaining g pool
  else
    greedyClique (isAdjacent g)
      (sortOn (fun v => -((pool.filter fun it => it ≠ v ∧ it ∈ g.adj v).length : ℤ)) pool)

/-- `x`, `y` and `z` are adjacent to each other. -/
def isTriangle (t : Fin g.n × Fin g.n × Fin g.n) : Prop :=
  t.2.2 ∈ g.adj t.1 ∧ t.2.1 ∈ g.adj t.1 ∧ t.2.2 ∈ g.adj t.2.1

instance (t : Fin g.n × Fin g.n × Fin g.n) : Decidable (isTriangle g t) :=
  inferInstanceAs (Decidable (_ ∧ _))

/-- The common neighbours of `p` and `q` outside the group. -/
def pool (group : List (Fin g.n)) (p q : Fin g.n) : List (Fin g.n) :=
  (adjSets g hashOrder p).filter fun y => y ∈ g.adj q ∧ y ∉ group

def addSize (poolSizes : Fin n → ℕ) (v : Fin n) (size : ℕ) : Fin n → ℕ :=
  Function.update poolSizes v (poolSizes v + size)

/-- One port; `none` where a vertex is on both sides. -/
def accountPort (group : List (Fin g.n)) (poolSizes : Fin g.n → ℕ)
    (sides : (Fin g.n × Fin g.n) × (Fin g.n × Fin g.n)) : Option (Fin g.n → ℕ) :=
  let cleanPq := greedyCliqueContaining g (pool g hashOrder group sides.1.1 sides.1.2)
  let cleanRs := greedyCliqueContaining g (pool g hashOrder group sides.2.1 sides.2.2)
  if ∃ it ∈ cleanPq, it ∈ cleanRs then none
  else some (addSize (addSize (addSize (addSize poolSizes sides.1.1 cleanPq.length) sides.1.2
    cleanPq.length) sides.2.1 cleanRs.length) sides.2.2 cleanRs.length)

/-- Every vertex of the group has its three neighbours in it and those in the pools, and no others. -/
def accounted (group : List (Fin g.n)) : Bool :=
  match ((ports group).zip (oppositePairs group)).foldlM (accountPort g hashOrder group) fun _ => 0 with
  | none => false
  | some poolSizes => group.all fun it => (adjSets g hashOrder it).length = 3 + poolSizes it

def pass1CandidatesFor (m : Fin g.n) : List (List (Fin g.n)) :=
  ((triplesOf (adjSets g hashOrder m)).filter fun t =>
    isTriangle g t ∧ accounted g hashOrder [m, t.1, t.2.1, t.2.2]).map fun t =>
      [m, t.1, t.2.1, t.2.2].insertionSort (· ≤ ·)

def pass1Candidates : List (List (Fin g.n)) :=
  hashOrder.blocks ((List.finRange g.n).flatMap (pass1CandidatesFor g hashOrder))

/-- The candidates all of whose vertices are in no other one. -/
def unambiguousOf (candidates : List (List (Fin n))) : List (List (Fin n)) :=
  let coverCount (v : Fin n) : ℕ := candidates.flatten.count v
  candidates.filter fun block => ∀ it ∈ block, coverCount it = 1

def unambiguous : List (List (Fin g.n)) := unambiguousOf (pass1Candidates g hashOrder)

def leftover : List (Fin g.n) :=
  let covered := (unambiguous g hashOrder).flatten
  hashOrder.order ((List.finRange g.n).filter fun it => it ∉ covered)

/-! ### Pass 2 -/

def adjWithin (vertices : List (Fin g.n)) (v : Fin g.n) : List (Fin g.n) :=
  (adjSets g hashOrder v).filter fun u => u ∈ vertices

/-- The components of the leftover vertices. -/
def leftoverComps : List (List (Fin g.n)) :=
  let leftover := leftover g hashOrder
  dfsComponents (adjWithin g hashOrder leftover) (1 + ∑ v, (adjWithin g hashOrder leftover v).length) leftover

def k4s (comp : List (Fin g.n)) : List (List (Fin g.n)) :=
  (comp.flatMap fun m =>
    ((triplesOf (adjWithin g hashOrder comp m)).filter fun t => isTriangle g t).map fun t =>
      [m, t.1, t.2.1, t.2.2].insertionSort (· ≤ ·)).eraseDups

def sameDegree (comp : List (Fin g.n)) : List (List (Fin g.n)) :=
  (k4s g hashOrder comp).filter fun it => (it.map fun v => (adjSets g hashOrder v).length).toFinset.card = 1

def blockOfElem (comp : List (Fin g.n)) (e : Fin g.n) : List (List (Fin g.n)) :=
  (sameDegree g hashOrder comp).filter fun b => e ∈ b

end

/-- The loop over the blocks of an element; `search` goes on with the elements that are left. -/
def tryBlocks (search : List (Fin n) → List (List (Fin n)) → Option (Bool × List (List (Fin n))))
    (remaining : List (Fin n)) :
    List (List (Fin n)) → List (List (Fin n)) → Option (Bool × List (List (Fin n)))
  | [], solution => some (false, solution)
  | block :: blocks, solution =>
    if ∀ it ∈ block, it ∈ remaining then
      match search (remaining.filter (· ∉ block)) (solution ++ [block]) with
      | none => none
      | some (true, solution') => some (true, solution')
      | some (false, solution') => tryBlocks search remaining blocks solution'.dropLast
    else tryBlocks search remaining blocks solution

/-- The search, to at most so many levels; `none` when there are more. -/
def backtrack (blockOfElem : Fin n → List (List (Fin n))) :
    ℕ → List (Fin n) → List (List (Fin n)) → Option (Bool × List (List (Fin n)))
  | 0, _, _ => none
  | fuel + 1, remaining, solution =>
    if remaining = [] then some (true, solution)
    else
      match remaining.argmin fun it => (blockOfElem it).length with
      | none => some (false, solution)
      | some e => tryBlocks (backtrack blockOfElem fuel) remaining (blockOfElem e) solution

/-- `[1, 2, 3]`. -/
def listToString (l : List (Fin n)) : String := "[" ++ ", ".intercalate (l.map toString) ++ "]"

def solveComp (g : Graph) (hashOrder : HashOrder g.n) (path : String) (comp : List (Fin g.n)) :
    Except String (List (List (Fin g.n))) :=
  match backtrack (blockOfElem g hashOrder comp) (comp.length + 1) comp [] with
  | some (true, solution) => .ok solution
  | _ => .error (path ++ ": no consistent gadget partition found for leftover cluster " ++
      listToString (comp.insertionSort (· ≤ ·)) ++ " -- reconstruction does not apply")

/-! ### Port cliques -/

/-- The number of `Node(v, idx)`. -/
def node (v : Fin n) (idx : Fin 3) : Fin (n * 3) := finProdFinEquiv (v, idx)

/-- The two sides of each port. -/
def sidesOf (members : List (Fin n)) : List (Fin 3 × (Fin n × Fin n) × (Fin n × Fin n)) :=
  (List.finRange 3).zip ((ports members).zip (oppositePairs members))

section
variable (gadgets : List (Gadget n))

/-- A later gadget replaces an earlier one. -/
def gadgetOfMember (v : Fin n) : Option (Fin gadgets.length) :=
  (List.finRange gadgets.length).reverse.find? fun gi => v ∈ (gadgets.get gi).members

/-- The vertex that `v` is paired with. -/
def partnerIn (pair : Fin n × Fin n) (v : Fin n) : Option (Fin n) :=
  if pair.1 = v then some pair.2 else if pair.2 = v then some pair.1 else none

def relationsOf (v : Fin n) : List (Fin n × Fin 3) :=
  match gadgetOfMember gadgets v with
  | none => []
  | some gi => (sidesOf (gadgets.get gi).members).flatMap fun side =>
      ((partnerIn side.2.1 v).toList ++ (partnerIn side.2.2 v).toList).map fun partner => (partner, side.1)

/-- The first relation of `y` whose partner is in the pool. -/
def relationIn (pool : List (Fin n)) (y : Fin n) : Option (Fin n × Fin 3) :=
  (relationsOf gadgets y).find? fun rel => rel.1 ∈ pool

/-- The unions made for a pool of the side of `p`. -/
def poolUnions (p : Fin n) (idx : Fin 3) (pool : List (Fin n)) : List (Fin (n * 3) × Fin (n * 3)) :=
  pool.filterMap fun y => (relationIn gadgets pool y).map fun rel => (node p idx, node y rel.2)

/-- The nodes of all gadgets, in the order of the three loops. -/
def nodes : List (Fin (n * 3)) := gadgets.flatMap fun gadget =>
  gadget.members.flatMap fun v => (List.finRange 3).map (node v)

/-- The gadgets that an unexplained vertex of the pool makes unreliable. -/
def unresolvedIn (gi : Fin gadgets.length) (pool : List (Fin n)) : List (Fin gadgets.length) :=
  pool.flatMap fun y =>
    if relationIn gadgets pool y = none then gi :: (gadgetOfMember gadgets y).toList else []

end

section
variable (g : Graph) (hashOrder : HashOrder g.n) (gadgets : List (Gadget g.n))

/-- The common neighbours of `p` and `q` outside the gadget that are adjacent to neither of `r` and `s`. -/
def sidePool (members : List (Fin g.n)) (pq rs : Fin g.n × Fin g.n) : List (Fin g.n) :=
  (adjSets g hashOrder pq.1).filter fun y =>
    y ∈ g.adj pq.2 ∧ y ∉ members ∧ y ∉ g.adj rs.1 ∧ y ∉ g.adj rs.2

/-- The unions of the loop over the ports of a gadget, in their order. -/
def gadgetUnions (gadget : Gadget g.n) : List (Fin (g.n * 3) × Fin (g.n * 3)) :=
  (sidesOf gadget.members).flatMap fun side =>
    [(node side.2.1.1 side.1, node side.2.1.2 side.1), (node side.2.2.1 side.1, node side.2.2.2 side.1)] ++
      poolUnions gadgets side.2.1.1 side.1 (sidePool g hashOrder gadget.members side.2.1 side.2.2) ++
      poolUnions gadgets side.2.2.1 side.1 (sidePool g hashOrder gadget.members side.2.2 side.2.1)

def parentOf : Fin (g.n * 3) → Fin (g.n * 3) :=
  (gadgets.flatMap (gadgetUnions g hashOrder gadgets)).foldl (fun parent e => union parent e.1 e.2) id

def unresolvedPoolGadgetIndex : List (Fin gadgets.length) :=
  (List.finRange gadgets.length).flatMap fun gi =>
    (sidesOf (gadgets.get gi).members).flatMap fun side =>
      unresolvedIn gadgets gi (sidePool g hashOrder (gadgets.get gi).members side.2.1 side.2.2) ++
        unresolvedIn gadgets gi (sidePool g hashOrder (gadgets.get gi).members side.2.2 side.2.1)

/-- The root that `find` gives for each node. -/
def nodeRoots : List (Fin (g.n * 3) × Fin (g.n * 3)) := roots (nodes gadgets) (parentOf g hashOrder gadgets)

end

/-- A root has the number of roots that are met before it. -/
def cliqueOf (nodeRoots : List (Fin (n * 3) × Fin (n * 3))) (v : Fin n) (idx : Fin 3) : Option ℕ :=
  (nodeRoots.find? fun e => e.2 = node v idx).map fun e =>
    ((nodeRoots.map (·.1)).foldl addNew []).idxOf e.1

/-- The vertices with the number at one of their ports. -/
def cliqueMembers (cliqueOf : Fin n → Fin 3 → Option ℕ) (id : ℕ) : List (Fin n) :=
  (List.finRange n).filter fun v => ∃ idx, cliqueOf v idx = some id

/-- The two sides of some port are one clique. -/
def oppositeClash (cliqueOf : Fin n → Fin 3 → Option ℕ) (members : List (Fin n)) : Prop :=
  ∃ side ∈ sidesOf members, cliqueOf side.2.1.1 side.1 = cliqueOf side.2.2.1 side.1

instance (cliqueOf : Fin n → Fin 3 → Option ℕ) (members : List (Fin n)) :
    Decidable (oppositeClash cliqueOf members) := inferInstanceAs (Decidable (∃ side ∈ _, _))

/-- The vertices with the number are adjacent to each other. -/
def isCliqueId (g : Graph) (cliqueOf : Fin g.n → Fin 3 → Option ℕ) (id : ℕ) : Prop :=
  ∀ a ∈ cliqueMembers cliqueOf id, ∀ b ∈ cliqueMembers cliqueOf id, a = b ∨ b ∈ g.adj a

instance (g : Graph) (cliqueOf : Fin g.n → Fin 3 → Option ℕ) (id : ℕ) :
    Decidable (isCliqueId g cliqueOf id) := inferInstanceAs (Decidable (∀ a ∈ _, _))

/-- Some port of a member belongs to no clique of the graph. -/
def brokenClique (g : Graph) (cliqueOf : Fin g.n → Fin 3 → Option ℕ) (members : List (Fin g.n)) : Prop :=
  ∃ v ∈ members, ∃ idx, ¬isCliqueId g cliqueOf ((cliqueOf v idx).getD 0)

instance (g : Graph) (cliqueOf : Fin g.n → Fin 3 → Option ℕ) (members : List (Fin g.n)) :
    Decidable (brokenClique g cliqueOf members) := inferInstanceAs (Decidable (∃ v ∈ _, _))

/-- The gadgets that fail one of the three checks. -/
def unreliable (g : Graph) (gadgets : List (Gadget g.n)) (cliqueOf : Fin g.n → Fin 3 → Option ℕ)
    (unresolved : List (Fin gadgets.length)) : List (Fin gadgets.length) :=
  (List.finRange gadgets.length).filter fun gi =>
    gi ∈ unresolved ∨ oppositeClash cliqueOf (gadgets.get gi).members ∨
      brokenClique g cliqueOf (gadgets.get gi).members

def recover (g : Graph) (hashOrder : HashOrder g.n) (gadgets : List (Gadget g.n)) : Reconstruction g.n :=
  let cliqueOf := cliqueOf (nodeRoots g hashOrder gadgets)
  { gadgets := gadgets
    cliqueOf := cliqueOf
    unreliableGadgetIndex :=
      unreliable g gadgets cliqueOf (unresolvedPoolGadgetIndex g hashOrder gadgets) }

def reconstruct (g : Graph) (hashOrder : HashOrder g.n) (path : String) :
    Except String (Reconstruction g.n) :=
  if g.n % 4 ≠ 0 then
    .error (path ++ ": n=" ++ toString g.n ++ " is not a multiple of 4 -- not a gadget-based CFI construction")
  else do
    let pass2Gadgets ← (leftoverComps g hashOrder).mapM (solveComp g hashOrder path)
    let allGadgetMembers := unambiguous g hashOrder ++ pass2Gadgets.flatten
    if allGadgetMembers.flatten.toFinset.card ≠ g.n then
      .error (path ++ ": gadget reconstruction did not cover every vertex exactly once")
    else return recover g hashOrder (allGadgetMembers.map Gadget.mk)

end Dialysis.RealFileBypassedGadgetReconstruction
