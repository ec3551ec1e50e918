import Mathlib.Combinatorics.SimpleGraph.Coloring.Constructions

/-! A graph has a colouring by two colours exactly when none of its cycles is odd. What is missing for
    this between walks and cycles is `even_bypass`: without odd cycles, shortening a walk to a path
    keeps the parity of its length, since every piece that is cut off closes a cycle or goes along
    one edge and back. -/

namespace Lib
open SimpleGraph
variable {V : Type*} {G : SimpleGraph V} {u v : V}

/-- No cycle has odd length. -/
def NoOddCycle (G : SimpleGraph V) : Prop := ∀ (u : V) (c : G.Walk u u), c.IsCycle → Even c.length

/-- A path closed by an edge has even length: it is a cycle, or the edge itself. -/
theorem NoOddCycle.even_cons (h : NoOddCycle G) (huv : G.Adj u v) {p : G.Walk v u} (hp : p.IsPath) :
    Even (p.length + 1) := by
  by_cases hmem : s(u, v) ∈ p.edges
  · rw [hp.length_eq_one_of_mem_edges (Sym2.eq_swap ▸ hmem)]
    exact even_two
  · exact h u (.cons huv p) ((Walk.cons_isCycle_iff p huv).mpr ⟨hp, hmem⟩)

theorem NoOddCycle.even_bypass [DecidableEq V] (h : NoOddCycle G) :
    ∀ {u v : V} (p : G.Walk u v), Even (p.length + p.bypass.length)
  | _, _, .nil => Even.zero
  | u, _, .cons (v := w) huw p => by
    have ih := h.even_bypass p
    rw [Walk.bypass]
    split
    · rename_i hu
      have hclosed := h.even_cons huw (p.bypass_isPath.takeUntil hu)
      have hsplit := congrArg Walk.length (p.bypass.take_spec hu)
      rw [Walk.length_append] at hsplit
      rw [Walk.length_cons]
      grind
    · rw [Walk.length_cons, Walk.length_cons]
      grind

/-- Closed walks are even too: shortened to a path, nothing is left of one. -/
theorem noOddCycle_iff_loop : NoOddCycle G ↔ ∀ u, ∀ p : G.Walk u u, Even p.length := by
  classical
  refine ⟨fun h u p => ?_, fun h u c _ => h u c⟩
  have heven := h.even_bypass p
  rwa [(Walk.isPath_iff_nil.mp p.bypass_isPath).length_eq_zero, Nat.add_zero] at heven

theorem colorable_two_iff : G.Colorable 2 ↔ NoOddCycle G :=
  two_colorable_iff_forall_loop_even.trans noOddCycle_iff_loop.symm

end Lib
